import Mathlib.Algebra.BigOperators.Group.Finset.Basic
import Mathlib.Order.Interval.Finset.Nat
import Substitutability.Proofs.Occurrences

/-!
# Every accepted place is recorded once

A place is a span of the sentence with some number. An extraction records each place that
its policy accepts, under the phrase that stands there and with the context that the
sentence has around it. The places of one phrase are all of one length, so although the
walk goes by length first, they are recorded from the front of the corpus to its end.
-/

set_option autoImplicit false

namespace Substitutability

/-! ## Lengths -/

namespace LengthPolicy

def shortest (policy : LengthPolicy) : Nat :=
  policy.minimum.toInt.toNat

def longest (policy : LengthPolicy) (n : Nat) : Nat :=
  match policy.maximum with
  | none => n - 1
  | some maximum => min maximum.toInt.toNat (n - 1)

theorem mem_lengths_iff {policy : LengthPolicy} (h : policy.fault? = none) (length n : Nat) :
    length < n ∧ policy.Allows length ↔
      length ∈ Finset.Icc policy.shortest (policy.longest n) := by
  obtain ⟨hmin, hmax⟩ := bounds_of_valid h
  rw [Finset.mem_Icc, Allows, shortest, longest]
  cases hmaximum : policy.maximum with
  | none =>
    simp only [Option.mem_def, reduceCtorEq, false_implies, implies_true, and_true]
    omega
  | some maximum =>
    have horder := hmax maximum hmaximum
    simp only [Option.mem_def, Option.some.injEq, forall_eq']
    omega

end LengthPolicy

/-- The place is in an earlier sentence, or starts earlier in the same one. -/
def Occurrence.Before (o o' : Occurrence) : Prop :=
  o.sentence < o'.sentence ∨ o.sentence = o'.sentence ∧ o.start < o'.start

theorem Occurrence.Before.asymm {o o' : Occurrence} (h : o.Before o') : ¬o'.Before o := by
  unfold Before at *
  omega

theorem Occurrence.Before.ne {o o' : Occurrence} (h : o.Before o') : o ≠ o' := by
  intro heq
  subst heq
  exact h.asymm h

namespace Extractor

variable {extractor : Extractor} {sentences : List Sentence} {p : Phrase} {o : Occurrence}

theorem toFinset_lengths (extractor : Extractor) (n : Nat) :
    (extractor.lengths n).toFinset =
      Finset.Icc extractor.policy.shortest (extractor.policy.longest n) := by
  ext length
  rw [← LengthPolicy.mem_lengths_iff extractor.policy_valid, List.mem_toFinset, lengths,
    List.mem_filter, List.mem_range'_1, LengthPolicy.accepts_iff extractor.policy_valid]
  constructor
  · exact fun h => h.2
  · intro h
    have hpos := h.2.pos extractor.policy_valid
    exact ⟨by omega, h⟩

theorem length_spans (extractor : Extractor) (n : Nat) :
    (extractor.spans n).length =
      ∑ k ∈ Finset.Icc extractor.policy.shortest (extractor.policy.longest n), (n - k + 1) := by
  have hnodup : (extractor.lengths n).Nodup := (List.nodup_range' 1).filter _
  rw [← toFinset_lengths, List.sum_toFinset _ hnodup, spans, List.length_flatMap]
  simp

theorem length_observations (extractor : Extractor) (sentences : List Sentence) :
    (extractor.observations sentences).length =
      (sentences.map fun sentence => (extractor.spans sentence.tokens.length).length).sum := by
  rw [observations, List.length_flatMap]
  simp only [observe, List.length_map]
  conv_rhs => rw [← List.zipIdx_map_fst 0 sentences, List.map_map]
  rfl

/-! ## Places -/

/-- The phrase stands at the place: the place is a proper part of the sentence with its
number, the policy allows its length, and the tokens there are those of the phrase. -/
structure Finds (extractor : Extractor) (sentences : List Sentence) (p : Phrase)
    (o : Occurrence) (tokens : Phrase) : Prop where
  sentence : (sentences[o.sentence]?).map Sentence.tokens = some tokens
  start_le_stop : o.start ≤ o.stop
  stop_le : o.stop ≤ tokens.length
  proper : o.stop - o.start < tokens.length
  allowed : extractor.policy.Allows (o.stop - o.start)
  phrase : o.span.phrase tokens = p

theorem finds_iff_takes {tokens : Phrase} :
    extractor.Finds sentences p o tokens ↔
      extractor.Takes sentences o tokens ∧ o.span.phrase tokens = p := by
  have haccepts := LengthPolicy.accepts_iff extractor.policy_valid (o.stop - o.start) tokens.length
  constructor
  · intro h
    exact ⟨⟨h.sentence, h.start_le_stop, h.stop_le, haccepts.2 ⟨h.proper, h.allowed⟩⟩, h.phrase⟩
  · intro h
    have hallowed := haccepts.1 h.1.accepts
    exact ⟨h.1.sentence, h.1.start_le_stop, h.1.stop_le, hallowed.1, hallowed.2, h.2⟩

theorem attests_iff_finds {c : Context} :
    (extractor.extract sentences).Attests p c ↔ ∃ o tokens,
      extractor.Finds sentences p o tokens ∧ extractor.contextAt tokens o.span = c := by
  simp only [attests_iff_takes, finds_iff_takes, and_assoc]

theorem mem_occurrencesOf_extract :
    o ∈ (extractor.extract sentences).occurrencesOf p ↔
      ∃ tokens, extractor.Finds sentences p o tokens := by
  simp only [occurrencesOf_extract, List.mem_map, List.mem_filter, beq_iff_eq, mem_observations,
    finds_iff_takes]
  constructor
  · intro h
    obtain ⟨observation, ⟨⟨tokens, htakes, hphrase, -⟩, rfl⟩, rfl⟩ := h
    exact ⟨tokens, htakes, hphrase.symm⟩
  · intro h
    obtain ⟨tokens, htakes, hphrase⟩ := h
    exact ⟨⟨p, extractor.contextAt tokens o.span, o⟩,
      ⟨⟨tokens, htakes, hphrase.symm, rfl⟩, rfl⟩, rfl⟩

theorem contains_extract :
    (extractor.extract sentences).contains p = true ↔
      ∃ o tokens, extractor.Finds sentences p o tokens := by
  rw [ContextSet.contains, SortedMap.contains, Option.isSome_iff_exists, ← SortedMap.mem_keys,
    mem_keys_extract_iff_attests]
  simp only [attests_iff_finds]
  constructor
  · intro h
    obtain ⟨c, o, tokens, hfinds, -⟩ := h
    exact ⟨o, tokens, hfinds⟩
  · intro h
    obtain ⟨o, tokens, hfinds⟩ := h
    exact ⟨_, o, tokens, hfinds, rfl⟩

/-! ## The order of the places -/

theorem spans_ascending (extractor : Extractor) (n : Nat) :
    (extractor.spans n).Pairwise fun span span' =>
      span.stop - span.start = span'.stop - span'.start → span.start < span'.start := by
  have hlengths : (extractor.lengths n).Nodup := (List.nodup_range' 1).filter _
  rw [spans, List.pairwise_flatMap]
  constructor
  · intro length _
    rw [List.pairwise_map]
    apply List.pairwise_lt_range.imp
    intro start start' hlt _
    exact hlt
  · apply hlengths.imp
    intro length length' hne span hspan span' hspan' hsame
    obtain ⟨start, -, rfl⟩ := List.mem_map.1 hspan
    obtain ⟨start', -, rfl⟩ := List.mem_map.1 hspan'
    simp at hsame
    exact absurd hsame hne

theorem observe_ascending (extractor : Extractor) (index : Nat) (tokens : Phrase) :
    (extractor.observe index tokens).Pairwise fun o o' =>
      o.phrase = o'.phrase → o.occurrence.Before o'.occurrence := by
  rw [observe, List.pairwise_map]
  apply (spans_ascending extractor tokens.length).imp_of_mem
  intro span span' hspan hspan' hlt hphrase
  have hlength : span.stop - span.start = span'.stop - span'.start := by
    rw [← Span.length_phrase (mem_spans.1 hspan).2.1, ← Span.length_phrase (mem_spans.1 hspan').2.1]
    exact congrArg List.length hphrase
  exact .inr ⟨rfl, hlt hlength⟩

theorem observations_ascending (extractor : Extractor) (sentences : List Sentence) :
    (extractor.observations sentences).Pairwise fun o o' =>
      o.phrase = o'.phrase → o.occurrence.Before o'.occurrence := by
  rw [observations, List.pairwise_flatMap]
  constructor
  · exact fun entry _ => observe_ascending extractor entry.2 entry.1.tokens
  · have hnumbers : (sentences.zipIdx.map Prod.snd).Pairwise (· < ·) := by
      rw [List.zipIdx_map_snd]
      exact List.pairwise_lt_range'
    apply (List.pairwise_map.1 hnumbers).imp
    intro entry entry' hlt o ho o' ho' _
    obtain ⟨span, -, rfl⟩ := List.mem_map.1 ho
    obtain ⟨span', -, rfl⟩ := List.mem_map.1 ho'
    exact .inl hlt

theorem occurrencesOf_ascending (extractor : Extractor) (sentences : List Sentence) (p : Phrase) :
    ((extractor.extract sentences).occurrencesOf p).Pairwise Occurrence.Before := by
  rw [occurrencesOf_extract, List.pairwise_map, List.pairwise_filter]
  apply (observations_ascending extractor sentences).imp
  intro o o' hbefore ho ho'
  simp at ho ho'
  exact hbefore (ho.trans ho'.symm)

/-! ## The record -/

/-- The context set has recorded the accepted places: each one once, under its phrase, with
its context, and in order. -/
structure RecordsPlaces (extractor : Extractor) (sentences : List Sentence) (s : ContextSet) :
    Prop where
  contains : ∀ p, s.contains p = true ↔ ∃ o tokens, extractor.Finds sentences p o tokens
  contexts : ∀ p c, s.Attests p c ↔ ∃ o tokens,
    extractor.Finds sentences p o tokens ∧ extractor.contextAt tokens o.span = c
  occurrences : ∀ p o, o ∈ s.occurrencesOf p ↔ ∃ tokens, extractor.Finds sentences p o tokens
  nodup : ∀ p, (s.occurrencesOf p).Nodup
  ascending : ∀ p, (s.occurrencesOf p).Pairwise Occurrence.Before
  occurrenceCount : s.occurrenceCount = (sentences.map fun sentence =>
    ∑ k ∈ Finset.Icc extractor.policy.shortest (extractor.policy.longest sentence.tokens.length),
      (sentence.tokens.length - k + 1)).sum

theorem recordsPlaces_extract (extractor : Extractor) (sentences : List Sentence) :
    extractor.RecordsPlaces sentences (extractor.extract sentences) where
  contains _ := contains_extract
  contexts _ _ := attests_iff_finds
  occurrences _ _ := mem_occurrencesOf_extract
  nodup p := (occurrencesOf_ascending extractor sentences p).imp Occurrence.Before.ne
  ascending := occurrencesOf_ascending extractor sentences
  occurrenceCount := by
    rw [occurrenceCount_extract, length_observations]
    simp only [length_spans]

/-- Nothing else can be recorded: the places leave no choice. -/
theorem RecordsPlaces.unique {s t : ContextSet} (hs : extractor.RecordsPlaces sentences s)
    (ht : extractor.RecordsPlaces sentences t) : s = t := by
  have hoccurrences : ∀ p, s.occurrencesOf p = t.occurrencesOf p := by
    intro p
    have hperm : (s.occurrencesOf p).Perm (t.occurrencesOf p) := by
      apply (List.perm_ext_iff_of_nodup (hs.nodup p) (ht.nodup p)).2
      intro o
      rw [hs.occurrences, ht.occurrences]
    apply hperm.eq_of_pairwise _ (hs.ascending p) (ht.ascending p)
    exact fun _ _ _ _ h h' => absurd h' h.asymm
  apply ContextSet.ext
  · intro p
    rw [Bool.eq_iff_iff, hs.contains, ht.contains]
  · intro p c
    rw [hs.contexts, ht.contexts]
  · exact hoccurrences

/-- The extraction of a list of sentences is the one context set that has recorded the
accepted places of the sentences, each once and in order. -/
theorem extraction_records_places (extractor : Extractor) (sentences : List Sentence) :
    extractor.RecordsPlaces sentences (extractor.extract sentences) ∧
    ∀ s, extractor.RecordsPlaces sentences s → s = extractor.extract sentences :=
  ⟨recordsPlaces_extract extractor sentences,
    fun _ hs => hs.unique (recordsPlaces_extract extractor sentences)⟩

end Extractor

end Substitutability
