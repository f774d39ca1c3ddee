import Mathlib.Data.Finset.Card
import Mathlib.Data.Set.Card
import Substitutability.Proofs.Extraction

/-!
# Where phrases occur

An extraction looks once at every place that its policy accepts, and records the
place under the phrase that stands there. So the occurrences of some phrases are as
many as the places where one of them stands, however they are counted.
-/

set_option autoImplicit false

namespace Substitutability

/-! ## Counting -/

section Counting

variable {α κ : Type} [BEq κ] [LawfulBEq κ]

theorem countP_contains_cons (f : α → κ) {key : κ} {keys : List κ} (h : key ∉ keys)
    (xs : List α) :
    xs.countP (f · == key) + xs.countP (keys.contains <| f ·) =
      xs.countP ((key :: keys).contains <| f ·) := by
  induction xs with
  | nil => rfl
  | cons x xs ih =>
    by_cases hx : f x = key
    · simp [hx, h] at ih ⊢
      omega
    · by_cases hkeys : f x ∈ keys
      · simp [hx, hkeys] at ih ⊢
        omega
      · simpa [hx, hkeys] using ih

theorem total_countP_keys (f : α → κ) {keys : List κ} (h : keys.Nodup) (xs : List α) :
    total (keys.map fun key => xs.countP (f · == key)) = xs.countP (keys.contains <| f ·) := by
  induction keys with
  | nil => simp [total]
  | cons key keys ih =>
    obtain ⟨hkey, hkeys⟩ := List.nodup_cons.1 h
    rw [List.map_cons, total, ih hkeys, countP_contains_cons f hkey]

omit [BEq κ] [LawfulBEq κ] in
theorem encard_eq_length {xs : List κ} (h : xs.Nodup) {P : κ → Prop} (hP : ∀ x, P x ↔ x ∈ xs) :
    {x | P x}.encard = xs.length := by
  classical
  have hset : {x | P x} = ↑xs.toFinset := by
    ext x
    simp [hP]
  rw [hset, Set.encard_coe_eq_coe_finsetCard, List.toFinset_card_of_nodup h]

theorem flatMap_zipIdx_fst {β : Type} (f : α → List β) (xs : List α) :
    (xs.zipIdx.flatMap fun entry => f entry.1) = xs.flatMap f := by
  conv_rhs => rw [← List.zipIdx_map_fst 0 xs, List.flatMap_map]

end Counting

/-! ## Recorded occurrences -/

namespace ContextSet

theorem occurrencesOf_add (s : ContextSet) (phrase p : Phrase) (context : Context)
    (occurrence : Occurrence) :
    (s.add phrase context occurrence).occurrencesOf p =
      s.occurrencesOf p ++ if phrase = p then [occurrence] else [] := by
  by_cases hp : p = phrase
  · subst hp
    simp only [occurrencesOf, add, SortedMap.find?_alter_self, if_pos]
    cases s.entries.find? p <;> rfl
  · simp [occurrencesOf, add, SortedMap.find?_alter_ne hp, Ne.symm hp]

theorem occurrenceCount_eq (s : ContextSet) :
    s.occurrenceCount = total (s.entries.keys.map fun p => (s.occurrencesOf p).length) := by
  have hentry : ∀ entry ∈ s.entries.toList,
      entry.2.occurrences.length = (s.occurrencesOf entry.1).length := by
    intro entry hentry
    rw [occurrencesOf, SortedMap.find?_eq_some.2 hentry]
  rw [occurrenceCount, SortedMap.values, SortedMap.keys, List.map_map, List.map_map]
  exact congrArg total (List.map_congr_left hentry)

theorem attests_of_find? {s : ContextSet} {p : Phrase} {attestation : Attestation}
    (h : s.entries.find? p = some attestation) (c : Context) :
    s.Attests p c ↔ c ∈ attestation.contexts := by
  simp [Attests, contextsOf?, h]

theorem occurrencesOf_of_find? {s : ContextSet} {p : Phrase} {attestation : Attestation}
    (h : s.entries.find? p = some attestation) : s.occurrencesOf p = attestation.occurrences := by
  rw [occurrencesOf, h]

theorem ext {s t : ContextSet} (hcontains : ∀ p, s.contains p = t.contains p)
    (hcontexts : ∀ p c, s.Attests p c ↔ t.Attests p c)
    (hoccurrences : ∀ p, s.occurrencesOf p = t.occurrencesOf p) : s = t := by
  suffices h : s.entries = t.entries by
    cases s
    exact congrArg ContextSet.mk h
  apply SortedMap.ext_find?
  intro p
  have hsame : (s.entries.find? p).isSome = (t.entries.find? p).isSome := hcontains p
  cases hs : s.entries.find? p with
  | none =>
    rw [hs] at hsame
    exact (Option.not_isSome_iff_eq_none.1 (by simp [← hsame])).symm
  | some attestation =>
    rw [hs] at hsame
    obtain ⟨attestation', ht⟩ := Option.isSome_iff_exists.1 hsame.symm
    have hset : attestation.contexts = attestation'.contexts := by
      apply SortedSet.ext
      intro c
      rw [← attests_of_find? hs, ← attests_of_find? ht, hcontexts]
    have hlist : attestation.occurrences = attestation'.occurrences := by
      rw [← occurrencesOf_of_find? hs, ← occurrencesOf_of_find? ht, hoccurrences]
    rw [ht]
    cases attestation
    cases attestation'
    simp_all

end ContextSet

def Occurrence.span (o : Occurrence) : Span :=
  ⟨o.start, o.stop⟩

namespace Extractor

variable {extractor : Extractor} {sentences : List Sentence}

theorem occurrencesOf_foldl_record (observations : List Observation) (s : ContextSet)
    (p : Phrase) :
    (observations.foldl record s).occurrencesOf p =
      s.occurrencesOf p ++
        (observations.filter (·.phrase == p)).map Observation.occurrence := by
  induction observations generalizing s with
  | nil => simp
  | cons o rest ih =>
    rw [List.foldl_cons, ih, record, ContextSet.occurrencesOf_add]
    by_cases hp : o.phrase = p <;> simp [hp]

theorem occurrencesOf_extract (p : Phrase) :
    (extractor.extract sentences).occurrencesOf p =
      ((extractor.observations sentences).filter (·.phrase == p)).map Observation.occurrence :=
  occurrencesOf_foldl_record _ ContextSet.empty p

theorem find?_foldl_record (p : Phrase) {s t : ContextSet}
    (h : s.entries.find? p = t.entries.find? p) (observations : List Observation) :
    (observations.foldl record s).entries.find? p =
      ((observations.filter (·.phrase == p)).foldl record t).entries.find? p := by
  induction observations generalizing s t with
  | nil => exact h
  | cons o rest ih =>
    rw [List.foldl_cons]
    by_cases hp : o.phrase = p
    · rw [List.filter_cons_of_pos (by simpa using hp), List.foldl_cons]
      apply ih
      subst hp
      simp only [record, ContextSet.add, SortedMap.find?_alter_self, h]
    · rw [List.filter_cons_of_neg (by simpa using hp)]
      apply ih
      rw [record, ContextSet.add, SortedMap.find?_alter_ne (Ne.symm hp), h]

theorem length_occurrencesOf_extract (p : Phrase) :
    ((extractor.extract sentences).occurrencesOf p).length =
      (extractor.observations sentences).countP (·.phrase == p) := by
  rw [occurrencesOf_extract, List.length_map, List.countP_eq_length_filter]

theorem mem_keys_foldl_record {observations : List Observation} {s : ContextSet} {p : Phrase} :
    p ∈ (observations.foldl record s).entries.keys ↔
      p ∈ s.entries.keys ∨ ∃ o ∈ observations, o.phrase = p := by
  induction observations generalizing s with
  | nil => simp
  | cons o rest ih =>
    rw [List.foldl_cons, ih, record, ContextSet.add, SortedMap.mem_keys_alter]
    simp [or_assoc, or_left_comm, eq_comm]

theorem mem_keys_extract {p : Phrase} :
    p ∈ (extractor.extract sentences).entries.keys ↔
      ∃ o ∈ extractor.observations sentences, o.phrase = p := by
  rw [extract, mem_keys_foldl_record]
  simp [ContextSet.empty, SortedMap.keys, SortedMap.empty]

/-- Nothing is counted twice and nothing is left out. -/
theorem occurrenceCount_extract (extractor : Extractor) (sentences : List Sentence) :
    (extractor.extract sentences).occurrenceCount = (extractor.observations sentences).length := by
  have hkeys : (extractor.extract sentences).entries.keys.Nodup :=
    (extractor.extract sentences).entries.ascending.nodup
  rw [ContextSet.occurrenceCount_eq]
  simp only [length_occurrencesOf_extract]
  rw [total_countP_keys _ hkeys, List.countP_eq_length]
  intro o ho
  exact List.contains_iff_mem.2 (mem_keys_extract.2 ⟨o, ho, rfl⟩)

/-! ## Accepted places -/

/-- The extractor looks at the place: it is a span of the sentence with its number,
and the policy accepts its length there. -/
structure Takes (extractor : Extractor) (sentences : List Sentence) (o : Occurrence)
    (tokens : Phrase) : Prop where
  sentence : (sentences[o.sentence]?).map Sentence.tokens = some tokens
  start_le_stop : o.start ≤ o.stop
  stop_le : o.stop ≤ tokens.length
  accepts : extractor.policy.accepts (o.stop - o.start) tokens.length = true

theorem mem_spans_iff_accepts {n : Nat} {span : Span} :
    span ∈ extractor.spans n ↔ span.start ≤ span.stop ∧ span.stop ≤ n ∧
      extractor.policy.accepts (span.stop - span.start) n = true := by
  rw [mem_spans, LengthPolicy.accepts_iff extractor.policy_valid]

theorem nodup_spans (extractor : Extractor) (n : Nat) : (extractor.spans n).Nodup := by
  have hlengths : (extractor.lengths n).Nodup := (List.nodup_range' 1).filter _
  rw [spans, List.nodup_flatMap]
  constructor
  · intro length _
    apply List.nodup_range.map
    intro start start' h
    exact congrArg Span.start h
  · -- the length of a span is the difference of its ends
    apply hlengths.imp
    intro length length' hne span hspan hspan'
    obtain ⟨start, -, rfl⟩ := List.mem_map.1 hspan
    obtain ⟨start', -, heq⟩ := List.mem_map.1 hspan'
    obtain ⟨hstart, hstop⟩ := Span.mk.inj heq
    omega

theorem mem_observations {o : Observation} :
    o ∈ extractor.observations sentences ↔ ∃ tokens, extractor.Takes sentences o.occurrence tokens ∧
      o.phrase = o.occurrence.span.phrase tokens ∧
      o.context = extractor.contextAt tokens o.occurrence.span := by
  simp only [observations, observe, List.mem_flatMap, List.mem_map]
  constructor
  · intro h
    obtain ⟨⟨sentence, i⟩, hmem, span, hspan, rfl⟩ := h
    obtain ⟨hle, hstop, haccepts⟩ := mem_spans_iff_accepts.1 hspan
    have htokens : sentences[i]? = some sentence := List.mem_zipIdx_iff_getElem?.1 hmem
    exact ⟨sentence.tokens, ⟨by rw [htokens]; rfl, hle, hstop, haccepts⟩, rfl, rfl⟩
  · intro h
    obtain ⟨tokens, htakes, hphrase, hcontext⟩ := h
    obtain ⟨sentence, hsentence, rfl⟩ := Option.map_eq_some_iff.1 htakes.sentence
    refine ⟨(sentence, o.occurrence.sentence), List.mem_zipIdx_iff_getElem?.2 hsentence,
      o.occurrence.span, mem_spans_iff_accepts.2 ?_, ?_⟩
    · exact ⟨htakes.start_le_stop, htakes.stop_le, htakes.accepts⟩
    · rw [← hphrase, ← hcontext]
      rfl

theorem nodup_occurrences (extractor : Extractor) (sentences : List Sentence) :
    ((extractor.observations sentences).map Observation.occurrence).Nodup := by
  rw [observations, List.map_flatMap, List.nodup_flatMap]
  constructor
  · intro entry _
    show ((extractor.observe entry.2 entry.1.tokens).map Observation.occurrence).Nodup
    rw [observe, List.map_map]
    apply (nodup_spans extractor _).map
    intro span span' h
    obtain ⟨-, hstart, hstop⟩ := Occurrence.mk.inj h
    cases span
    cases span'
    exact congrArg₂ Span.mk hstart hstop
  · -- places of different sentences have different numbers
    have hnumbers : (sentences.zipIdx.map Prod.snd).Nodup := by
      rw [List.zipIdx_map_snd]
      exact List.nodup_range' 1
    apply (List.pairwise_map.1 hnumbers).imp
    intro entry entry' hne o ho ho'
    have hnumber : ∀ {entry : Sentence × Nat},
        o ∈ (extractor.observe entry.2 entry.1.tokens).map Observation.occurrence →
          o.sentence = entry.2 := by
      intro entry ho
      rw [observe, List.map_map] at ho
      obtain ⟨span, -, rfl⟩ := List.mem_map.1 ho
      rfl
    exact hne ((hnumber ho).symm.trans (hnumber ho'))

theorem attests_iff_observed {p : Phrase} {c : Context} :
    (extractor.extract sentences).Attests p c ↔
      ∃ o ∈ extractor.observations sentences, o.phrase = p ∧ o.context = c := by
  rw [extract, attests_foldl_record, or_iff_right (ContextSet.attests_empty p c)]

theorem attests_iff_takes {p : Phrase} {c : Context} :
    (extractor.extract sentences).Attests p c ↔ ∃ o tokens,
      extractor.Takes sentences o tokens ∧ o.span.phrase tokens = p ∧
        extractor.contextAt tokens o.span = c := by
  rw [attests_iff_observed]
  constructor
  · intro h
    obtain ⟨observation, hmem, rfl, rfl⟩ := h
    obtain ⟨tokens, htakes, hphrase, hcontext⟩ := mem_observations.1 hmem
    exact ⟨_, tokens, htakes, hphrase.symm, hcontext.symm⟩
  · intro h
    obtain ⟨o, tokens, htakes, rfl, rfl⟩ := h
    exact ⟨⟨_, _, o⟩, mem_observations.2 ⟨tokens, htakes, rfl, rfl⟩, rfl, rfl⟩

theorem mem_keys_extract_iff_attests {p : Phrase} :
    p ∈ (extractor.extract sentences).entries.keys ↔
      ∃ c, (extractor.extract sentences).Attests p c := by
  simp only [mem_keys_extract, attests_iff_observed]
  constructor
  · intro h
    obtain ⟨o, ho, hp⟩ := h
    exact ⟨o.context, o, ho, hp, rfl⟩
  · intro h
    obtain ⟨c, o, ho, hp, -⟩ := h
    exact ⟨o, ho, hp⟩

theorem encard_takes (extractor : Extractor) (sentences : List Sentence) (phrases : List Phrase) :
    {o : Occurrence | ∃ tokens, extractor.Takes sentences o tokens ∧
      o.span.phrase tokens ∈ phrases}.encard =
        (extractor.observations sentences).countP (phrases.contains ·.phrase) := by
  have hnodup : (((extractor.observations sentences).filter (phrases.contains ·.phrase)).map
      Observation.occurrence).Nodup :=
    (nodup_occurrences extractor sentences).sublist (List.filter_sublist.map _)
  rw [List.countP_eq_length_filter, ← List.length_map (f := Observation.occurrence)]
  apply encard_eq_length hnodup
  intro o
  simp only [List.mem_map, List.mem_filter, mem_observations, List.contains_iff_mem]
  constructor
  · intro h
    obtain ⟨tokens, htakes, hmem⟩ := h
    exact ⟨⟨_, extractor.contextAt tokens o.span, o⟩, ⟨⟨tokens, htakes, rfl, rfl⟩, hmem⟩, rfl⟩
  · intro h
    obtain ⟨observation, ⟨⟨tokens, htakes, hphrase, -⟩, hmem⟩, rfl⟩ := h
    exact ⟨tokens, htakes, hphrase ▸ hmem⟩

end Extractor

end Substitutability
