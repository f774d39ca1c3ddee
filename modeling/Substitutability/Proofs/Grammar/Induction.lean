import Substitutability.Grammar.Induction
import Substitutability.Proofs.Extraction
import Substitutability.Proofs.Partition.Classes

/-!
# Where the rules of an induced grammar come from

A pattern of a class is a context in which the extraction attests a member of the
class. A decomposition of a class is a cut of one of its members into two phrases
that are members of classes themselves.
-/

set_option autoImplicit false

namespace Substitutability.Grammar

variable {extractor : Extractor} {p : Partition} {sentences : List Sentence}

theorem mem_allSightings {pattern : Pattern} :
    pattern ∈ allSightings extractor p sentences ↔
      ∃ a, p.classOf? a = some pattern.index ∧
        (extractor.extract sentences).Attests a ⟨pattern.left, pattern.right⟩ := by
  simp only [Extractor.attests_extract, allSightings, sightings, List.mem_flatMap,
    List.mem_filterMap, Option.map_eq_some_iff]
  constructor
  · rintro ⟨sentence, hsentence, span, hspan, index, hindex, rfl⟩
    exact ⟨_, hindex, sentence, hsentence, span, hspan, rfl, rfl⟩
  · rintro ⟨_, hindex, sentence, hsentence, span, hspan, rfl, hcontext⟩
    exact ⟨sentence, hsentence, span, hspan, pattern.index, hindex, by rw [hcontext]⟩

theorem mem_singleTokens {members : List Phrase} {token : Bytes} :
    token ∈ singleTokens members ↔ [token] ∈ members := by
  rw [singleTokens, List.mem_filterMap]
  constructor
  · rintro ⟨member, hmember, htoken⟩
    split at htoken
    · cases htoken
      exact hmember
    · cases htoken
  · exact fun h => ⟨_, h, rfl⟩

theorem mem_splits {member : Phrase} {d : Decomposition} :
    d ∈ splits p member ↔ ∃ u v, u ≠ [] ∧ v ≠ [] ∧ u ++ v = member ∧
      p.classOf? u = some d.left ∧ p.classOf? v = some d.right := by
  simp only [splits, List.mem_filterMap, List.mem_range'_1, Option.bind_eq_bind,
    Option.bind_eq_some_iff, Option.some.injEq]
  constructor
  · rintro ⟨cut, hcut, i, hi, j, hj, rfl⟩
    refine ⟨member.take cut, member.drop cut, ?_, ?_, List.take_append_drop cut member, hi, hj⟩
    · rw [Ne, List.take_eq_nil_iff, ← List.length_eq_zero_iff]
      omega
    · rw [Ne, List.drop_eq_nil_iff]
      omega
  · rintro ⟨u, v, hu, hv, rfl, hleft, hright⟩
    have hlength := List.length_pos_iff.2 hu
    have hlength' := List.length_pos_iff.2 hv
    refine ⟨u.length, ?_, d.left, ?_, d.right, ?_, rfl⟩
    · rw [List.length_append]
      omega
    · rwa [List.take_left]
    · rwa [List.drop_left]

/-! ## First occurrences -/

/-- The items of a list, each once, in the order in which they first occur. -/
structure Firsts (items firsts : List Phrase) : Prop where
  mem : ∀ a, a ∈ firsts ↔ a ∈ items
  nodup : firsts.Nodup
  ascending : firsts.Pairwise fun a b => items.idxOf a < items.idxOf b

theorem Firsts.snoc {before kept : List Phrase} (h : Firsts before kept) (a : Phrase) :
    Firsts (before ++ [a]) (if a ∈ kept then kept else kept ++ [a]) := by
  have hbefore : ∀ b ∈ kept, (before ++ [a]).idxOf b = before.idxOf b :=
    fun b hb => List.idxOf_append_of_mem ((h.mem b).1 hb)
  have hascending : kept.Pairwise fun b b' =>
      (before ++ [a]).idxOf b < (before ++ [a]).idxOf b' := by
    apply h.ascending.imp_of_mem
    intro b b' hb hb' hlt
    rwa [hbefore b hb, hbefore b' hb']
  by_cases ha : a ∈ kept
  · rw [if_pos ha]
    refine ⟨fun b => ?_, h.nodup, hascending⟩
    rw [List.mem_append, List.mem_singleton, ← h.mem]
    constructor
    · exact .inl
    · rintro (hb | rfl)
      · exact hb
      · exact ha
  · rw [if_neg ha]
    have hnew : a ∉ before := fun hmem => ha ((h.mem a).2 hmem)
    refine ⟨fun b => ?_, ?_, ?_⟩
    · rw [List.mem_append, List.mem_append, h.mem]
    · rw [← List.concat_eq_append]
      exact h.nodup.concat ha
    · rw [List.pairwise_append]
      refine ⟨hascending, List.pairwise_singleton _ _, ?_⟩
      intro b hb b' hb'
      rw [List.mem_singleton] at hb'
      subst hb'
      have hlt : before.idxOf b < before.length := List.idxOf_lt_length_of_mem ((h.mem b).1 hb)
      rw [hbefore b hb, List.idxOf_append_of_notMem hnew]
      omega

theorem Firsts.foldl {before kept : List Phrase} (h : Firsts before kept) (rest : List Phrase) :
    Firsts (before ++ rest)
      (rest.foldl (fun kept a => if a ∈ kept then kept else kept ++ [a]) kept) := by
  induction rest generalizing before kept with
  | nil => simpa using h
  | cons a rest ih =>
    rw [List.foldl_cons, List.append_cons]
    exact ih (h.snoc a)

theorem firsts_distinct (items : List Phrase) : Firsts items (distinct items) := by
  have hnil : Firsts [] [] := ⟨fun _ => Iff.rfl, List.nodup_nil, List.Pairwise.nil⟩
  exact hnil.foldl items

theorem mem_distinct {phrases : List Phrase} {phrase : Phrase} :
    phrase ∈ distinct phrases ↔ phrase ∈ phrases :=
  (firsts_distinct phrases).mem phrase

/-! ## Fragments -/

variable {least : Nat} {corpus : Corpus} {f : Fragment}

theorem mem_fragments :
    f ∈ (induce extractor least corpus p).fragments ↔
      ∃ c ∈ p.classes, fragmentOf p (allSightings extractor p corpus.sentences) least c = f :=
  List.mem_map

theorem mem_patterns (hf : f ∈ (induce extractor least corpus p).fragments) {pattern : Pattern} :
    pattern ∈ f.patterns ↔ pattern.index = f.index ∧ ∃ a, p.classOf? a = some f.index ∧
      (extractor.extract corpus.sentences).Attests a ⟨pattern.left, pattern.right⟩ := by
  obtain ⟨c, -, rfl⟩ := mem_fragments.1 hf
  show pattern ∈ SortedSet.ofList _ ↔ pattern.index = c.index ∧ ∃ a, p.classOf? a = some c.index ∧ _
  rw [SortedSet.mem_ofList, List.mem_filter, mem_allSightings, beq_iff_eq, and_comm]
  constructor
  · rintro ⟨hindex, h⟩
    exact ⟨hindex, hindex ▸ h⟩
  · rintro ⟨hindex, h⟩
    exact ⟨hindex, hindex ▸ h⟩

theorem mem_members (hf : f ∈ (induce extractor least corpus p).fragments) {a : Phrase} :
    a ∈ f.members ↔ p.classOf? a = some f.index := by
  obtain ⟨c, hc, rfl⟩ := mem_fragments.1 hf
  exact (Partition.classOf?_eq_index hc).symm

theorem mem_tokens (hf : f ∈ (induce extractor least corpus p).fragments) {token : Bytes} :
    token ∈ f.tokens ↔ p.classOf? [token] = some f.index := by
  obtain ⟨c, hc, rfl⟩ := mem_fragments.1 hf
  show token ∈ SortedSet.ofList (singleTokens c.members) ↔ p.classOf? [token] = some c.index
  rw [SortedSet.mem_ofList, mem_singleTokens, Partition.classOf?_eq_index hc]

theorem mem_decompositions (hf : f ∈ (induce extractor least corpus p).fragments)
    {d : Decomposition} :
    d ∈ f.decompositions ↔ ∃ u v, u ≠ [] ∧ v ≠ [] ∧ p.classOf? (u ++ v) = some f.index ∧
      p.classOf? u = some d.left ∧ p.classOf? v = some d.right := by
  obtain ⟨c, hc, rfl⟩ := mem_fragments.1 hf
  show d ∈ SortedSet.ofList (c.members.flatMap (splits p)) ↔ ∃ u v, u ≠ [] ∧ v ≠ [] ∧
    p.classOf? (u ++ v) = some c.index ∧ _
  simp only [SortedSet.mem_ofList, List.mem_flatMap, mem_splits,
    Partition.classOf?_eq_index hc]
  constructor
  · rintro ⟨_, hmember, u, v, hu, hv, rfl, h⟩
    exact ⟨u, v, hu, hv, hmember, h⟩
  · rintro ⟨u, v, hu, hv, hmember, h⟩
    exact ⟨u ++ v, hmember, u, v, hu, hv, rfl, h⟩

theorem mem_sentences {phrase : Phrase} :
    phrase ∈ (induce extractor least corpus p).sentences ↔
      ∃ sentence ∈ corpus.sentences, sentence.tokens = phrase := by
  show phrase ∈ distinct (corpus.sentences.map Sentence.tokens) ↔ _
  rw [mem_distinct, List.mem_map]

end Substitutability.Grammar
