import Substitutability.Proofs.Grammar.Collecting
import Substitutability.Proofs.Grammar.Soundness
import Substitutability.Proofs.Occurrences

/-!
# Induction sees what extraction saw

The induction of a grammar walks over the sentences a second time. It meets the same
places with the same contexts as the extraction did, so the patterns and the
occurrences of a class can be told from the places in the sentences, and also from
what the extraction recorded for the members of the class.
-/

set_option autoImplicit false

namespace Substitutability

def Pattern.context (p : Pattern) : Context :=
  ⟨p.left, p.right⟩

namespace Grammar

variable {extractor : Extractor} {p : Partition} {sentences : List Sentence} {least : Nat}
  {c : CongruenceClass}

/-! ## One walk -/

def sighting? (p : Partition) (o : Extractor.Observation) : Option Pattern :=
  (p.classOf? o.phrase).map fun index => ⟨o.context.left, index, o.context.right⟩

theorem allSightings_eq (extractor : Extractor) (p : Partition) (sentences : List Sentence) :
    allSightings extractor p sentences =
      (extractor.observations sentences).filterMap (sighting? p) := by
  have hsentence : ∀ entry : Sentence × Nat, sightings extractor p entry.1.tokens =
      (extractor.observe entry.2 entry.1.tokens).filterMap (sighting? p) := by
    intro entry
    rw [Extractor.observe, List.filterMap_map]
    rfl
  rw [Extractor.observations, List.filterMap_flatMap, allSightings, ← flatMap_zipIdx_fst]
  simp only [hsentence]

theorem occurrences_fragmentOf (hc : c ∈ p.classes) :
    (fragmentOf p (allSightings extractor p sentences) least c).occurrences =
      (extractor.observations sentences).countP (c.members.contains ·.phrase) := by
  show ((allSightings extractor p sentences).filter (·.index == c.index)).length = _
  rw [← List.countP_eq_length_filter, allSightings_eq, List.countP_filterMap]
  apply List.countP_congr
  intro o _
  rw [List.contains_iff_mem, ← Partition.classOf?_eq_index hc, sighting?]
  cases p.classOf? o.phrase <;> simp

theorem occurrences_eq_countP {corpus : Corpus} {f : Fragment}
    (hf : f ∈ (induce extractor least corpus p).fragments) :
    f.occurrences =
      (extractor.observations corpus.sentences).countP (f.members.contains ·.phrase) := by
  obtain ⟨c, hc, rfl⟩ := mem_fragments.1 hf
  exact occurrences_fragmentOf hc

theorem fragments_eq_map {corpus : Corpus} :
    (induce extractor least corpus p).fragments =
      p.classes.map (fragmentOf p (allSightings extractor p corpus.sentences) least) := rfl

/-! ## Fragments told from the sentences -/

/-- The fragment of a class, told from the sentences: its patterns are the contexts of
the places where a member stands, and its occurrences are the number of these places. -/
structure Records (extractor : Extractor) (sentences : List Sentence) (c : CongruenceClass)
    (f : Fragment) : Prop where
  index : f.index = c.index
  members : f.members = c.members
  patterns : ∀ pattern, pattern ∈ f.patterns ↔ pattern.index = c.index ∧
    ∃ o tokens, extractor.Takes sentences o tokens ∧ o.span.phrase tokens ∈ c.members ∧
      extractor.contextAt tokens o.span = pattern.context
  occurrences : {o : Occurrence | ∃ tokens, extractor.Takes sentences o tokens ∧
    o.span.phrase tokens ∈ c.members}.encard = f.occurrences

theorem mem_patterns_fragmentOf (hc : c ∈ p.classes) {pattern : Pattern} :
    pattern ∈ (fragmentOf p (allSightings extractor p sentences) least c).patterns ↔
      pattern.index = c.index ∧
        ∃ a ∈ c.members, (extractor.extract sentences).Attests a pattern.context := by
  show pattern ∈ SortedSet.ofList _ ↔ _
  rw [SortedSet.mem_ofList, List.mem_filter, mem_allSightings, beq_iff_eq, and_comm]
  apply and_congr_right
  intro hindex
  simp only [hindex, Partition.classOf?_eq_index hc]
  rfl

theorem records_fragmentOf (hc : c ∈ p.classes) :
    Records extractor sentences c (fragmentOf p (allSightings extractor p sentences) least c) where
  index := rfl
  members := rfl
  patterns pattern := by
    rw [mem_patterns_fragmentOf hc]
    apply and_congr_right
    intro _
    simp only [Extractor.attests_iff_takes]
    constructor
    · intro h
      obtain ⟨a, ha, o, tokens, htakes, rfl, hcontext⟩ := h
      exact ⟨o, tokens, htakes, ha, hcontext⟩
    · intro h
      obtain ⟨o, tokens, htakes, ha, hcontext⟩ := h
      exact ⟨_, ha, o, tokens, htakes, rfl, hcontext⟩
  occurrences := by
    rw [occurrences_fragmentOf hc]
    exact Extractor.encard_takes extractor sentences c.members

/-! ## Fragments told from the extraction -/

/-- The fragment of a class, told from the record of its members: its patterns are all
their contexts, of which there is one, and its occurrences are all their occurrences. -/
structure Summarizes (s : ContextSet) (c : CongruenceClass) (f : Fragment) : Prop where
  patterns : ∀ pattern, pattern ∈ f.patterns ↔ pattern.index = c.index ∧
    ∃ a ∈ c.members, s.Attests a pattern.context
  nonempty : f.patterns.toList ≠ []
  occurrences : f.occurrences = total (c.members.map fun a => (s.occurrencesOf a).length)

theorem total_occurrencesOf {phrases : List Phrase} (h : phrases.Nodup) :
    total (phrases.map fun a => ((extractor.extract sentences).occurrencesOf a).length) =
      (extractor.observations sentences).countP (phrases.contains ·.phrase) := by
  simp only [Extractor.length_occurrencesOf_extract]
  exact total_countP_keys _ h _

theorem exists_attests_of_mem_members
    (hc : c ∈ (extractor.graph sentences).partition.classes) :
    ∃ a ∈ c.members, ∃ context, (extractor.extract sentences).Attests a context := by
  have hne := ((extractor.graph sentences).partition_isComponentPartition.members c hc).1
  obtain ⟨a, ha⟩ := List.exists_mem_of_ne_nil _ hne
  have hnode : a ∈ (extractor.graph sentences).nodes :=
    Graph.mem_nodes_iff_class.2 ⟨c, hc, ha⟩
  exact ⟨a, ha, Graph.mem_nodes_ofContexts.1 hnode⟩

theorem summarizes_fragmentOf (hp : p = (extractor.graph sentences).partition)
    (hc : c ∈ p.classes) :
    Summarizes (extractor.extract sentences) c
      (fragmentOf p (allSightings extractor p sentences) least c) where
  patterns pattern := mem_patterns_fragmentOf hc
  nonempty := by
    obtain ⟨a, ha, context, hattests⟩ := exists_attests_of_mem_members (hp ▸ hc)
    have hpattern : (⟨context.left, c.index, context.right⟩ : Pattern) ∈
        (fragmentOf p (allSightings extractor p sentences) least c).patterns :=
      (mem_patterns_fragmentOf hc).2 ⟨rfl, a, ha, hattests⟩
    exact List.ne_nil_of_mem hpattern
  occurrences := by
    rw [occurrences_fragmentOf hc, total_occurrencesOf (Partition.nodup_members hc)]

theorem total_flatMap {α : Type} (f : α → List Nat) (xs : List α) :
    total (xs.flatMap f) = total (xs.map fun x => total (f x)) := by
  induction xs with
  | nil => rfl
  | cons x xs ih => rw [List.flatMap_cons, total_append, ih, List.map_cons, total]

theorem total_occurrences (p : Partition) (corpus : Corpus) :
    total ((induce extractor least corpus p).fragments.map Fragment.occurrences) =
      (extractor.observations corpus.sentences).countP
        ((p.classes.flatMap CongruenceClass.members).contains ·.phrase) := by
  have hclass : ∀ c ∈ p.classes,
      (fragmentOf p (allSightings extractor p corpus.sentences) least c).occurrences =
        total (c.members.map fun a =>
          ((extractor.extract corpus.sentences).occurrencesOf a).length) := by
    intro c hc
    rw [occurrences_fragmentOf hc, total_occurrencesOf (Partition.nodup_members hc)]
  rw [fragments_eq_map, List.map_map, ← total_occurrencesOf p.disjoint, List.map_flatMap,
    total_flatMap]
  exact congrArg total (List.map_congr_left hclass)

theorem mem_members_of_observed {o : Extractor.Observation}
    (ho : o ∈ extractor.observations sentences) :
    o.phrase ∈ (extractor.graph sentences).partition.classes.flatMap CongruenceClass.members := by
  have hattests : (extractor.extract sentences).Attests o.phrase o.context :=
    Extractor.attests_iff_observed.2 ⟨o, ho, rfl, rfl⟩
  have hnode : o.phrase ∈ (extractor.graph sentences).nodes :=
    Graph.mem_nodes_ofContexts.2 ⟨o.context, hattests⟩
  obtain ⟨c, hc, hmember⟩ := Graph.mem_nodes_iff_class.1 hnode
  exact List.mem_flatMap.2 ⟨c, hc, hmember⟩

theorem total_occurrences_ofCorpus (extractor : Extractor) (least : Nat) (corpus : Corpus) :
    total ((ofCorpus extractor least corpus).fragments.map Fragment.occurrences) =
      (extractor.extract corpus.sentences).occurrenceCount := by
  rw [ofCorpus, total_occurrences, Extractor.occurrenceCount_extract, List.countP_eq_length]
  intro o ho
  exact List.contains_iff_mem.2 (mem_members_of_observed ho)

/-! ## Agreement -/

theorem forall₂_fragments {corpus : Corpus} {R : CongruenceClass → Fragment → Prop}
    (h : ∀ c ∈ p.classes, R c (fragmentOf p (allSightings extractor p corpus.sentences) least c)) :
    List.Forall₂ R p.classes (induce extractor least corpus p).fragments := by
  rw [fragments_eq_map, List.forall₂_map_right_iff, List.forall₂_same]
  exact h

/-- For every partition, the fragments can be filled in place, and they record what
stands in the sentences; for the classes of the corpus itself they also summarize the
extraction, and no occurrence is lost. -/
theorem induction_agrees_with_extraction (extractor : Extractor) (least : Nat) (corpus : Corpus) :
    (∀ p : Partition,
      fill? extractor least corpus.sentences p =
        some (induce extractor least corpus p).fragments ∧
      List.Forall₂ (Records extractor corpus.sentences) p.classes
        (induce extractor least corpus p).fragments) ∧
    List.Forall₂ (Summarizes (extractor.extract corpus.sentences))
      (extractor.graph corpus.sentences).partition.classes
      (ofCorpus extractor least corpus).fragments ∧
    total ((ofCorpus extractor least corpus).fragments.map Fragment.occurrences) =
      (extractor.extract corpus.sentences).occurrenceCount := by
  refine ⟨fun p => ⟨fill?_eq_some extractor least corpus p, ?_⟩, ?_,
    total_occurrences_ofCorpus extractor least corpus⟩
  · exact forall₂_fragments fun c hc => records_fragmentOf hc
  · exact forall₂_fragments fun c hc => summarizes_fragmentOf rfl hc

end Grammar

end Substitutability
