import Substitutability.Corpus.Basic
import Substitutability.Proofs.Grammar.Agreement
import Substitutability.Proofs.Learning.Learner

/-!
# What is learned depends only on which sentences there are

Two corpora with the same sentences, in any order and however often each one comes,
attest the same phrases in the same contexts. So they have the same graph, the same
classes and the same rules. The counts of occurrences are the same if each sentence
comes equally often.
-/

set_option autoImplicit false

namespace Substitutability

/-! ## Observed phrases -/

namespace Extractor

variable {extractor : Extractor} {sentences others : List Sentence}

def phrases (extractor : Extractor) (tokens : Phrase) : List Phrase :=
  (extractor.spans tokens.length).map fun span => span.phrase tokens

theorem phrases_observations (extractor : Extractor) (sentences : List Sentence) :
    (extractor.observations sentences).map Observation.phrase =
      (sentences.map Sentence.tokens).flatMap extractor.phrases := by
  have hobserve : ∀ entry : Sentence × Nat,
      (extractor.observe entry.2 entry.1.tokens).map Observation.phrase =
        extractor.phrases entry.1.tokens := by
    intro entry
    rw [observe, List.map_map]
    rfl
  rw [observations, List.map_flatMap, List.flatMap_map]
  simp only [hobserve]
  exact flatMap_zipIdx_fst (fun sentence => extractor.phrases sentence.tokens) sentences

theorem phrases_observations_perm
    (h : (sentences.map Sentence.tokens).Perm (others.map Sentence.tokens)) :
    ((extractor.observations sentences).map Observation.phrase).Perm
      ((extractor.observations others).map Observation.phrase) := by
  rw [phrases_observations, phrases_observations]
  exact h.flatMap_right _

theorem length_occurrencesOf_perm
    (h : (sentences.map Sentence.tokens).Perm (others.map Sentence.tokens)) (a : Phrase) :
    ((extractor.extract sentences).occurrencesOf a).length =
      ((extractor.extract others).occurrencesOf a).length := by
  have hcount : ∀ sentences : List Sentence,
      ((extractor.extract sentences).occurrencesOf a).length =
        ((extractor.observations sentences).map Observation.phrase).count a := by
    intro sentences
    rw [length_occurrencesOf_extract, List.count, List.countP_map]
    rfl
  rw [hcount, hcount]
  exact (phrases_observations_perm h).count_eq a

theorem occurrenceCount_perm
    (h : (sentences.map Sentence.tokens).Perm (others.map Sentence.tokens)) :
    (extractor.extract sentences).occurrenceCount =
      (extractor.extract others).occurrenceCount := by
  have hperm : ((extractor.observations sentences).map Observation.phrase).Perm
      ((extractor.observations others).map Observation.phrase) := phrases_observations_perm h
  rw [occurrenceCount_extract, occurrenceCount_extract]
  simpa using hperm.length_eq

theorem graph_congr
    (h : ∀ tokens, tokens ∈ sentences.map Sentence.tokens ↔ tokens ∈ others.map Sentence.tokens) :
    extractor.graph sentences = extractor.graph others :=
  Graph.ofContexts_congr (attests_congr h)

end Extractor

/-! ## Fragments -/

def Fragment.uncounted (f : Fragment) : Fragment :=
  { f with occurrences := 0 }

namespace Grammar

variable {extractor : Extractor} {p : Partition} {least : Nat} {c : CongruenceClass}
  {seen others : List Pattern} {sentences more : List Sentence}

theorem patterns_congr (h : ∀ pattern, pattern ∈ seen ↔ pattern ∈ others) (index : Nat) :
    SortedSet.ofList (seen.filter (·.index == index)) =
      SortedSet.ofList (others.filter (·.index == index)) := by
  apply SortedSet.ofList_congr
  intro pattern
  rw [List.mem_filter, List.mem_filter, h]

theorem uncounted_fragmentOf_congr (h : ∀ pattern, pattern ∈ seen ↔ pattern ∈ others) :
    (fragmentOf p seen least c).uncounted = (fragmentOf p others least c).uncounted := by
  simp only [Fragment.uncounted, fragmentOf, patterns_congr h c.index]

theorem fragmentOf_perm (h : seen.Perm others) :
    fragmentOf p seen least c = fragmentOf p others least c := by
  have hlength := (h.filter (·.index == c.index)).length_eq
  simp only [fragmentOf, patterns_congr (fun _ => h.mem_iff) c.index, hlength]

theorem mem_allSightings_congr
    (h : ∀ tokens, tokens ∈ sentences.map Sentence.tokens ↔ tokens ∈ more.map Sentence.tokens)
    (pattern : Pattern) :
    pattern ∈ allSightings extractor p sentences ↔ pattern ∈ allSightings extractor p more := by
  simp only [mem_allSightings, Extractor.attests_congr h]

theorem allSightings_perm
    (h : (sentences.map Sentence.tokens).Perm (more.map Sentence.tokens)) :
    (allSightings extractor p sentences).Perm (allSightings extractor p more) := by
  have hsentences : ∀ sentences : List Sentence, allSightings extractor p sentences =
      (sentences.map Sentence.tokens).flatMap (sightings extractor p) :=
    fun sentences => (List.flatMap_map ..).symm
  rw [hsentences, hsentences]
  exact h.flatMap_right _

theorem uncounted_fragments_congr {corpus other : Corpus}
    (h : ∀ tokens, tokens ∈ corpus.sentences.map Sentence.tokens ↔
      tokens ∈ other.sentences.map Sentence.tokens) :
    (induce extractor least corpus p).fragments.map Fragment.uncounted =
      (induce extractor least other p).fragments.map Fragment.uncounted := by
  rw [fragments_eq_map, fragments_eq_map, List.map_map, List.map_map]
  apply List.map_congr_left
  intro c _
  exact uncounted_fragmentOf_congr (mem_allSightings_congr h)

theorem fragments_perm {corpus other : Corpus}
    (h : (corpus.sentences.map Sentence.tokens).Perm (other.sentences.map Sentence.tokens)) :
    (induce extractor least corpus p).fragments = (induce extractor least other p).fragments := by
  rw [fragments_eq_map, fragments_eq_map]
  apply List.map_congr_left
  intro c _
  exact fragmentOf_perm (allSightings_perm h)

theorem nonterminals_induce (extractor : Extractor) (least : Nat) (corpus : Corpus)
    (p : Partition) : (induce extractor least corpus p).nonterminals =
      p.classes.map fun c => nonterminal c.index := by
  rw [nonterminals, fragments_eq_map, List.map_map]
  rfl

theorem Firsts.perm {items others firsts firsts' : List Phrase} (h : Firsts items firsts)
    (h' : Firsts others firsts') (hmem : ∀ a, a ∈ items ↔ a ∈ others) : firsts.Perm firsts' := by
  apply (List.perm_ext_iff_of_nodup h.nodup h'.nodup).2
  intro a
  rw [h.mem, h'.mem, hmem]

end Grammar

/-! ## Results -/

namespace Learned

/-- The results have the same graph with the same witnesses, the same classes, the same
rules for each class, and the same sentences in perhaps another order. -/
structure SameLessons (r r' : Learned) : Prop where
  graph : r.graph = r'.graph
  partition : r.partition = r'.partition
  name : r.grammar.name = r'.grammar.name
  alphabet : r.grammar.alphabet = r'.grammar.alphabet
  nonterminals : r.grammar.nonterminals = r'.grammar.nonterminals
  fragments : r.grammar.fragments.map Fragment.uncounted =
    r'.grammar.fragments.map Fragment.uncounted
  sentences : r.grammar.sentences.Perm r'.grammar.sentences

/-- Nothing was seen more often for one of the results than for the other. -/
structure SameCounts (r r' : Learned) : Prop where
  occurrenceCount : r.contexts.occurrenceCount = r'.contexts.occurrenceCount
  occurrencesOf : ∀ a, (r.contexts.occurrencesOf a).length = (r'.contexts.occurrencesOf a).length
  fragments : r.grammar.fragments = r'.grammar.fragments

variable {r r' : Learned}

theorem SameLessons.timed (h : r.SameLessons r') (durations durations' : Durations) :
    SameLessons { r with durations := durations } { r' with durations := durations' } :=
  ⟨h.graph, h.partition, h.name, h.alphabet, h.nonterminals, h.fragments, h.sentences⟩

theorem SameCounts.timed (h : r.SameCounts r') (durations durations' : Durations) :
    SameCounts { r with durations := durations } { r' with durations := durations' } :=
  ⟨h.occurrenceCount, h.occurrencesOf, h.fragments⟩

end Learned

namespace Learner

variable {l : Learner} {corpus other : Corpus}

theorem partition_learned_congr (h : ∀ tokens, tokens ∈ corpus.sentences.map Sentence.tokens ↔
      tokens ∈ other.sentences.map Sentence.tokens) :
    (l.learned corpus).partition = (l.learned other).partition :=
  congrArg Graph.partition (Extractor.graph_congr h)

theorem grammar_learned (l : Learner) (corpus : Corpus) :
    (l.learned corpus).grammar =
      Grammar.induce l.extractor l.least corpus (l.learned corpus).partition := rfl

theorem sameLessons_learned (hname : corpus.name = other.name)
    (h : ∀ tokens, tokens ∈ corpus.sentences.map Sentence.tokens ↔
      tokens ∈ other.sentences.map Sentence.tokens) :
    (l.learned corpus).SameLessons (l.learned other) := by
  have hpartition := partition_learned_congr (l := l) h
  constructor
  · exact Extractor.graph_congr h
  · exact hpartition
  · exact hname
  · rw [grammar_learned, grammar_learned, hpartition]
    rfl
  · rw [grammar_learned, grammar_learned, hpartition]
    rw [Grammar.nonterminals_induce, Grammar.nonterminals_induce]
  · rw [grammar_learned, grammar_learned, hpartition]
    exact Grammar.uncounted_fragments_congr h
  · exact (Grammar.firsts_distinct _).perm (Grammar.firsts_distinct _) h

theorem sameCounts_learned (h : (corpus.sentences.map Sentence.tokens).Perm
      (other.sentences.map Sentence.tokens)) :
    (l.learned corpus).SameCounts (l.learned other) := by
  have hpartition := partition_learned_congr (l := l) fun _ => h.mem_iff
  constructor
  · exact Extractor.occurrenceCount_perm h
  · exact Extractor.length_occurrencesOf_perm h
  · rw [grammar_learned, grammar_learned, hpartition]
    exact Grammar.fragments_perm h

end Learner

/-- A valid configuration makes a learner for which two corpora with one name and the
same sentences are as good as each other. Both are refused if they have no sentences.
Else the results have the same lessons, their sentences stand in the order in which they
first occur, and if each sentence comes equally often, the counts are the same. -/
theorem learning_depends_on_sentences {c : Configuration} (hc : c.rejection? = none)
    (corpus other : Corpus) (hname : corpus.name = other.name)
    (h : ∀ tokens, tokens ∈ corpus.sentences.map Sentence.tokens ↔
      tokens ∈ other.sentences.map Sentence.tokens) :
    ∃ l, c.learner? = .ok l ∧
      (corpus.sentences = [] → (l.learn corpus).Fails (.input (.corpusEmpty corpus.name)) ∧
        (l.learn other).Fails (.input (.corpusEmpty corpus.name))) ∧
      (corpus.sentences ≠ [] → (l.learn corpus).Returns fun r => (l.learn other).Returns fun r' =>
        r.SameLessons r' ∧
        Grammar.Firsts (corpus.sentences.map Sentence.tokens) r.grammar.sentences ∧
        Grammar.Firsts (other.sentences.map Sentence.tokens) r'.grammar.sentences ∧
        ((corpus.sentences.map Sentence.tokens).Perm (other.sentences.map Sentence.tokens) →
          r.SameCounts r')) := by
  obtain ⟨l, hl, -⟩ := Configuration.exists_learner hc
  have hempty : corpus.sentences = [] ↔ other.sentences = [] := by
    rw [← List.map_eq_nil_iff (f := Sentence.tokens), List.eq_nil_iff_forall_not_mem,
      ← List.map_eq_nil_iff (f := Sentence.tokens), List.eq_nil_iff_forall_not_mem]
    simp only [h]
  refine ⟨l, hl, ?_, ?_⟩
  · intro hnone
    refine ⟨l.fails_learn hnone, ?_⟩
    rw [hname]
    exact l.fails_learn (hempty.1 hnone)
  · intro hsome
    apply Learner.returns_learn_both hsome (mt hempty.2 hsome)
    intro durations durations'
    refine ⟨(Learner.sameLessons_learned hname h).timed _ _, Grammar.firsts_distinct _,
      Grammar.firsts_distinct _, ?_⟩
    exact fun hperm => (Learner.sameCounts_learned hperm).timed _ _

theorem reversed_sentences_teach_the_same :
    ({} : Configuration).rejection? = none ∧
    ∃ l, ({} : Configuration).learner? = .ok l ∧
      (l.learn Corpus.dogsAndCats).Returns fun r =>
        (l.learn { Corpus.dogsAndCats with
          sentences := Corpus.dogsAndCats.sentences.reverse }).Returns fun r' =>
          r.SameLessons r' ∧ r.SameCounts r' := by
  have hvalid : ({} : Configuration).rejection? = none := by decide
  have hperm : (Corpus.dogsAndCats.sentences.map Sentence.tokens).Perm
      (Corpus.dogsAndCats.sentences.reverse.map Sentence.tokens) :=
    (Corpus.dogsAndCats.sentences.reverse_perm.map _).symm
  obtain ⟨l, hl, -, hlearn⟩ := learning_depends_on_sentences hvalid
    Corpus.dogsAndCats
    { Corpus.dogsAndCats with sentences := Corpus.dogsAndCats.sentences.reverse }
    rfl fun tokens => hperm.mem_iff
  refine ⟨hvalid, l, hl, (hlearn (by decide)).imp ?_⟩
  intro r hr
  apply hr.imp
  intro r' hr'
  exact ⟨hr'.1, hr'.2.2.2 hperm⟩

end Substitutability
