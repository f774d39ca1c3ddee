import Substitutability.Proofs.Graph.Fanouts
import Substitutability.Proofs.Learning.Learner

/-!
# Warnings

A corpus with sentences is always learned from. Nothing is extracted when every sentence is
as short as the shortest phrase that is allowed, and then nothing is joined either. The two
warnings of a run tell of these two cases and of no other.
-/

set_option autoImplicit false

namespace Substitutability

/-! ## What is extracted -/

namespace Extractor

variable {extractor : Extractor}

theorem spans_eq_nil_iff {n : Nat} :
    extractor.spans n = [] ↔ (n : Int) ≤ extractor.policy.minimum.toInt := by
  obtain ⟨hmin, hmax⟩ := LengthPolicy.bounds_of_valid extractor.policy_valid
  rw [List.eq_nil_iff_forall_not_mem]
  constructor
  · intro h
    by_contra hlong
    obtain ⟨k, hk⟩ := Int.eq_ofNat_of_zero_le hmin.le
    have hallows : extractor.policy.Allows k := by
      constructor
      · omega
      · intro maximum hmaximum
        have := hmax maximum hmaximum
        omega
    have hlt : k < n := by omega
    exact h ⟨0, k⟩ (mem_spans.2 ⟨Nat.zero_le k, hlt.le, hlt, hallows⟩)
  · intro h span hspan
    obtain ⟨-, -, hlt, hallows, -⟩ := mem_spans.1 hspan
    omega

theorem isEmpty_extract_iff {sentences : List Sentence} :
    (extractor.extract sentences).isEmpty = true ↔
      ∀ s ∈ sentences, (s.tokens.length : Int) ≤ extractor.policy.minimum.toInt := by
  have hkeys : (extractor.extract sentences).isEmpty = true ↔
      ∀ p, p ∉ (extractor.extract sentences).entries.keys := by
    rw [ContextSet.isEmpty, List.isEmpty_iff, SortedMap.keys, ← List.eq_nil_iff_forall_not_mem,
      List.map_eq_nil_iff]
  simp only [hkeys, mem_keys_extract_iff_attests, attests_extract, ← spans_eq_nil_iff]
  constructor
  · intro h s hs
    apply List.eq_nil_iff_forall_not_mem.2
    intro span hspan
    exact h _ ⟨_, s, hs, span, hspan, rfl, rfl⟩
  · intro h p hp
    obtain ⟨c, s, hs, span, hspan, -⟩ := hp
    rw [h s hs] at hspan
    cases hspan

end Extractor

theorem Graph.edgeCount_eq_zero_of_isEmpty {s : ContextSet} (h : s.isEmpty = true) :
    (ofContexts s).edgeCount = 0 := by
  apply edgeCount_ofContexts_eq_zero_iff.2
  intro hshared
  obtain ⟨a, b, c, -, ⟨contexts, hcontexts, -⟩, -⟩ := hshared
  obtain ⟨attestation, hfind, -⟩ := Option.map_eq_some_iff.1 hcontexts
  have hmem := SortedMap.find?_eq_some.1 hfind
  rw [List.isEmpty_iff.1 h] at hmem
  cases hmem

/-! ## What is warned of -/

namespace Learned

variable {r : Learned}

theorem mem_warnings_noPhrases :
    Warning.noPhrases ∈ r.warnings ↔ r.contexts.isEmpty = true := by
  simp [warnings]

theorem mem_warnings_noEdges : Warning.noEdges ∈ r.warnings ↔ r.graph.edgeCount = 0 := by
  simp [warnings]

theorem warnings_sublist (r : Learned) : r.warnings.Sublist [.noPhrases, .noEdges] := by
  by_cases hphrases : r.contexts.isEmpty <;> by_cases hedges : r.graph.edgeCount = 0 <;>
    simp [warnings, hphrases, hedges]

end Learned

/-! ## Runs -/

/-- A result of all four stages. No check between them fails, and each warning is given for
its cause. -/
structure Learner.Completes (l : Learner) (c : Configuration) (corpus : Corpus) (r : Learned) :
    Prop where
  result : ∃ durations, r = { l.learned corpus with durations := durations }
  partition : Partition.ofClasses (Graph.classesOf r.graph.components) = .ok r.partition
  grammar : Grammar.induceChecked l.extractor c.minObservations corpus r.partition = .ok r.grammar
  order : r.warnings.Sublist [.noPhrases, .noEdges]
  noPhrases : .noPhrases ∈ r.warnings ↔
    ∀ s ∈ corpus.sentences, (s.tokens.length : Int) ≤ c.minLength.toInt
  noEdges : .noEdges ∈ r.warnings ↔
    ¬∃ a b shared, a ≠ b ∧ r.contexts.Attests a shared ∧ r.contexts.Attests b shared
  together : .noPhrases ∈ r.warnings → .noEdges ∈ r.warnings
  singletons : .noEdges ∈ r.warnings ↔ ∀ d ∈ r.partition.classes, d.isSingleton = true

theorem Configuration.minObservations_ne_zero {c : Configuration} (h : c.rejection? = none) :
    c.minObservations ≠ 0 := by
  obtain ⟨-, -, -, houtput⟩ := rejection?_eq_none h
  intro hzero
  rw [outputRejection?, if_pos hzero] at houtput
  cases houtput

theorem Learner.completes_of_result {l : Learner} {c : Configuration} (hl : c.learner? = .ok l)
    {corpus : Corpus} {r : Learned}
    (h : ∃ durations, r = { l.learned corpus with durations := durations }) :
    l.Completes c corpus r := by
  obtain ⟨hpolicy, -, hleast⟩ := Configuration.learner?_eq_ok hl
  have hpositive := Configuration.minObservations_ne_zero (Configuration.rejection?_of_learner? hl)
  have hphrases : (l.contexts corpus).isEmpty = true ↔
      ∀ s ∈ corpus.sentences, (s.tokens.length : Int) ≤ c.minLength.toInt := by
    have hmin : l.extractor.policy.minimum = c.minLength := congrArg LengthPolicy.minimum hpolicy
    rw [← hmin]
    exact Extractor.isEmpty_extract_iff
  obtain ⟨durations, rfl⟩ := h
  exact
    { result := ⟨durations, rfl⟩
      partition := Partition.ofClasses_classes (l.learned corpus).partition
      grammar := by
        rw [Grammar.induceChecked, if_neg hpositive, ← hleast]
        rfl
      order := Learned.warnings_sublist _
      noPhrases := Learned.mem_warnings_noPhrases.trans hphrases
      noEdges := Learned.mem_warnings_noEdges.trans Graph.edgeCount_ofContexts_eq_zero_iff
      together := by
        rw [Learned.mem_warnings_noPhrases, Learned.mem_warnings_noEdges]
        exact Graph.edgeCount_eq_zero_of_isEmpty
      singletons := Learned.mem_warnings_noEdges.trans (Graph.edgeCount_eq_zero_iff _) }

/-- The learner of an accepted configuration completes on every corpus with a sentence and
warns exactly when it has a cause. Without a sentence it refuses before the first stage. -/
theorem learning_warns_of_causes {c : Configuration} {l : Learner} (hl : c.learner? = .ok l)
    (corpus : Corpus) :
    (corpus.sentences ≠ [] →
      (l.learn corpus).Tells (l.Completes c corpus) (Warning.lines (l.learned corpus).warnings)) ∧
    (corpus.sentences = [] → ∀ w,
      (l.learn corpus).run w = (.error (.input (.corpusEmpty corpus.name)), w)) := by
  constructor
  · intro hsome
    exact (l.tells_learn hsome).imp fun r => Learner.completes_of_result hl
  · intro hnone w
    rw [Learner.learn, if_pos hnone]
    rfl

def Corpus.oneWord : Corpus :=
  ofPhrases (utf8 "one") [[utf8 "hello"]] [Bytes.space]

theorem one_word_warned_of :
    ∃ l, ({} : Configuration).learner? = .ok l ∧ Corpus.oneWord.sentences ≠ [] ∧
      (l.learned Corpus.oneWord).warnings = [.noPhrases, .noEdges] ∧
      (l.learn Corpus.oneWord).Tells (l.Completes {} Corpus.oneWord)
        (Warning.lines (l.learned Corpus.oneWord).warnings) := by
  have hvalid : ({} : Configuration).rejection? = none := by decide
  have hsome : Corpus.oneWord.sentences ≠ [] := by decide
  obtain ⟨l, hl, hpolicy, -⟩ := Configuration.exists_learner hvalid
  have hempty : (l.learned Corpus.oneWord).contexts.isEmpty = true := by
    apply Extractor.isEmpty_extract_iff.2
    rw [hpolicy]
    decide
  have hedges : (l.learned Corpus.oneWord).graph.edgeCount = 0 :=
    Graph.edgeCount_eq_zero_of_isEmpty hempty
  have hwarnings : (l.learned Corpus.oneWord).warnings = [.noPhrases, .noEdges] := by
    rw [Learned.warnings, if_pos hempty, if_pos hedges]
    rfl
  exact ⟨l, hl, hsome, hwarnings, (learning_warns_of_causes hl Corpus.oneWord).1 hsome⟩

end Substitutability
