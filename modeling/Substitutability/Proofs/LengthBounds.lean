import Substitutability.Proofs.Interchange
import Substitutability.Proofs.Occurrences

/-!
# Tighter bounds on lengths

A policy decides which phrases are looked at, and nothing else: a tighter one leaves out
the observations of the phrases that it does not allow and keeps all others as they are,
in their order. So its graph is the part of the wider graph between the allowed phrases.
A class can only fall apart, since the chain that holds it together may run through
phrases that are left out.
-/

set_option autoImplicit false

namespace Substitutability

namespace LengthPolicy

/-- The bounds of the first policy are within those of the second. -/
def Tightens (tight loose : LengthPolicy) : Prop :=
  loose.minimum.toInt ≤ tight.minimum.toInt ∧
    ∀ upper ∈ loose.maximum, ∃ maximum ∈ tight.maximum, maximum.toInt ≤ upper.toInt

theorem Tightens.allows {tight loose : LengthPolicy} (h : tight.Tightens loose) {length : Nat}
    (hlength : tight.Allows length) : loose.Allows length := by
  obtain ⟨hmin, hmax⟩ := h
  obtain ⟨hlower, hupper⟩ := hlength
  constructor
  · omega
  · intro upper hmem
    obtain ⟨maximum, hmaximum, hle⟩ := hmax upper hmem
    have := hupper maximum hmaximum
    omega

end LengthPolicy

theorem filter_flatMap_of_uniform {α β : Type} {f : α → List β} {test : β → Bool}
    {keep : α → Bool} (h : ∀ x, ∀ y ∈ f x, test y = keep x) (xs : List α) :
    (xs.flatMap f).filter test = (xs.filter keep).flatMap f := by
  induction xs with
  | nil => rfl
  | cons x xs ih =>
    rw [List.flatMap_cons, List.filter_append, ih]
    cases hkeep : keep x with
    | true =>
      have hall : (f x).filter test = f x :=
        List.filter_eq_self.2 fun y hy => (h x y hy).trans hkeep
      rw [List.filter_cons_of_pos hkeep, List.flatMap_cons, hall]
    | false =>
      have hnone : (f x).filter test = [] :=
        List.filter_eq_nil_iff.2 fun y hy => by simp [h x y hy, hkeep]
      rw [List.filter_cons_of_neg (by simp [hkeep]), hnone, List.nil_append]

/-! ## Observations of allowed phrases -/

namespace Extractor

variable {tight loose : Extractor} {sentences : List Sentence} {a b : Phrase}

theorem lengths_tighter (hpolicy : tight.policy.Tightens loose.policy) (n : Nat) :
    tight.lengths n = (loose.lengths n).filter (tight.policy.Allows ·) := by
  rw [lengths, lengths, List.filter_filter]
  apply List.filter_congr
  intro length _
  rw [Bool.eq_iff_iff]
  simp only [Bool.and_eq_true, decide_eq_true_eq,
    LengthPolicy.accepts_iff tight.policy_valid, LengthPolicy.accepts_iff loose.policy_valid]
  constructor
  · exact fun h => ⟨h.2, h.1, hpolicy.allows h.2⟩
  · exact fun h => ⟨h.2.1, h.1⟩

theorem spans_tighter (hpolicy : tight.policy.Tightens loose.policy) (n : Nat) :
    tight.spans n =
      (loose.spans n).filter fun span => tight.policy.Allows (span.stop - span.start) := by
  rw [spans, spans, lengths_tighter hpolicy]
  symm
  apply filter_flatMap_of_uniform
  intro length span hspan
  obtain ⟨start, -, rfl⟩ := List.mem_map.1 hspan
  show decide (tight.policy.Allows (start + length - start)) = _
  rw [Nat.add_sub_cancel_left]

theorem observe_tighter (hwidth : tight.width = loose.width)
    (hpolicy : tight.policy.Tightens loose.policy) (sentence : Nat) (tokens : Phrase) :
    tight.observe sentence tokens =
      (loose.observe sentence tokens).filter (tight.policy.Allows ·.phrase.length) := by
  have hcontext : tight.contextAt tokens = loose.contextAt tokens := by
    funext span
    rw [contextAt, contextAt, hwidth]
  rw [observe, observe, List.filter_map, spans_tighter hpolicy, hcontext]
  congr 1
  apply List.filter_congr
  intro span hspan
  obtain ⟨-, hstop, -, -⟩ := mem_spans.1 hspan
  show _ = decide (tight.policy.Allows (span.phrase tokens).length)
  rw [Span.length_phrase hstop]

/-- The observations under a tighter policy are those of the phrases that it allows. -/
theorem observations_tighter (hwidth : tight.width = loose.width)
    (hpolicy : tight.policy.Tightens loose.policy) (sentences : List Sentence) :
    tight.observations sentences =
      (loose.observations sentences).filter (tight.policy.Allows ·.phrase.length) := by
  rw [observations, observations, List.filter_flatMap]
  apply List.flatMap_congr
  rintro ⟨sentence, index⟩ -
  exact observe_tighter hwidth hpolicy index sentence.tokens

theorem find?_extract_tighter (hwidth : tight.width = loose.width)
    (hpolicy : tight.policy.Tightens loose.policy) (ha : tight.policy.Allows a.length) :
    (tight.extract sentences).entries.find? a = (loose.extract sentences).entries.find? a := by
  have hsame : (tight.observations sentences).filter (·.phrase == a) =
      (loose.observations sentences).filter (·.phrase == a) := by
    rw [observations_tighter hwidth hpolicy, List.filter_filter]
    apply List.filter_congr
    intro o _
    by_cases ho : o.phrase = a <;> simp [ho, ha]
  rw [extract, extract, find?_foldl_record a rfl, hsame, ← find?_foldl_record a rfl]

theorem attests_tighter (hwidth : tight.width = loose.width)
    (hpolicy : tight.policy.Tightens loose.policy) {c : Context} :
    (tight.extract sentences).Attests a c ↔
      (loose.extract sentences).Attests a c ∧ tight.policy.Allows a.length := by
  constructor
  · intro h
    have ha := (attests_iff_part.1 h).1
    rw [ContextSet.Attests, ContextSet.contextsOf?, find?_extract_tighter hwidth hpolicy ha] at h
    exact ⟨h, ha⟩
  · rintro ⟨h, ha⟩
    rw [ContextSet.Attests, ContextSet.contextsOf?, find?_extract_tighter hwidth hpolicy ha]
    exact h

end Extractor

/-! ## Induced subgraphs -/

/-- The nodes that are kept, in their order, and all edges between them with their
witnesses. The numbers of the nodes may differ. -/
structure Graph.IsInduced (keep : Phrase → Prop) [DecidablePred keep] (g h : Graph) : Prop where
  nodes : g.nodes = h.nodes.filter (keep ·)
  hasEdge : ∀ a b, g.hasEdge a b = true ↔ h.hasEdge a b = true ∧ keep a ∧ keep b
  witness : ∀ a b, keep a → keep b → g.witness? a b = h.witness? a b

namespace Graph

/-- Where a context set is another one without some phrases, so are the graphs. -/
theorem ofContexts_isInduced {keep : Phrase → Prop} [DecidablePred keep] {s t : ContextSet}
    (h : ∀ a c, s.Attests a c ↔ t.Attests a c ∧ keep a) :
    IsInduced keep (ofContexts s) (ofContexts t) where
  nodes := by
    apply eq_of_ascending
    · exact (ofContexts_isIntersectionGraph s).nodes_ascending
    · exact (ofContexts_isIntersectionGraph t).nodes_ascending.filter _
    · intro a
      rw [List.mem_filter, decide_eq_true_iff, mem_nodes_ofContexts, mem_nodes_ofContexts]
      simp only [h, exists_and_right]
  hasEdge a b := by
    rw [hasEdge_ofContexts, hasEdge_ofContexts]
    simp only [h]
    constructor
    · rintro ⟨hne, c, ⟨hac, ha⟩, ⟨hbc, hb⟩⟩
      exact ⟨⟨hne, c, hac, hbc⟩, ha, hb⟩
    · rintro ⟨⟨hne, c, hac, hbc⟩, ha, hb⟩
      exact ⟨hne, c, ⟨hac, ha⟩, ⟨hbc, hb⟩⟩
  witness a b ha hb := by
    apply (leastOf_witness? s a b).unique
    exact (LeastOf.congr fun c => by simp [h, ha, hb]).1 (leastOf_witness? t a b)

theorem IsInduced.sameClass {keep : Phrase → Prop} [DecidablePred keep] {g h : Graph}
    (hinduced : IsInduced keep g h) {a b : Phrase} (hab : g.partition.sameClass a b = true) :
    h.partition.sameClass a b = true := by
  apply sameClass_partition_mono _ _ hab
  · intro a ha
    rw [hinduced.nodes] at ha
    exact (List.mem_filter.1 ha).1
  · exact fun a b hedge => ((hinduced.hasEdge a b).1 hedge).1

end Graph

namespace Extractor

/-- A tighter policy gives the induced subgraph of the phrases that it allows. They have
the contexts and the occurrences that they have under the looser policy, and those of one
class are of one class there. -/
theorem tighter_lengths_induce (tight loose : Extractor) (hwidth : tight.width = loose.width)
    (hpolicy : tight.policy.Tightens loose.policy) (corpus : Corpus) :
    Graph.IsInduced (fun a => tight.policy.Allows a.length) (tight.graph corpus.sentences)
      (loose.graph corpus.sentences) ∧
    (∀ a, tight.policy.Allows a.length →
      (tight.extract corpus.sentences).contextsOf? a =
        (loose.extract corpus.sentences).contextsOf? a ∧
      (tight.extract corpus.sentences).occurrencesOf a =
        (loose.extract corpus.sentences).occurrencesOf a) ∧
    ∀ a b, (tight.graph corpus.sentences).partition.sameClass a b = true →
      (loose.graph corpus.sentences).partition.sameClass a b = true := by
  have hinduced : Graph.IsInduced (fun a => tight.policy.Allows a.length)
      (tight.graph corpus.sentences) (loose.graph corpus.sentences) :=
    Graph.ofContexts_isInduced fun a c => attests_tighter hwidth hpolicy
  refine ⟨hinduced, fun a ha => ?_, fun a b => hinduced.sameClass⟩
  have hentry : (tight.extract corpus.sentences).entries.find? a =
      (loose.extract corpus.sentences).entries.find? a := find?_extract_tighter hwidth hpolicy ha
  rw [ContextSet.contextsOf?, ContextSet.contextsOf?, ContextSet.occurrencesOf,
    ContextSet.occurrencesOf, hentry]
  exact ⟨rfl, rfl⟩

def twoTokens : Extractor :=
  ⟨⟨2, some 2⟩, 0, by decide, whole.width_nonneg⟩

/-- To run is one token, so only the two ways to walk are joined. -/
theorem ways_to_walk_in_two_tokens :
    (whole.graph Corpus.dogsAndCats.sentences).hasEdge [utf8 "quickly", utf8 "walked"]
      [utf8 "ran"] = true ∧
    ¬ (twoTokens.graph Corpus.dogsAndCats.sentences).hasEdge [utf8 "quickly", utf8 "walked"]
      [utf8 "ran"] = true ∧
    (twoTokens.graph Corpus.dogsAndCats.sentences).hasEdge [utf8 "quickly", utf8 "walked"]
      [utf8 "slowly", utf8 "walked"] = true := by
  have htightens : twoTokens.policy.Tightens whole.policy := by
    constructor
    · decide
    · intro upper hupper
      cases hupper
  have hran : Interchangeable whole.policy Corpus.dogsAndCats.sentences
      [utf8 "quickly", utf8 "walked"] [utf8 "ran"] :=
    ⟨allows_whole Nat.two_pos, allows_whole Nat.one_pos, [utf8 "the", utf8 "cat"], [],
      .inl (by decide), by decide, by decide⟩
  have hslowly : Interchangeable whole.policy Corpus.dogsAndCats.sentences
      [utf8 "quickly", utf8 "walked"] [utf8 "slowly", utf8 "walked"] :=
    ⟨allows_whole Nat.two_pos, allows_whole Nat.two_pos, [utf8 "the", utf8 "cat"], [],
      .inl (by decide), by decide, by decide⟩
  obtain ⟨hinduced, -, -⟩ := tighter_lengths_induce twoTokens whole rfl htightens Corpus.dogsAndCats
  refine ⟨(hasEdge_graph rfl).2 ⟨by decide, hran⟩, ?_, ?_⟩
  · rw [hinduced.hasEdge]
    rintro ⟨-, -, hallowed⟩
    exact absurd hallowed (by decide)
  · rw [hinduced.hasEdge]
    exact ⟨(hasEdge_graph rfl).2 ⟨by decide, hslowly⟩, by decide, by decide⟩

end Extractor

end Substitutability
