import Substitutability.Corpus.Basic
import Substitutability.Proofs.Extraction
import Substitutability.Proofs.Graph.OfContexts
import Substitutability.Proofs.Partition.Components

/-!
# Phrases that stand for each other

Two phrases are interchangeable in a corpus when some sentence has the one where
another sentence has the other, and the rest of the two is the same. The graph of
whole contexts links interchangeable phrases, and its classes are the chains of them.
-/

set_option autoImplicit false

namespace Substitutability

/-- Two phrases of allowed lengths whose rests of some two sentences are the same. -/
def Interchangeable (policy : LengthPolicy) (sentences : List Sentence) (p q : Phrase) : Prop :=
  policy.Allows p.length ∧ policy.Allows q.length ∧
    ∃ l r, (l ≠ [] ∨ r ≠ []) ∧ l ++ p ++ r ∈ sentences.map Sentence.tokens ∧
      l ++ q ++ r ∈ sentences.map Sentence.tokens

theorem Interchangeable.self {policy : LengthPolicy} {sentences : List Sentence} {p q : Phrase}
    (h : Interchangeable policy sentences p q) : Interchangeable policy sentences p p := by
  obtain ⟨hp, -, l, r, hne, hmem, -⟩ := h
  exact ⟨hp, hp, l, r, hne, hmem, hmem⟩

namespace Extractor

variable {extractor : Extractor} {sentences : List Sentence} {p q : Phrase}

def graph (extractor : Extractor) (sentences : List Sentence) : Graph :=
  Graph.ofContexts (extractor.extract sentences)

theorem mem_nodes_iff_part :
    p ∈ (extractor.graph sentences).nodes ↔
      extractor.policy.Allows p.length ∧ ∃ l r, (l ≠ [] ∨ r ≠ []) ∧
        l ++ p ++ r ∈ sentences.map Sentence.tokens := by
  rw [graph, Graph.mem_nodes_ofContexts]
  simp only [attests_iff_part]
  constructor
  · rintro ⟨c, hallows, l, r, hne, hmem, -⟩
    exact ⟨hallows, l, r, hne, hmem⟩
  · rintro ⟨hallows, l, r, hne, hmem⟩
    exact ⟨_, hallows, l, r, hne, hmem, rfl⟩

def whole : Extractor :=
  ⟨{}, 0, by decide, by decide⟩

theorem allows_whole {length : Nat} (h : 0 < length) : whole.policy.Allows length := by
  constructor
  · show (1 : Int) ≤ length
    omega
  · intro maximum hmaximum
    cases hmaximum

theorem interchangeable_iff (h : extractor.width = 0) :
    Interchangeable extractor.policy sentences p q ↔
      ∃ c, (extractor.extract sentences).Attests p c ∧
        (extractor.extract sentences).Attests q c := by
  simp only [attests_whole h]
  constructor
  · rintro ⟨hp, hq, l, r, hne, hmemp, hmemq⟩
    exact ⟨Context.around l r, ⟨hp, l, r, hne, hmemp, rfl⟩, ⟨hq, l, r, hne, hmemq, rfl⟩⟩
  · rintro ⟨c, ⟨hp, l, r, hne, hmemp, rfl⟩, ⟨hq, l', r', -, hmemq, heq⟩⟩
    obtain ⟨rfl, rfl⟩ := Context.around_inj.1 heq
    exact ⟨hp, hq, l, r, hne, hmemp, hmemq⟩

theorem mem_nodes_graph (h : extractor.width = 0) :
    p ∈ (extractor.graph sentences).nodes ↔ Interchangeable extractor.policy sentences p p := by
  rw [graph, Graph.mem_nodes_ofContexts, interchangeable_iff h]
  simp only [and_self]

theorem hasEdge_graph (h : extractor.width = 0) :
    (extractor.graph sentences).hasEdge p q = true ↔
      p ≠ q ∧ Interchangeable extractor.policy sentences p q := by
  rw [graph, Graph.hasEdge_ofContexts, interchangeable_iff h]

/-- A path of edges is a chain of interchangeable phrases; the edges leave out only
the steps from a phrase to itself. -/
theorem joined_graph (h : extractor.width = 0) :
    (extractor.graph sentences).Joined p q ↔
      Relation.ReflTransGen (Interchangeable extractor.policy sentences) p q := by
  constructor
  · exact Relation.ReflTransGen.mono (fun a b hab => ((hasEdge_graph h).1 hab).2) p q
  · intro hchain
    induction hchain with
    | refl => exact .refl
    | @tail a b _ hab ih =>
      by_cases hne : a = b
      · exact hne ▸ ih
      · exact ih.tail ((hasEdge_graph h).2 ⟨hne, hab⟩)

theorem sameClass_graph (h : extractor.width = 0) :
    (extractor.graph sentences).partition.sameClass p q = true ↔
      Interchangeable extractor.policy sentences p p ∧
        Relation.ReflTransGen (Interchangeable extractor.policy sentences) p q := by
  rw [Graph.sameClass_partition, mem_nodes_graph h, joined_graph h]

theorem sameClass_of_interchangeable (h : extractor.width = 0)
    (hpq : Interchangeable extractor.policy sentences p q) :
    (extractor.graph sentences).partition.sameClass p q = true :=
  (sameClass_graph h).2 ⟨hpq.self, .single hpq⟩

theorem cat_interchangeable_dog :
    Interchangeable whole.policy Corpus.dogsAndCats.sentences [utf8 "cat"] [utf8 "dog"] :=
  ⟨allows_whole Nat.one_pos, allows_whole Nat.one_pos, [utf8 "the"], [utf8 "ran"],
    .inl (by decide), by decide, by decide⟩

/-- Edges, members and classes of a corpus with whole contexts, in terms of its sentences. -/
theorem classes_are_chains (extractor : Extractor) (h : extractor.width = 0) (corpus : Corpus)
    (p q : Phrase) :
    ((extractor.graph corpus.sentences).hasEdge p q = true ↔
      p ≠ q ∧ Interchangeable extractor.policy corpus.sentences p q) ∧
    (((extractor.graph corpus.sentences).partition.classOf? p).isSome = true ↔
      Interchangeable extractor.policy corpus.sentences p p) ∧
    ((extractor.graph corpus.sentences).partition.sameClass p q = true ↔
      Interchangeable extractor.policy corpus.sentences p p ∧
        Relation.ReflTransGen (Interchangeable extractor.policy corpus.sentences) p q) := by
  refine ⟨hasEdge_graph h, ?_, sameClass_graph h⟩
  rw [Graph.isSome_classOf?_partition, mem_nodes_graph h]

theorem dog_and_cat_share_a_class :
    whole.width = 0 ∧
      (whole.graph Corpus.dogsAndCats.sentences).hasEdge [utf8 "dog"] [utf8 "cat"] = true ∧
      (whole.graph Corpus.dogsAndCats.sentences).partition.sameClass [utf8 "dog"] [utf8 "cat"] =
        true := by
  have hdog : [utf8 "the"] ++ [utf8 "dog"] ++ [utf8 "ran"] ∈
      Corpus.dogsAndCats.sentences.map Sentence.tokens := by decide
  have hcat : [utf8 "the"] ++ [utf8 "cat"] ++ [utf8 "ran"] ∈
      Corpus.dogsAndCats.sentences.map Sentence.tokens := by decide
  have hstep : Interchangeable whole.policy Corpus.dogsAndCats.sentences
      [utf8 "dog"] [utf8 "cat"] :=
    ⟨allows_whole Nat.one_pos, allows_whole Nat.one_pos, _, _, .inl (by decide), hdog, hcat⟩
  have hself : Interchangeable whole.policy Corpus.dogsAndCats.sentences
      [utf8 "dog"] [utf8 "dog"] :=
    ⟨allows_whole Nat.one_pos, allows_whole Nat.one_pos, _, _, .inl (by decide), hdog, hdog⟩
  obtain ⟨hedge, -, hclass⟩ :=
    classes_are_chains whole rfl Corpus.dogsAndCats [utf8 "dog"] [utf8 "cat"]
  exact ⟨rfl, hedge.2 ⟨by decide, hstep⟩, hclass.2 ⟨hself, .single hstep⟩⟩

end Extractor

end Substitutability
