import Substitutability.Proofs.Grammar.Contexts

/-!
# Classes yield their members

A part of a phrase of the graph is a phrase of the graph as soon as it is long enough.
So a member that is cut in two gives a rule if both parts are long enough, and if single
tokens are, every class yields all its members. With whole contexts the start symbol then
yields each sentence with a phrase replaced by any other member of its class.
-/

set_option autoImplicit false

namespace Substitutability

/-! ## Parts of phrases -/

namespace Extractor

variable {extractor : Extractor} {sentences : List Sentence} {a x y : Phrase}

theorem part_mem_nodes_iff (hne : x ≠ [] ∨ y ≠ [])
    (h : x ++ a ++ y ∈ (extractor.graph sentences).nodes) :
    a ∈ (extractor.graph sentences).nodes ↔ extractor.policy.minimum.toInt ≤ a.length := by
  obtain ⟨hallows, l, r, -, hmem⟩ := mem_nodes_iff_part.1 h
  constructor
  · intro ha
    exact (mem_nodes_iff_part.1 ha).1.1
  · intro hlong
    have hle : a.length ≤ (x ++ a ++ y).length := by simp; omega
    have hsentence : l ++ x ++ a ++ (y ++ r) ∈ sentences.map Sentence.tokens := by simpa using hmem
    have houter : l ++ x ≠ [] ∨ y ++ r ≠ [] :=
      hne.imp (List.append_ne_nil_of_right_ne_nil l) (List.append_ne_nil_of_left_ne_nil · r)
    exact mem_nodes_iff_part.2 ⟨hallows.of_le hle hlong, l ++ x, y ++ r, houter, hsentence⟩

end Extractor

namespace Grammar

/-- The classes of the two parts of a cut make a rule of the fragment. -/
def Cuts (p : Partition) (f : Fragment) (u v : Phrase) : Prop :=
  ∃ d ∈ f.decompositions, p.classOf? u = some d.left ∧ p.classOf? v = some d.right

variable {extractor : Extractor} {least : Nat} {corpus : Corpus} {f : Fragment} {u v a : Phrase}

/-! ## Cuts of members -/

theorem mem_nodes_of_mem_members (hf : f ∈ (ofCorpus extractor least corpus).fragments)
    (ha : a ∈ f.members) : a ∈ (extractor.graph corpus.sentences).nodes := by
  have hclass := (mem_members hf).1 ha
  exact Graph.isSome_classOf?_partition.1 (by simp [hclass])

theorem exists_mem_fragments_of_mem_nodes (extractor : Extractor) (least : Nat) (corpus : Corpus)
    (ha : a ∈ (extractor.graph corpus.sentences).nodes) :
    ∃ f ∈ (ofCorpus extractor least corpus).fragments, a ∈ f.members := by
  obtain ⟨i, hi⟩ := Option.isSome_iff_exists.1 (Graph.isSome_classOf?_partition.2 ha)
  obtain ⟨f, hf, rfl⟩ := exists_fragment_of_classOf? extractor least corpus hi
  exact ⟨f, hf, (mem_members hf).2 hi⟩

theorem cuts_iff_mem_nodes (hf : f ∈ (ofCorpus extractor least corpus).fragments) (hu : u ≠ [])
    (hv : v ≠ []) (huv : u ++ v ∈ f.members) :
    Cuts (extractor.graph corpus.sentences).partition f u v ↔
      u ∈ (extractor.graph corpus.sentences).nodes ∧
        v ∈ (extractor.graph corpus.sentences).nodes := by
  simp only [← Graph.isSome_classOf?_partition, Option.isSome_iff_exists]
  constructor
  · rintro ⟨d, -, hleft, hright⟩
    exact ⟨⟨d.left, hleft⟩, ⟨d.right, hright⟩⟩
  · rintro ⟨⟨j, hj⟩, ⟨k, hk⟩⟩
    have hclass := (mem_members hf).1 huv
    exact ⟨⟨j, k⟩, (mem_decompositions hf).2 ⟨u, v, hu, hv, hclass, hj, hk⟩, hj, hk⟩

theorem cuts_iff_long_enough (hf : f ∈ (ofCorpus extractor least corpus).fragments)
    (hu : u ≠ []) (hv : v ≠ []) (huv : u ++ v ∈ f.members) :
    Cuts (extractor.graph corpus.sentences).partition f u v ↔
      extractor.policy.minimum.toInt ≤ u.length ∧ extractor.policy.minimum.toInt ≤ v.length := by
  have hleft : [] ++ u ++ v ∈ (extractor.graph corpus.sentences).nodes :=
    mem_nodes_of_mem_members hf huv
  have hright : u ++ v ++ [] ∈ (extractor.graph corpus.sentences).nodes := by
    rwa [List.append_nil]
  rw [cuts_iff_mem_nodes hf hu hv huv, Extractor.part_mem_nodes_iff (.inr hv) hleft,
    Extractor.part_mem_nodes_iff (.inl hu) hright]

/-! ## Derivations of members -/

theorem derives_token (hf : f ∈ (ofCorpus extractor least corpus).fragments) {token : Bytes}
    (h : [token] ∈ f.members) :
    (ofCorpus extractor least corpus).toContextFree.Derives [.nonterminal (.ofClass f.index)]
      (Phrase.terminals [token]) :=
  .single (produces_token hf ((mem_tokens hf).2 ((mem_members hf).1 h)))

/-- If single tokens are long enough, a class yields its members: the first token and the
rest are members of classes again. -/
theorem derives_member (hmin : extractor.policy.minimum = 1)
    (hf : f ∈ (ofCorpus extractor least corpus).fragments) (ha : a ∈ f.members) :
    (ofCorpus extractor least corpus).toContextFree.Derives [.nonterminal (.ofClass f.index)]
      a.terminals := by
  induction a generalizing f with
  | nil =>
    have hallows := (Extractor.mem_nodes_iff_part.1 (mem_nodes_of_mem_members hf ha)).1
    exact absurd (hallows.pos extractor.policy_valid) (Nat.lt_irrefl 0)
  | cons token rest ih =>
    by_cases hrest : rest = []
    · subst hrest
      exact derives_token hf ha
    · have hone : extractor.policy.minimum.toInt = 1 := by
        rw [hmin]
        rfl
      have hlength : 0 < rest.length := List.length_pos_iff.2 hrest
      obtain ⟨d, hd, hleft, hright⟩ := (cuts_iff_long_enough hf (List.cons_ne_nil token [])
        hrest ha).2 ⟨by simp [hone], by omega⟩
      obtain ⟨f₁, hf₁, hindex₁⟩ := exists_fragment_of_classOf? extractor least corpus hleft
      obtain ⟨f₂, hf₂, hindex₂⟩ := exists_fragment_of_classOf? extractor least corpus hright
      have hfirst := derives_token hf₁ ((mem_members hf₁).2 (hindex₁ ▸ hleft))
      have hlast := ih hf₂ ((mem_members hf₂).2 (hindex₂ ▸ hright))
      have hcut := produces_decomposition hf hd
      rw [hindex₁] at hfirst
      rw [hindex₂] at hlast
      exact hcut.trans_derives (ContextFree.derives_append hfirst hlast)

/-! ## Derivations of sentences -/

/-- The fragment has the place between `l` and `r` as a pattern, with the markers, and
without them the start symbol yields the class in this place. -/
structure HasPlace (g : Grammar) (f : Fragment) (l r : Phrase) : Prop where
  pattern : ⟨startMarker :: l, f.index, r ++ [endMarker]⟩ ∈ f.patterns
  produces : g.toContextFree.Produces [.nonterminal .start]
    (l.terminals ++ [.nonterminal (.ofClass f.index)] ++ r.terminals)

theorem hasPlace_of_mem_members (hwidth : extractor.width = 0)
    (hf : f ∈ (ofCorpus extractor least corpus).fragments) (ha : a ∈ f.members) {l r : Phrase}
    (hne : l ≠ [] ∨ r ≠ []) (hmem : l ++ a ++ r ∈ corpus.sentences.map Sentence.tokens) :
    HasPlace (ofCorpus extractor least corpus) f l r := by
  have hallows := (Extractor.mem_nodes_iff_part.1 (mem_nodes_of_mem_members hf ha)).1
  have hattests : (extractor.extract corpus.sentences).Attests a (Context.around l r) :=
    (Extractor.attests_whole hwidth).2 ⟨hallows, l, r, hne, hmem, rfl⟩
  have hpattern : ⟨startMarker :: l, f.index, r ++ [endMarker]⟩ ∈ f.patterns :=
    (mem_patterns hf).2 ⟨rfl, a, (mem_members hf).1 ha, hattests⟩
  exact ⟨hpattern, produces_pattern hf hpattern (Pattern.inner?_eq_some.2 ⟨rfl, rfl⟩)⟩

theorem derives_around (hmin : extractor.policy.minimum = 1)
    (hf : f ∈ (ofCorpus extractor least corpus).fragments) (ha : a ∈ f.members) (l r : Phrase) :
    (ofCorpus extractor least corpus).toContextFree.Derives
      (l.terminals ++ [.nonterminal (.ofClass f.index)] ++ r.terminals)
      (l ++ a ++ r).terminals := by
  rw [Phrase.terminals_append, Phrase.terminals_append]
  exact ((derives_member hmin hf ha).append_left l.terminals).append_right r.terminals

structure CutsLongEnough (policy : LengthPolicy) (p : Partition) (f : Fragment) : Prop where
  iff : ∀ u v, u ≠ [] → v ≠ [] → p.classOf? (u ++ v) = some f.index →
    (Cuts p f u v ↔ policy.minimum.toInt ≤ u.length ∧ policy.minimum.toInt ≤ v.length)
  only : ∀ d ∈ f.decompositions, ∃ u v, u ≠ [] ∧ v ≠ [] ∧ p.classOf? (u ++ v) = some f.index ∧
    p.classOf? u = some d.left ∧ p.classOf? v = some d.right

/-- A cut of a member gives a rule exactly when both parts are long enough. If single
tokens are long enough, a class yields its members; with whole contexts the start symbol
then yields, by the pattern of each place of a member, what the sentence becomes when
another member of the class takes the place. -/
theorem classes_yield_members (extractor : Extractor) (least : Nat) (corpus : Corpus) :
    (∀ f ∈ (ofCorpus extractor least corpus).fragments,
      CutsLongEnough extractor.policy (extractor.graph corpus.sentences).partition f) ∧
    (extractor.policy.minimum = 1 →
      (∀ a i, (extractor.graph corpus.sentences).partition.classOf? a = some i →
        (ofCorpus extractor least corpus).toContextFree.Derives [.nonterminal (.ofClass i)]
          a.terminals) ∧
      (extractor.width = 0 → ∀ l a r : Phrase, (l ≠ [] ∨ r ≠ []) →
        l ++ a ++ r ∈ corpus.sentences.map Sentence.tokens →
        a ∈ (extractor.graph corpus.sentences).nodes →
        ∃ f ∈ (ofCorpus extractor least corpus).fragments,
          (extractor.graph corpus.sentences).partition.classOf? a = some f.index ∧
          HasPlace (ofCorpus extractor least corpus) f l r ∧
          ∀ b : Phrase, (extractor.graph corpus.sentences).partition.sameClass a b = true →
            (ofCorpus extractor least corpus).toContextFree.Derives
              (l.terminals ++ [.nonterminal (.ofClass f.index)] ++ r.terminals)
              (l ++ b ++ r).terminals ∧
            l ++ b ++ r ∈ (ofCorpus extractor least corpus).toContextFree.language)) := by
  refine ⟨fun f hf => ⟨?_, ?_⟩, fun hmin => ⟨?_, ?_⟩⟩
  · intro u v hu hv hclass
    exact cuts_iff_long_enough hf hu hv ((mem_members hf).2 hclass)
  · intro d hd
    exact (mem_decompositions hf).1 hd
  · intro a i ha
    obtain ⟨f, hf, rfl⟩ := exists_fragment_of_classOf? extractor least corpus ha
    exact derives_member hmin hf ((mem_members hf).2 ha)
  · intro hwidth l a r hne hmem hnode
    obtain ⟨f, hf, ha⟩ := exists_mem_fragments_of_mem_nodes extractor least corpus hnode
    have hclass := (mem_members hf).1 ha
    have hplace := hasPlace_of_mem_members hwidth hf ha hne hmem
    refine ⟨f, hf, hclass, hplace, ?_⟩
    intro b hb
    obtain ⟨i, hai, hbi⟩ := Partition.sameClass_iff_classOf?.1 hb
    rw [hclass, Option.some.injEq] at hai
    have hderives := derives_around hmin hf ((mem_members hf).2 (hai ▸ hbi)) l r
    exact ⟨hderives, hplace.produces.trans_derives hderives⟩

/-- No sentence of the corpus says that the dog walked. -/
theorem dog_quickly_walked :
    [utf8 "the", utf8 "dog", utf8 "quickly", utf8 "walked"] ∉
      Corpus.dogsAndCats.sentences.map Sentence.tokens ∧
    [utf8 "the", utf8 "dog", utf8 "quickly", utf8 "walked"] ∈
      (ofCorpus Extractor.whole 2 Corpus.dogsAndCats).toContextFree.language := by
  refine ⟨by decide, ?_⟩
  have hsentence : [utf8 "the"] ++ [utf8 "cat"] ++ [utf8 "quickly", utf8 "walked"] ∈
      Corpus.dogsAndCats.sentences.map Sentence.tokens := by decide
  have hnode : [utf8 "cat"] ∈ (Extractor.whole.graph Corpus.dogsAndCats.sentences).nodes :=
    Extractor.mem_nodes_iff_part.2
      ⟨Extractor.allows_whole Nat.one_pos, _, _, .inl (by decide), hsentence⟩
  have hclass : (Extractor.whole.graph Corpus.dogsAndCats.sentences).partition.sameClass
      [utf8 "cat"] [utf8 "dog"] = true :=
    Extractor.sameClass_of_interchangeable rfl Extractor.cat_interchangeable_dog
  obtain ⟨-, hyields⟩ := classes_yield_members Extractor.whole 2 Corpus.dogsAndCats
  obtain ⟨f, -, -, -, hmembers⟩ :=
    (hyields rfl).2 rfl _ _ _ (.inl (by decide)) hsentence hnode
  exact (hmembers _ hclass).2

end Grammar

end Substitutability
