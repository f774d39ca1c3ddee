import Mathlib
import Substitutability.Proofs.Grammar.Derivation

/-!
# Productive classes

A class is productive if its members have enough contexts, all members counted together.
The parts of one member need not have as many, so a rule of a productive class may lead to
a class that is not productive. It always leads to a class of the grammar, and to a
productive one if the member that is cut has enough contexts by itself.
-/

set_option autoImplicit false

namespace Substitutability

def ContextSet.HasContexts (s : ContextSet) (count : Nat) (a : Phrase) : Prop :=
  ∃ contexts, s.contextsOf? a = some contexts ∧ count ≤ contexts.toList.length

def Decomposition.parts (d : Decomposition) : List Nat :=
  [d.left, d.right]

/-! ## Contexts of parts -/

namespace Context

/-- The context of the part that has `x` before it and `y` after it in a phrase. -/
def inward (x y : Phrase) (c : Context) : Context :=
  ⟨c.left ++ x, y ++ c.right⟩

theorem inward_injective (x y : Phrase) : Function.Injective (inward x y) := by
  rintro ⟨l, r⟩ ⟨l', r'⟩ h
  simpa [inward] using h

theorem inward_around (x y l r : Phrase) :
    (around l r).inward x y = around (l ++ x) (y ++ r) := by
  simp [inward, around]

end Context

namespace Extractor

variable {extractor : Extractor} {sentences : List Sentence} {a x y : Phrase} {c : Context}

theorem attests_part (hwidth : extractor.width = 0) (hne : x ≠ [] ∨ y ≠ [])
    (ha : extractor.policy.Allows a.length)
    (h : (extractor.extract sentences).Attests (x ++ a ++ y) c) :
    (extractor.extract sentences).Attests a (c.inward x y) := by
  obtain ⟨-, l, r, -, hmem, rfl⟩ := (attests_whole hwidth).1 h
  have hsentence : l ++ x ++ a ++ (y ++ r) ∈ sentences.map Sentence.tokens := by simpa using hmem
  have houter : l ++ x ≠ [] ∨ y ++ r ≠ [] :=
    hne.imp (List.append_ne_nil_of_right_ne_nil l) (List.append_ne_nil_of_left_ne_nil · r)
  exact (attests_whole hwidth).2
    ⟨ha, l ++ x, y ++ r, houter, hsentence, Context.inward_around x y l r⟩

end Extractor

namespace Grammar

variable {extractor : Extractor} {least : Nat} {corpus : Corpus} {p : Partition}
  {f : Fragment} {a x y : Phrase} {i : Nat}

/-! ## Fragments of classes -/

theorem fragment?_eq_some {i : Nat} : (induce extractor least corpus p).fragment? i = some f ↔
    f ∈ (induce extractor least corpus p).fragments ∧ f.index = i := by
  rw [fragment?]
  constructor
  · intro h
    exact ⟨List.mem_of_find?_eq_some h, by simpa using List.find?_some h⟩
  · intro h
    obtain ⟨hf, hindex⟩ := h
    cases hfind : (induce extractor least corpus p).fragments.find? (·.index == i) with
    | none => exact absurd (beq_iff_eq.2 hindex) (List.find?_eq_none.1 hfind f hf)
    | some f' =>
      have hindex' : f'.index = i := by simpa using List.find?_some hfind
      rw [eq_of_index_eq (List.mem_of_find?_eq_some hfind) hf (hindex'.trans hindex.symm)]

theorem productive_iff (hf : f ∈ (induce extractor least corpus p).fragments) :
    f.productive = true ↔ least ≤ f.patternCount := by
  obtain ⟨c, -, rfl⟩ := mem_fragments.1 hf
  exact decide_eq_true_iff

theorem isProductive_iff {i : Nat} : (induce extractor least corpus p).isProductive i = true ↔
    ∃ f ∈ (induce extractor least corpus p).fragments, f.index = i ∧ least ≤ f.patternCount := by
  rw [isProductive]
  constructor
  · intro h
    cases hfragment : (induce extractor least corpus p).fragment? i with
    | none => simp [hfragment] at h
    | some f =>
      obtain ⟨hf, hindex⟩ := fragment?_eq_some.1 hfragment
      rw [hfragment] at h
      exact ⟨f, hf, hindex, (productive_iff hf).1 h⟩
  · intro h
    obtain ⟨f, hf, hindex, hcount⟩ := h
    rw [fragment?_eq_some.2 ⟨hf, hindex⟩]
    exact (productive_iff hf).2 hcount

theorem mem_productive_or_unproductive {g : Grammar} (hf : f ∈ g.fragments) :
    f ∈ g.productive ∨ f ∈ g.unproductive := by
  cases h : f.productive with
  | true => exact .inl (List.mem_filter.2 ⟨hf, h⟩)
  | false => exact .inr (List.mem_filter.2 ⟨hf, by simp [h]⟩)

theorem length_le_patternCount (hf : f ∈ (induce extractor least corpus p).fragments)
    {contexts : List Context} (hnodup : contexts.Nodup)
    (h : ∀ context ∈ contexts, ∃ a, p.classOf? a = some f.index ∧
      (extractor.extract corpus.sentences).Attests a context) :
    contexts.length ≤ f.patternCount := by
  have hsubset : contexts ⊆ f.patterns.toList.map Pattern.context :=
    fun context hcontext => (mem_contexts_of_mem hf).2 (h context hcontext)
  simpa [Fragment.patternCount] using (List.subperm_of_subset hnodup hsubset).length_le

/-- A class has as many patterns as another one if the contexts of the other one, put into
different contexts, are contexts of its members. -/
theorem patternCount_le {other : Corpus} {q : Partition} {f' : Fragment} {m : Context → Context}
    (hm : Function.Injective m) (hf : f ∈ (induce extractor least corpus p).fragments)
    (hf' : f' ∈ (induce extractor least other q).fragments)
    (h : ∀ a context, p.classOf? a = some f.index →
      (extractor.extract corpus.sentences).Attests a context →
        ∃ b, q.classOf? b = some f'.index ∧
          (extractor.extract other.sentences).Attests b (m context)) :
    f.patternCount ≤ f'.patternCount := by
  have hnodup : ((f.patterns.toList.map Pattern.context).map m).Nodup :=
    (nodup_contexts_of_mem hf).map hm
  have hle : ((f.patterns.toList.map Pattern.context).map m).length ≤ f'.patternCount := by
    apply length_le_patternCount hf' hnodup
    intro context hcontext
    obtain ⟨c, hc, rfl⟩ := List.mem_map.1 hcontext
    obtain ⟨a, ha, hattests⟩ := (mem_contexts_of_mem hf).1 hc
    exact h a c ha hattests
  simpa [Fragment.patternCount] using hle

theorem patternCount_pos (hf : f ∈ (ofCorpus extractor least corpus).fragments) :
    0 < f.patternCount := by
  obtain ⟨c, hc, rfl⟩ := mem_fragments.1 hf
  obtain ⟨a, ha, context, hattests⟩ := exists_attests_of_mem_members hc
  apply length_le_patternCount hf (List.nodup_singleton context)
  intro d hd
  rw [List.mem_singleton.1 hd]
  exact ⟨a, (Partition.classOf?_eq_index hc).2 ha, hattests⟩

/-! ## Parts of members -/

theorem allows_of_classOf? {sentences : List Sentence}
    (h : (extractor.graph sentences).partition.classOf? a = some i) :
    extractor.policy.Allows a.length := by
  have hnode := Graph.isSome_classOf?_partition.1 (Option.isSome_of_eq_some h)
  exact (Extractor.mem_nodes_iff_part.1 hnode).1

/-- With whole contexts, different contexts of a phrase give different contexts of its
part, so the class of the part has as many. -/
theorem isProductive_part (hwidth : extractor.width = 0) (hne : x ≠ [] ∨ y ≠ [])
    (h : (extractor.extract corpus.sentences).HasContexts least (x ++ a ++ y))
    (ha : (extractor.graph corpus.sentences).partition.classOf? a = some i) :
    (ofCorpus extractor least corpus).isProductive i = true := by
  obtain ⟨contexts, hcontexts, hcount⟩ := h
  obtain ⟨f, hf, rfl⟩ := exists_fragment_of_classOf? extractor least corpus ha
  have hnodup : (contexts.toList.map (Context.inward x y)).Nodup :=
    contexts.ascending.nodup.map (Context.inward_injective x y)
  have hle : (contexts.toList.map (Context.inward x y)).length ≤ f.patternCount := by
    apply length_le_patternCount hf hnodup
    intro context hcontext
    obtain ⟨c, hc, rfl⟩ := List.mem_map.1 hcontext
    have hattests : (extractor.extract corpus.sentences).Attests (x ++ a ++ y) c :=
      ⟨contexts, hcontexts, hc⟩
    exact ⟨a, ha, Extractor.attests_part hwidth hne (allows_of_classOf? ha) hattests⟩
  rw [List.length_map] at hle
  exact isProductive_iff.2 ⟨f, hf, rfl, hcount.trans hle⟩

/-! ## Parts of rules -/

theorem exists_fragment_of_mem_parts (hf : f ∈ (ofCorpus extractor least corpus).fragments)
    {d : Decomposition} (hd : d ∈ f.decompositions) (hi : i ∈ d.parts) :
    ∃ f' ∈ (ofCorpus extractor least corpus).fragments, f'.index = i := by
  obtain ⟨u, v, -, -, -, hleft, hright⟩ := (mem_decompositions hf).1 hd
  rcases List.mem_pair.1 hi with rfl | rfl
  · exact exists_fragment_of_classOf? extractor least corpus hleft
  · exact exists_fragment_of_classOf? extractor least corpus hright

/-- The rules of all classes together lead to classes with rules: each one is listed,
productive or not. They lead to productive classes if one context is enough, and with
whole contexts also if the member that is cut has enough contexts alone. -/
theorem rules_lead_to_classes (extractor : Extractor) (least : Nat) (corpus : Corpus) :
    (∀ f ∈ (ofCorpus extractor least corpus).fragments, ∀ d ∈ f.decompositions, ∀ i ∈ d.parts,
      ∃ f', (ofCorpus extractor least corpus).fragment? i = some f' ∧
        (f' ∈ (ofCorpus extractor least corpus).productive ∨
          f' ∈ (ofCorpus extractor least corpus).unproductive) ∧ 0 < f'.patternCount) ∧
    (least ≤ 1 → ∀ f ∈ (ofCorpus extractor least corpus).productive,
      ∀ d ∈ f.decompositions, ∀ i ∈ d.parts,
        (ofCorpus extractor least corpus).isProductive i = true) ∧
    (extractor.width = 0 → ∀ f ∈ (ofCorpus extractor least corpus).fragments,
      ∀ d ∈ f.decompositions, ∀ u v, u ≠ [] → v ≠ [] → u ++ v ∈ f.members →
        (extractor.graph corpus.sentences).partition.classOf? u = some d.left →
        (extractor.graph corpus.sentences).partition.classOf? v = some d.right →
        (extractor.extract corpus.sentences).HasContexts least (u ++ v) →
        ∀ i ∈ d.parts, (ofCorpus extractor least corpus).isProductive i = true) := by
  refine ⟨?_, ?_, ?_⟩
  · intro f hf d hd i hi
    obtain ⟨f', hf', rfl⟩ := exists_fragment_of_mem_parts hf hd hi
    exact ⟨f', fragment?_eq_some.2 ⟨hf', rfl⟩, mem_productive_or_unproductive hf',
      patternCount_pos hf'⟩
  · intro hleast f hf d hd i hi
    obtain ⟨f', hf', rfl⟩ := exists_fragment_of_mem_parts (List.mem_filter.1 hf).1 hd hi
    exact isProductive_iff.2 ⟨f', hf', rfl, hleast.trans (patternCount_pos hf')⟩
  · intro hwidth f _ d _ u v hu hv _ hleft hright huv i hi
    rcases List.mem_pair.1 hi with rfl | rfl
    · exact isProductive_part (x := []) hwidth (.inr hv) huv hleft
    · rw [← List.append_nil (u ++ v)] at huv
      exact isProductive_part hwidth (.inl hu) huv hright

theorem article_and_noun_productive :
    (Extractor.whole.extract Corpus.dogsAndCats.sentences).HasContexts 2
      [utf8 "the", utf8 "cat"] ∧
    ∃ d : Decomposition,
      (Extractor.whole.graph Corpus.dogsAndCats.sentences).partition.classOf? [utf8 "the"] =
        some d.left ∧
      (Extractor.whole.graph Corpus.dogsAndCats.sentences).partition.classOf? [utf8 "cat"] =
        some d.right ∧
      ∀ i ∈ d.parts, (ofCorpus Extractor.whole 2 Corpus.dogsAndCats).isProductive i = true := by
  have hcontexts : (Extractor.whole.extract Corpus.dogsAndCats.sentences).HasContexts 2
      [utf8 "the", utf8 "cat"] := by
    have hcount : ((Extractor.whole.extract Corpus.dogsAndCats.sentences).contextsOf?
        [utf8 "the", utf8 "cat"]).map (fun contexts => contexts.toList.length) = some 3 := by cbv
    obtain ⟨contexts, hcontexts, hlength⟩ := Option.map_eq_some_iff.1 hcount
    exact ⟨contexts, hcontexts, by omega⟩
  have hsentence : [] ++ ([utf8 "the"] ++ [utf8 "cat"]) ++ [utf8 "ran"] ∈
      Corpus.dogsAndCats.sentences.map Sentence.tokens := by decide
  have hnode : [utf8 "the"] ++ [utf8 "cat"] ∈
      (Extractor.whole.graph Corpus.dogsAndCats.sentences).nodes :=
    Extractor.mem_nodes_iff_part.2
      ⟨Extractor.allows_whole Nat.two_pos, _, _, .inr (by decide), hsentence⟩
  obtain ⟨f, hf, hmember⟩ := exists_mem_fragments_of_mem_nodes Extractor.whole 2 _ hnode
  obtain ⟨d, hd, hleft, hright⟩ :=
    (cuts_iff_long_enough hf (by decide) (by decide) hmember).2 ⟨by decide, by decide⟩
  obtain ⟨-, -, hparts⟩ := rules_lead_to_classes Extractor.whole 2 Corpus.dogsAndCats
  exact ⟨hcontexts, d, hleft, hright,
    hparts rfl f hf d hd _ _ (by decide) (by decide) hmember hleft hright hcontexts⟩

/-- To have run, or to have walked in some way, is a productive class. Its members that
walk have an adverb first, and the class of the adverbs has one context. -/
theorem productive_class_with_unproductive_part :
    ¬ ∀ f ∈ (ofCorpus Extractor.whole 2 Corpus.dogsAndCats).productive,
      ∀ d ∈ f.decompositions, ∀ i ∈ d.parts,
        (ofCorpus Extractor.whole 2 Corpus.dogsAndCats).isProductive i = true := by
  have hsome : ((ofCorpus Extractor.whole 2 Corpus.dogsAndCats).productive.any fun f =>
      f.decompositions.toList.any fun d =>
        !(ofCorpus Extractor.whole 2 Corpus.dogsAndCats).isProductive d.left) = true := by cbv
  obtain ⟨f, hf, hrule⟩ := List.any_eq_true.1 hsome
  obtain ⟨d, hd, hunproductive⟩ := List.any_eq_true.1 hrule
  intro h
  have hproductive := h f hf d hd d.left (List.mem_cons_self ..)
  simp [hproductive] at hunproductive

end Grammar

end Substitutability
