import Substitutability.Proofs.Grammar.Agreement

/-!
# A context determines its class

Phrases with a common context are joined, so they are in one class, and no context is
a pattern of two classes. The patterns of all fragments together are therefore the
contexts of the corpus, each of them once.
-/

set_option autoImplicit false

namespace Substitutability

namespace Extractor

variable {extractor : Extractor} {sentences : List Sentence}

theorem sameClass_of_attests {a b : Phrase} {context : Context}
    (ha : (extractor.extract sentences).Attests a context)
    (hb : (extractor.extract sentences).Attests b context) :
    (extractor.graph sentences).partition.sameClass a b = true := by
  apply Graph.sameClass_partition.2
  constructor
  · exact Graph.mem_nodes_ofContexts.2 ⟨context, ha⟩
  · by_cases hab : a = b
    · exact hab ▸ .refl
    · exact .single (Graph.hasEdge_ofContexts.2 ⟨hab, context, ha, hb⟩)

end Extractor

theorem Pattern.eq_of_context_eq {p q : Pattern} (hindex : p.index = q.index)
    (hcontext : p.context = q.context) : p = q := by
  obtain ⟨hleft, hright⟩ := Context.mk.inj hcontext
  cases p
  cases q
  simp_all

namespace Grammar

variable {extractor : Extractor} {least : Nat} {corpus : Corpus} {f f' : Fragment}
  {pattern pattern' : Pattern}

theorem mem_patterns_iff_attests {p : Partition}
    (hf : f ∈ (induce extractor least corpus p).fragments) :
    pattern ∈ f.patterns ↔ pattern.index = f.index ∧ ∃ a, p.classOf? a = some f.index ∧
      (extractor.extract corpus.sentences).Attests a pattern.context :=
  mem_patterns hf

theorem nodup_indices (p : Partition) :
    ((induce extractor least corpus p).fragments.map Fragment.index).Nodup := by
  have hindices : (induce extractor least corpus p).fragments.map Fragment.index =
      p.classes.map CongruenceClass.index := by
    rw [fragments_eq_map, List.map_map]
    rfl
  rw [hindices, p.numbered]
  exact List.nodup_range

theorem eq_of_index_eq {p : Partition} (hf : f ∈ (induce extractor least corpus p).fragments)
    (hf' : f' ∈ (induce extractor least corpus p).fragments) (h : f.index = f'.index) :
    f = f' :=
  List.inj_on_of_nodup_map (nodup_indices p) hf hf' h

theorem exists_fragment_of_classOf? (extractor : Extractor) (least : Nat) (corpus : Corpus)
    {p : Partition} {a : Phrase} {i : Nat} (h : p.classOf? a = some i) :
    ∃ f ∈ (induce extractor least corpus p).fragments, f.index = i := by
  obtain ⟨c, hc, rfl, -⟩ := Partition.classOf?_eq_some.1 h
  exact ⟨_, mem_fragments.2 ⟨c, hc, rfl⟩, rfl⟩

theorem nodup_contexts_of_mem {p : Partition}
    (hf : f ∈ (induce extractor least corpus p).fragments) :
    (f.patterns.toList.map Pattern.context).Nodup := by
  refine List.Nodup.map_on ?_ f.patterns.ascending.nodup
  intro pattern hpattern pattern' hpattern' h
  have hindex := ((mem_patterns_iff_attests hf).1 hpattern).1
  have hindex' := ((mem_patterns_iff_attests hf).1 hpattern').1
  exact Pattern.eq_of_context_eq (hindex.trans hindex'.symm) h

theorem mem_contexts_of_mem {p : Partition}
    (hf : f ∈ (induce extractor least corpus p).fragments) {context : Context} :
    context ∈ f.patterns.toList.map Pattern.context ↔ ∃ a, p.classOf? a = some f.index ∧
      (extractor.extract corpus.sentences).Attests a context := by
  rw [List.mem_map]
  constructor
  · intro h
    obtain ⟨pattern, hpattern, rfl⟩ := h
    exact ((mem_patterns_iff_attests hf).1 hpattern).2
  · intro h
    exact ⟨⟨context.left, f.index, context.right⟩, (mem_patterns_iff_attests hf).2 ⟨rfl, h⟩, rfl⟩

/-- One context, one pattern: the class is that of all phrases with the context. -/
theorem pattern_eq_of_context_eq (hf : f ∈ (ofCorpus extractor least corpus).fragments)
    (hf' : f' ∈ (ofCorpus extractor least corpus).fragments) (hpattern : pattern ∈ f.patterns)
    (hpattern' : pattern' ∈ f'.patterns) (h : pattern.context = pattern'.context) :
    pattern = pattern' := by
  obtain ⟨hindex, a, ha, hattests⟩ := (mem_patterns_iff_attests hf).1 hpattern
  obtain ⟨hindex', b, hb, hattests'⟩ := (mem_patterns_iff_attests hf').1 hpattern'
  have hsame := Extractor.sameClass_of_attests hattests (h ▸ hattests')
  obtain ⟨i, hai, hbi⟩ := Partition.sameClass_iff_classOf?.1 hsame
  have hclass : f.index = f'.index := by
    rw [ha, Option.some.injEq] at hai
    rw [hb, Option.some.injEq] at hbi
    exact hai.trans hbi.symm
  exact Pattern.eq_of_context_eq (hindex.trans (hclass.trans hindex'.symm)) h

theorem fragment_eq_of_context_eq (hf : f ∈ (ofCorpus extractor least corpus).fragments)
    (hf' : f' ∈ (ofCorpus extractor least corpus).fragments) (hpattern : pattern ∈ f.patterns)
    (hpattern' : pattern' ∈ f'.patterns) (h : pattern.context = pattern'.context) : f = f' := by
  have heq := pattern_eq_of_context_eq hf hf' hpattern hpattern' h
  have hindex := ((mem_patterns_iff_attests hf).1 hpattern).1
  have hindex' := ((mem_patterns_iff_attests hf').1 hpattern').1
  exact eq_of_index_eq hf hf' (by rw [← hindex, ← hindex', heq])

/-! ## Counting contexts -/

def patterns (g : Grammar) : List Pattern :=
  g.fragments.flatMap fun f => f.patterns.toList

theorem length_patterns (g : Grammar) :
    g.patterns.length = total (g.fragments.map Fragment.patternCount) := by
  rw [patterns]
  induction g.fragments with
  | nil => rfl
  | cons f rest ih =>
    rw [List.flatMap_cons, List.length_append, ih]
    rfl

theorem nodup_patterns (p : Partition) : (induce extractor least corpus p).patterns.Nodup := by
  rw [patterns, List.nodup_flatMap]
  constructor
  · exact fun f _ => f.patterns.ascending.nodup
  · apply (List.pairwise_map.1 (nodup_indices p)).imp_of_mem
    intro f f' hf hf' hne pattern hpattern hpattern'
    have hindex := ((mem_patterns_iff_attests hf).1 hpattern).1
    have hindex' := ((mem_patterns_iff_attests hf').1 hpattern').1
    exact hne (hindex.symm.trans hindex')

theorem nodup_contexts (extractor : Extractor) (least : Nat) (corpus : Corpus) :
    ((ofCorpus extractor least corpus).patterns.map Pattern.context).Nodup := by
  refine List.Nodup.map_on ?_ (nodup_patterns _)
  intro pattern hpattern pattern' hpattern' h
  obtain ⟨f, hf, hmem⟩ := List.mem_flatMap.1 hpattern
  obtain ⟨f', hf', hmem'⟩ := List.mem_flatMap.1 hpattern'
  exact pattern_eq_of_context_eq hf hf' hmem hmem' h

theorem mem_contexts {context : Context} :
    context ∈ (ofCorpus extractor least corpus).patterns.map Pattern.context ↔
      ∃ a, (extractor.extract corpus.sentences).Attests a context := by
  rw [patterns, List.map_flatMap, List.mem_flatMap]
  constructor
  · intro h
    obtain ⟨f, hf, hcontext⟩ := h
    obtain ⟨a, -, hattests⟩ := (mem_contexts_of_mem hf).1 hcontext
    exact ⟨a, hattests⟩
  · intro h
    obtain ⟨a, hattests⟩ := h
    have hsame := Extractor.sameClass_of_attests hattests hattests
    obtain ⟨i, ha, -⟩ := Partition.sameClass_iff_classOf?.1 hsame
    obtain ⟨f, hf, rfl⟩ := exists_fragment_of_classOf? extractor least corpus ha
    exact ⟨f, hf, (mem_contexts_of_mem hf).2 ⟨a, ha, hattests⟩⟩

theorem total_patternCount_eq {contexts : List Context} (h : contexts.Nodup)
    (hmem : ∀ context, context ∈ contexts ↔
      ∃ a, (extractor.extract corpus.sentences).Attests a context) :
    total ((ofCorpus extractor least corpus).fragments.map Fragment.patternCount) =
      contexts.length := by
  have hperm : ((ofCorpus extractor least corpus).patterns.map Pattern.context).Perm contexts := by
    apply (List.perm_ext_iff_of_nodup (nodup_contexts extractor least corpus) h).2
    intro context
    rw [mem_contexts, hmem]
  rw [← length_patterns, ← hperm.length_eq, List.length_map]

/-- In the grammar of a corpus a context belongs to one fragment, and the numbers of
patterns of all fragments add up to the number of contexts that were extracted, which
is also the number of contexts in the index of the graph. -/
theorem context_determines_fragment (extractor : Extractor) (least : Nat) (corpus : Corpus) :
    (∀ f ∈ (ofCorpus extractor least corpus).fragments,
      ∀ f' ∈ (ofCorpus extractor least corpus).fragments,
        ∀ pattern ∈ f.patterns, ∀ pattern' ∈ f'.patterns,
          pattern.left = pattern'.left → pattern.right = pattern'.right → f = f') ∧
    total ((ofCorpus extractor least corpus).fragments.map Fragment.patternCount) =
      (extractor.extract corpus.sentences).distinctContexts.toList.length ∧
    total ((ofCorpus extractor least corpus).fragments.map Fragment.patternCount) =
      (extractor.graph corpus.sentences).contextIndex.size := by
  refine ⟨?_, ?_, ?_⟩
  · intro f hf f' hf' pattern hpattern pattern' hpattern' hleft hright
    exact fragment_eq_of_context_eq hf hf' hpattern hpattern' (by simp [Pattern.context, hleft, hright])
  · apply total_patternCount_eq (SortedSet.ascending _).nodup
    exact fun context => ContextSet.mem_distinctContexts
  · have hsize : (extractor.graph corpus.sentences).contextIndex.size =
        (extractor.graph corpus.sentences).contextIndex.keys.length :=
      (List.length_map _).symm
    rw [hsize]
    apply total_patternCount_eq (SortedMap.ascending _).nodup
    exact fun context => Graph.mem_contextIndex

end Grammar

end Substitutability
