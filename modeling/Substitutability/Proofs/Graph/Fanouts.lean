import Substitutability.Proofs.Graph.OfContexts
import Substitutability.Proofs.Partition.Counting

/-!
# Phrases that share a context

The index lists the phrases of each context. They are all in one class, and where they are
several every two of them are joined. So a shared context is there exactly when an edge is.
-/

set_option autoImplicit false

namespace Substitutability.Graph

variable {s : ContextSet} {c : Context}

def sharers (s : ContextSet) (c : Context) : List Phrase :=
  (positions s.described c).filterMap (ofContexts s).node?

theorem mem_sharers {a : Phrase} : a ∈ sharers s c ↔ s.Attests a c := by
  rw [sharers, List.mem_filterMap]
  constructor
  · intro h
    obtain ⟨i, hi, ha⟩ := h
    exact (mem_positions_iff ha).1 hi
  · intro h
    obtain ⟨i, hi⟩ := List.mem_iff_getElem?.1 (mem_nodes_ofContexts.2 ⟨c, h⟩)
    exact ⟨i, (mem_positions_iff hi).2 h, hi⟩

theorem nodup_sharers (s : ContextSet) (c : Context) : (sharers s c).Nodup := by
  apply List.pairwise_filterMap.2
  apply (positions_ascending (fun _ _ => ContextSet.ascending_contexts) c).imp
  intro i j hij a ha b hb hab
  have := node_injective ha (hab ▸ hb)
  omega

theorem length_sharers (s : ContextSet) (c : Context) :
    (sharers s c).length = (positions s.described c).length := by
  rw [sharers, List.length_filterMap_eq_countP, List.countP_eq_length]
  intro i hi
  obtain ⟨a, ha, -⟩ := mem_positions_described.1 hi
  rw [node?, ha]
  rfl

theorem mem_fanouts {n : Nat} :
    n ∈ (ofContexts s).fanouts ↔ ∃ c, (sharers s c).length = n ∧ sharers s c ≠ [] := by
  simp only [fanouts, List.mem_map, SortedMap.mem_values, find?_contextIndex, length_sharers,
    ← List.length_pos_iff_ne_nil]
  constructor
  · intro h
    obtain ⟨is, ⟨c, rfl, hne⟩, hn⟩ := h
    exact ⟨c, hn, hne⟩
  · intro h
    obtain ⟨c, hn, hne⟩ := h
    exact ⟨_, ⟨c, rfl, hne⟩, hn⟩

theorem greatest_fanouts_le (s : ContextSet) :
    greatest (ofContexts s).fanouts ≤ (ofContexts s).partition.largestSize := by
  rw [greatest_le_iff]
  intro n hn
  obtain ⟨c, rfl, hne⟩ := mem_fanouts.1 hn
  obtain ⟨a, ha⟩ := List.exists_mem_of_ne_nil _ hne
  have hattests := mem_sharers.1 ha
  obtain ⟨d, hd, had⟩ := mem_nodes_iff_class.1 (mem_nodes_ofContexts.2 ⟨c, hattests⟩)
  have hmembers : sharers s c ⊆ d.members := by
    intro b hb
    rw [((ofContexts s).partition_isComponentPartition).mem_members_iff_joined hd had]
    by_cases hab : a = b
    · exact hab ▸ .refl
    · exact .single (hasEdge_ofContexts.2 ⟨hab, c, hattests, mem_sharers.1 hb⟩)
  have hlength := (List.subperm_of_subset (nodup_sharers s c) hmembers).length_le
  exact hlength.trans (size_le_largestSize hd)

theorem two_le_length_sharers :
    2 ≤ (sharers s c).length ↔ ∃ a b, a ≠ b ∧ s.Attests a c ∧ s.Attests b c := by
  simp only [← mem_sharers]
  have hnodup := nodup_sharers s c
  constructor
  · intro h
    have hpos : 0 < (sharers s c).length := by omega
    obtain ⟨a, ha⟩ := List.exists_mem_of_length_pos hpos
    obtain ⟨b, hb, hne⟩ := exists_mem_ne hnodup ha (by omega)
    exact ⟨a, b, hne.symm, ha, hb⟩
  · intro h
    obtain ⟨a, b, hab, ha, hb⟩ := h
    have hpair : [a, b].Nodup := by simp [hab]
    exact (List.subperm_of_subset hpair (by simp [ha, hb])).length_le

theorem edgeCount_ofContexts_eq_zero_iff :
    (ofContexts s).edgeCount = 0 ↔ ¬∃ a b c, a ≠ b ∧ s.Attests a c ∧ s.Attests b c := by
  rw [edgeCount_eq_zero_iff_hasEdge]
  simp only [← Bool.not_eq_true, hasEdge_ofContexts, not_exists, not_and]
  constructor
  · intro h a b c hab ha hb
    exact h a b hab c ha hb
  · intro h a b hab c ha hb
    exact h a b c hab ha hb

theorem sharedContexts_eq_zero_iff (s : ContextSet) :
    (ofContexts s).statistics.sharedContexts = 0 ↔ (ofContexts s).edgeCount = 0 := by
  rw [edgeCount_ofContexts_eq_zero_iff]
  show List.countP _ (ofContexts s).fanouts = 0 ↔ _
  simp only [List.countP_eq_zero, decide_eq_true_eq, mem_fanouts]
  constructor
  · intro h hshared
    obtain ⟨a, b, c, hab, ha, hb⟩ := hshared
    have htwo := two_le_length_sharers.2 ⟨a, b, hab, ha, hb⟩
    exact h _ ⟨c, rfl, List.ne_nil_of_mem (mem_sharers.2 ha)⟩ htwo
  · intro h n hn htwo
    obtain ⟨c, rfl, -⟩ := hn
    obtain ⟨a, b, hshared⟩ := two_le_length_sharers.1 htwo
    exact h ⟨a, b, c, hshared⟩

theorem size_contextIndex (s : ContextSet) :
    s.distinctContexts.toList.length = (ofContexts s).contextIndex.size := by
  have hcontexts : s.distinctContexts.toList = (ofContexts s).contextIndex.keys := by
    apply eq_of_ascending s.distinctContexts.ascending (ofContexts s).contextIndex.ascending
    intro c
    exact ContextSet.mem_distinctContexts.trans mem_contextIndex.symm
  rw [hcontexts, SortedMap.size_eq_length_keys]

end Substitutability.Graph
