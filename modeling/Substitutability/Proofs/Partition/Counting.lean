import Mathlib.Algebra.Group.Nat.Even
import Substitutability.Proofs.DisjointSet.Counting
import Substitutability.Proofs.Graph.Degrees
import Substitutability.Proofs.Partition.Components

/-!
# Nodes, edges and classes counted

The partners of a phrase are other members of its class, so a class of `k` members has at
most `k * (k - 1) / 2` edges. In a class of several members everyone has a partner. Each
edge saves one class at most, since it unites two roots.
-/

set_option autoImplicit false

namespace Substitutability

theorem exists_mem_ne {α : Type} {xs : List α} {a : α} (h : xs.Nodup) (ha : a ∈ xs)
    (hlength : xs.length ≠ 1) : ∃ b ∈ xs, b ≠ a := by
  by_contra hno
  push Not at hno
  rw [List.eq_replicate_of_mem hno, List.nodup_replicate] at h
  have := List.length_pos_of_mem ha
  omega

namespace Graph

variable {g : Graph} {c : CongruenceClass} {a : Phrase}

/-! ## Members and partners -/

theorem perm_members (g : Graph) :
    (g.partition.classes.flatMap CongruenceClass.members).Perm g.nodes := by
  have hmembers := members_classesOf g.components
  exact hmembers ▸ g.perm_flatten_components

theorem memberCount_partition (g : Graph) : g.partition.memberCount = g.nodeCount := by
  rw [nodeCount, ← g.perm_members.length_eq, List.length_flatMap, Partition.memberCount,
    total_eq_sum]
  rfl

theorem size_le_largestSize {p : Partition} (hc : c ∈ p.classes) : c.size ≤ p.largestSize :=
  le_greatest (List.mem_map_of_mem hc)

theorem length_partners_lt_size (hc : c ∈ g.partition.classes) (ha : a ∈ c.members) :
    (g.partners a).length + 1 ≤ c.size := by
  have hself : a ∉ g.partners a := by
    rw [mem_partners]
    intro h
    obtain ⟨i, j, hi, hj, hedge⟩ := hasEdge_iff.1 h
    exact ne_of_mem_edges hedge (node_injective hi hj)
  have hnodup : (a :: g.partners a).Nodup := List.nodup_cons.2 ⟨hself, g.nodup_partners a⟩
  have hsubset : a :: g.partners a ⊆ c.members := by
    intro b hb
    rw [g.partition_isComponentPartition.mem_members_iff_joined hc ha]
    rcases List.mem_cons.1 hb with rfl | hb
    · exact .refl
    · exact .single (mem_partners.1 hb)
  exact (List.subperm_of_subset hnodup hsubset).length_le

theorem partners_ne_nil (hc : c ∈ g.partition.classes) (ha : a ∈ c.members)
    (hsize : c.isSingleton = false) : g.partners a ≠ [] := by
  have hlength : c.members.length ≠ 1 := by
    rwa [Ne, ← CongruenceClass.size, ← CongruenceClass.isSingleton_iff, Bool.not_eq_true]
  obtain ⟨b, hb, hne⟩ := exists_mem_ne (Partition.nodup_members hc) ha hlength
  have hjoined := (g.partition_isComponentPartition.mem_members_iff_joined hc ha).1 hb
  rcases hjoined.cases_head with rfl | ⟨d, had, -⟩
  · exact absurd rfl hne
  · exact List.ne_nil_of_mem (mem_partners.2 had)

/-! ## Isolated nodes -/

theorem countP_isolated (hc : c ∈ g.partition.classes) :
    c.members.countP (fun a => (g.partners a).length == 0) =
      if c.isSingleton then 1 else 0 := by
  cases hsize : c.isSingleton with
  | false =>
    simp only [Bool.false_eq_true, if_false, List.countP_eq_zero, beq_iff_eq,
      List.length_eq_zero_iff]
    exact fun a ha => partners_ne_nil hc ha hsize
  | true =>
    have hone := CongruenceClass.isSingleton_iff.1 hsize
    rw [if_pos rfl, ← hone, CongruenceClass.size, List.countP_eq_length]
    intro a ha
    have hlt := length_partners_lt_size hc ha
    rw [beq_iff_eq]
    omega

theorem isolated_eq_singletons (g : Graph) :
    g.degrees.countP (· == 0) = g.partition.singletonCount := by
  have hclasses : g.partition.classes.map
        (List.countP (fun a => (g.partners a).length == 0) ∘ CongruenceClass.members) =
      g.partition.classes.map fun c => if c.isSingleton then 1 else 0 :=
    List.map_congr_left fun c hc => countP_isolated hc
  rw [degrees_eq, List.countP_map, ← g.perm_members.countP_eq, Partition.singletonCount]
  show List.countP (fun a => (g.partners a).length == 0) _ = _
  rw [List.countP_flatMap, hclasses]
  induction g.partition.classes with
  | nil => rfl
  | cons c rest ih => rw [List.map_cons, List.sum_cons, ih, List.countP_cons, Nat.add_comm]

/-! ## Bounds on the number of edges -/

theorem two_mul_edgeCount_le (g : Graph) :
    2 * g.edgeCount ≤ (g.partition.classes.map fun c => c.size * (c.size - 1)).sum := by
  have hclass : ∀ c ∈ g.partition.classes,
      (c.members.map fun a => (g.partners a).length).sum ≤ c.size * (c.size - 1) := by
    intro c hc
    have hmember : ∀ n ∈ c.members.map fun a => (g.partners a).length, n ≤ c.size - 1 := by
      intro n hn
      obtain ⟨a, ha, rfl⟩ := List.mem_map.1 hn
      have := length_partners_lt_size hc ha
      omega
    simpa [CongruenceClass.size] using List.sum_le_card_nsmul _ _ hmember
  have hdegrees : (g.nodes.map fun a => (g.partners a).length).sum =
      (g.partition.classes.map fun c => (c.members.map fun a => (g.partners a).length).sum).sum := by
    rw [← (g.perm_members.map _).sum_eq, List.map_flatMap, List.flatMap_def, List.sum_flatten,
      List.map_map]
    rfl
  rw [← total_degrees, total_eq_sum, degrees_eq, hdegrees]
  exact List.sum_le_sum hclass

theorem edgeCount_le_pairs (g : Graph) :
    g.edgeCount ≤ total (g.partition.classes.map fun c => c.size * (c.size - 1) / 2) := by
  have hhalves : (g.partition.classes.map fun c => c.size * (c.size - 1)).sum =
      2 * total (g.partition.classes.map fun c => c.size * (c.size - 1) / 2) := by
    induction g.partition.classes with
    | nil => rfl
    | cons c rest ih =>
      have heven := Nat.even_mul_pred_self c.size
      have hhalf := Nat.two_mul_div_two_of_even heven
      rw [List.map_cons, List.sum_cons, ih, List.map_cons, total]
      omega
  have := g.two_mul_edgeCount_le
  omega

theorem exact_united (g : Graph) :
    g.united.Exact ∧ g.nodeCount ≤ g.united.count + g.edgeCount := by
  have hunited := (DisjointSet.exact_ofSize g.nodeCount).uniteAll fun _ => ends_lt_size
  rwa [ends, List.length_map, edges, ← SortedMap.size_eq_length_keys] at hunited

/-- There are as many classes as sets. -/
theorem size_partition (g : Graph) : g.partition.size = g.united.count := by
  have hgroups : g.partition.size = g.groups.length := by
    show (classesOf g.components).length = g.groups.length
    simp [classesOf, components]
  obtain ⟨hexact, -⟩ := g.exact_united
  have hkeys : (SortedMap.group (g.roots.zip g.nodes)).keys.toFinset = g.united.roots := by
    ext r
    have hlength : g.roots.length ≤ g.nodes.length := by simp [roots_eq, nodeCount]
    rw [List.mem_toFinset, SortedMap.mem_keys_group, List.map_fst_zip hlength, roots_eq,
      DisjointSet.roots, g.forest_united.2]
    simp
  have hnodup : (SortedMap.group (g.roots.zip g.nodes)).keys.Nodup := (SortedMap.ascending _).nodup
  rw [hgroups, hexact.count_eq, ← hkeys, List.toFinset_card_of_nodup hnodup, groups,
    SortedMap.values, SortedMap.keys, List.length_map, List.length_map]

theorem nodeCount_le (g : Graph) : g.nodeCount ≤ g.partition.size + g.edgeCount := by
  rw [size_partition]
  exact g.exact_united.2

theorem edgeCount_eq_zero_iff (g : Graph) :
    g.edgeCount = 0 ↔ ∀ c ∈ g.partition.classes, c.isSingleton = true := by
  constructor
  · intro hzero c hc
    by_contra hsize
    have hne := (g.partition_isComponentPartition.members c hc).1
    obtain ⟨a, ha⟩ := List.exists_mem_of_ne_nil _ hne
    obtain ⟨b, hb⟩ := List.exists_mem_of_ne_nil _
      (partners_ne_nil hc ha (Bool.eq_false_of_not_eq_true hsize))
    have hnone := edgeCount_eq_zero_iff_hasEdge.1 hzero a b
    exact Bool.false_ne_true (hnone.symm.trans (mem_partners.1 hb))
  · intro hsingle
    have hzero : (g.partition.classes.map fun c => c.size * (c.size - 1)).sum = 0 := by
      rw [List.sum_eq_zero_iff]
      intro n hn
      obtain ⟨c, hc, rfl⟩ := List.mem_map.1 hn
      simp [CongruenceClass.isSingleton_iff.1 (hsingle c hc)]
    have := g.two_mul_edgeCount_le
    omega

end Graph

end Substitutability
