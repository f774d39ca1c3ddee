import Mathlib.Algebra.Order.BigOperators.Group.List
import Substitutability.Graph.Basic
import Substitutability.Proofs.Graph.Neighbors
import Substitutability.Proofs.Occurrences

/-!
# Degrees

Every edge has two ends, so the degrees add up to twice the number of edges. The degree
of a phrase is the number of its partners, the phrases that an edge joins it to.
-/

set_option autoImplicit false

namespace Substitutability

theorem total_eq_sum (ns : List Nat) : total ns = ns.sum := by
  induction ns with
  | nil => rfl
  | cons n ns ih => rw [total, ih, List.sum_cons]

namespace Graph

theorem greatest_le_iff {ns : List Nat} {bound : Nat} :
    greatest ns ≤ bound ↔ ∀ n ∈ ns, n ≤ bound := by
  have run : ∀ start, ns.foldl max start ≤ bound ↔ start ≤ bound ∧ ∀ n ∈ ns, n ≤ bound := by
    induction ns with
    | nil => simp
    | cons n ns ih =>
      intro start
      rw [List.foldl_cons, ih, Nat.max_le, List.forall_mem_cons, and_assoc]
  simp [greatest, run 0]

theorem le_greatest {ns : List Nat} {n : Nat} (h : n ∈ ns) : n ≤ greatest ns :=
  greatest_le_iff.1 (Nat.le_refl _) n h

variable {g : Graph}

theorem edgeCount_eq_zero_iff_hasEdge :
    g.edgeCount = 0 ↔ ∀ a b, g.hasEdge a b = false := by
  rw [edgeCount, SortedMap.size_eq_length_keys, ← edges, List.length_eq_zero_iff,
    List.eq_nil_iff_forall_not_mem]
  constructor
  · intro h a b
    by_contra hab
    obtain ⟨i, j, -, -, hedge⟩ := hasEdge_iff.1 (Bool.eq_true_of_not_eq_false hab)
    exact h _ hedge
  · intro h e he
    obtain ⟨-, a, b, -, -, hab⟩ := mem_edges_iff_hasEdge.1 he
    exact Bool.false_ne_true ((h a b).symm.trans hab)

/-! ## The sum of the degrees -/

theorem countP_touches {edges : List Edge} (h : ∀ e ∈ edges, e.source < e.target) (i : Nat) :
    edges.countP (·.touches i) =
      edges.countP (·.source == i) + edges.countP (·.target == i) := by
  induction edges with
  | nil => rfl
  | cons e rest ih =>
    have he := h e List.mem_cons_self
    have hrest := ih fun f hf => h f (List.mem_cons_of_mem e hf)
    have htouches : e.touches i = true ↔ e.source = i ∨ e.target = i := by
      simp [Edge.touches]
    simp only [List.countP_cons, hrest, htouches, beq_iff_eq]
    split <;> split <;> split <;> omega

theorem degree_eq (g : Graph) (i : Nat) :
    g.degree i = g.edges.countP (·.source == i) + g.edges.countP (·.target == i) :=
  countP_touches (fun e he => (g.ordered e he).1) i

theorem sum_countP_end {f : Edge → Nat} (h : ∀ e ∈ g.edges, f e < g.nodeCount) :
    ((List.range g.nodeCount).map fun i => g.edges.countP (f · == i)).sum = g.edgeCount := by
  rw [← total_eq_sum, total_countP_keys f List.nodup_range, edgeCount,
    SortedMap.size_eq_length_keys, ← edges, List.countP_eq_length]
  intro e he
  simpa using h e he

theorem degrees_eq_map (g : Graph) : g.degrees = (List.range g.nodeCount).map g.degree := rfl

theorem total_degrees (g : Graph) : total g.degrees = 2 * g.edgeCount := by
  have hsource : ∀ e ∈ g.edges, e.source < g.nodeCount :=
    fun e he => Nat.lt_trans (g.ordered e he).1 (g.ordered e he).2
  have htarget : ∀ e ∈ g.edges, e.target < g.nodeCount := fun e he => (g.ordered e he).2
  calc total g.degrees
    _ = ((List.range g.nodeCount).map fun i =>
          g.edges.countP (·.source == i) + g.edges.countP (·.target == i)).sum := by
        simp only [total_eq_sum, degrees_eq_map, ← degree_eq]
    _ = g.edgeCount + g.edgeCount := by
        rw [List.sum_map_add, sum_countP_end hsource, sum_countP_end htarget]
    _ = 2 * g.edgeCount := (Nat.two_mul _).symm

/-! ## Partners -/

def partners (g : Graph) (a : Phrase) : List Phrase :=
  g.nodes.filter (g.hasEdge a)

theorem mem_partners {a b : Phrase} : b ∈ g.partners a ↔ g.hasEdge a b = true := by
  rw [partners, List.mem_filter, and_iff_right_iff_imp]
  exact fun h => (mem_nodes_of_hasEdge h).2

theorem nodup_partners (g : Graph) (a : Phrase) : (g.partners a).Nodup :=
  g.nodup.filter _

theorem perm_neighbors {i : Nat} {a : Phrase} (hi : g.nodes[i]? = some a) :
    ((g.partners a).filterMap g.index?).Perm (g.neighbors i) := by
  have hnodup : ((g.partners a).filterMap g.index?).Nodup := by
    apply List.pairwise_filterMap.2
    apply (g.nodup_partners a).imp
    intro b c hbc j hj k hk hjk
    rw [index?_eq_some] at hj hk
    rw [hjk, hk] at hj
    exact hbc (Option.some.inj hj).symm
  apply (List.perm_ext_iff_of_nodup hnodup (g.ascending_neighbors i).nodup).2
  intro j
  simp only [List.mem_filterMap, mem_partners, index?_eq_some, mem_neighbors, hasEdge_iff]
  constructor
  · rintro ⟨b, ⟨i', j', hi', hj', hedge⟩, hj⟩
    rwa [node_injective hi' hi, node_injective hj' hj] at hedge
  · intro hedge
    have hlt : j < g.nodes.length := by
      obtain ⟨c, hc⟩ := mem_edges.1 hedge
      exact (lt_of_find?_between hc).2
    exact ⟨g.nodes[j], ⟨i, j, hi, List.getElem?_eq_getElem hlt, hedge⟩,
      List.getElem?_eq_getElem hlt⟩

theorem length_partners {i : Nat} {a : Phrase} (hi : g.nodes[i]? = some a) :
    (g.partners a).length = g.degree i := by
  rw [← length_neighbors, ← (perm_neighbors hi).length_eq, List.length_filterMap_eq_countP, eq_comm,
    List.countP_eq_length]
  intro b hb
  obtain ⟨j, hj⟩ := List.mem_iff_getElem?.1 (List.mem_filter.1 hb).1
  rw [index?_eq_some.2 hj]
  rfl

theorem degrees_eq (g : Graph) : g.degrees = g.nodes.map fun a => (g.partners a).length := by
  apply List.ext_getElem?
  intro i
  rw [degrees_eq_map, List.getElem?_map, List.getElem?_map, nodeCount]
  cases hi : g.nodes[i]? with
  | none =>
    rw [List.getElem?_eq_none_iff] at hi
    simp [hi]
  | some a =>
    obtain ⟨hlt, -⟩ := List.getElem?_eq_some_iff.1 hi
    rw [List.getElem?_range hlt, Option.map_some, Option.map_some, length_partners hi]

end Graph

end Substitutability
