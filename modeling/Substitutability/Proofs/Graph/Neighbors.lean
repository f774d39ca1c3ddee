import Substitutability.Proofs.Graph.Edges

/-!
# Neighbours

The neighbours of a node are the other ends of its edges, in ascending order: edges come
in the order of their sources, so those that end at the node come before those that
start there.
-/

set_option autoImplicit false

namespace Substitutability

namespace Edge

theorem between_eq_iff {i j k l : Nat} :
    between i j = between k l ↔ (i = k ∧ j = l) ∨ (i = l ∧ j = k) := by
  unfold between
  split <;> split <;> simp only [Edge.mk.injEq] <;> omega

theorem compare_eq_lt {e f : Edge} :
    compare e f = .lt ↔ e.source < f.source ∨ (e.source = f.source ∧ e.target < f.target) := by
  show (compare e.source f.source).then (compare e.target f.target) = .lt ↔ _
  rw [Ordering.then_eq_lt, Nat.compare_eq_lt, Nat.compare_eq_lt, Nat.compare_eq_eq]

theorem other?_eq_some {e : Edge} {i j : Nat} :
    e.other? i = some j ↔ (e.source = i ∧ e.target = j) ∨
      (e.source ≠ i ∧ e.target = i ∧ e.source = j) := by
  unfold other?
  by_cases hs : e.source = i
  · simp [hs]
  · by_cases ht : e.target = i <;> simp [hs, ht]

end Edge

namespace Graph

variable {g : Graph}

theorem ne_of_mem_edges {i j : Nat} (h : Edge.between i j ∈ g.edges) : i ≠ j := by
  obtain ⟨c, hc⟩ := mem_edges.1 h
  exact ne_of_between hc

theorem mem_neighbors {i j : Nat} : j ∈ g.neighbors i ↔ Edge.between i j ∈ g.edges := by
  simp only [neighbors, List.mem_filterMap, Edge.other?_eq_some]
  constructor
  · rintro ⟨e, he, ⟨rfl, rfl⟩ | ⟨-, rfl, rfl⟩⟩
    · rwa [Edge.between_of_lt (g.ordered e he).1]
    · rwa [Edge.between_of_gt (g.ordered e he).1]
  · intro h
    have hne := ne_of_mem_edges h
    refine ⟨_, h, ?_⟩
    rcases Nat.lt_or_gt_of_ne hne with hlt | hgt
    · rw [Edge.between_of_lt hlt]
      simp
    · rw [Edge.between_of_gt hgt]
      simp [Ne.symm hne]

theorem ascending_neighbors (g : Graph) (i : Nat) : Ascending (g.neighbors i) := by
  have hedges : Ascending g.edges := g.witnesses.ascending
  rw [neighbors, Ascending, List.pairwise_filterMap]
  apply hedges.imp_of_mem
  intro e f he hf hef x hx y hy
  have helt := (g.ordered e he).1
  have hflt := (g.ordered f hf).1
  rw [Edge.compare_eq_lt] at hef
  rw [Edge.other?_eq_some] at hx hy
  rw [Nat.compare_eq_lt]
  omega

end Graph

end Substitutability
