import Substitutability.Graph.Basic
import Substitutability.Proofs.Sorted

/-!
# Edges and witnesses

An edge between two phrases is an edge between their numbers. Whatever order
joins come in, each edge keeps the least context among those that it was given,
so connecting depends only on the set of joins.
-/

set_option autoImplicit false

namespace Substitutability

namespace Edge

theorem between_comm (i j : Nat) : between i j = between j i := by
  unfold between
  split <;> split
  · omega
  · rfl
  · rfl
  · have : i = j := by omega
    subst this
    rfl

theorem between_of_lt {i j : Nat} (h : i < j) : between i j = ⟨i, j⟩ := if_pos h

theorem between_of_gt {i j : Nat} (h : j < i) : between i j = ⟨j, i⟩ := if_neg (by omega)

end Edge

namespace Graph

variable {g : Graph}

theorem ext {g h : Graph} (hnodes : g.nodes = h.nodes)
    (hwitnesses : ∀ e, g.witnesses.find? e = h.witnesses.find? e)
    (hindex : g.contextIndex = h.contextIndex) : g = h := by
  obtain ⟨gn, gw, gi, _, _⟩ := g
  obtain ⟨hn, hw, hi, _, _⟩ := h
  simp only at hnodes hindex hwitnesses
  subst hnodes hindex
  have := SortedMap.ext_find? hwitnesses
  subst this
  rfl

theorem index?_eq_some {phrase : Phrase} {i : Nat} :
    g.index? phrase = some i ↔ g.nodes[i]? = some phrase := by
  rw [index?, List.idxOf?_eq_some_iff, List.getElem?_eq_some_iff]
  constructor
  · rintro ⟨hi, heq, -⟩
    exact ⟨hi, heq⟩
  · rintro ⟨hi, heq⟩
    refine ⟨hi, heq, ?_⟩
    intro j hj hphrase
    have := (List.getElem_inj g.nodup).1 (hphrase.trans heq.symm)
    omega

theorem node_injective {i j : Nat} {phrase : Phrase} (hi : g.nodes[i]? = some phrase)
    (hj : g.nodes[j]? = some phrase) : i = j := by
  rw [← index?_eq_some] at hi hj
  rw [hi] at hj
  exact Option.some.inj hj

theorem node_eq_iff {i j : Nat} {a b : Phrase} (hi : g.nodes[i]? = some a)
    (hj : g.nodes[j]? = some b) : i = j ↔ a = b := by
  constructor
  · rintro rfl
    exact Option.some.inj (hi.symm.trans hj)
  · rintro rfl
    exact node_injective hi hj

theorem addNode_of_mem {p : Phrase} (h : p ∈ g.nodes) : g.addNode p = g :=
  dif_pos h

theorem nodes_addNode_of_not_mem {p : Phrase} (h : p ∉ g.nodes) :
    (g.addNode p).nodes = g.nodes ++ [p] := by
  rw [addNode, dif_neg h]

theorem witnesses_addNode (g : Graph) (p : Phrase) : (g.addNode p).witnesses = g.witnesses := by
  rw [addNode]
  split <;> rfl

/-! ## Edges between phrases -/

theorem mem_edges {e : Edge} : e ∈ g.edges ↔ ∃ c, g.witnesses.find? e = some c :=
  SortedMap.mem_keys

theorem edge_ordered {e : Edge} {c : Context} (h : g.witnesses.find? e = some c) :
    e.source < e.target ∧ e.target < g.nodes.length :=
  g.ordered e (SortedMap.mem_keys.2 ⟨c, h⟩)

theorem ne_of_between {i j : Nat} {c : Context}
    (h : g.witnesses.find? (Edge.between i j) = some c) : i ≠ j := by
  rintro rfl
  have := (edge_ordered h).1
  simp [Edge.between] at this

theorem lt_of_find?_between {i j : Nat} {c : Context}
    (h : g.witnesses.find? (Edge.between i j) = some c) :
    i < g.nodes.length ∧ j < g.nodes.length := by
  have hordered := edge_ordered h
  unfold Edge.between at hordered
  split at hordered <;> simp only at hordered <;> omega

theorem witness?_eq {a b : Phrase} {i j : Nat} (hi : g.nodes[i]? = some a)
    (hj : g.nodes[j]? = some b) (hij : i ≠ j) :
    g.witness? a b = g.witnesses.find? (Edge.between i j) := by
  rw [witness?, index?_eq_some.2 hi, index?_eq_some.2 hj]
  exact if_neg hij

theorem witness?_eq_some {a b : Phrase} {c : Context} :
    g.witness? a b = some c ↔ ∃ i j, g.nodes[i]? = some a ∧ g.nodes[j]? = some b ∧
      g.witnesses.find? (Edge.between i j) = some c := by
  simp only [← index?_eq_some]
  constructor
  · intro h
    rw [witness?] at h
    split at h
    · rename_i i j hi hj
      split at h
      · cases h
      · exact ⟨i, j, hi, hj, h⟩
    · cases h
  · rintro ⟨i, j, hi, hj, h⟩
    rw [index?_eq_some] at hi hj
    rw [witness?_eq hi hj (ne_of_between h), h]

theorem hasEdge_iff_witness {a b : Phrase} :
    g.hasEdge a b = true ↔ ∃ c, g.witness? a b = some c := by
  rw [hasEdge, Option.isSome_iff_exists]

theorem hasEdge_iff {a b : Phrase} :
    g.hasEdge a b = true ↔ ∃ i j, g.nodes[i]? = some a ∧ g.nodes[j]? = some b ∧
      Edge.between i j ∈ g.edges := by
  simp only [hasEdge_iff_witness, witness?_eq_some, mem_edges]
  constructor
  · rintro ⟨c, i, j, hi, hj, h⟩
    exact ⟨i, j, hi, hj, c, h⟩
  · rintro ⟨i, j, hi, hj, c, h⟩
    exact ⟨c, i, j, hi, hj, h⟩

theorem witness?_comm (a b : Phrase) : g.witness? a b = g.witness? b a := by
  ext c
  simp only [witness?_eq_some]
  constructor
  · rintro ⟨i, j, hi, hj, h⟩
    exact ⟨j, i, hj, hi, Edge.between_comm i j ▸ h⟩
  · rintro ⟨i, j, hi, hj, h⟩
    exact ⟨j, i, hj, hi, Edge.between_comm i j ▸ h⟩

theorem hasEdge_comm (a b : Phrase) : g.hasEdge a b = g.hasEdge b a := by
  rw [hasEdge, hasEdge, witness?_comm]

theorem mem_nodes_of_hasEdge {a b : Phrase} (h : g.hasEdge a b = true) :
    a ∈ g.nodes ∧ b ∈ g.nodes := by
  obtain ⟨i, j, hi, hj, -⟩ := hasEdge_iff.1 h
  exact ⟨List.mem_of_getElem? hi, List.mem_of_getElem? hj⟩

theorem mem_edges_iff_hasEdge {e : Edge} :
    e ∈ g.edges ↔ e.source < e.target ∧ ∃ a b, g.node? e.source = some a ∧
      g.node? e.target = some b ∧ g.hasEdge a b = true := by
  constructor
  · intro h
    obtain ⟨hlt, hlast⟩ := g.ordered e h
    have hs : g.nodes[e.source]? = some g.nodes[e.source] :=
      List.getElem?_eq_getElem (by omega)
    have ht : g.nodes[e.target]? = some g.nodes[e.target] := List.getElem?_eq_getElem hlast
    refine ⟨hlt, _, _, hs, ht, hasEdge_iff.2 ⟨_, _, hs, ht, ?_⟩⟩
    rw [Edge.between_of_lt hlt]
    exact h
  · rintro ⟨hlt, a, b, hs, ht, h⟩
    obtain ⟨i, j, hi, hj, h⟩ := hasEdge_iff.1 h
    have hsi := node_injective hi hs
    have htj := node_injective hj ht
    subst hsi htj
    rwa [Edge.between_of_lt hlt] at h

/-! ## Least contexts -/

def Least (P : Context → Prop) (c : Context) : Prop :=
  P c ∧ ∀ d, P d → compare c d ≠ .gt

theorem Least.unique {P : Context → Prop} {c d : Context} (hc : Least P c) (hd : Least P d) :
    c = d := by
  have hcd := hc.2 d hd.1
  have hdc := hd.2 c hc.1
  cases h : compare c d with
  | lt => exact absurd (Std.OrientedCmp.gt_iff_lt.2 h) hdc
  | eq => exact Std.LawfulEqOrd.eq_of_compare h
  | gt => exact absurd h hcd

/-- The least context with a property, absent if there is none at all. -/
def LeastOf (P : Context → Prop) : Option Context → Prop
  | none => ∀ d, ¬ P d
  | some c => Least P c

theorem leastOf_some {P : Context → Prop} {c : Context} : LeastOf P (some c) ↔ Least P c :=
  Iff.rfl

theorem LeastOf.congr {P Q : Context → Prop} (h : ∀ d, P d ↔ Q d) {least : Option Context} :
    LeastOf P least ↔ LeastOf Q least := by
  have : P = Q := funext fun d => propext (h d)
  rw [this]

theorem LeastOf.isSome_iff {P : Context → Prop} {least : Option Context} (h : LeastOf P least) :
    least.isSome = true ↔ ∃ d, P d := by
  cases least with
  | none =>
    constructor
    · intro hnone
      cases hnone
    · rintro ⟨d, hd⟩
      exact absurd hd (h d)
  | some c =>
    constructor
    · intro _
      exact ⟨c, h.1⟩
    · intro _
      rfl

theorem LeastOf.unique {P : Context → Prop} {o o' : Option Context} (h : LeastOf P o)
    (h' : LeastOf P o') : o = o' := by
  cases o with
  | none =>
    cases o' with
    | none => rfl
    | some c => exact absurd h'.1 (h c)
  | some c =>
    cases o' with
    | none => exact absurd h.1 (h' c)
    | some c' => rw [Least.unique h h']

theorem leastOf_eq (o : Option Context) : LeastOf (fun d => o = some d) o := by
  cases o with
  | none =>
    intro d hd
    cases hd
  | some c =>
    constructor
    · rfl
    · rintro d ⟨⟩
      simp [Std.ReflOrd.compare_self]

theorem LeastOf.smaller {P : Context → Prop} {least : Option Context} (h : LeastOf P least)
    (new : Context) : LeastOf (fun d => d = new ∨ P d) (some (smaller new least)) := by
  cases least with
  | none =>
    constructor
    · exact .inl rfl
    · rintro d (rfl | hd)
      · simp [Graph.smaller, Std.ReflOrd.compare_self]
      · exact absurd hd (h d)
  | some old =>
    rw [leastOf_some, Graph.smaller]
    split
    · rename_i hlt
      constructor
      · exact .inl rfl
      · rintro d (rfl | hd) hgt
        · rw [Std.ReflOrd.compare_self] at hgt
          cases hgt
        · have hdold := Std.TransCmp.lt_trans (Std.OrientedCmp.gt_iff_lt.1 hgt) hlt
          exact h.2 d hd (Std.OrientedCmp.gt_iff_lt.2 hdold)
    · rename_i hge
      constructor
      · exact .inr h.1
      · rintro d (rfl | hd) hgt
        · exact hge (Std.OrientedCmp.gt_iff_lt.1 hgt)
        · exact h.2 d hd hgt

theorem LeastOf.foldr {P : Context → Prop} {start : Option Context} (h : LeastOf P start)
    (contexts : List Context) :
    LeastOf (fun d => d ∈ contexts ∨ P d)
      (contexts.foldr (fun new old => some (Graph.smaller new old)) start) := by
  induction contexts with
  | nil => simpa using h
  | cons new rest ih =>
    rw [List.foldr_cons]
    have hnew := ih.smaller new
    simpa only [List.mem_cons, or_assoc] using hnew

/-! ## Connecting -/

theorem nodes_connectAll (joins : List (Edge × Context)) :
    (g.connectAll joins).nodes = g.nodes := rfl

theorem witnesses_connectAll (joins : List (Edge × Context)) :
    (g.connectAll joins).witnesses =
      g.witnesses.alterAll smaller (joins.filter fun join => join.1.fits g.nodes.length) := rfl

/-- A witness is the least among the one that was there before and those that the
joins of its edge bring. -/
theorem leastOf_connectAll (g : Graph) (joins : List (Edge × Context)) (e : Edge) :
    LeastOf (fun d => (e.fits g.nodes.length = true ∧ (e, d) ∈ joins) ∨
      g.witnesses.find? e = some d) ((g.connectAll joins).witnesses.find? e) := by
  have hfold := (leastOf_eq (g.witnesses.find? e)).foldr
    (SortedMap.itemsOf e (joins.filter fun join => join.1.fits g.nodes.length))
  rw [← SortedMap.find?_alterAll, ← witnesses_connectAll] at hfold
  refine (LeastOf.congr fun d => ?_).1 hfold
  rw [SortedMap.mem_itemsOf, List.mem_filter, and_comm]

theorem connectAll_congr {joins joins' : List (Edge × Context)}
    (h : ∀ join, join ∈ joins ↔ join ∈ joins') : g.connectAll joins = g.connectAll joins' := by
  apply Graph.ext
  · rfl
  · intro e
    have hleast := leastOf_connectAll g joins e
    simp only [h] at hleast
    exact hleast.unique (leastOf_connectAll g joins' e)
  · rfl

theorem connectAll_append (joins rest : List (Edge × Context)) :
    g.connectAll (joins ++ rest) = (g.connectAll rest).connectAll joins := by
  apply Graph.ext
  · rfl
  · intro e
    rw [witnesses_connectAll, witnesses_connectAll, witnesses_connectAll, nodes_connectAll,
      List.filter_append, SortedMap.alterAll, List.foldr_append]
    rfl
  · rfl

theorem foldl_connectAll (joins : List (Edge × Context)) :
    joins.foldl (fun g join => g.connectAll [join]) g = g.connectAll joins := by
  have hreverse : joins.foldl (fun g join => g.connectAll [join]) g =
      g.connectAll joins.reverse := by
    rw [← List.foldr_reverse]
    induction joins.reverse with
    | nil => rfl
    | cons join rest ih => rw [List.foldr_cons, ih, ← connectAll_append, List.singleton_append]
  rw [hreverse]
  exact connectAll_congr fun join => List.mem_reverse

end Graph

end Substitutability
