import Mathlib.Tactic.Tauto
import Substitutability.Proofs.Graph.Neighbors

/-!
# Graphs made by insertions

A graph that nodes and edges are put into, one after the other. A number once given to a
phrase stays. An edge is new exactly when its two phrases differ and were not joined, and
the witness of two phrases is the least of all contexts that were given for them, so the
order of the insertions does not matter to the phrases.
-/

set_option autoImplicit false

namespace Substitutability.Graph

variable {g : Graph}

/-! ## A node -/

theorem mem_nodes_addNode (g : Graph) (p : Phrase) : p ∈ (g.addNode p).nodes := by
  by_cases h : p ∈ g.nodes
  · rwa [addNode_of_mem h]
  · rw [nodes_addNode_of_not_mem h]
    simp

theorem getElem?_addNode {i : Nat} {a : Phrase} (h : g.nodes[i]? = some a) (p : Phrase) :
    (g.addNode p).nodes[i]? = some a := by
  by_cases hp : p ∈ g.nodes
  · rwa [addNode_of_mem hp]
  · obtain ⟨hlt, -⟩ := List.getElem?_eq_some_iff.1 h
    rw [nodes_addNode_of_not_mem hp, List.getElem?_append_left hlt, h]

theorem getElem?_of_addNode {i : Nat} {a p : Phrase} (h : (g.addNode p).nodes[i]? = some a)
    (hi : i < g.nodes.length) : g.nodes[i]? = some a := by
  have hnode := List.getElem?_eq_getElem hi
  have hkept := getElem?_addNode hnode p
  rw [h] at hkept
  rw [hnode, ← hkept]

theorem witness?_addNode (g : Graph) (p a b : Phrase) :
    (g.addNode p).witness? a b = g.witness? a b := by
  ext c
  rw [witness?_eq_some, witness?_eq_some, witnesses_addNode]
  constructor
  · rintro ⟨i, j, hi, hj, hfind⟩
    obtain ⟨hilt, hjlt⟩ := lt_of_find?_between hfind
    exact ⟨i, j, getElem?_of_addNode hi hilt, getElem?_of_addNode hj hjlt, hfind⟩
  · rintro ⟨i, j, hi, hj, hfind⟩
    exact ⟨i, j, getElem?_addNode hi p, getElem?_addNode hj p, hfind⟩

/-! ## An edge between nodes -/

theorem connect_self (g : Graph) (i : Nat) (c : Context) : g.connect i i c = g := by
  have hunfit : ([(Edge.between i i, c)].filter fun join => join.1.fits g.nodes.length) = [] := by
    simp [Edge.fits, Edge.between]
  apply Graph.ext
  · rfl
  · intro e
    rw [connect, witnesses_connectAll, hunfit]
    rfl
  · rfl

theorem witnesses_connect {i j : Nat} (hi : i < g.nodes.length) (hj : j < g.nodes.length)
    (hij : i ≠ j) (c : Context) :
    (g.connect i j c).witnesses = g.witnesses.alter (Edge.between i j) (smaller c) := by
  have hfits : (Edge.between i j).fits g.nodes.length = true := by
    rw [Edge.fits_iff]
    unfold Edge.between
    split <;> simp only <;> omega
  rw [connect, witnesses_connectAll, List.filter_cons_of_pos (by simpa using hfits)]
  rfl

theorem isEdge_eq_hasEdge {i j : Nat} {a b : Phrase} (hi : g.nodes[i]? = some a)
    (hj : g.nodes[j]? = some b) : g.isEdge i j = g.hasEdge a b := by
  rw [isEdge, hasEdge, SortedMap.contains]
  by_cases hij : i = j
  · subst hij
    rw [witness?, index?_eq_some.2 hi, index?_eq_some.2 hj]
    simp
  · rw [witness?_eq hi hj hij]
    simp [hij]

theorem witness?_connect {i j : Nat} {a b : Phrase} (hi : g.nodes[i]? = some a)
    (hj : g.nodes[j]? = some b) (c : Context) (x y : Phrase) :
    (g.connect i j c).witness? x y =
      if x ≠ y ∧ ((x = a ∧ y = b) ∨ (x = b ∧ y = a)) then some (smaller c (g.witness? x y))
      else g.witness? x y := by
  obtain ⟨hilt, -⟩ := List.getElem?_eq_some_iff.1 hi
  obtain ⟨hjlt, -⟩ := List.getElem?_eq_some_iff.1 hj
  have hab := node_eq_iff hi hj
  by_cases hij : i = j
  · have hnot : ¬ (x ≠ y ∧ ((x = a ∧ y = b) ∨ (x = b ∧ y = a))) := by
      have := hab.1 hij
      grind
    subst hij
    rw [connect_self, if_neg hnot]
  · have hwitnesses := witnesses_connect hilt hjlt hij c
    have hjoined : (g.connect i j c).witness? a b = some (smaller c (g.witness? a b)) := by
      have hi' : (g.connect i j c).nodes[i]? = some a := hi
      have hj' : (g.connect i j c).nodes[j]? = some b := hj
      rw [witness?_eq hi' hj' hij, witness?_eq hi hj hij, hwitnesses, SortedMap.find?_alter_self]
    by_cases hforward : x = a ∧ y = b
    · obtain ⟨rfl, rfl⟩ := hforward
      rw [hjoined, if_pos ⟨mt hab.2 hij, .inl ⟨rfl, rfl⟩⟩]
    · by_cases hback : x = b ∧ y = a
      · obtain ⟨rfl, rfl⟩ := hback
        rw [witness?_comm, hjoined, if_pos ⟨Ne.symm (mt hab.2 hij), .inr ⟨rfl, rfl⟩⟩,
          witness?_comm]
      · rw [if_neg (by tauto)]
        ext d
        rw [witness?_eq_some, witness?_eq_some, hwitnesses]
        have hother : ∀ k l, g.nodes[k]? = some x → g.nodes[l]? = some y →
            Edge.between k l ≠ Edge.between i j := by
          intro k l hk hl heq
          rcases Edge.between_eq_iff.1 heq with ⟨rfl, rfl⟩ | ⟨rfl, rfl⟩
          · exact hforward ⟨Option.some.inj (hk.symm.trans hi), Option.some.inj (hl.symm.trans hj)⟩
          · exact hback ⟨Option.some.inj (hk.symm.trans hj), Option.some.inj (hl.symm.trans hi)⟩
        constructor
        · rintro ⟨k, l, hk, hl, hfind⟩
          rw [SortedMap.find?_alter_ne (hother k l hk hl)] at hfind
          exact ⟨k, l, hk, hl, hfind⟩
        · rintro ⟨k, l, hk, hl, hfind⟩
          refine ⟨k, l, hk, hl, ?_⟩
          rwa [SortedMap.find?_alter_ne (hother k l hk hl)]

/-! ## An edge between phrases -/

/-- All that joining two phrases does: both become nodes, and these are connected. -/
theorem addEdge_cases (g : Graph) (a b : Phrase) (c : Context) :
    ∃ i j, ((g.addNode b).addNode a).nodes[i]? = some a ∧
      ((g.addNode b).addNode a).nodes[j]? = some b ∧
      g.addEdge a b c = (i != j && !((g.addNode b).addNode a).isEdge i j,
        ((g.addNode b).addNode a).connect i j c) := by
  obtain ⟨i, hi⟩ := List.mem_iff_getElem?.1 (mem_nodes_addNode (g.addNode b) a)
  obtain ⟨j, hj⟩ := List.mem_iff_getElem?.1 (mem_nodes_addNode g b)
  have hj := getElem?_addNode hj a
  refine ⟨i, j, hi, hj, ?_⟩
  simp only [addEdge, index?_eq_some.2 hi, index?_eq_some.2 hj]

theorem getElem?_addEdge {i : Nat} {p : Phrase} (h : g.nodes[i]? = some p) (a b : Phrase)
    (c : Context) : (g.addEdge a b c).2.nodes[i]? = some p := by
  obtain ⟨k, l, -, -, hadd⟩ := g.addEdge_cases a b c
  rw [hadd]
  exact getElem?_addNode (getElem?_addNode h b) a

theorem witness?_addEdge (g : Graph) (a b : Phrase) (c : Context) (x y : Phrase) :
    (g.addEdge a b c).2.witness? x y =
      if x ≠ y ∧ ((x = a ∧ y = b) ∨ (x = b ∧ y = a)) then some (smaller c (g.witness? x y))
      else g.witness? x y := by
  obtain ⟨i, j, hi, hj, hadd⟩ := g.addEdge_cases a b c
  rw [hadd]
  show (connect _ i j c).witness? x y = _
  rw [witness?_connect hi hj, witness?_addNode, witness?_addNode]

theorem isNew_addEdge (g : Graph) (a b : Phrase) (c : Context) :
    (g.addEdge a b c).1 = true ↔ a ≠ b ∧ g.hasEdge a b = false := by
  obtain ⟨i, j, hi, hj, hadd⟩ := g.addEdge_cases a b c
  have hedge : ((g.addNode b).addNode a).hasEdge a b = g.hasEdge a b := by
    rw [hasEdge, witness?_addNode, witness?_addNode, ← hasEdge]
  have hij := node_eq_iff hi hj
  rw [hadd, isEdge_eq_hasEdge hi hj, hedge]
  simp [hij]

theorem edgeCount_addEdge (g : Graph) (a b : Phrase) (c : Context) :
    (g.addEdge a b c).2.edgeCount = g.edgeCount + if (g.addEdge a b c).1 then 1 else 0 := by
  obtain ⟨i, j, hi, hj, hadd⟩ := g.addEdge_cases a b c
  obtain ⟨hilt, -⟩ := List.getElem?_eq_some_iff.1 hi
  obtain ⟨hjlt, -⟩ := List.getElem?_eq_some_iff.1 hj
  have hsame : ((g.addNode b).addNode a).edgeCount = g.edgeCount := by
    rw [edgeCount, witnesses_addNode, witnesses_addNode, ← edgeCount]
  rw [hadd, ← hsame]
  by_cases hij : i = j
  · subst hij
    simp [connect_self]
  · have hcontains : ((g.addNode b).addNode a).isEdge i j =
        ((g.addNode b).addNode a).witnesses.contains (Edge.between i j) := by
      simp [isEdge, hij]
    rw [hcontains, edgeCount, edgeCount, witnesses_connect hilt hjlt hij, SortedMap.size_alter]
    cases ((g.addNode b).addNode a).witnesses.contains (Edge.between i j) <;> simp [hij]

/-! ## A whole run -/

inductive Insertion
  | node (phrase : Phrase)
  | edge (a b : Phrase) (shared : Context)
  deriving DecidableEq, Repr

def insert (g : Graph) : Insertion → Graph
  | .node p => g.addNode p
  | .edge a b c => (g.addEdge a b c).2

def insertAll (insertions : List Insertion) (g : Graph) : Graph :=
  insertions.foldl insert g

def Gives (insertions : List Insertion) (a b : Phrase) (c : Context) : Prop :=
  .edge a b c ∈ insertions ∨ .edge b a c ∈ insertions

theorem getElem?_insertAll {i : Nat} {p : Phrase} (h : g.nodes[i]? = some p)
    (insertions : List Insertion) : (insertAll insertions g).nodes[i]? = some p := by
  induction insertions generalizing g with
  | nil => exact h
  | cons insertion rest ih =>
    apply ih
    cases insertion with
    | node q => exact getElem?_addNode h q
    | edge a b c => exact getElem?_addEdge h a b c

theorem LeastOf.insert {P : Context → Prop} {x y : Phrase} (h : LeastOf P (g.witness? x y))
    (insertion : Insertion) :
    LeastOf (fun d => (x ≠ y ∧ Gives [insertion] x y d) ∨ P d)
      ((g.insert insertion).witness? x y) := by
  cases insertion with
  | node p =>
    rw [Graph.insert, witness?_addNode]
    refine (LeastOf.congr fun d => ?_).1 h
    simp [Gives]
  | edge a b c =>
    have hgives : ∀ d, Gives [.edge a b c] x y d ↔
        d = c ∧ ((x = a ∧ y = b) ∨ (x = b ∧ y = a)) := by
      intro d
      simp only [Gives, List.mem_singleton, Insertion.edge.injEq]
      tauto
    rw [Graph.insert, witness?_addEdge]
    split
    · rename_i hpair
      refine (LeastOf.congr fun d => ?_).1 (h.smaller c)
      rw [hgives]
      tauto
    · rename_i hpair
      refine (LeastOf.congr fun d => ?_).1 h
      rw [hgives]
      tauto

theorem LeastOf.insertAll {P : Context → Prop} {x y : Phrase} (h : LeastOf P (g.witness? x y))
    (insertions : List Insertion) :
    LeastOf (fun d => (x ≠ y ∧ Gives insertions x y d) ∨ P d)
      ((Graph.insertAll insertions g).witness? x y) := by
  induction insertions generalizing g P with
  | nil =>
    refine (LeastOf.congr fun d => ?_).1 h
    simp [Gives]
  | cons insertion rest ih =>
    refine (LeastOf.congr fun d => ?_).1 (ih (h.insert insertion))
    simp only [Gives, List.mem_cons, List.not_mem_nil, or_false]
    tauto

/-- A witness is the least of all contexts that were given for its phrases. -/
theorem leastOf_insertAll (insertions : List Insertion) (x y : Phrase) :
    LeastOf (fun d => x ≠ y ∧ Gives insertions x y d)
      ((insertAll insertions empty).witness? x y) := by
  have hnone : LeastOf (fun _ => False) (empty.witness? x y) := fun _ h => h
  refine (LeastOf.congr fun d => ?_).1 (hnone.insertAll insertions)
  rw [or_false]

theorem gives_perm {insertions others : List Insertion} (h : insertions.Perm others)
    (x y : Phrase) (d : Context) : Gives insertions x y d ↔ Gives others x y d := by
  rw [Gives, Gives, h.mem_iff, h.mem_iff]

theorem witness?_insertAll_perm {insertions others : List Insertion} (h : insertions.Perm others)
    (x y : Phrase) :
    (insertAll insertions empty).witness? x y = (insertAll others empty).witness? x y := by
  apply (leastOf_insertAll insertions x y).unique
  refine (LeastOf.congr fun d => ?_).1 (leastOf_insertAll others x y)
  rw [gives_perm h]

end Substitutability.Graph
