import Substitutability.Proofs.Graph.Insertions

/-!
# Graphs kept in tables

The numbers of the phrases, the neighbours of the nodes and the witnesses of the edges can
be kept in tables of their own that every insertion brings up to date. The tables of a
graph hold what is told from its nodes and witnesses alone, insertions take tables to
tables, and so the tables never contradict each other.
-/

set_option autoImplicit false

namespace Substitutability

@[ext]
structure Tables where
  nodes : List Phrase
  numbers : SortedMap Phrase Nat
  adjacency : List (SortedSet Nat)
  witnesses : SortedMap Edge Context

namespace Tables

def empty : Tables :=
  ⟨[], SortedMap.empty, [], SortedMap.empty⟩

/-- The number of a phrase, which becomes a node if it is none yet. -/
def addNode (t : Tables) (p : Phrase) : Nat × Tables :=
  match t.numbers.find? p with
  | some i => (i, t)
  | none =>
    (t.nodes.length,
      { t with
        nodes := t.nodes ++ [p]
        numbers := t.numbers.insert p t.nodes.length
        adjacency := t.adjacency ++ [SortedSet.empty] })

def connect (t : Tables) (i j : Nat) (shared : Context) : Bool × Tables :=
  if i = j then (false, t)
  else match t.witnesses.find? (Edge.between i j) with
    | some old =>
      if compare shared old = .lt then
        (false, { t with witnesses := t.witnesses.insert (Edge.between i j) shared })
      else (false, t)
    | none =>
      (true,
        { t with
          adjacency := (t.adjacency.modify i (·.insert j)).modify j (·.insert i)
          witnesses := t.witnesses.insert (Edge.between i j) shared })

def addEdge (t : Tables) (a b : Phrase) (shared : Context) : Bool × Tables :=
  let (j, t) := t.addNode b
  let (i, t) := t.addNode a
  t.connect i j shared

def insert (t : Tables) : Graph.Insertion → Tables
  | .node p => (t.addNode p).2
  | .edge a b c => (t.addEdge a b c).2

def insertAll (insertions : List Graph.Insertion) (t : Tables) : Tables :=
  insertions.foldl insert t

def Adjacent (t : Tables) (x y : Nat) : Prop :=
  ∃ row, t.adjacency[x]? = some row ∧ y ∈ row

structure Consistent (t : Tables) : Prop where
  nodup : t.nodes.Nodup
  numbers : ∀ p i, t.numbers.find? p = some i ↔ t.nodes[i]? = some p
  rows : t.adjacency.length = t.nodes.length
  symmetric : ∀ x y, t.Adjacent x y → t.Adjacent y x
  irreflexive : ∀ x, ¬ t.Adjacent x x
  edges : ∀ x y, ⟨x, y⟩ ∈ t.witnesses.keys ↔ x < y ∧ t.Adjacent x y

end Tables

namespace Graph

variable {g : Graph}

/-! ## The tables of a graph -/

def row (g : Graph) (i : Nat) : SortedSet Nat :=
  ⟨g.neighbors i, g.ascending_neighbors i⟩

def tables (g : Graph) : Tables :=
  { nodes := g.nodes
    numbers := SortedMap.ofList g.nodes.zipIdx
    adjacency := (List.range g.nodes.length).map g.row
    witnesses := g.witnesses }

theorem mem_row {i j : Nat} : j ∈ g.row i ↔ Edge.between i j ∈ g.edges :=
  mem_neighbors

theorem row_congr {h : Graph} {i : Nat}
    (hedges : ∀ j, Edge.between i j ∈ g.edges ↔ Edge.between i j ∈ h.edges) : g.row i = h.row i := by
  apply SortedSet.ext
  intro j
  rw [mem_row, mem_row, hedges]

theorem find?_numbers (g : Graph) (p : Phrase) : g.tables.numbers.find? p = g.index? p := by
  ext i
  have hkeys : (g.nodes.zipIdx.map Prod.fst).Nodup := by
    rw [List.zipIdx_map_fst]
    exact g.nodup
  rw [index?_eq_some, tables, SortedMap.find?_ofList hkeys, List.mem_zipIdx_iff_getElem?]

theorem getElem?_adjacency (g : Graph) (i : Nat) :
    g.tables.adjacency[i]? = if i < g.nodes.length then some (g.row i) else none := by
  rw [tables, List.getElem?_map]
  by_cases hi : i < g.nodes.length
  · rw [if_pos hi, List.getElem?_range hi]
    rfl
  · rw [if_neg hi, List.getElem?_eq_none (by simpa using hi)]
    rfl

theorem neighbors?_eq (g : Graph) (i : Nat) :
    g.neighbors? i = (g.tables.adjacency[i]?).map SortedSet.toList := by
  rw [getElem?_adjacency, neighbors?]
  by_cases hi : i < g.nodes.length
  · rw [if_pos hi, if_pos hi]
    rfl
  · rw [if_neg hi, if_neg hi]
    rfl

theorem adjacent_iff {x y : Nat} : g.tables.Adjacent x y ↔ Edge.between x y ∈ g.edges := by
  rw [Tables.Adjacent, getElem?_adjacency]
  constructor
  · rintro ⟨row, hrow, hy⟩
    split at hrow
    · cases hrow
      exact mem_row.1 hy
    · cases hrow
  · intro h
    obtain ⟨c, hc⟩ := mem_edges.1 h
    exact ⟨g.row x, if_pos (lt_of_find?_between hc).1, mem_row.2 h⟩

theorem consistent_tables (g : Graph) : g.tables.Consistent where
  nodup := g.nodup
  numbers p i := by rw [find?_numbers, index?_eq_some, tables]
  rows := by simp [tables]
  symmetric x y h := by
    rw [adjacent_iff] at h ⊢
    rwa [Edge.between_comm]
  irreflexive x h := ne_of_mem_edges (adjacent_iff.1 h) rfl
  edges x y := by
    rw [adjacent_iff]
    constructor
    · intro h
      have hlt := (g.ordered _ h).1
      rw [Edge.between_of_lt hlt]
      exact ⟨hlt, h⟩
    · rintro ⟨hlt, h⟩
      rwa [Edge.between_of_lt hlt] at h

/-! ## Insertions -/

theorem edges_addNode (g : Graph) (p : Phrase) : (g.addNode p).edges = g.edges := by
  rw [edges, witnesses_addNode, edges]

theorem row_addNode (g : Graph) (p : Phrase) (i : Nat) : (g.addNode p).row i = g.row i :=
  row_congr fun j => by rw [edges_addNode]

theorem row_of_length_le {i : Nat} (h : g.nodes.length ≤ i) : g.row i = SortedSet.empty := by
  apply SortedSet.ext
  intro j
  rw [mem_row]
  constructor
  · intro hmem
    obtain ⟨c, hc⟩ := mem_edges.1 hmem
    have := (lt_of_find?_between hc).1
    omega
  · exact fun hmem => absurd hmem (SortedSet.not_mem_empty j)

theorem tables_addNode (g : Graph) (p : Phrase) :
    ∃ i, (g.addNode p).nodes[i]? = some p ∧ g.tables.addNode p = (i, (g.addNode p).tables) := by
  by_cases hp : p ∈ g.nodes
  · obtain ⟨i, hi⟩ := List.mem_iff_getElem?.1 hp
    have hfind : g.tables.numbers.find? p = some i := by
      rw [find?_numbers, index?_eq_some, hi]
    rw [addNode_of_mem hp, Tables.addNode, hfind]
    exact ⟨i, hi, rfl⟩
  · have hfind : g.tables.numbers.find? p = none := by
      rw [find?_numbers, Option.eq_none_iff_forall_ne_some]
      intro i hi
      exact hp (List.mem_of_getElem? (index?_eq_some.1 hi))
    have hnodes := nodes_addNode_of_not_mem hp
    refine ⟨g.nodes.length, by simp [hnodes], ?_⟩
    rw [Tables.addNode, hfind]
    refine Prod.ext rfl (Tables.ext ?_ ?_ ?_ ?_)
    · exact hnodes.symm
    · have hnumbered : (g.addNode p).nodes.zipIdx = g.nodes.zipIdx ++ [(p, g.nodes.length)] := by
        rw [hnodes, List.zipIdx_append]
        simp
      rw [tables, tables, hnumbered, SortedMap.ofList_append_singleton]
    · simp [tables, hnodes, List.range_succ, row_addNode, row_of_length_le]
    · exact (g.witnesses_addNode p).symm

section Connect

variable {i j : Nat} (hi : i < g.nodes.length) (hj : j < g.nodes.length) (hij : i ≠ j)
  (c : Context)
include hi hj hij

theorem mem_edges_connect {e : Edge} :
    e ∈ (g.connect i j c).edges ↔ e = Edge.between i j ∨ e ∈ g.edges := by
  rw [edges, witnesses_connect hi hj hij, SortedMap.mem_keys_alter, edges]

theorem row_connect (k : Nat) :
    (g.connect i j c).row k =
      if k = i then (g.row k).insert j else if k = j then (g.row k).insert i else g.row k := by
  apply SortedSet.ext
  intro x
  rw [mem_row, mem_edges_connect hi hj hij c, Edge.between_eq_iff]
  by_cases hki : k = i
  · subst hki
    rw [if_pos rfl, SortedSet.mem_insert, mem_row]
    simp [hij]
  · by_cases hkj : k = j
    · subst hkj
      rw [if_neg hki, if_pos rfl, SortedSet.mem_insert, mem_row]
      simp [hki]
    · rw [if_neg hki, if_neg hkj, mem_row]
      simp [hki, hkj]

theorem adjacency_connect :
    (g.connect i j c).tables.adjacency =
      (g.tables.adjacency.modify i (·.insert j)).modify j (·.insert i) := by
  apply List.ext_getElem?
  intro k
  have hnodes : (g.connect i j c).nodes = g.nodes := rfl
  simp only [List.getElem?_modify, getElem?_adjacency, hnodes]
  by_cases hk : k < g.nodes.length
  · rw [if_pos hk, if_pos hk, row_connect hi hj hij c]
    by_cases hki : k = i
    · subst hki
      simp [Ne.symm hij]
    · by_cases hkj : k = j
      · subst hkj
        simp [hij, Ne.symm hij]
      · simp [hki, hkj, Ne.symm hki, Ne.symm hkj]
  · rw [if_neg hk, if_neg hk]
    rfl

end Connect

theorem tables_connect {i j : Nat} (hi : i < g.nodes.length) (hj : j < g.nodes.length)
    (c : Context) :
    g.tables.connect i j c = (i != j && !g.isEdge i j, (g.connect i j c).tables) := by
  by_cases hij : i = j
  · subst hij
    rw [connect_self, Tables.connect, if_pos rfl]
    simp
  · have hwitnesses : (g.connect i j c).tables.witnesses =
        g.tables.witnesses.alter (Edge.between i j) (smaller c) :=
      witnesses_connect hi hj hij c
    have hisEdge : (i != j && !g.isEdge i j) =
        !(g.tables.witnesses.find? (Edge.between i j)).isSome := by
      rw [isEdge, bne_iff_ne.2 hij, Bool.true_and, Bool.true_and]
      rfl
    rw [Tables.connect, if_neg hij, hisEdge]
    cases hfind : g.tables.witnesses.find? (Edge.between i j) with
    | some old =>
      have hrows : (g.connect i j c).tables.adjacency = g.tables.adjacency := by
        apply List.map_congr_left
        intro k _
        apply row_congr
        intro x
        rw [mem_edges_connect hi hj hij]
        exact or_iff_right_of_imp fun heq => heq ▸ mem_edges.2 ⟨old, hfind⟩
      by_cases hlt : compare c old = .lt
      · have hsmaller : (g.connect i j c).tables.witnesses =
            g.tables.witnesses.insert (Edge.between i j) c := by
          rw [hwitnesses, SortedMap.insert]
          apply SortedMap.alter_congr
          rw [hfind, smaller, if_pos hlt]
        simp only [if_pos hlt]
        exact Prod.ext rfl (Tables.ext rfl rfl hrows.symm hsmaller.symm)
      · have hkept : (g.connect i j c).tables.witnesses = g.tables.witnesses := by
          rw [hwitnesses]
          apply SortedMap.alter_eq_self hfind
          rw [smaller, if_neg hlt]
        simp only [if_neg hlt]
        exact Prod.ext rfl (Tables.ext rfl rfl hrows.symm hkept.symm)
    | none =>
      have hnew : (g.connect i j c).tables.witnesses =
          g.tables.witnesses.insert (Edge.between i j) c := by
        rw [hwitnesses, SortedMap.insert]
        apply SortedMap.alter_congr
        rw [hfind, smaller]
      exact Prod.ext rfl (Tables.ext rfl rfl (adjacency_connect hi hj hij c).symm hnew.symm)

theorem tables_addEdge (g : Graph) (a b : Phrase) (c : Context) :
    g.tables.addEdge a b c = ((g.addEdge a b c).1, (g.addEdge a b c).2.tables) := by
  obtain ⟨j, hj, haddb⟩ := g.tables_addNode b
  obtain ⟨i, hi, hadda⟩ := (g.addNode b).tables_addNode a
  obtain ⟨k, l, hk, hl, hadd⟩ := g.addEdge_cases a b c
  have hik := node_injective hi hk
  have hjl := node_injective (getElem?_addNode hj a) hl
  subst hik hjl
  obtain ⟨hilt, -⟩ := List.getElem?_eq_some_iff.1 hk
  obtain ⟨hjlt, -⟩ := List.getElem?_eq_some_iff.1 hl
  rw [hadd]
  simp only [Tables.addEdge, haddb, hadda]
  exact tables_connect hilt hjlt c

theorem tables_insertAll (insertions : List Insertion) (g : Graph) :
    Tables.insertAll insertions g.tables = (insertAll insertions g).tables := by
  induction insertions generalizing g with
  | nil => rfl
  | cons insertion rest ih =>
    have hinsert : g.tables.insert insertion = (g.insert insertion).tables := by
      cases insertion with
      | node p =>
        obtain ⟨i, -, hadd⟩ := g.tables_addNode p
        rw [Tables.insert, hadd, Graph.insert]
      | edge a b c => rw [Tables.insert, tables_addEdge, Graph.insert]
    rw [Tables.insertAll, List.foldl_cons, hinsert]
    exact ih (g.insert insertion)

/-! ## What a run leaves -/

/-- The graph is what some insertions make of the empty graph. It answers from consistent
tables, and tells what they say of the phrases whatever order they came in. -/
structure Accumulates (insertions : List Insertion) (g : Graph) : Prop where
  tables : Tables.insertAll insertions Tables.empty = g.tables
  consistent : g.tables.Consistent
  index : ∀ p, g.index? p = g.tables.numbers.find? p
  neighbors : ∀ i, g.neighbors? i = (g.tables.adjacency[i]?).map SortedSet.toList
  /-- The next node gets the number that the tables give, and the next edge is new for
  the graph and for the tables. -/
  addNode : ∀ p, ∃ i, (g.addNode p).index? p = some i ∧
    g.tables.addNode p = (i, (g.addNode p).tables)
  addEdge : ∀ a b c, g.tables.addEdge a b c = ((g.addEdge a b c).1, (g.addEdge a b c).2.tables)
  isNew : ∀ a b c, (g.addEdge a b c).1 = true ↔ a ≠ b ∧ g.hasEdge a b = false
  edgeCount : ∀ a b c,
    (g.addEdge a b c).2.edgeCount = g.edgeCount + if (g.addEdge a b c).1 then 1 else 0
  index_stays : ∀ p i more, g.index? p = some i → (insertAll more g).index? p = some i
  hasEdge_comm : ∀ a b, g.hasEdge a b = g.hasEdge b a
  witness_comm : ∀ a b, g.witness? a b = g.witness? b a
  hasEdge : ∀ a b, g.hasEdge a b = true ↔ a ≠ b ∧ ∃ c, Gives insertions a b c
  witness : ∀ a b, LeastOf (fun c => a ≠ b ∧ Gives insertions a b c) (g.witness? a b)
  order : ∀ others : List Insertion, others.Perm insertions → ∀ a b,
    (insertAll others empty).hasEdge a b = g.hasEdge a b ∧
      (insertAll others empty).witness? a b = g.witness? a b

theorem insertAll_accumulates (insertions : List Insertion) :
    Accumulates insertions (insertAll insertions empty) where
  tables := tables_insertAll insertions empty
  consistent := consistent_tables _
  index p := (find?_numbers _ p).symm
  neighbors := neighbors?_eq _
  addNode p := by
    obtain ⟨i, hi, hadd⟩ := (insertAll insertions empty).tables_addNode p
    exact ⟨i, index?_eq_some.2 hi, hadd⟩
  addEdge := tables_addEdge _
  isNew := isNew_addEdge _
  edgeCount := edgeCount_addEdge _
  index_stays p i more h := index?_eq_some.2 (getElem?_insertAll (index?_eq_some.1 h) more)
  hasEdge_comm := Graph.hasEdge_comm
  witness_comm := witness?_comm
  hasEdge a b := by
    rw [Graph.hasEdge, (leastOf_insertAll insertions a b).isSome_iff, exists_and_left]
  witness := leastOf_insertAll insertions
  order others h a b := by
    have hwitness := witness?_insertAll_perm h a b
    exact ⟨by rw [Graph.hasEdge, hwitness, Graph.hasEdge], hwitness⟩

end Graph

end Substitutability
