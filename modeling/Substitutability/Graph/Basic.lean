import Substitutability.Context
import Substitutability.ContextSet
import Substitutability.Number.Basic
import Substitutability.Sorted.Map

/-!
# Substitution graphs

The nodes are phrases, numbered in the order in which they were added. An edge
joins two phrases that share a context and keeps the smallest shared context
that it was given. No node is listed twice, and every edge runs from a smaller
to a larger number of a node.
-/

set_option autoImplicit false

namespace Substitutability

structure Edge where
  source : Nat
  target : Nat
  deriving DecidableEq, Repr

namespace Edge

instance : Ord Edge :=
  ⟨compareLex (compareOn source) (compareOn target)⟩

instance : Std.TransOrd Edge :=
  inferInstanceAs (Std.TransCmp (compareLex (compareOn source) (compareOn target)))

instance : Std.LawfulEqOrd Edge where
  eq_of_compare {a b} h := by
    have h : compareLex (compareOn source) (compareOn target) a b = .eq := h
    simp only [compareLex, compareOn, Ordering.then_eq_eq] at h
    cases a
    cases b
    simp_all

def between (i j : Nat) : Edge :=
  if i < j then ⟨i, j⟩ else ⟨j, i⟩

/-- Whether the edge runs from a smaller to a larger of the numbers below `n`. -/
def fits (n : Nat) (e : Edge) : Bool :=
  e.source < e.target && e.target < n

theorem fits_iff {n : Nat} {e : Edge} : e.fits n = true ↔ e.source < e.target ∧ e.target < n := by
  simp [fits]

def other? (e : Edge) (i : Nat) : Option Nat :=
  if e.source = i then some e.target
  else if e.target = i then some e.source
  else none

def touches (e : Edge) (i : Nat) : Bool :=
  e.source == i || e.target == i

theorem isSome_other? {e : Edge} {i : Nat} : (e.other? i).isSome = e.touches i := by
  by_cases hs : e.source = i <;> by_cases ht : e.target = i <;> simp [other?, touches, hs, ht]

end Edge

structure Graph where
  nodes : List Phrase
  witnesses : SortedMap Edge Context
  /-- The numbers of the nodes that have a context. -/
  contextIndex : SortedMap Context (List Nat)
  nodup : nodes.Nodup
  ordered : ∀ e ∈ witnesses.keys, e.source < e.target ∧ e.target < nodes.length

namespace Graph

def empty : Graph :=
  ⟨[], SortedMap.empty, SortedMap.empty, List.nodup_nil, by simp [SortedMap.keys, SortedMap.empty]⟩

def addNode (g : Graph) (phrase : Phrase) : Graph :=
  if h : phrase ∈ g.nodes then g
  else
    { g with
      nodes := g.nodes ++ [phrase]
      nodup := by
        refine List.nodup_append.2 ⟨g.nodup, by simp, ?_⟩
        intro a ha b hb
        simp only [List.mem_singleton] at hb
        subst hb
        exact fun hab => h (hab ▸ ha)
      ordered := by
        intro e he
        have := g.ordered e he
        simp only [List.length_append, List.length_singleton]
        omega }

def index? (g : Graph) (phrase : Phrase) : Option Nat :=
  g.nodes.idxOf? phrase

def node? (g : Graph) (i : Nat) : Option Phrase :=
  g.nodes[i]?

def hasNode (g : Graph) (phrase : Phrase) : Bool :=
  (g.index? phrase).isSome

def smaller (new : Context) : Option Context → Context
  | none => new
  | some old => if compare new old = .lt then new else old

/-- Join the ends of edges by shared contexts. What does not run from a smaller to
a larger number of a node joins nothing. -/
def connectAll (g : Graph) (joins : List (Edge × Context)) : Graph :=
  let count := g.nodes.length
  { g with
    witnesses := g.witnesses.alterAll smaller (joins.filter fun join => join.1.fits count)
    ordered := by
      intro e he
      rcases SortedMap.mem_keys_alterAll.1 he with h | h
      · obtain ⟨join, hj, rfl⟩ := List.mem_map.1 h
        exact Edge.fits_iff.1 (List.mem_filter.1 hj).2
      · exact g.ordered e h }

def connect (g : Graph) (i j : Nat) (shared : Context) : Graph :=
  g.connectAll [(Edge.between i j, shared)]

def isEdge (g : Graph) (i j : Nat) : Bool :=
  i != j && g.witnesses.contains (Edge.between i j)

/-- Join two phrases, adding those that are missing, the second one first. The
truth value says whether the edge is new. -/
def addEdge (g : Graph) (a b : Phrase) (shared : Context) : Bool × Graph :=
  let h := (g.addNode b).addNode a
  match h.index? a, h.index? b with
  | some i, some j => (i != j && !h.isEdge i j, h.connect i j shared)
  | _, _ => (false, h)

def edges (g : Graph) : List Edge :=
  g.witnesses.keys

def witness? (g : Graph) (a b : Phrase) : Option Context :=
  match g.index? a, g.index? b with
  | some i, some j => if i = j then none else g.witnesses.find? (Edge.between i j)
  | _, _ => none

def hasEdge (g : Graph) (a b : Phrase) : Bool :=
  (g.witness? a b).isSome

/-- The witness of an edge, which must be given with its smaller number first. -/
def witnessOf? (g : Graph) (e : Edge) : Option Context :=
  g.witnesses.find? e

def neighbors (g : Graph) (i : Nat) : List Nat :=
  g.edges.filterMap (·.other? i)

def neighbors? (g : Graph) (i : Nat) : Option (List Nat) :=
  if i < g.nodes.length then some (g.neighbors i) else none

def degree (g : Graph) (i : Nat) : Nat :=
  g.edges.countP (·.touches i)

theorem length_neighbors (g : Graph) (i : Nat) : (g.neighbors i).length = g.degree i := by
  simp only [neighbors, degree, List.length_filterMap_eq_countP, Edge.isSome_other?]

def nodeCount (g : Graph) : Nat :=
  g.nodes.length

def edgeCount (g : Graph) : Nat :=
  g.witnesses.size

def degrees (g : Graph) : List Nat :=
  let edges := g.edges
  (List.range g.nodeCount).map fun i => edges.countP (·.touches i)

end Graph

/-! ## Statistics -/

structure GraphStatistics where
  nodes : Nat
  edges : Nat
  isolatedNodes : Nat
  contexts : Nat
  sharedContexts : Nat
  widestContext : Nat
  averageDegree : Double
  greatestDegree : Nat
  leastDegree : Nat
  deriving DecidableEq, Repr

namespace Graph

def fanouts (g : Graph) : List Nat :=
  g.contextIndex.values.map List.length

def greatest (ns : List Nat) : Nat :=
  ns.foldl max 0

def least : List Nat → Nat
  | [] => 0
  | n :: rest => rest.foldl min n

def statistics (g : Graph) : GraphStatistics :=
  let degrees := g.degrees
  { nodes := g.nodeCount
    edges := g.edgeCount
    isolatedNodes := degrees.countP (· == 0)
    contexts := g.contextIndex.size
    sharedContexts := g.fanouts.countP (2 ≤ ·)
    widestContext := greatest g.fanouts
    averageDegree :=
      if g.nodeCount = 0 then Double.zero else Double.ofRatio false (total degrees) g.nodeCount
    greatestDegree := greatest degrees
    leastDegree := least degrees }

end Graph

end Substitutability

/-! ## The graph of a context set -/

namespace Substitutability.Graph

def pairs {α : Type} : List α → List (α × α)
  | [] => []
  | a :: rest => rest.map (a, ·) ++ pairs rest

def addNodes (phrases : List Phrase) (g : Graph) : Graph :=
  phrases.foldl addNode g

def buckets (described : List (Phrase × List Context)) : SortedMap Context (List Nat) :=
  SortedMap.group (described.zipIdx.flatMap fun ((_, contexts), i) => contexts.map (·, i))

def bucketJoins (bucket : Context × List Nat) : List (Edge × Context) :=
  (pairs bucket.2).map fun (i, j) => (Edge.between i j, bucket.1)

/-- The joins of all buckets, by edge. Any order gives the same graph; this one
is the quickest to connect. -/
def joins (buckets : List (Context × List Nat)) : List (Edge × Context) :=
  (buckets.flatMap bucketJoins).mergeSort fun a b => compare a.1 b.1 != .gt

def ofContexts (s : ContextSet) : Graph :=
  let index := buckets s.described
  let g := (addNodes (s.described.map Prod.fst) empty).connectAll (joins index.toList)
  { g with contextIndex := index }

end Substitutability.Graph
