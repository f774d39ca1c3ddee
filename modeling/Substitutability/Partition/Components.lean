import Substitutability.DisjointSet
import Substitutability.Graph.Basic
import Substitutability.Partition.Basic

/-!
# Connected components

The classes of a graph are its connected components. Members stand in ascending
order, the first one represents the class, and classes are numbered in the order
of their representatives, so the numbering does not depend on the order in which
the graph was built.
-/

set_option autoImplicit false

namespace Substitutability.Graph

def roots (g : Graph) : List Nat :=
  let pairs := g.edges.map fun e => (e.source, e.target)
  (((DisjointSet.ofSize g.nodeCount).uniteAll pairs).findAll (List.range g.nodeCount)).1

def groups (g : Graph) : List (List Phrase) :=
  (SortedMap.group (g.roots.zip g.nodes)).values

def notAfter (a b : Phrase) : Bool :=
  compare a b != .gt

def sortMembers (members : List Phrase) : List Phrase :=
  members.mergeSort notAfter

def representative (members : List Phrase) : Phrase :=
  members.headD []

/-- The components, each sorted, in the order of their first members. -/
def components (g : Graph) : List (List Phrase) :=
  (g.groups.map sortMembers).mergeSort fun a b => notAfter (representative a) (representative b)

def classesOf (components : List (List Phrase)) : List CongruenceClass :=
  components.zipIdx.map fun (members, i) => ⟨i, members, representative members⟩

theorem perm_flatten_groups (g : Graph) : g.groups.flatten.Perm g.nodes := by
  refine (SortedMap.perm_flatten_group _).trans ?_
  have h : g.nodes.length ≤ g.roots.length := by
    simp [roots, DisjointSet.length_findAll, nodeCount]
  simp [List.map_snd_zip h]

theorem perm_flatten_components (g : Graph) : g.components.flatten.Perm g.nodes := by
  have hsort : ∀ groups : List (List Phrase),
      (groups.map sortMembers).flatten.Perm groups.flatten := by
    intro groups
    induction groups with
    | nil => exact List.Perm.refl _
    | cons members rest ih =>
      simp only [List.map_cons, List.flatten_cons]
      exact (List.mergeSort_perm members notAfter).append ih
  exact ((List.mergeSort_perm _ _).flatten.trans (hsort _)).trans g.perm_flatten_groups

theorem members_classesOf (components : List (List Phrase)) :
    (classesOf components).flatMap CongruenceClass.members = components.flatten := by
  have h : (classesOf components).map CongruenceClass.members = components := by
    simp [classesOf, Function.comp_def, List.zipIdx_map_fst]
  rw [List.flatMap_def, h]

theorem index_classesOf (components : List (List Phrase)) :
    (classesOf components).map CongruenceClass.index =
      List.range (classesOf components).length := by
  simp [classesOf, Function.comp_def, List.zipIdx_map_snd, List.range_eq_range']

def partition (g : Graph) : Partition :=
  { classes := classesOf g.components
    numbered := index_classesOf g.components
    disjoint := by
      rw [members_classesOf]
      exact g.perm_flatten_components.nodup_iff.2 g.nodup }

end Substitutability.Graph
