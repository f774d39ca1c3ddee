/-!
# Disjoint sets

A forest over the numbers below its size. Every element has a parent, a root is
its own parent, and the elements of one tree are one set. The root of the larger
tree stays root when two sets are united, and a search points everything on its
way at the root.
-/

set_option autoImplicit false

namespace Substitutability

structure DisjointSet where
  parents : Array Nat
  sizes : Array Nat
  count : Nat
  deriving DecidableEq, Repr

namespace DisjointSet

def ofSize (n : Nat) : DisjointSet :=
  ⟨Array.range n, Array.replicate n 1, n⟩

def size (s : DisjointSet) : Nat :=
  s.parents.size

def parent (parents : Array Nat) (i : Nat) : Nat :=
  parents.getD i i

/-- The end of the chain of parents, at most `fuel` steps away. -/
def climb (parents : Array Nat) : Nat → Nat → Nat
  | 0, i => i
  | fuel + 1, i => if parent parents i = i then i else climb parents fuel (parent parents i)

def root (s : DisjointSet) (i : Nat) : Nat :=
  climb s.parents s.size i

def compress (root : Nat) : Nat → Nat → Array Nat → Array Nat
  | 0, _, parents => parents
  | fuel + 1, i, parents =>
    let next := parent parents i
    if next = root then parents else compress root fuel next (parents.setIfInBounds i root)

def find (s : DisjointSet) (i : Nat) : Nat × DisjointSet :=
  let r := s.root i
  (r, { s with parents := compress r s.size i s.parents })

def link (s : DisjointSet) (a b : Nat) : DisjointSet :=
  let total := s.sizes.getD a 0 + s.sizes.getD b 0
  { parents := s.parents.setIfInBounds b a
    sizes := s.sizes.setIfInBounds a total
    count := s.count - 1 }

/-- Unite the sets of two elements; false if they are already one. -/
def unite (s : DisjointSet) (a b : Nat) : Bool × DisjointSet :=
  let (ra, s) := s.find a
  let (rb, s) := s.find b
  if ra = rb then (false, s)
  else if s.sizes.getD ra 0 < s.sizes.getD rb 0 then (true, s.link rb ra)
  else (true, s.link ra rb)

def uniteAll (pairs : List (Nat × Nat)) (s : DisjointSet) : DisjointSet :=
  pairs.foldl (fun s (a, b) => (s.unite a b).2) s

def findAll (s : DisjointSet) : List Nat → List Nat × DisjointSet
  | [] => ([], s)
  | i :: rest =>
    let (r, s) := s.find i
    let (roots, s) := findAll s rest
    (r :: roots, s)

theorem length_findAll (s : DisjointSet) (elements : List Nat) :
    (s.findAll elements).1.length = elements.length := by
  induction elements generalizing s with
  | nil => rfl
  | cons i rest ih => simp [findAll, ih]

end DisjointSet

end Substitutability
