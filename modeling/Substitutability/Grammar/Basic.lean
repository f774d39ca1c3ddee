import Substitutability.Number.Basic
import Substitutability.Partition.Basic
import Substitutability.Sorted.Set

/-!
# Grammars

Each congruence class has a fragment of the grammar: the contexts in which the
start symbol yields it, its members of one token, and the pairs of classes that
its longer members split into. A fragment with too few contexts is kept apart as
unproductive.
-/

set_option autoImplicit false

namespace Substitutability

/-- Read as: the start symbol yields `left`, the class, `right`. -/
structure Pattern where
  left : Phrase
  index : Nat
  right : Phrase
  deriving DecidableEq, Repr

namespace Pattern

instance : Ord Pattern :=
  ⟨compareLex (compareOn left) (compareLex (compareOn index) (compareOn right))⟩

instance : Std.TransOrd Pattern :=
  inferInstanceAs
    (Std.TransCmp (compareLex (compareOn left) (compareLex (compareOn index) (compareOn right))))

instance : Std.LawfulEqOrd Pattern where
  eq_of_compare {a b} h := by
    have h : compareLex (compareOn left) (compareLex (compareOn index) (compareOn right)) a b =
        .eq := h
    simp only [compareLex, compareOn, Ordering.then_eq_eq] at h
    cases a
    cases b
    simp_all

def spaceAfter (text : Bytes) : Bytes :=
  if text = [] then [] else text ++ [Bytes.space]

def spaceBefore (text : Bytes) : Bytes :=
  if text = [] then [] else Bytes.space :: text

def label (separator : Bytes) (p : Pattern) : Bytes :=
  spaceAfter (p.left.label separator) ++ nonterminal p.index ++
    spaceBefore (p.right.label separator)

end Pattern

/-- Read as: the class yields the left class and then the right class. -/
structure Decomposition where
  left : Nat
  right : Nat
  deriving DecidableEq, Repr

namespace Decomposition

instance : Ord Decomposition :=
  ⟨compareLex (compareOn left) (compareOn right)⟩

instance : Std.TransOrd Decomposition :=
  inferInstanceAs (Std.TransCmp (compareLex (compareOn left) (compareOn right)))

instance : Std.LawfulEqOrd Decomposition where
  eq_of_compare {a b} h := by
    have h : compareLex (compareOn left) (compareOn right) a b = .eq := h
    simp only [compareLex, compareOn, Ordering.then_eq_eq] at h
    cases a
    cases b
    simp_all

end Decomposition

structure Fragment where
  index : Nat
  members : List Phrase
  patterns : SortedSet Pattern
  /-- The members of one token. -/
  tokens : SortedSet Bytes
  decompositions : SortedSet Decomposition
  occurrences : Nat
  productive : Bool

namespace Fragment

def patternCount (f : Fragment) : Nat :=
  f.patterns.toList.length

def ruleCount (f : Fragment) : Nat :=
  f.patternCount + f.tokens.toList.length + f.decompositions.toList.length

end Fragment

structure Grammar where
  name : Bytes
  alphabet : SortedSet Bytes
  /-- The distinct sentences, in the order in which they first occur. -/
  sentences : List Phrase
  fragments : List Fragment

namespace Grammar

def startSymbol : Bytes := utf8 "S"

def productive (g : Grammar) : List Fragment :=
  g.fragments.filter Fragment.productive

def unproductive (g : Grammar) : List Fragment :=
  g.fragments.filter (!·.productive)

def nonterminals (g : Grammar) : List Bytes :=
  g.fragments.map fun f => nonterminal f.index

def fragment? (g : Grammar) (index : Nat) : Option Fragment :=
  g.fragments.find? (·.index == index)

def isProductive (g : Grammar) (index : Nat) : Bool :=
  match g.fragment? index with
  | some f => f.productive
  | none => false

def ruleCount (g : Grammar) : Nat :=
  total (g.productive.map Fragment.ruleCount)

end Grammar

end Substitutability
