import Substitutability.Text.Bytes

/-!
# Phrases and contexts

A phrase is a list of tokens, a part of a sentence or a whole one. Phrases
compare token by token, tokens byte by byte. The context of a phrase in a
sentence is what stands to its left and to its right. A marker stands for the
start or the end of the sentence where a side reaches it. Contexts compare by
the left side first.
-/

set_option autoImplicit false

namespace Substitutability

abbrev Phrase := List Bytes

instance : LawfulBEq Phrase := inferInstance

instance : Std.TransOrd Phrase := inferInstance

instance : Std.LawfulEqOrd Phrase := inferInstance

def Phrase.label (separator : Bytes) (phrase : Phrase) : Bytes :=
  Bytes.join separator phrase

def startMarker : Bytes := utf8 "<s>"

def endMarker : Bytes := utf8 "</s>"

structure Context where
  left : Phrase
  right : Phrase
  deriving DecidableEq, Repr, Inhabited

namespace Context

instance : Ord Context :=
  ⟨compareLex (compareOn left) (compareOn right)⟩

instance : Std.TransOrd Context :=
  inferInstanceAs (Std.TransCmp (compareLex (compareOn left) (compareOn right)))

instance : Std.LawfulEqOrd Context where
  eq_of_compare {a b} h := by
    have h : compareLex (compareOn left) (compareOn right) a b = .eq := h
    simp only [compareLex, compareOn, Ordering.then_eq_eq] at h
    cases a
    cases b
    simp_all

def label (separator : Bytes) (context : Context) : Bytes :=
  utf8 "(" ++ Phrase.label separator context.left ++ utf8 " _ " ++
    Phrase.label separator context.right ++ utf8 ")"

end Context

end Substitutability
