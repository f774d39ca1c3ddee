import Substitutability.Number.Basic
import Substitutability.Text.Bytes

/-!
# Decimals of a double

Two ways to choose the decimal digits of a positive size `mantissa * 2 ^ exponent`:
the fewest digits that read back as the same double, and a fixed number of
significant digits. Both are exact: sizes and powers of ten are compared as
natural numbers. A notation says how the digits are chosen, up to which place
the point is written inside the digits, and what closes a whole number. Outside
of that, and four or more zeros after the point, the text has an exponent of at
least two digits.
-/

set_option autoImplicit false

namespace Substitutability

/-- The number `digits * 10 ^ exponent`. -/
structure Decimal where
  digits : Nat
  exponent : Int
  deriving DecidableEq, Repr

namespace Decimal

def sides (c : Nat) (g : Int) (m : Nat) (e : Int) : Nat × Nat :=
  (c * tenTo g.toNat * twoTo (-e).toNat, m * twoTo e.toNat * tenTo (-g).toNat)

def quotient (m : Nat) (e g : Int) : Nat :=
  let (unit, size) := sides 1 g m e
  size / unit

def roundedQuotient (m : Nat) (e g : Int) : Nat :=
  let (unit, size) := sides 1 g m e
  Double.roundHalfEven size unit

/-- The least double of a binade has a neighbour below at half the distance. -/
def lowerGap (m : Nat) (e : Int) : Nat :=
  if m = Double.leastNormal ∧ Double.leastExponent < e then 1 else 2

/-- Whether `c * 10 ^ g` reads back as `m * 2 ^ e`: it lies between the
midpoints to the neighbours, and an end belongs to the even mantissa. -/
def readsBack (m : Nat) (e : Int) (c : Nat) (g : Int) : Bool :=
  let (point, lower) := sides c g (4 * m - lowerGap m e) (e - 2)
  let upper := (sides c g (4 * m + 2) (e - 2)).2
  if m % 2 = 0 then lower ≤ point && point ≤ upper else lower < point && point < upper

def nearer (m : Nat) (e : Int) (c : Nat) (g : Int) : Nat :=
  let (middle, size) := sides (2 * c + 1) g (2 * m) e
  if size < middle then c else if middle < size then c + 1 else c + c % 2

def onGrid? (m : Nat) (e g : Int) : Option Nat :=
  let c := quotient m e g
  match readsBack m e c g, readsBack m e (c + 1) g with
  | true, true => some (nearer m e c g)
  | true, false => some c
  | false, true => some (c + 1)
  | false, false => none

def ceiling (m : Nat) (e : Int) : Int :=
  ((Nat.log2 m : Int) + 1 + e) * 30103 / 100000 + 1

def firstGrid (m : Nat) (e : Int) : Nat → Int → Decimal
  | 0, g => ⟨quotient m e g, g⟩
  | fuel + 1, g =>
    match onGrid? m e g with
    | some c => ⟨c, g⟩
    | none => firstGrid m e fuel (g - 1)

/-- The first grid, from coarse to fine, with a point that reads back. Seventeen
digits always do. -/
def shortest (m : Nat) (e : Int) : Decimal :=
  firstGrid m e 20 (ceiling m e)

def firstOfSize (m : Nat) (e : Int) (least : Nat) : Nat → Int → Int
  | 0, g => g
  | fuel + 1, g => if least ≤ quotient m e g then g else firstOfSize m e least fuel (g - 1)

/-- The size to so many significant digits, a half going to the even digit. -/
def significant (count m : Nat) (e : Int) : Decimal :=
  let g := firstOfSize m e (tenTo (count - 1)) (count + 3) (ceiling m e)
  let c := roundedQuotient m e g
  if c = tenTo count then ⟨tenTo (count - 1), g + 1⟩ else ⟨c, g⟩

end Decimal

structure Notation where
  digits : Nat → Int → Decimal
  lastPlace : Int
  whole : Bytes

namespace Notation

/-- Numbers of a JSON document: the fewest digits, and a whole number ends in
`.0`. -/
def document : Notation := ⟨Decimal.shortest, 15, utf8 ".0"⟩

/-- Numbers of a summary: six significant digits, trailing zeros dropped. -/
def summary : Notation := ⟨Decimal.significant 6, 6, []⟩

def dropZeros (digits : Bytes) : Bytes :=
  match Bytes.dropEnd (· == 48) digits with
  | [] => [48]
  | kept => kept

def zeros (count : Int) : Bytes :=
  List.replicate count.toNat 48

def exponentText (n : Int) : Bytes :=
  let size := Bytes.ofNat n.natAbs
  utf8 (if n < 0 then "e-" else "e+") ++ (if size.length < 2 then 48 :: size else size)

def write (style : Notation) (digits : Bytes) (place : Int) : Bytes :=
  let count : Int := digits.length
  if place ≤ -4 ∨ style.lastPlace < place then
    (match digits with
      | first :: second :: rest => first :: 46 :: second :: rest
      | short => short) ++ exponentText (place - 1)
  else if place ≤ 0 then utf8 "0." ++ zeros (-place) ++ digits
  else if count ≤ place then digits ++ zeros (place - count) ++ style.whole
  else digits.take place.toNat ++ 46 :: digits.drop place.toNat

def writeSize (style : Notation) (mantissa : Nat) (exponent : Int) : Bytes :=
  if mantissa = 0 then 48 :: style.whole
  else
    let decimal := style.digits mantissa exponent
    let digits := Bytes.ofNat decimal.digits
    style.write (dropZeros digits) (digits.length + decimal.exponent)

def signed (negative : Bool) (text : Bytes) : Bytes :=
  if negative then 45 :: text else text

def text (style : Notation) : Double → Bytes
  | .finite negative mantissa exponent => signed negative (style.writeSize mantissa exponent)
  | .infinite negative => signed negative (utf8 "inf")
  | .undefined => utf8 "nan"

end Notation

end Substitutability
