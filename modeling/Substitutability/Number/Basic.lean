/-!
# Numbers

Powers of two and of ten, the total of a list, and doubles. A double is a sign
and a size `mantissa * 2 ^ exponent` with a mantissa of at most 53 bits, or one
of the two values without a size. `ofRatio` is the double nearest to a quotient
of natural numbers, a half going to the even mantissa.
-/

set_option autoImplicit false

namespace Substitutability

def twoTo (n : Nat) : Nat := Nat.pow 2 n

def tenTo (n : Nat) : Nat := Nat.pow 10 n

def total : List Nat → Nat
  | [] => 0
  | n :: rest => n + total rest

/-- An integer in an unsigned word; a negative one counts down from the end of
the range. -/
def unsignedWord (n : Int) : Nat :=
  (n % 18446744073709551616).toNat

theorem total_append (ns ms : List Nat) : total (ns ++ ms) = total ns + total ms := by
  induction ns with
  | nil => simp [total]
  | cons n rest ih => simp [total, ih, Nat.add_assoc]

inductive Double
  | finite (negative : Bool) (mantissa : Nat) (exponent : Int)
  | infinite (negative : Bool)
  | undefined
  deriving DecidableEq, Repr

namespace Double

def leastNormal : Nat := twoTo 52

def leastExponent : Int := -1074

def greatestExponent : Int := 971

def zero : Double := .finite false 0 leastExponent

/-- The integer nearest to `num / den`, a half going to the even one. -/
def roundHalfEven (num den : Nat) : Nat :=
  let low := num / den
  let twice := 2 * (num % den)
  if twice < den then low
  else if den < twice then low + 1
  else low + low % 2

def scaled (num den : Nat) (exponent : Int) : Nat × Nat :=
  (num * twoTo (-exponent).toNat, den * twoTo exponent.toNat)

/-- The exponent at which `num / den` has a mantissa of 53 bits, or the least
exponent if it is smaller than every normal double. -/
def exponentOf (num den : Nat) : Int :=
  let guess : Int := (Nat.log2 num : Int) - (Nat.log2 den : Int) - 52
  let (top, bottom) := scaled num den guess
  max leastExponent (if top / bottom < leastNormal then guess - 1 else guess)

def ofRatio (negative : Bool) (num den : Nat) : Double :=
  if num = 0 then .finite negative 0 leastExponent
  else
    let exponent := exponentOf num den
    let (top, bottom) := scaled num den exponent
    let mantissa := roundHalfEven top bottom
    let (mantissa, exponent) :=
      if mantissa = 2 * leastNormal then (leastNormal, exponent + 1) else (mantissa, exponent)
    if greatestExponent < exponent then .infinite negative
    else .finite negative mantissa exponent

def ofNat (n : Nat) : Double :=
  ofRatio false n 1

/-- The double nearest to `mantissa * 10 ^ exponent`. Beyond 310 digits before
the point it is infinite and beyond 330 zeros after it zero, so no power of ten
larger than these is ever formed. -/
def ofDecimal (negative : Bool) (mantissa : Nat) (exponent : Int) : Double :=
  let places : Int := (Nat.log2 mantissa : Int) * 30103 / 100000 + exponent
  if mantissa = 0 ∨ places < -330 then .finite negative 0 leastExponent
  else if 310 < places then .infinite negative
  else ofRatio negative (mantissa * tenTo exponent.toNat) (tenTo (-exponent).toNat)

def isFinite : Double → Bool
  | .finite _ _ _ => true
  | _ => false

/-- The integer part, toward zero. -/
def truncate? : Double → Option Int
  | .finite negative mantissa exponent =>
    let size : Nat := mantissa * twoTo exponent.toNat / twoTo (-exponent).toNat
    some (if negative then -(size : Int) else size)
  | _ => none

end Double

end Substitutability
