import Mathlib.Algebra.Order.Field.Power
import Mathlib.Algebra.Order.Floor.Semifield
import Mathlib.Data.Rat.Floor
import Mathlib.Tactic.Linarith
import Mathlib.Tactic.Positivity
import Substitutability.Json.Value

/-!
# Numbers of documents

A number of a document stands for a rational number. A conversion to an integer of fixed width
gives that number exactly if it is an integer that fits the width. Of any other double it gives
the part toward zero, if that fits, and of any other integer the residue.
-/

set_option autoImplicit false

namespace Substitutability

/-! ## Doubles -/

namespace Double

def quantity? : Double → Option ℚ
  | .finite negative mantissa exponent =>
    some ((if negative then -1 else 1) * (mantissa * 2 ^ exponent))
  | _ => none

def towardZero (q : ℚ) : ℤ :=
  if q < 0 then ⌈q⌉ else ⌊q⌋

theorem towardZero_intCast (n : ℤ) : towardZero n = n := by
  rw [towardZero, Int.ceil_intCast, Int.floor_intCast, ite_self]

theorem two_zpow_eq (exponent : ℤ) :
    (2 : ℚ) ^ exponent = (twoTo exponent.toNat : ℚ) / (twoTo (-exponent).toNat : ℚ) := by
  have htwo : ∀ n, (twoTo n : ℚ) = 2 ^ n := fun n => by
    rw [twoTo, Nat.pow_eq, Nat.cast_pow, Nat.cast_ofNat]
  rw [htwo, htwo]
  obtain ⟨n, rfl | rfl⟩ := exponent.eq_nat_or_neg
  · simp
  · simp

theorem towardZero_neg {size : ℚ} (h : 0 ≤ size) : towardZero (-size) = -⌊size⌋ := by
  rw [towardZero]
  split
  · exact Int.ceil_neg
  · have hzero : size = 0 := by linarith
    rw [hzero, neg_zero, Int.floor_zero, neg_zero]

theorem truncate?_of_quantity? {x : Double} {q : ℚ} (h : x.quantity? = some q) :
    x.truncate? = some (towardZero q) := by
  cases x with
  | infinite negative => cases h
  | undefined => cases h
  | finite negative mantissa exponent =>
    have hsize : (0 : ℚ) ≤ mantissa * 2 ^ exponent := by positivity
    have hfloor : ⌊(mantissa : ℚ) * 2 ^ exponent⌋ =
        ((mantissa * twoTo exponent.toNat / twoTo (-exponent).toNat : ℕ) : ℤ) := by
      rw [← Int.natCast_floor_eq_floor hsize, two_zpow_eq, ← mul_div_assoc, ← Nat.cast_mul,
        Nat.floor_div_eq_div]
    obtain rfl := Option.some.inj h
    simp only [truncate?, ← hfloor]
    cases negative with
    | true => simp [towardZero_neg hsize]
    | false => simp [towardZero, not_lt.2 hsize]

end Double

/-! ## Conversions -/

namespace Json

open Double (towardZero truncate?_of_quantity? towardZero_intCast)

def quantity? : Json → Option ℚ
  | .integer n => some n
  | .float x => x.quantity?
  | _ => none

/-- Half of the numbers of the width are below zero. -/
def Fits (half : ℕ) (n : ℤ) : Prop :=
  -half ≤ n ∧ n < half

instance (half : ℕ) (n : ℤ) : Decidable (Fits half n) :=
  inferInstanceAs (Decidable (_ ∧ _))

/-- The integer that a number is read as where half of the width is given. -/
def readAs? (half : ℕ) : Json → Option ℤ
  | .integer n => some (n.bmod (2 * half))
  | .float x => some (roundedTo (-half) (half - 1) x)
  | _ => none

variable {half : ℕ} {json : Json} {q : ℚ} {n k : ℤ}

theorem exists_readAs? (h : json.quantity? = some q) (half : ℕ) :
    ∃ n, json.readAs? half = some n := by
  cases json with
  | integer n => exact ⟨_, rfl⟩
  | float x => exact ⟨_, rfl⟩
  | _ => cases h

theorem fits_readAs? (hhalf : 0 < half) (h : json.readAs? half = some n) : Fits half n := by
  cases json with
  | integer m =>
    obtain rfl := Option.some.inj h
    have hlow := Int.le_bmod (x := m) (m := 2 * half) (by omega)
    have hhigh := Int.bmod_lt (x := m) (m := 2 * half) (by omega)
    rw [Fits]
    omega
  | float x =>
    obtain rfl := Option.some.inj h
    rw [Fits, roundedTo]
    split
    · split <;> omega
    · omega
  | _ => cases h

theorem readAs?_float {x : Double} (hq : x.quantity? = some q) (h : Fits half (towardZero q)) :
    (Json.float x).readAs? half = some (towardZero q) := by
  rw [readAs?, roundedTo, truncate?_of_quantity? hq]
  rw [Fits] at h
  simp only
  rw [if_pos (by omega)]

theorem readAs?_of_fits (hq : json.quantity? = some (k : ℚ)) (h : Fits half k) :
    json.readAs? half = some k := by
  cases json with
  | integer m =>
    obtain rfl : m = k := by exact_mod_cast Option.some.inj hq
    rw [Fits] at h
    rw [readAs?, Int.bmod_eq_of_le_mul_two (by push_cast; omega) (by push_cast; omega)]
  | float x =>
    have hzero := towardZero_intCast k
    rw [readAs?_float hq (by rwa [hzero]), hzero]
  | _ => cases hq

/-- What is read is the number itself exactly if that is an integer that fits. -/
theorem readAs?_eq_iff (hhalf : 0 < half) (hq : json.quantity? = some q)
    (h : json.readAs? half = some n) : (n : ℚ) = q ↔ ∃ k : ℤ, (k : ℚ) = q ∧ Fits half k := by
  constructor
  · exact fun heq => ⟨n, heq, fits_readAs? hhalf h⟩
  · rintro ⟨k, rfl, hfits⟩
    rw [readAs?_of_fits hq hfits] at h
    exact congrArg _ (Option.some.inj h).symm

/-! ## Stored widths -/

theorem exists_toInt32 (h : json.readAs? (2 ^ 31) = some n) :
    ∃ stored : Int32, json.toInt32 = .ok stored ∧ stored.toInt = n := by
  have hfits := fits_readAs? (by positivity) h
  cases json with
  | integer m =>
    refine ⟨_, rfl, ?_⟩
    obtain rfl := Option.some.inj h
    exact Int32.toInt_ofInt
  | float x =>
    refine ⟨_, rfl, ?_⟩
    obtain rfl := Option.some.inj h
    exact Int32.toInt_ofInt_of_le (by simpa using hfits.1) (by simpa using hfits.2)
  | _ => cases h

theorem exists_toInt64 (h : json.readAs? (2 ^ 63) = some n) :
    ∃ stored : Int64, json.toInt64 = .ok stored ∧ stored.toInt = n := by
  have hfits := fits_readAs? (by positivity) h
  cases json with
  | integer m =>
    refine ⟨_, rfl, ?_⟩
    obtain rfl := Option.some.inj h
    exact Int64.toInt_ofInt
  | float x =>
    refine ⟨_, rfl, ?_⟩
    obtain rfl := Option.some.inj h
    exact Int64.toInt_ofInt_of_le (by simpa using hfits.1) (by simpa using hfits.2)
  | _ => cases h

end Json

end Substitutability
