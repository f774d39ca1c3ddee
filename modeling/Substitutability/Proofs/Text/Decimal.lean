import Substitutability.Text.Bytes

/-!
# Decimal digits

The digits of a number have its value again, only zero starts with a zero, and they are the
digits that the number has as a string.
-/

set_option autoImplicit false

namespace Substitutability

theorem utf8_append (s t : String) : utf8 (s ++ t) = utf8 s ++ utf8 t := by
  simp [utf8]

namespace Bytes

theorem toNat_digit (n : Nat) : (digit n).toNat = 48 + n % 10 := by
  rw [digit, UInt8.toNat_ofNat']
  omega

theorem isDigit_iff {b : UInt8} : isDigit b = true ↔ 48 ≤ b.toNat ∧ b.toNat ≤ 57 := by
  simp only [isDigit, Bool.and_eq_true, decide_eq_true_eq, UInt8.le_iff_toNat_le,
    UInt8.reduceToNat]

theorem isDigit_digit (n : Nat) : isDigit (digit n) = true := by
  rw [isDigit_iff, toNat_digit]
  omega

theorem toNat_append_singleton (digits : Bytes) (b : UInt8) :
    toNat (digits ++ [b]) = 10 * toNat digits + (b.toNat - 48) := by
  rw [toNat, List.foldl_append]
  rfl

theorem isDigit_of_mem_ofNat {n : Nat} {b : UInt8} (h : b ∈ ofNat n) : isDigit b = true := by
  induction n using ofNat.induct with
  | case1 n hsmall =>
    rw [ofNat, if_pos hsmall] at h
    obtain rfl := List.mem_singleton.1 h
    exact isDigit_digit n
  | case2 n hlarge ih =>
    rw [ofNat, if_neg hlarge] at h
    rcases List.mem_append.1 h with h | h
    · exact ih h
    · obtain rfl := List.mem_singleton.1 h
      exact isDigit_digit n

theorem exists_digit_ofNat (n : Nat) : ∃ b rest, ofNat n = b :: rest ∧ isDigit b = true := by
  obtain ⟨b, rest, hfirst⟩ := List.exists_cons_of_ne_nil (ofNat_ne_nil n)
  have hmem : b ∈ ofNat n := by
    rw [hfirst]
    exact List.mem_cons_self
  exact ⟨b, rest, hfirst, isDigit_of_mem_ofNat hmem⟩

theorem toNat_ofNat (n : Nat) : toNat (ofNat n) = n := by
  induction n using ofNat.induct with
  | case1 n hsmall =>
    have hvalue : toNat [digit n] = 10 * 0 + ((digit n).toNat - 48) := rfl
    rw [ofNat, if_pos hsmall, hvalue, toNat_digit]
    omega
  | case2 n hlarge ih =>
    rw [ofNat, if_neg hlarge, toNat_append_singleton, ih, toNat_digit]
    omega

theorem head?_ofNat {n : Nat} (h : 0 < n) : (ofNat n).head? ≠ some 48 := by
  induction n using ofNat.induct with
  | case1 n hsmall =>
    rw [ofNat, if_pos hsmall, List.head?_cons]
    intro hzero
    have hdigit := congrArg UInt8.toNat (Option.some.inj hzero)
    rw [toNat_digit] at hdigit
    simp only [UInt8.reduceToNat] at hdigit
    omega
  | case2 n hlarge ih =>
    obtain ⟨b, rest, hfront, -⟩ := exists_digit_ofNat (n / 10)
    have hfirst := ih (by omega)
    rw [hfront] at hfirst
    rw [ofNat, if_neg hlarge, hfront]
    exact hfirst

theorem ascii_of_mem_ofNat {n : Nat} {b : UInt8} (h : b ∈ ofNat n) : b < 0x80 := by
  have hdigit := isDigit_iff.1 (isDigit_of_mem_ofNat h)
  simp only [UInt8.lt_iff_toNat_lt, UInt8.reduceToNat]
  omega

theorem utf8_digitChar : ∀ d < 10, utf8 (String.singleton d.digitChar) = [digit d] := by
  decide

theorem utf8_toString (n : Nat) : utf8 (toString n) = ofNat n := by
  show utf8 n.repr = ofNat n
  induction n using ofNat.induct with
  | case1 n hsmall => rw [ofNat, if_pos hsmall, Nat.repr_of_lt hsmall, utf8_digitChar n hsmall]
  | case2 n hlarge ih =>
    have hlast : digit (n % 10) = digit n := by rw [digit, digit, Nat.mod_mod]
    rw [ofNat, if_neg hlarge, Nat.repr_of_ge (Nat.le_of_not_lt hlarge), utf8_append, ih,
      utf8_digitChar _ (Nat.mod_lt n (by decide)), hlast]

end Bytes

end Substitutability
