import Mathlib.Data.List.TakeWhile
import Substitutability.Json.Reader
import Substitutability.Proofs.Text.Decimal

/-!
# Integers in documents

The literal of an integer ends where its digits end, and it has no point and no exponent
unless one follows. So an integer that fits a word is read again from its digits.
-/

set_option autoImplicit false

namespace Substitutability.Json

variable {rest : Bytes}

/-- The text does not go on an integer: it starts with no digit, point or exponent. -/
def Stops (text : Bytes) : Prop :=
  ∀ b ∈ text.head?, Bytes.isDigit b = false ∧ b ≠ 46 ∧ b ≠ 69 ∧ b ≠ 101

theorem digits?_ofNat (h : Stops rest) (n : Nat) :
    digits? (Bytes.ofNat n ++ rest) = some (Bytes.ofNat n, rest) := by
  have hdigits : ∀ b ∈ Bytes.ofNat n, Bytes.isDigit b = true := fun b =>
    Bytes.isDigit_of_mem_ofNat
  have hstop : ∀ b ∈ rest.head?, ¬Bytes.isDigit b = true := fun b hb => by simp [(h b hb).1]
  have htake : rest.takeWhile Bytes.isDigit = [] := by
    cases rest with
    | nil => rfl
    | cons b more => exact List.takeWhile_cons_of_neg (hstop b rfl)
  have hdrop : rest.dropWhile Bytes.isDigit = rest := by
    cases rest with
    | nil => rfl
    | cons b more => exact List.dropWhile_cons_of_neg (hstop b rfl)
  obtain ⟨first, more, hfirst, -⟩ := Bytes.exists_digit_ofNat n
  rw [digits?, List.takeWhile_append_of_pos hdigits, List.dropWhile_append_of_pos hdigits, htake,
    hdrop, List.append_nil, hfirst]

theorem whole?_ofNat (h : Stops rest) (n : Nat) :
    whole? (Bytes.ofNat n ++ rest) = some (Bytes.ofNat n, rest) := by
  rcases Nat.eq_zero_or_pos n with rfl | hpos
  · rw [Bytes.ofNat]
    rfl
  · have hdigits := digits?_ofNat h n
    have hhead := Bytes.head?_ofNat hpos
    obtain ⟨first, more, hfirst, -⟩ := Bytes.exists_digit_ofNat n
    rw [hfirst] at hhead hdigits ⊢
    rw [List.cons_append] at hdigits ⊢
    rw [whole?, hdigits]
    intro after hzero
    exact hhead (congrArg some (List.cons.inj hzero).1)

theorem places?_eq (h : Stops rest) : places? rest = some (none, rest) := by
  rw [places?]
  rintro after rfl
  exact (h 46 rfl).2.1 rfl

theorem exponent?_eq (h : Stops rest) : exponent? rest = some (none, rest) := by
  rw [exponent?]
  · rintro after rfl
    exact (h 69 rfl).2.2.1 rfl
  · rintro after rfl
    exact (h 101 rfl).2.2.2 rfl

theorem literal?_ofInt (h : Stops rest) (n : Int) :
    literal? (Bytes.ofInt n ++ rest) =
      some ⟨decide (n < 0), Bytes.ofNat n.natAbs, none, none, rest⟩ := by
  have hwhole := whole?_ofNat h n.natAbs
  by_cases hneg : n < 0
  · rw [Bytes.ofInt, if_pos hneg, List.cons_append, literal?]
    simp only [hwhole, places?_eq h, exponent?_eq h, Option.bind_eq_bind, Option.bind_some, hneg,
      decide_true]
  · obtain ⟨first, more, hfirst, hdigit⟩ := Bytes.exists_digit_ofNat n.natAbs
    have hsign : first ≠ 45 := by
      rintro rfl
      cases hdigit
    rw [Bytes.ofInt, if_neg hneg]
    rw [hfirst, List.cons_append] at hwhole ⊢
    rw [literal?]
    · simp only [hwhole, places?_eq h, exponent?_eq h, Option.bind_eq_bind, Option.bind_some, hneg,
        decide_false]
    · intro after hminus
      exact hsign (List.cons.inj hminus).1

theorem number_ofInt (h : Stops rest) {n : Int} (hn : fitsWord n = true) :
    number (Bytes.ofInt n ++ rest) = .ok (.integer n, rest) := by
  have hvalue : ∀ text, Literal.value ⟨decide (n < 0), Bytes.ofNat n.natAbs, none, none, rest⟩
      text = .ok (.integer n) := by
    intro text
    have hsigned : Literal.signedWhole
        ⟨decide (n < 0), Bytes.ofNat n.natAbs, none, none, rest⟩ = n := by
      simp only [Literal.signedWhole, Bytes.toNat_ofNat, decide_eq_true_eq]
      omega
    rw [Literal.value, hsigned, if_pos ⟨rfl, rfl, hn⟩]
  rw [number, literal?_ofInt h]
  simp only [hvalue]
  rfl

end Substitutability.Json
