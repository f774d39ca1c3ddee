import Mathlib.Data.List.Induction
import Mathlib.Data.List.TakeWhile
import Mathlib.Data.Nat.Digits.Defs
import Mathlib.Data.Nat.Find
import Substitutability.Proofs.Text.Decimal
import Substitutability.Text.Bytes

/-!
# Numerals

A numeral is a text of blanks, a sign or none, and decimal digits, and spells one number.
A text is read as an integer exactly if all of it is a numeral of a number that 32 bits
hold. Any other text has no numeral at its front, or one of a number that is too wide, or
something is left behind the longest one.
-/

set_option autoImplicit false

namespace Substitutability.Integer

open Bytes (isBlank isDigit digit)

inductive Sign : Bytes → Int → Prop
  | none : Sign [] 1
  | plus : Sign (utf8 "+") 1
  | minus : Sign (utf8 "-") (-1)

/-- Any number of blanks, a sign or none, one or more decimal digits and nothing more;
the number that they spell. -/
inductive Numeral : Bytes → Int → Prop
  | mk {blanks sign : Bytes} {factor : Int} {places : List Nat}
      (hblanks : ∀ b ∈ blanks, isBlank b = true) (hsign : Sign sign factor)
      (hsome : places ≠ []) (hplaces : ∀ d ∈ places, d < 10) :
    Numeral (blanks ++ sign ++ places.map digit) (factor * (Nat.ofDigits 10 places.reverse : Nat))

/-! ## Digits -/

theorem toNat_map_digit {places : List Nat} (h : ∀ d ∈ places, d < 10) :
    Bytes.toNat (places.map digit) = Nat.ofDigits 10 places.reverse := by
  induction places using List.reverseRecOn with
  | nil => rfl
  | append_singleton places d ih =>
    have hlast : d < 10 := h d (by simp)
    have hfront : ∀ e ∈ places, e < 10 := fun e he => h e (List.mem_append_left _ he)
    rw [List.map_append, List.map_singleton, Bytes.toNat_append_singleton, ih hfront,
      List.reverse_append, List.reverse_singleton, List.singleton_append, Nat.ofDigits_cons,
      Bytes.toNat_digit]
    omega

theorem digit_toNat_sub {b : UInt8} (h : isDigit b = true) : digit (b.toNat - 48) = b := by
  have hrange := Bytes.isDigit_iff.1 h
  rw [← UInt8.toNat_inj, Bytes.toNat_digit]
  omega

theorem exists_places {text : Bytes} (h : ∀ b ∈ text, isDigit b = true) :
    ∃ places : List Nat, (∀ d ∈ places, d < 10) ∧ text = places.map digit := by
  refine ⟨text.map fun b => b.toNat - 48, ?_, ?_⟩
  · intro d hd
    obtain ⟨b, hb, rfl⟩ := List.mem_map.1 hd
    have := Bytes.isDigit_iff.1 (h b hb)
    omega
  · rw [List.map_map]
    calc text = text.map id := (List.map_id text).symm
      _ = text.map (digit ∘ fun b => b.toNat - 48) :=
        List.map_congr_left fun b hb => (digit_toNat_sub (h b hb)).symm

theorem unsigned?_eq_some {text : Bytes} {m : Nat} :
    unsigned? text = some m ↔ ∃ places : List Nat, places ≠ [] ∧ (∀ d ∈ places, d < 10) ∧
      text = places.map digit ∧ m = Nat.ofDigits 10 places.reverse := by
  rw [unsigned?]
  constructor
  · intro h
    split at h
    · rename_i hdigits
      obtain ⟨hne, hall⟩ := hdigits
      obtain ⟨places, hplaces, rfl⟩ := exists_places (List.all_eq_true.1 hall)
      rw [toNat_map_digit hplaces, Option.some.injEq] at h
      exact ⟨places, by simpa using hne, hplaces, rfl, h.symm⟩
    · cases h
  · rintro ⟨places, hsome, hplaces, rfl, rfl⟩
    have hdigits : places.map digit ≠ [] ∧ (places.map digit).all isDigit = true := by
      simp [hsome, Bytes.isDigit_digit]
    rw [if_pos hdigits, toNat_map_digit hplaces]

theorem exists_digit_of_unsigned? {text : Bytes} {m : Nat} (h : unsigned? text = some m) :
    ∃ b rest, text = b :: rest ∧ isDigit b = true := by
  obtain ⟨places, hsome, -, rfl, -⟩ := unsigned?_eq_some.1 h
  obtain ⟨d, rest, rfl⟩ := List.exists_cons_of_ne_nil hsome
  exact ⟨digit d, rest.map digit, rfl, Bytes.isDigit_digit d⟩

/-! ## Signs -/

theorem signed?_minus (digits : Bytes) :
    signed? (45 :: digits) = (unsigned? digits).map fun m : Nat => -(m : Int) := by
  rw [signed?]
  cases unsigned? digits <;> rfl

theorem signed?_plus (digits : Bytes) :
    signed? (43 :: digits) = (unsigned? digits).map fun m : Nat => (m : Int) := by
  rw [signed?]
  cases unsigned? digits <;> rfl

theorem signed?_unsigned {text : Bytes} (hminus : text.head? ≠ some 45)
    (hplus : text.head? ≠ some 43) :
    signed? text = (unsigned? text).map fun m : Nat => (m : Int) := by
  rw [signed?.eq_def]
  split
  · exact absurd rfl hminus
  · exact absurd rfl hplus
  · cases unsigned? text <;> rfl

theorem exists_sign {text : Bytes} {n : Int} (h : signed? text = some n) :
    ∃ sign factor digits m, text = sign ++ digits ∧ Sign sign factor ∧
      unsigned? digits = some m ∧ n = factor * m := by
  by_cases hminus : text.head? = some 45
  · obtain ⟨digits, rfl⟩ := List.head?_eq_some_iff.1 hminus
    rw [signed?_minus] at h
    obtain ⟨m, hm, rfl⟩ := Option.map_eq_some_iff.1 h
    exact ⟨_, _, digits, m, rfl, .minus, hm, (neg_one_mul _).symm⟩
  · by_cases hplus : text.head? = some 43
    · obtain ⟨digits, rfl⟩ := List.head?_eq_some_iff.1 hplus
      rw [signed?_plus] at h
      obtain ⟨m, hm, rfl⟩ := Option.map_eq_some_iff.1 h
      exact ⟨_, _, digits, m, rfl, .plus, hm, (one_mul _).symm⟩
    · rw [signed?_unsigned hminus hplus] at h
      obtain ⟨m, hm, rfl⟩ := Option.map_eq_some_iff.1 h
      exact ⟨[], 1, text, m, rfl, .none, hm, (one_mul _).symm⟩

theorem Sign.signed? {sign digits : Bytes} {factor : Int} {m : Nat} (h : Sign sign factor)
    (hm : unsigned? digits = some m) : signed? (sign ++ digits) = some (factor * m) := by
  cases h with
  | none =>
    obtain ⟨b, rest, rfl, hb⟩ := exists_digit_of_unsigned? hm
    have hne : ∀ c, isDigit c = false → (b :: rest).head? ≠ some c := by
      rintro c hc ⟨rfl⟩
      exact Bool.false_ne_true (hc.symm.trans hb)
    rw [List.nil_append, signed?_unsigned (hne 45 (by decide)) (hne 43 (by decide)), hm, one_mul]
    rfl
  | plus =>
    have hcons : utf8 "+" ++ digits = 43 :: digits := rfl
    rw [hcons, signed?_plus, hm, one_mul]
    rfl
  | minus =>
    have hcons : utf8 "-" ++ digits = 45 :: digits := rfl
    rw [hcons, signed?_minus, hm, neg_one_mul]
    rfl

/-! ## Blanks -/

theorem not_isBlank_of_isDigit {b : UInt8} (h : isDigit b = true) : isBlank b = false := by
  have hrange := Bytes.isDigit_iff.1 h
  rw [isBlank, Bool.or_eq_false_iff, Bool.and_eq_false_iff, beq_eq_false_iff_ne,
    decide_eq_false_iff_not, decide_eq_false_iff_not, UInt8.le_iff_toNat_le,
    UInt8.le_iff_toNat_le]
  refine ⟨?_, .inr ?_⟩
  · rintro rfl
    simp at hrange
  · simp only [UInt8.reduceToNat]
    omega

theorem Sign.dropWhile {blanks sign digits : Bytes} {factor : Int} {m : Nat}
    (h : Sign sign factor) (hblanks : ∀ b ∈ blanks, isBlank b = true)
    (hm : unsigned? digits = some m) :
    (blanks ++ sign ++ digits).dropWhile isBlank = sign ++ digits := by
  obtain ⟨b, rest, hbody, hb⟩ : ∃ b rest, sign ++ digits = b :: rest ∧ isBlank b = false := by
    cases h with
    | none =>
      obtain ⟨b, rest, hdigits, hb⟩ := exists_digit_of_unsigned? hm
      exact ⟨b, rest, hdigits, not_isBlank_of_isDigit hb⟩
    | plus => exact ⟨43, digits, rfl, by decide⟩
    | minus => exact ⟨45, digits, rfl, by decide⟩
  rw [List.append_assoc, List.dropWhile_append_of_pos hblanks, hbody,
    List.dropWhile_cons_of_neg (by simp [hb])]

/-! ## Numerals -/

theorem numeral_iff {text : Bytes} {n : Int} :
    Numeral text n ↔ signed? (text.dropWhile isBlank) = some n := by
  constructor
  · rintro ⟨hblanks, hsign, hsome, hplaces⟩
    have hm := unsigned?_eq_some.2 ⟨_, hsome, hplaces, rfl, rfl⟩
    rw [hsign.dropWhile hblanks hm, hsign.signed? hm]
  · intro h
    obtain ⟨sign, factor, digits, m, hbody, hsign, hm, rfl⟩ := exists_sign h
    obtain ⟨places, hsome, hplaces, rfl, rfl⟩ := unsigned?_eq_some.1 hm
    have htext : text = text.takeWhile isBlank ++ sign ++ places.map digit := by
      rw [List.append_assoc, ← hbody, List.takeWhile_append_dropWhile]
    rw [htext]
    exact .mk (fun b hb => List.mem_takeWhile_imp hb) hsign hsome hplaces

theorem Numeral.unique {text : Bytes} {n k : Int} (h : Numeral text n) (h' : Numeral text k) :
    n = k :=
  Option.some.inj ((numeral_iff.1 h).symm.trans (numeral_iff.1 h'))

theorem fits_iff {n : Int} : fits n = true ↔ -2147483648 ≤ n ∧ n ≤ 2147483647 := by
  simp [fits]

/-- A text is read as the number that it spells, if 32 bits hold it. -/
theorem toInt_ofBytes_eq_some {text : Bytes} {n : Int} :
    (ofBytes text).map Int32.toInt = some n ↔
      Numeral text n ∧ -2147483648 ≤ n ∧ n ≤ 2147483647 := by
  rw [numeral_iff, ← fits_iff, ofBytes]
  cases signed? (text.dropWhile isBlank) with
  | none => simp
  | some m =>
    rw [Option.some.injEq]
    show (if fits m then some (Int32.ofInt m) else none).map Int32.toInt = some n ↔ _
    by_cases hfits : fits m = true
    · obtain ⟨hlow, hhigh⟩ := fits_iff.1 hfits
      have hvalue : (Int32.ofInt m).toInt = m :=
        Int32.toInt_ofInt_of_le (by simpa using hlow) (by omega)
      rw [if_pos hfits, Option.map_some, hvalue, Option.some.injEq]
      exact ⟨fun h => ⟨h, h ▸ hfits⟩, And.left⟩
    · rw [if_neg hfits]
      constructor
      · intro h
        cases h
      · rintro ⟨rfl, h⟩
        exact absurd h hfits

theorem ofBytes_eq_none {text : Bytes} :
    ofBytes text = none ↔ ∀ n, Numeral text n → n < -2147483648 ∨ 2147483647 < n := by
  rw [← Option.map_eq_none_iff (f := Int32.toInt), Option.eq_none_iff_forall_ne_some]
  refine forall_congr' fun n => ?_
  rw [Ne, toInt_ofBytes_eq_some]
  refine ⟨fun h hn => ?_, fun h hread => ?_⟩
  · by_contra hwide
    exact h ⟨hn, by omega, by omega⟩
  · have := h hread.1
    omega

/-! ## The numeral at the front of a text -/

/-- The longest front of a text that is a numeral, by its number and its length. -/
structure Front (text : Bytes) (n : Int) (used : Nat) : Prop where
  used_le : used ≤ text.length
  numeral : Numeral (text.take used) n
  longest : ∀ m ≤ text.length, ∀ k, Numeral (text.take m) k → m ≤ used

theorem Numeral.front {text : Bytes} {n : Int} (h : Numeral text n) :
    Front text n text.length where
  used_le := le_rfl
  numeral := by rwa [List.take_length]
  longest _ hm _ _ := hm

theorem exists_front {text : Bytes} {n : Int} {used : Nat} (h : Numeral (text.take used) n) :
    ∃ n used, Front text n used := by
  classical
  have hbound : ∃ m ≤ text.length, ∃ k, Numeral (text.take m) k := by
    rcases Nat.le_total used text.length with hle | hle
    · exact ⟨used, hle, n, h⟩
    · refine ⟨text.length, le_rfl, n, ?_⟩
      rwa [List.take_length, ← List.take_of_length_le hle]
  obtain ⟨m, hm, hnumeral⟩ := hbound
  obtain ⟨k, hk⟩ := Nat.findGreatest_spec (P := fun m => ∃ k, Numeral (text.take m) k) hm hnumeral
  exact ⟨k, _, Nat.findGreatest_le _, hk, fun m hm k hk => Nat.le_findGreatest hm ⟨k, hk⟩⟩

theorem Front.numeral_of_length {text : Bytes} {n : Int} (h : Front text n text.length) :
    Numeral text n := by
  have := h.numeral
  rwa [List.take_length] at this

theorem Front.used_eq {text : Bytes} {n k : Int} {used : Nat} (h : Front text n used)
    (hk : Numeral text k) : used = text.length :=
  Nat.le_antisymm h.used_le (h.longest _ le_rfl k hk.front.numeral)

/-- Why a text is not read: it does not begin with a numeral, the number that it begins
with is too wide, or something is left behind it. -/
inductive Refused (text : Bytes) : Prop
  | noNumeral (h : ∀ used n, ¬Numeral (text.take used) n)
  | tooWide {n : Int} {used : Nat} (h : Front text n used)
      (hwide : n < -2147483648 ∨ 2147483647 < n)
  | rest {n : Int} {used : Nat} (h : Front text n used) (hrest : used < text.length)

theorem ofBytes_eq_none_iff_refused {text : Bytes} : ofBytes text = none ↔ Refused text := by
  rw [ofBytes_eq_none]
  constructor
  · intro hwide
    by_cases hfront : ∃ n used, Front text n used
    · obtain ⟨n, used, hfront⟩ := hfront
      rcases hfront.used_le.lt_or_eq with hrest | rfl
      · exact .rest hfront hrest
      · exact .tooWide hfront (hwide n hfront.numeral_of_length)
    · exact .noNumeral fun used n h => hfront (exists_front h)
  · intro hrefused n hn
    cases hrefused with
    | noNumeral hnone => exact absurd hn.front.numeral (hnone _ _)
    | tooWide hfront hwide =>
      obtain rfl := hfront.used_eq hn
      rwa [hn.unique hfront.numeral_of_length]
    | rest hfront hrest => exact absurd (hfront.used_eq hn) hrest.ne

end Substitutability.Integer
