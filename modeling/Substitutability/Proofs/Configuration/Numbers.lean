import Substitutability.Json.Reader
import Substitutability.Proofs.Configuration.Merge
import Substitutability.Proofs.Json.Quantities

/-!
# Numbers of documents in a configuration

Four settings are numbers. What a merge stores for a number of the document is that number
exactly if it is an integer that the setting holds. Any other number is refused only where it
is read as a count that is not positive; else it is stored as its residue or without its places.
-/

set_option autoImplicit false

namespace Substitutability

namespace Setting

open Json (Fits)

def numeric : List Setting :=
  [.minLength, .maxLength, .contextWidth, .minObservations]

def number? : (s : Setting) → s.Value → Option ℤ
  | .minLength, n => some n.toInt
  | .maxLength, n => n.map Int32.toInt
  | .contextWidth, n => some n.toInt
  | .minObservations, n => some n.toNat
  | .granularity, _ => none
  | .segmentation, _ => none
  | .reportFormat, _ => none
  | .visualize, _ => none
  | .lite, _ => none
  | .renderFormat, _ => none
  | .verbose, _ => none

/-- Half of the width that numbers are read with. -/
def half (s : Setting) : ℕ :=
  if s = .minObservations then 2 ^ 63 else 2 ^ 31

/-- The integers that a document can give the setting. -/
def Holds (s : Setting) (n : ℤ) : Prop :=
  Fits s.half n ∧ (s = .minObservations → 0 < n)

variable {s : Setting} {json value : Json} {n k : ℤ} {q : ℚ}

theorem half_pos (s : Setting) : 0 < s.half := by
  rw [half]
  split <;> positivity

/-! ## Reading numbers -/

theorem readMaximum_of_number (h : value.quantity? = some q) :
    readMaximum value = (ofKind value.toInt32).map some := by
  cases value with
  | null => cases h
  | _ => rfl

theorem toNat_toUInt64 {count : Int64} (h : 0 < count.toInt) :
    (count.toUInt64.toNat : ℤ) = count.toInt := by
  have hnonneg : 0 ≤ count := Int64.le_iff_toInt_le.2 (le_of_lt h)
  rw [Int64.toNat_toUInt64_of_le hnonneg, Int64.cast_toNatClampNeg count hnonneg]

theorem exists_read_of_readAs? (hs : s ∈ numeric) (hq : value.quantity? = some q)
    (h : value.readAs? s.half = some n) (hpos : s = .minObservations → 0 < n) :
    ∃ held, s.read value = .ok held ∧ s.number? held = some n := by
  cases s with
  | minLength | contextWidth =>
    obtain ⟨stored, hstored, rfl⟩ := Json.exists_toInt32 h
    exact ⟨stored, by rw [read, hstored]; rfl, rfl⟩
  | maxLength =>
    obtain ⟨stored, hstored, rfl⟩ := Json.exists_toInt32 h
    exact ⟨some stored, by rw [read, readMaximum_of_number hq, hstored]; rfl, rfl⟩
  | minObservations =>
    obtain ⟨count, hcount, rfl⟩ := Json.exists_toInt64 h
    exact ⟨_, readCount_eq_ok_iff.2 ⟨count, hcount, hpos rfl, rfl⟩,
      congrArg some (toNat_toUInt64 (hpos rfl))⟩
  | _ => simp [numeric] at hs

theorem not_admits_of_readAs? (h : value.readAs? (2 ^ 63) = some n) (hn : n ≤ 0) :
    ¬Setting.minObservations.Admits value := by
  rintro ⟨count', hcount', hpos⟩
  obtain ⟨count, hcount, rfl⟩ := Json.exists_toInt64 h
  obtain rfl := Except.ok.inj (hcount.symm.trans hcount')
  omega

theorem refused_iff_of_number (hs : s ∈ numeric) (hvalue : json.member? s.key = some value)
    (hq : value.quantity? = some q) (h : value.readAs? s.half = some n) :
    s.Refused json ↔ s = .minObservations ∧ n ≤ 0 := by
  constructor
  · intro hrefused
    by_contra hnot
    obtain ⟨value', hvalue', hadmits⟩ := refused_iff.1 hrefused
    obtain rfl := Option.some.inj (hvalue.symm.trans hvalue')
    have hpos : s = .minObservations → 0 < n := fun hcount =>
      Int.not_le.1 fun hn => hnot ⟨hcount, hn⟩
    obtain ⟨held, hread, -⟩ := exists_read_of_readAs? hs hq h hpos
    exact hadmits (admits_iff.2 ⟨held, hread⟩)
  · rintro ⟨rfl, hn⟩
    exact refused_iff.2 ⟨value, hvalue, not_admits_of_readAs? h hn⟩

theorem pos_bmod_iff (h : Json.fitsWord k = true) :
    0 < k.bmod (2 * 2 ^ 63) ↔ Setting.minObservations.Holds k := by
  have hsize : ((2 * 2 ^ 63 : ℕ) : ℤ) = 2 ^ 64 := rfl
  simp only [Json.fitsWord, Bool.and_eq_true, decide_eq_true_eq] at h
  simp only [Holds, half, Fits, if_true, true_imp_iff, Int.bmod_def, hsize]
  split <;> omega

end Setting

namespace Configuration

open Double (towardZero)

variable {json : Json} {c c' : Configuration} {s : Setting} {value : Json} {q : ℚ}

/-- What a merge stores for a number. -/
theorem exists_stored (h : c.merge? json = .ok c') (hs : s ∈ Setting.numeric)
    (hvalue : json.member? s.key = some value) (hq : value.quantity? = some q) :
    ∃ n, s.number? (s.get c') = some n ∧ value.readAs? s.half = some n ∧
      (s = .minObservations → 0 < n) := by
  obtain ⟨n, hn⟩ := Json.exists_readAs? hq s.half
  obtain ⟨hread, htaken⟩ := merge?_eq_ok_iff.1 h s
  have hpos : s = .minObservations → 0 < n := fun hcount =>
    Int.not_le.1 fun hle => hread ((Setting.refused_iff_of_number hs hvalue hq hn).2 ⟨hcount, hle⟩)
  obtain ⟨held, hheld, hnumber⟩ := Setting.exists_read_of_readAs? hs hq hn hpos
  have hstated : s.stated? json = some (.ok held) := by
    rw [Setting.stated?, hvalue, Option.map_some, hheld]
  exact ⟨n, by rw [htaken.of_stated hstated, hnumber], hn, hpos⟩

/-- A number that is merged is stored as it is exactly if it is an integer that the setting
holds. Other integers are stored as their residues, other doubles without their places if that
fits. No number is refused for a length or a width, and of the integers of 64 bits exactly those
that a count does not hold are refused for a count. -/
theorem merge_keeps_numbers_that_fit (json : Json) (c : Configuration) {s : Setting}
    {value : Json} {q : ℚ} (hs : s ∈ Setting.numeric)
    (hvalue : json.member? s.key = some value) (hq : value.quantity? = some q) :
    (∀ c', c.merge? json = .ok c' → ∃ n : ℤ, s.number? (s.get c') = some n ∧
      ((n : ℚ) = q ↔ ∃ k : ℤ, (k : ℚ) = q ∧ s.Holds k) ∧
      (∀ k, value = .integer k → n = k.bmod (2 * s.half)) ∧
      ∀ x, value = .float x → Json.Fits s.half (towardZero q) → n = towardZero q) ∧
    (s ≠ .minObservations → ¬s.Refused json) ∧
    (s = .minObservations → ∀ k, value = .integer k → Json.fitsWord k = true →
      (s.Refused json ↔ ¬s.Holds k)) := by
  refine ⟨fun c' hmerge => ?_, ?_, ?_⟩
  · obtain ⟨n, hstored, hn, hpos⟩ := exists_stored hmerge hs hvalue hq
    refine ⟨n, hstored, ?_, ?_, ?_⟩
    · rw [Json.readAs?_eq_iff s.half_pos hq hn]
      constructor
      · rintro ⟨k, rfl, hfits⟩
        have hread := Json.readAs?_of_fits hq hfits
        obtain rfl := Option.some.inj (hn.symm.trans hread)
        exact ⟨n, rfl, hfits, hpos⟩
      · rintro ⟨k, hk, hfits, -⟩
        exact ⟨k, hk, hfits⟩
    · rintro k rfl
      exact (Option.some.inj hn).symm
    · rintro x rfl hfits
      exact Option.some.inj (hn.symm.trans (Json.readAs?_float hq hfits))
  · intro hne hrefused
    obtain ⟨n, hn⟩ := Json.exists_readAs? hq s.half
    exact hne ((Setting.refused_iff_of_number hs hvalue hq hn).1 hrefused).1
  · rintro rfl k rfl hword
    rw [Setting.refused_iff_of_number hs hvalue hq rfl, ← Setting.pos_bmod_iff hword, Int.not_lt]
    exact and_iff_right rfl

def four : Double :=
  .finite false 4503599627370496 (-50)

theorem four_kept_as_maximum :
    Json.read (utf8 "4.0") = .ok (.float four) ∧
    ∃ c', merge? (.record [("max_length", .float four)]) {} = .ok c' ∧
      Setting.maxLength.number? c'.maxLength = some 4 := by
  have hq : (Json.float four).quantity? = some ((4 : ℤ) : ℚ) := by
    simp only [Json.quantity?, four, Double.quantity?]
    norm_num
  have hmerge : merge? (.record [("max_length", .float four)]) {} = .ok { maxLength := some 4 } :=
    rfl
  obtain ⟨hkept, -⟩ := merge_keeps_numbers_that_fit (.record [("max_length", .float four)]) {}
    (by decide : Setting.maxLength ∈ Setting.numeric) rfl hq
  obtain ⟨n, hstored, hsame, -⟩ := hkept _ hmerge
  have hn : (n : ℚ) = (4 : ℤ) := hsame.2 ⟨4, rfl, by decide, nofun⟩
  refine ⟨rfl, _, hmerge, ?_⟩
  rw [← Int.cast_inj.1 hn]
  exact hstored

/-- A length of more than 32 bits is taken for another length. -/
theorem wide_minimum_changed :
    ∃ c', merge? (.record [("min_length", .integer 4294967298)]) {} = .ok c' ∧
      (Json.record [("min_length", .integer 4294967298)]).member? (utf8 "min_length") =
        some (.integer 4294967298) ∧
      c'.minLength.toInt ≠ 4294967298 :=
  ⟨{ minLength := 2 }, rfl, rfl, by decide⟩

end Configuration

end Substitutability
