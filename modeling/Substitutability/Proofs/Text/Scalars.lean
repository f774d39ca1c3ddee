import Substitutability.Proofs.Text.WellFormed

/-!
# Characters are the encodings of scalar values

The bytes of a character determine a number: the bits that the first byte leaves free and
six bits of each byte after it. The ranges of the bytes keep the number among the Unicode
scalar values, and encoding it gives the bytes back. So splitting a text yields encoded
scalar values only, changes nothing that is well-formed, and repairs the rest once and for
all.
-/

set_option autoImplicit false

namespace Substitutability.Utf8

variable {text part : Bytes}

/-! ## The number of a character -/

theorem utf8EncodeChar_injective : Function.Injective String.utf8EncodeChar := by
  intro c d h
  have hc := ByteArray.utf8DecodeChar?_utf8EncodeChar_append (b := ByteArray.empty) (c := c)
  have hd := ByteArray.utf8DecodeChar?_utf8EncodeChar_append (b := ByteArray.empty) (c := d)
  rw [h, hd] at hc
  exact (Option.some.inj hc).symm

theorem ranges_of_continuation {first low high : UInt8} {more : Nat}
    (h : continuation first = some (low, high, more)) :
    0xC2 ≤ first.toNat ∧ first.toNat ≤ 0xF4 ∧
      low.toNat = (if first.toNat = 0xE0 then 0xA0 else if first.toNat = 0xF0 then 0x90 else 0x80) ∧
      high.toNat =
        (if first.toNat = 0xED then 0x9F else if first.toNat = 0xF4 then 0x8F else 0xBF) ∧
      more = (if first.toNat < 0xE0 then 0 else if first.toNat < 0xF0 then 1 else 2) := by
  have hbounds : 0xC2 ≤ first ∧ first ≤ 0xF4 := by
    unfold continuation at h
    grind
  rw [continuation_eq hbounds.1 hbounds.2] at h
  simp only [Option.some.injEq, Prod.mk.injEq] at h
  obtain ⟨rfl, rfl, rfl⟩ := h
  simp only [UInt8.le_iff_toNat_le, UInt8.lt_iff_toNat_lt, ← UInt8.toNat_inj,
    apply_ite UInt8.toNat, UInt8.reduceToNat] at hbounds ⊢
  exact ⟨hbounds.1, hbounds.2, trivial, trivial, trivial⟩

theorem toNat_of_isTail {b : UInt8} (h : isTail b = true) : 0x80 ≤ b.toNat ∧ b.toNat ≤ 0xBF := by
  simpa [isTail, UInt8.le_iff_toNat_le] using h

theorem exists_char {n : Nat} (h : n < 0xD800 ∨ 0xDFFF < n ∧ n < 0x110000) :
    ∃ c : Char, c.val.toNat = n :=
  ⟨Char.ofNatAux n h, UInt32.toNat_ofNatLT⟩

theorem ofNat_eq_of_toNat {b : UInt8} {n : Nat} (h : n = b.toNat) : UInt8.ofNat n = b := by
  rw [h, UInt8.ofNat_toNat]

theorem exists_char_of_ascii {first : UInt8} (h : first < 0x80) :
    ∃ c : Char, String.utf8EncodeChar c = [first] := by
  have hfirst : first.toNat < 0x80 := UInt8.lt_iff_toNat_lt.1 h
  obtain ⟨c, hc⟩ := exists_char (n := first.toNat) (.inl (by omega))
  refine ⟨c, ?_⟩
  rw [String.utf8EncodeChar, hc, if_pos (by omega), UInt8.ofNat_toNat]

theorem exists_char_of_two {first second : UInt8}
    (hfirst : 0xC2 ≤ first.toNat ∧ first.toNat < 0xE0)
    (hsecond : 0x80 ≤ second.toNat ∧ second.toNat ≤ 0xBF) :
    ∃ c : Char, String.utf8EncodeChar c = [first, second] := by
  obtain ⟨c, hc⟩ := exists_char (n := (first.toNat - 0xC0) * 64 + (second.toNat - 0x80))
    (.inl (by omega))
  refine ⟨c, ?_⟩
  rw [String.utf8EncodeChar, hc, if_neg (by omega), if_pos (by omega),
    ofNat_eq_of_toNat (b := first) (by omega), ofNat_eq_of_toNat (b := second) (by omega)]

theorem exists_char_of_three {first second third : UInt8}
    (hfirst : 0xE0 ≤ first.toNat ∧ first.toNat < 0xF0)
    (hsecond : 0x80 ≤ second.toNat ∧ second.toNat ≤ 0xBF)
    (hlow : first.toNat = 0xE0 → 0xA0 ≤ second.toNat)
    (hhigh : first.toNat = 0xED → second.toNat ≤ 0x9F)
    (hthird : 0x80 ≤ third.toNat ∧ third.toNat ≤ 0xBF) :
    ∃ c : Char, String.utf8EncodeChar c = [first, second, third] := by
  obtain ⟨c, hc⟩ := exists_char (n := (first.toNat - 0xE0) * 4096 +
    (second.toNat - 0x80) * 64 + (third.toNat - 0x80)) (by omega)
  refine ⟨c, ?_⟩
  rw [String.utf8EncodeChar, hc, if_neg (by omega), if_neg (by omega), if_pos (by omega),
    ofNat_eq_of_toNat (b := first) (by omega), ofNat_eq_of_toNat (b := second) (by omega),
    ofNat_eq_of_toNat (b := third) (by omega)]

theorem exists_char_of_four {first second third fourth : UInt8}
    (hfirst : 0xF0 ≤ first.toNat ∧ first.toNat ≤ 0xF4)
    (hsecond : 0x80 ≤ second.toNat ∧ second.toNat ≤ 0xBF)
    (hlow : first.toNat = 0xF0 → 0x90 ≤ second.toNat)
    (hhigh : first.toNat = 0xF4 → second.toNat ≤ 0x8F)
    (hthird : 0x80 ≤ third.toNat ∧ third.toNat ≤ 0xBF)
    (hfourth : 0x80 ≤ fourth.toNat ∧ fourth.toNat ≤ 0xBF) :
    ∃ c : Char, String.utf8EncodeChar c = [first, second, third, fourth] := by
  obtain ⟨c, hc⟩ := exists_char (n := (first.toNat - 0xF0) * 262144 +
    (second.toNat - 0x80) * 4096 + (third.toNat - 0x80) * 64 + (fourth.toNat - 0x80)) (by omega)
  refine ⟨c, ?_⟩
  rw [String.utf8EncodeChar, hc, if_neg (by omega), if_neg (by omega), if_neg (by omega),
    ofNat_eq_of_toNat (b := first) (by omega), ofNat_eq_of_toNat (b := second) (by omega),
    ofNat_eq_of_toNat (b := third) (by omega), ofNat_eq_of_toNat (b := fourth) (by omega)]

/-- By cases on the length: the number is put together from the bytes, and encoding it takes
it apart again. -/
theorem exists_char_of_isCharacter (h : isCharacter part = true) :
    ∃ c : Char, String.utf8EncodeChar c = part := by
  have hbegins := isCharacter_iff.1 h
  generalize hsize : part.length = size at hbegins
  cases hbegins with
  | @single first rest hfirst =>
    obtain rfl : rest = [] := by simpa using hsize
    exact exists_char_of_ascii hfirst
  | @several first second low high more tail rest hfirst hcontinuation hlow hhigh hlength htail =>
    obtain rfl : rest = [] := by
      rw [← List.length_eq_zero_iff]
      simp only [List.length_cons, List.length_append] at hsize
      omega
    obtain ⟨hmin, hmax, hlow', hhigh', hmore⟩ := ranges_of_continuation hcontinuation
    have hsecond := toNat_of_isTail (isTail_of_continuation hcontinuation hlow hhigh)
    rw [UInt8.le_iff_toNat_le] at hlow hhigh
    rw [List.append_nil]
    match tail, hlength with
    | [], hlength => exact exists_char_of_two (by grind) hsecond
    | [third], hlength =>
      have hthird := toNat_of_isTail (htail third (by simp))
      exact exists_char_of_three (by grind) hsecond (by grind) (by grind) hthird
    | [third, fourth], hlength =>
      have hthird := toNat_of_isTail (htail third (by simp))
      have hfourth := toNat_of_isTail (htail fourth (by simp))
      exact exists_char_of_four (by grind) hsecond (by grind) (by grind) hthird hfourth
    | _ :: _ :: _ :: _, hlength => grind

/-! ## Splitting -/

def repaired (piece : Bytes) : Bytes :=
  if isCharacter piece then piece else replacement

def IsPiece (piece : Bytes) : Prop :=
  isCharacter piece = true ∨ ∃ b, piece = [b] ∧ 0x80 ≤ b

theorem isCharacter_singleton_iff {b : UInt8} : isCharacter [b] = true ↔ b < 0x80 := by
  constructor
  · intro h
    have hbegins : Begins [b] 1 := isCharacter_iff.1 h
    cases hbegins with
    | single rest hb => exact hb
  · exact fun h => isCharacter_iff.2 (.single [] h)

/-- By induction along the splitting: the text is taken apart from its start to its end, piece
by piece, and nothing is looked for behind the end. -/
theorem characters_eq_repaired (text : Bytes) :
    ∃ pieces : List Bytes, pieces.flatten = text ∧ (∀ piece ∈ pieces, IsPiece piece) ∧
      characters text = pieces.map repaired := by
  induction text using characters.induct with
  | case1 => exact ⟨[], rfl, by simp, by simp [characters]⟩
  | case2 first rest hsize ih =>
    obtain ⟨pieces, hflatten, hpieces, hcharacters⟩ := ih
    have hfirst : ¬first < 0x80 := by
      intro hascii
      simp [characterSize, hascii] at hsize
    have hrepaired : repaired [first] = replacement :=
      if_neg (mt isCharacter_singleton_iff.1 hfirst)
    refine ⟨[first] :: pieces, by rw [List.flatten_cons, hflatten, List.singleton_append], ?_, ?_⟩
    · exact List.forall_mem_cons.2 ⟨.inr ⟨first, rfl, UInt8.not_lt.1 hfirst⟩, hpieces⟩
    · rw [List.map_cons, hrepaired, ← hcharacters, characters, hsize]
  | case3 first rest size hsize ih =>
    obtain ⟨pieces, hflatten, hpieces, hcharacters⟩ := ih
    have hcharacter : isCharacter (first :: rest.take size) = true := by
      rcases characterSize_eq_zero_or_begins (first :: rest) with hzero | hbegins
      · omega
      · rw [hsize] at hbegins
        exact hbegins.isCharacter_take
    have hrepaired : repaired (first :: rest.take size) = first :: rest.take size :=
      if_pos hcharacter
    refine ⟨(first :: rest.take size) :: pieces, ?_, ?_, ?_⟩
    · rw [List.flatten_cons, hflatten, List.cons_append, List.take_append_drop]
    · exact List.forall_mem_cons.2 ⟨.inl hcharacter, hpieces⟩
    · rw [List.map_cons, hrepaired, ← hcharacters, characters, hsize]

theorem IsPiece.length_pos {piece : Bytes} (h : IsPiece piece) : 0 < piece.length := by
  rcases h with h | ⟨b, rfl, -⟩
  · exact (isCharacter_iff.1 h).size_pos
  · exact Nat.one_pos

theorem length_le_flatten {pieces : List Bytes} (h : ∀ piece ∈ pieces, IsPiece piece) :
    pieces.length ≤ pieces.flatten.length := by
  induction pieces with
  | nil => exact Nat.le_refl 0
  | cons piece rest ih =>
    obtain ⟨hpiece, hrest⟩ := List.forall_mem_cons.1 h
    have hpos := hpiece.length_pos
    have hle := ih hrest
    rw [List.length_cons, List.flatten_cons, List.length_append]
    omega

theorem wellFormed_iff_scalars :
    wellFormed text = true ↔ ∃ cs : List Char, text = cs.flatMap String.utf8EncodeChar := by
  rw [wellFormed_iff]
  constructor
  · rintro ⟨parts, hparts, rfl⟩
    induction parts with
    | nil => exact ⟨[], rfl⟩
    | cons part rest ih =>
      obtain ⟨hpart, hrest⟩ := List.forall_mem_cons.1 hparts
      obtain ⟨c, rfl⟩ := exists_char_of_isCharacter hpart
      obtain ⟨cs, hcs⟩ := ih hrest
      exact ⟨c :: cs, by rw [List.flatten_cons, hcs, List.flatMap_cons]⟩
  · rintro ⟨cs, rfl⟩
    refine ⟨cs.map String.utf8EncodeChar, ?_, List.flatMap_def⟩
    intro part hpart
    obtain ⟨c, -, rfl⟩ := List.mem_map.1 hpart
    exact isCharacter_utf8EncodeChar c

/-- Splitting takes every text apart, from its start to its end and in no more steps than it
has bytes. What it returns are the encodings of scalar values, each of exactly one. Together
they are the text itself exactly if it was well-formed, and splitting them again changes
nothing. -/
theorem splitting_repairs (text : Bytes) :
    (∃ pieces : List Bytes, pieces.flatten = text ∧ pieces.length ≤ text.length ∧
      (∀ piece ∈ pieces, IsPiece piece) ∧ characters text = pieces.map repaired) ∧
    (∀ part ∈ characters text, ∃! c : Char, String.utf8EncodeChar c = part) ∧
    ((characters text).flatten = text ↔
      ∃ cs : List Char, text = cs.flatMap String.utf8EncodeChar) ∧
    characters (characters text).flatten = characters text := by
  refine ⟨?_, ?_, ?_, ?_⟩
  · obtain ⟨pieces, hflatten, hpieces, hcharacters⟩ := characters_eq_repaired text
    have hlength := length_le_flatten hpieces
    rw [hflatten] at hlength
    exact ⟨pieces, hflatten, hlength, hpieces, hcharacters⟩
  · intro part hpart
    obtain ⟨c, hc⟩ := exists_char_of_isCharacter (isCharacter_of_mem_characters hpart)
    refine ⟨c, hc, fun d hd => ?_⟩
    exact utf8EncodeChar_injective (hd.trans hc.symm)
  · rw [← wellFormed_iff_scalars, wellFormed, beq_iff_eq]
  · exact characters_flatten fun part => isCharacter_of_mem_characters

example : characters [0x61, 0x80, 0xED, 0xA0, 0x80, 0xC0, 0xAF, 0x62, 0xE2, 0x82] =
    [[0x61], replacement, replacement, replacement, replacement, replacement, replacement,
      [0x62], replacement, replacement] := by
  cbv

end Substitutability.Utf8
