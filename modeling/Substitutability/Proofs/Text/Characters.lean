import Mathlib.Data.List.TakeDrop
import Substitutability.Text.Utf8

/-!
# Cutting texts into characters

A character starts with a byte that cannot go on another one, so a text may be cut before
any such byte: what stands in front of it, well-formed or broken off in the middle of a
character, is read as if it were the whole text. The encoding of a code point is a
character, and so it is read as itself among all other bytes.
-/

set_option autoImplicit false

namespace Substitutability.Utf8

variable {x y text : Bytes} {size : Nat}

/-- The text begins with a character of so many bytes. -/
inductive Begins : Bytes → Nat → Prop
  | single {first : UInt8} (rest : Bytes) (h : first < 0x80) : Begins (first :: rest) 1
  | several {first second low high : UInt8} {more : Nat} {tail : Bytes} (rest : Bytes)
      (hfirst : ¬first < 0x80) (hsecond : continuation first = some (low, high, more))
      (hlow : low ≤ second) (hhigh : second ≤ high) (hlength : tail.length = more)
      (htail : ∀ b ∈ tail, isTail b = true) : Begins (first :: second :: (tail ++ rest)) (more + 2)

def Cuts (y : Bytes) : Prop :=
  ∀ b ∈ y.head?, isTail b = false

theorem isTail_of_continuation {first second low high : UInt8} {more : Nat}
    (h : continuation first = some (low, high, more)) (hlow : low ≤ second)
    (hhigh : second ≤ high) : isTail second = true := by
  have hbounds : 0x80 ≤ low ∧ high ≤ 0xBF := by
    unfold continuation at h
    grind
  grind [isTail]

theorem not_isTail_of_continuation {first : UInt8} (h : (continuation first).isSome = true) :
    isTail first = false := by
  unfold continuation at h
  grind [isTail]

/-! ## Where a text begins with a character -/

theorem Begins.characterSize_eq (h : Begins text size) : characterSize text = size := by
  cases h with
  | single rest h => simp [characterSize, h]
  | @several first second low high more tail rest hfirst hsecond hlow hhigh hlength htail =>
    have htake : (tail ++ rest).take more = tail := by rw [← hlength, List.take_left]
    simp [characterSize, hfirst, hsecond, htake, hlow, hhigh, hlength, List.all_eq_true.2 htail]

theorem characterSize_eq_zero_or_begins (text : Bytes) :
    characterSize text = 0 ∨ Begins text (characterSize text) := by
  fun_cases characterSize text with
  | case1 => exact .inl rfl
  | case2 first rest hfirst =>
    refine .inr ?_
    exact .single rest hfirst
  | case3 first hfirst low high more second tail hsecond hcond =>
    refine .inr ?_
    simp only [Bool.and_eq_true, decide_eq_true_eq, beq_iff_eq, List.all_eq_true] at hcond
    obtain ⟨⟨⟨hlow, hhigh⟩, hlength⟩, htail⟩ := hcond
    rw [← List.take_append_drop more tail]
    exact .several _ hfirst hsecond hlow hhigh hlength htail
  | case4 => exact .inl rfl
  | case5 => exact .inl rfl

theorem Begins.append (h : Begins x size) (y : Bytes) : Begins (x ++ y) size := by
  cases h with
  | single rest h => exact .single _ h
  | several rest hfirst hsecond hlow hhigh hlength htail =>
    rw [List.cons_append, List.cons_append, List.append_assoc]
    exact .several _ hfirst hsecond hlow hhigh hlength htail

theorem Begins.take (h : Begins text size) : Begins (text.take size) size := by
  cases h with
  | single rest h => exact .single _ h
  | several rest hfirst hsecond hlow hhigh hlength htail =>
    have hsame := several [] hfirst hsecond hlow hhigh hlength htail
    rw [List.append_nil] at hsame
    rw [List.take_succ_cons, List.take_succ_cons, List.take_left' hlength]
    exact hsame

theorem Begins.size_pos (h : Begins text size) : 0 < size := by
  cases h with
  | single rest h => exact Nat.one_pos
  | several rest hfirst hsecond hlow hhigh hlength htail => exact Nat.succ_pos _

theorem Begins.size_le (h : Begins text size) : size ≤ text.length := by
  cases h with
  | single rest h => simp
  | several rest hfirst hsecond hlow hhigh hlength htail => simp [hlength]

theorem Begins.cuts (h : Begins text size) : Cuts text := by
  intro b hb
  cases h with
  | single rest h =>
    cases hb
    grind [isTail]
  | several rest hfirst hsecond hlow hhigh hlength htail =>
    cases hb
    exact not_isTail_of_continuation (Option.isSome_of_eq_some hsecond)

theorem Begins.isTail_getElem? (h : Begins text size) {i : Nat} (hi : 0 < i) (hlt : i < size)
    {b : UInt8} (hb : text[i]? = some b) : isTail b = true := by
  cases h with
  | single rest h => omega
  | @several first second low high more tail rest hfirst hsecond hlow hhigh hlength htail =>
    obtain rfl | ⟨k, rfl⟩ : i = 1 ∨ ∃ k, i = k + 2 := by
      rcases i with _ | _ | k
      · omega
      · exact .inl rfl
      · exact .inr ⟨k, rfl⟩
    · obtain rfl : second = b := by simpa using hb
      exact isTail_of_continuation hsecond hlow hhigh
    · have hk : k < tail.length := by omega
      rw [List.getElem?_cons_succ, List.getElem?_cons_succ, List.getElem?_append_left hk] at hb
      exact htail b (List.mem_of_getElem? hb)

/-- A character that begins in front of a cut ends there: the byte after the cut is none of
those that go on the character. -/
theorem Begins.of_append (hx : x ≠ []) (hy : Cuts y) (h : Begins (x ++ y) size) :
    Begins x size := by
  have hpos : 0 < x.length := List.length_pos_iff.2 hx
  have hle : size ≤ x.length := by
    by_contra hlt
    have hsize := h.size_le
    rw [List.length_append] at hsize
    obtain ⟨b, rest, rfl⟩ : ∃ b rest, y = b :: rest :=
      List.exists_cons_of_length_pos (by omega)
    have hb : (x ++ b :: rest)[x.length]? = some b := by simp
    have htail := h.isTail_getElem? hpos (by omega) hb
    rw [hy b rfl] at htail
    cases htail
  have htake := h.take
  rw [List.take_append_of_le_length hle] at htake
  rw [← List.take_append_drop size x]
  exact htake.append _

/-! ## The size of the first character -/

theorem characterSize_append (hx : x ≠ []) (hy : Cuts y) :
    characterSize (x ++ y) = characterSize x := by
  rcases characterSize_eq_zero_or_begins x with hzero | hbegins
  · rcases characterSize_eq_zero_or_begins (x ++ y) with hzero' | hbegins
    · rw [hzero, hzero']
    · exact (hbegins.of_append hx hy).characterSize_eq.symm
  · exact (hbegins.append y).characterSize_eq

theorem characterSize_le_length (text : Bytes) : characterSize text ≤ text.length := by
  rcases characterSize_eq_zero_or_begins text with hzero | hbegins
  · omega
  · exact hbegins.size_le

theorem isCharacter_iff : isCharacter text = true ↔ Begins text text.length := by
  rw [isCharacter, Bool.and_eq_true, beq_iff_eq]
  constructor
  · rintro ⟨hsize, hne⟩
    rcases characterSize_eq_zero_or_begins text with hzero | hbegins
    · rw [hsize, List.length_eq_zero_iff] at hzero
      simp [hzero] at hne
    · rwa [hsize] at hbegins
  · intro h
    have hpos := h.size_pos
    refine ⟨h.characterSize_eq, ?_⟩
    cases text with
    | nil => cases h
    | cons b rest => rfl

theorem not_ascii_of_isTail {b : UInt8} (h : isTail b = true) : ¬b < 0x80 := by
  grind [isTail]

theorem eq_singleton_or_not_ascii (h : isCharacter text = true) :
    (∃ b, text = [b]) ∨ ∀ b ∈ text, ¬b < 0x80 := by
  have hbegins := isCharacter_iff.1 h
  generalize hsize : text.length = size at hbegins
  cases hbegins with
  | @single first rest hfirst =>
    have hrest : rest = [] := by simpa using hsize
    exact .inl ⟨first, by rw [hrest]⟩
  | @several first second low high more tail rest hfirst hsecond hlow hhigh hlength htail =>
    have hrest : rest = [] := by
      rw [← List.length_eq_zero_iff]
      simp only [List.length_cons, List.length_append] at hsize
      omega
    right
    simp only [hrest, List.append_nil, List.forall_mem_cons]
    refine ⟨hfirst, ?_, fun b hb => not_ascii_of_isTail (htail b hb)⟩
    exact not_ascii_of_isTail (isTail_of_continuation hsecond hlow hhigh)

/-! ## All characters -/

/-- A text may be cut before a byte that goes on no character. -/
theorem characters_append (hy : Cuts y) :
    characters (x ++ y) = characters x ++ characters y := by
  induction x using characters.induct with
  | case1 => simp [characters]
  | case2 first rest hsize ih =>
    have hsize' : characterSize (first :: (rest ++ y)) = 0 := by
      rw [← List.cons_append, characterSize_append (List.cons_ne_nil _ _) hy, hsize]
    rw [List.cons_append, characters, characters, hsize, hsize']
    simp only [ih, List.cons_append]
  | case3 first rest size hsize ih =>
    have hsize' : characterSize (first :: (rest ++ y)) = size + 1 := by
      rw [← List.cons_append, characterSize_append (List.cons_ne_nil _ _) hy, hsize]
    have hle : size ≤ rest.length := by
      have := characterSize_le_length (first :: rest)
      rw [hsize, List.length_cons] at this
      omega
    rw [List.cons_append, characters, characters, hsize, hsize']
    simp only [List.take_append_of_le_length hle, List.drop_append_of_le_length hle, ih,
      List.cons_append]

theorem characters_of_begins (h : Begins text size) :
    characters text = text.take size :: characters (text.drop size) := by
  have hsize := h.characterSize_eq
  have hpos := h.size_pos
  obtain ⟨first, rest, rfl⟩ : ∃ first rest, text = first :: rest :=
    List.exists_cons_of_length_pos (Nat.lt_of_lt_of_le hpos h.size_le)
  obtain ⟨k, rfl⟩ : ∃ k, size = k + 1 := Nat.exists_eq_add_one.2 hpos
  rw [characters, hsize]
  rfl

theorem characters_cons (hx : isCharacter x = true) (y : Bytes) :
    characters (x ++ y) = x :: characters y := by
  rw [characters_of_begins ((isCharacter_iff.1 hx).append y), List.take_left, List.drop_left]

theorem characters_flatten {parts : List Bytes} (h : ∀ part ∈ parts, isCharacter part = true) :
    characters parts.flatten = parts := by
  induction parts with
  | nil => simp [characters]
  | cons part rest ih =>
    rw [List.flatten_cons, characters_cons (h part List.mem_cons_self),
      ih fun part hpart => h part (List.mem_cons_of_mem _ hpart)]

theorem isCharacter_replacement : isCharacter replacement = true := by
  decide

theorem Begins.isCharacter_take (h : Begins text size) : isCharacter (text.take size) = true := by
  rw [isCharacter_iff, List.length_take, Nat.min_eq_left h.size_le]
  exact h.take

theorem isCharacter_of_mem_characters {part : Bytes} (h : part ∈ characters text) :
    isCharacter part = true := by
  induction text using characters.induct with
  | case1 => simp [characters] at h
  | case2 first rest hsize ih =>
    rw [characters, hsize] at h
    rcases List.mem_cons.1 h with rfl | h
    · exact isCharacter_replacement
    · exact ih h
  | case3 first rest size hsize ih =>
    rw [characters, hsize] at h
    rcases List.mem_cons.1 h with rfl | h
    · rcases characterSize_eq_zero_or_begins (first :: rest) with hzero | hbegins
      · omega
      · rw [hsize] at hbegins
        exact hbegins.isCharacter_take
    · exact ih h

/-! ## Encodings -/

theorem continuation_eq {first : UInt8} (hlow : 0xC2 ≤ first) (hhigh : first ≤ 0xF4) :
    continuation first = some
      (if first = 0xE0 then 0xA0 else if first = 0xF0 then 0x90 else 0x80,
        if first = 0xED then 0x9F else if first = 0xF4 then 0x8F else 0xBF,
        if first < 0xE0 then 0 else if first < 0xF0 then 1 else 2) := by
  unfold continuation
  grind

/-- The ranges of the bytes of a character of two or more: no number is written longer than
it has to be, none is a surrogate and none is above 10FFFF. -/
theorem isCharacter_of_ranges {first second : UInt8} {tail : Bytes} (hlow : 0xC2 ≤ first)
    (hhigh : first ≤ 0xF4) (hsecond : isTail second = true) (htail : ∀ b ∈ tail, isTail b = true)
    (hlength : tail.length = if first < 0xE0 then 0 else if first < 0xF0 then 1 else 2)
    (hshortest : (first = 0xE0 → 0xA0 ≤ second) ∧ (first = 0xF0 → 0x90 ≤ second))
    (hcodes : (first = 0xED → second ≤ 0x9F) ∧ (first = 0xF4 → second ≤ 0x8F)) :
    isCharacter (first :: second :: tail) = true := by
  have hlead : ¬first < 0x80 := by grind
  have hcontinuation := continuation_eq hlow hhigh
  rw [← hlength] at hcontinuation
  have hbegins : Begins (first :: second :: (tail ++ [])) (tail.length + 2) :=
    .several [] hlead hcontinuation (by grind [isTail]) (by grind [isTail]) rfl htail
  rw [List.append_nil] at hbegins
  exact isCharacter_iff.2 hbegins

example : isCharacter [0xC0, 0x80] = false ∧ isCharacter [0xED, 0xA0, 0x80] = false ∧
    isCharacter [0xF4, 0x8F, 0xBF, 0xBF] = true ∧
    isCharacter [0xF4, 0x90, 0x80, 0x80] = false := by
  decide

theorem toNat_ofNat_of_lt {n : Nat} (h : n < 256) : (UInt8.ofNat n).toNat = n := by
  rw [UInt8.toNat_ofNat']
  omega

theorem isTail_ofNat {n : Nat} (h : 0x80 ≤ n ∧ n ≤ 0xBF) : isTail (UInt8.ofNat n) = true := by
  have hn := toNat_ofNat_of_lt (n := n) (by omega)
  simpa [isTail, UInt8.le_iff_toNat_le, hn] using h

theorem isCharacter_ofNat {first second : Nat} (tail : List Nat)
    (hfirst : 0xC2 ≤ first ∧ first ≤ 0xF4) (hsecond : 0x80 ≤ second ∧ second ≤ 0xBF)
    (htail : ∀ n ∈ tail, 0x80 ≤ n ∧ n ≤ 0xBF)
    (hlength : tail.length = if first < 0xE0 then 0 else if first < 0xF0 then 1 else 2)
    (hshortest : (first = 0xE0 → 0xA0 ≤ second) ∧ (first = 0xF0 → 0x90 ≤ second))
    (hcodes : (first = 0xED → second ≤ 0x9F) ∧ (first = 0xF4 → second ≤ 0x8F)) :
    isCharacter (UInt8.ofNat first :: UInt8.ofNat second :: tail.map UInt8.ofNat) = true := by
  have hf := toNat_ofNat_of_lt (n := first) (by omega)
  have hs := toNat_ofNat_of_lt (n := second) (by omega)
  have ht : ∀ b ∈ tail.map UInt8.ofNat, isTail b = true := by
    intro b hb
    obtain ⟨n, hn, rfl⟩ := List.mem_map.1 hb
    exact isTail_ofNat (htail n hn)
  apply isCharacter_of_ranges ?_ ?_ (isTail_ofNat hsecond) ht ?_ ?_ ?_ <;>
    simp only [UInt8.le_iff_toNat_le, UInt8.lt_iff_toNat_lt, ← UInt8.toNat_inj, hf, hs,
      UInt8.reduceToNat, List.length_map]
  · exact hfirst.1
  · exact hfirst.2
  · exact hlength
  · exact hshortest
  · exact hcodes

theorem isCharacter_utf8EncodeChar (c : Char) :
    isCharacter (String.utf8EncodeChar c) = true := by
  have hvalid : c.val.toNat < 0xD800 ∨ 0xDFFF < c.val.toNat ∧ c.val.toNat < 0x110000 := c.valid
  fun_cases String.utf8EncodeChar c with
  | case1 v h =>
    have hfirst : UInt8.ofNat v < 0x80 := by
      simp [UInt8.lt_iff_toNat_lt]
      omega
    exact isCharacter_iff.2 (.single [] hfirst)
  | case2 v h h' =>
    apply isCharacter_ofNat []
    · omega
    · omega
    · simp
    · rw [if_pos (by omega)]
      rfl
    · omega
    · omega
  | case3 v h h' =>
    apply isCharacter_ofNat [v % 64 + 128]
    · omega
    · omega
    · simp
      omega
    · rw [if_neg (by omega), if_pos (by omega)]
      rfl
    · omega
    · omega
  | case4 v h h' =>
    apply isCharacter_ofNat [v / 64 % 64 + 128, v % 64 + 128]
    · omega
    · omega
    · simp
      omega
    · rw [if_neg (by omega), if_neg (by omega)]
      rfl
    · omega
    · omega

/-- The encoding of a code point is read as itself, and what stands around it, well-formed
or not, is read as it is read alone. -/
theorem encoded_characters_survive :
    (∀ (x y : Bytes) (c : Char),
      characters (x ++ String.utf8EncodeChar c ++ y) =
        characters x ++ [String.utf8EncodeChar c] ++ characters y) ∧
    ∀ cs : List Char,
      characters (cs.flatMap String.utf8EncodeChar) = cs.map String.utf8EncodeChar := by
  constructor
  · intro x y c
    have hc := isCharacter_utf8EncodeChar c
    have hcut : Cuts (String.utf8EncodeChar c ++ y) :=
      ((isCharacter_iff.1 hc).append y).cuts
    rw [List.append_assoc, characters_append hcut, characters_cons hc, List.append_assoc,
      List.singleton_append]
  · intro cs
    rw [List.flatMap_def]
    apply characters_flatten
    intro part hpart
    obtain ⟨c, -, rfl⟩ := List.mem_map.1 hpart
    exact isCharacter_utf8EncodeChar c

end Substitutability.Utf8
