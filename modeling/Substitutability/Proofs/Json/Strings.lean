import Mathlib.Tactic.SplitIfs
import Substitutability.Json.Printer
import Substitutability.Json.Reader
import Substitutability.Proofs.Text.WellFormed

/-!
# Strings in documents

A string is written character by character: quotes, backslashes and control characters as
escapes, all others as they are. Read from behind the opening quote, each character comes
back in one step, and the reader stops at the closing quote.
-/

set_option autoImplicit false

namespace Substitutability.Json

variable {b : UInt8} {part s rest text : Bytes}

/-! ## Single bytes -/

theorem hexValue?_lowerHexDigit : ∀ n < 16, hexValue? (lowerHexDigit n) = some n := by
  decide

theorem unicodeEscape?_control (hb : b < 32) (rest : Bytes) :
    unicodeEscape? (48 :: 48 :: lowerHexDigit (b.toNat / 16) :: lowerHexDigit (b.toNat % 16) ::
      rest) = some ([b], rest) := by
  have hsmall : b.toNat < 32 := hb
  have hhigh := hexValue?_lowerHexDigit (b.toNat / 16) (by omega)
  have hlow := hexValue?_lowerHexDigit (b.toNat % 16) (by omega)
  have hzero : hexValue? 48 = some 0 := rfl
  have hvalue : 4096 * 0 + 256 * 0 + 16 * (b.toNat / 16) + b.toNat % 16 = b.toNat := by omega
  have hencode : Utf8.encode b.toNat = [b] := by
    rw [Utf8.encode, if_pos (by omega), UInt8.ofNat_toNat]
  rw [unicodeEscape?, hexFour?, hzero, hhigh, hlow]
  simp only [Option.bind_eq_bind, Option.bind_some, hvalue]
  rw [if_neg (by omega), if_neg (by omega), hencode]

def isBare (b : UInt8) : Bool :=
  !(b < 32) && b != 34 && b != 92

theorem isBare_of_not_ascii (h : ¬b < 0x80) : isBare b = true := by
  have hlow : ¬b < 32 := by grind
  have hquote : b ≠ 34 := by grind
  have hslash : b ≠ 92 := by grind
  simp [isBare, hlow, hquote, hslash]

theorem escapeByte_of_bare (h : isBare b = true) : escapeByte b = [b] := by
  simp only [isBare, Bool.and_eq_true, Bool.not_eq_true', bne_iff_ne] at h
  unfold escapeByte
  grind

theorem stringStep?_escape (h : isBare b = false) (rest : Bytes) :
    stringStep? (escapeByte b ++ rest) = some ([b], rest) := by
  unfold escapeByte
  split_ifs with h34 h92 h8 h12 h10 h13 h9 hcontrol
  · subst h34
    rfl
  · subst h92
    rfl
  · subst h8
    rfl
  · subst h12
    rfl
  · subst h10
    rfl
  · subst h13
    rfl
  · subst h9
    rfl
  · exact unicodeEscape?_control hcontrol rest
  · simp [isBare, h34, h92, hcontrol] at h

theorem stringStep?_of_begins {size : Nat} (h : Utf8.Begins (b :: rest) size)
    (hbare : isBare b = true) :
    stringStep? (b :: rest) = some ((b :: rest).take size, (b :: rest).drop size) := by
  simp only [isBare, Bool.and_eq_true, Bool.not_eq_true', bne_iff_ne, decide_eq_false_iff_not]
    at hbare
  obtain ⟨⟨hlow, -⟩, h92⟩ := hbare
  obtain ⟨k, rfl⟩ : ∃ k, size = k + 1 := Nat.exists_eq_add_one.2 h.size_pos
  rw [stringStep?]
  · rw [if_neg (by simp [hlow, h92]), h.characterSize_eq]
    rfl
  · intro more hb
    exact absurd hb h92
  · intro letter more hb
    exact absurd hb h92

/-! ## Characters -/

theorem flatMap_escapeByte_of_bare (h : ∀ b ∈ s, isBare b = true) : s.flatMap escapeByte = s := by
  rw [List.flatMap_congr fun b hb => escapeByte_of_bare (h b hb), List.flatMap_singleton']

theorem stringStep?_character (h : Utf8.isCharacter part = true) (rest : Bytes) :
    stringStep? (part.flatMap escapeByte ++ rest) = some (part, rest) := by
  have hbegins := Utf8.isCharacter_iff.1 h
  by_cases hbare : ∀ b ∈ part, isBare b = true
  · rw [flatMap_escapeByte_of_bare hbare]
    obtain ⟨b, more, rfl⟩ := List.exists_cons_of_length_pos hbegins.size_pos
    have hstep : stringStep? (b :: (more ++ rest)) = _ :=
      stringStep?_of_begins (hbegins.append rest) (hbare b List.mem_cons_self)
    rwa [← List.cons_append, List.take_left, List.drop_left] at hstep
  · rcases Utf8.eq_singleton_or_not_ascii h with ⟨b, rfl⟩ | hlarge
    · have hescaped : isBare b = false := by simpa using hbare
      rw [List.flatMap_singleton]
      exact stringStep?_escape hescaped rest
    · refine absurd (fun b hb => ?_) hbare
      exact isBare_of_not_ascii (hlarge b hb)

theorem head?_escapeByte_of_not_bare (h : isBare b = false) :
    (escapeByte b).head? = some 92 := by
  unfold escapeByte
  split_ifs with h34 h92 h8 h12 h10 h13 h9 hcontrol
  case neg => simp [isBare, h34, h92, hcontrol] at h
  all_goals rfl

theorem exists_escaped_character (h : Utf8.isCharacter part = true) :
    ∃ b more, part.flatMap escapeByte = b :: more ∧ b ≠ 34 := by
  obtain ⟨first, tail, rfl⟩ :=
    List.exists_cons_of_length_pos (Utf8.isCharacter_iff.1 h).size_pos
  rw [List.flatMap_cons]
  cases hbare : isBare first with
  | true =>
    refine ⟨first, tail.flatMap escapeByte, ?_, ?_⟩
    · rw [escapeByte_of_bare hbare, List.singleton_append]
    · rintro rfl
      cases hbare
  | false =>
    obtain ⟨more, hmore⟩ := List.head?_eq_some_iff.1 (head?_escapeByte_of_not_bare hbare)
    exact ⟨92, more ++ tail.flatMap escapeByte, by rw [hmore, List.cons_append], by decide⟩

theorem string?_character (h : Utf8.isCharacter part = true) (fuel : Nat) (rest : Bytes) :
    string? (fuel + 1) (part.flatMap escapeByte ++ rest) =
      (string? fuel rest).map fun (more, rest) => (part ++ more, rest) := by
  have hstep := stringStep?_character h rest
  obtain ⟨b, more, hpart, hb⟩ := exists_escaped_character h
  rw [hpart, List.cons_append] at hstep ⊢
  rw [string?]
  · simp only [hstep, Option.bind_eq_bind, Option.bind_some]
    cases string? fuel rest <;> rfl
  · intro after hquote
    exact hb (List.cons.inj hquote).1

/-! ## Strings -/

theorem length_pos_escaped (h : Utf8.isCharacter part = true) :
    0 < (part.flatMap escapeByte).length := by
  obtain ⟨b, more, hpart, -⟩ := exists_escaped_character h
  rw [hpart]
  exact Nat.succ_pos _

theorem string?_quoted (h : Utf8.wellFormed s = true) {fuel : Nat}
    (hfuel : (s.flatMap escapeByte).length < fuel) (rest : Bytes) :
    string? fuel (s.flatMap escapeByte ++ 34 :: rest) = some (s, rest) := by
  obtain ⟨parts, hparts, rfl⟩ := Utf8.wellFormed_iff.1 h
  induction parts generalizing fuel with
  | nil =>
    obtain ⟨fuel, rfl⟩ := Nat.exists_eq_add_one.2 (Nat.zero_lt_of_lt hfuel)
    rfl
  | cons part more ih =>
    obtain ⟨hpart, hmore⟩ := List.forall_mem_cons.1 hparts
    have hpos := length_pos_escaped hpart
    rw [List.flatten_cons, List.flatMap_append] at hfuel ⊢
    rw [List.length_append] at hfuel
    obtain ⟨fuel, rfl⟩ := Nat.exists_eq_add_one.2 (Nat.zero_lt_of_lt hfuel)
    rw [List.append_assoc, string?_character hpart,
      ih hmore (Utf8.wellFormed_flatten hmore) (by omega)]
    rfl

end Substitutability.Json
