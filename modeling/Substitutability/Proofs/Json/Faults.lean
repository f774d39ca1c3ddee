import Mathlib.Data.List.Infix
import Substitutability.Json.Reader

/-!
# Why a text cannot be read

Whatever is read of a text, what is left is an end of it. So a text cannot be read for one of
two reasons: it is malformed, or a number that is too large for a double stands in it.
-/

set_option autoImplicit false

namespace Substitutability.Json

/-- The literal stands in the text, and its double is not finite. -/
def Overflows (text literal : Bytes) : Prop :=
  ∃ front rest l, text = front ++ (literal ++ rest) ∧ literal? (literal ++ rest) = some l ∧
    l.rest = rest ∧ l.double.isFinite = false

/-- What was read of the text leaves an end of it, or the text cannot be read for one of the two
reasons. -/
def Settles {α : Type} (text : Bytes) : Except Fault (α × Bytes) → Prop
  | .ok (_, rest) => rest <:+ text
  | .error fault =>
    fault = .malformed ∨ ∃ literal, fault = .overflow literal ∧ Overflows text literal

variable {α β : Type} {text start rest literal : Bytes} {fuel : Nat}

theorem Overflows.of_suffix (h : Overflows start literal) (hend : start <:+ text) :
    Overflows text literal := by
  obtain ⟨front, rest, l, rfl, hl⟩ := h
  obtain ⟨before, rfl⟩ := hend
  exact ⟨before ++ front, rest, l, (List.append_assoc _ _ _).symm, hl⟩

theorem Settles.of_suffix {found : Except Fault (α × Bytes)} (h : Settles start found)
    (hend : start <:+ text) : Settles text found := by
  cases found with
  | ok found => exact h.trans hend
  | error fault =>
    rcases h with rfl | ⟨literal, rfl, hliteral⟩
    · exact .inl rfl
    · exact .inr ⟨literal, rfl, hliteral.of_suffix hend⟩

theorem settles_malformed : Settles text (.error .malformed : Except Fault (α × Bytes)) :=
  .inl rfl

theorem Settles.bind {found : Except Fault (α × Bytes)} {k : α × Bytes → Except Fault (β × Bytes)}
    (h : Settles text found) (hk : ∀ a rest, Settles rest (k (a, rest))) :
    Settles text (found >>= k) := by
  cases found with
  | ok found => exact (hk found.1 found.2).of_suffix h
  | error fault => exact h

/-! ## Ends of a text -/

theorem suffix_skipGap (text : Bytes) : skipGap text <:+ text :=
  List.dropWhile_suffix _

theorem suffix_of_skipGap (front : Bytes) (h : skipGap text = front ++ rest) : rest <:+ text :=
  (List.suffix_append front rest).trans (h ▸ suffix_skipGap text)

theorem suffix_of_digits? {digits : Bytes} (h : digits? text = some (digits, rest)) :
    rest <:+ text := by
  rw [digits?] at h
  split at h
  · cases h
  · cases h
    exact List.dropWhile_suffix _

theorem suffix_of_whole? {digits : Bytes} (h : whole? text = some (digits, rest)) :
    rest <:+ text := by
  rw [whole?.eq_def] at h
  split at h
  · cases h
    exact List.suffix_cons _ _
  · exact suffix_of_digits? h

theorem suffix_of_places? {places : Option Bytes} (h : places? text = some (places, rest)) :
    rest <:+ text := by
  rw [places?.eq_def] at h
  split at h
  · obtain ⟨⟨digits, rest⟩, hdigits, ⟨⟩⟩ := Option.map_eq_some_iff.1 h
    exact (suffix_of_digits? hdigits).trans (List.suffix_cons _ _)
  · cases h
    exact List.suffix_refl _

theorem suffix_of_signedDigits? {n : Int} (h : signedDigits? text = some (n, rest)) :
    rest <:+ text := by
  rw [signedDigits?.eq_def] at h
  split at h
  · obtain ⟨⟨digits, rest⟩, hdigits, ⟨⟩⟩ := Option.map_eq_some_iff.1 h
    exact (suffix_of_digits? hdigits).trans (List.suffix_cons _ _)
  · obtain ⟨⟨digits, rest⟩, hdigits, ⟨⟩⟩ := Option.map_eq_some_iff.1 h
    exact (suffix_of_digits? hdigits).trans (List.suffix_cons _ _)
  · obtain ⟨⟨digits, rest⟩, hdigits, ⟨⟩⟩ := Option.map_eq_some_iff.1 h
    exact suffix_of_digits? hdigits

theorem suffix_of_exponent? {n : Option Int} (h : exponent? text = some (n, rest)) :
    rest <:+ text := by
  rw [exponent?.eq_def] at h
  split at h
  · obtain ⟨⟨digits, rest⟩, hdigits, ⟨⟩⟩ := Option.map_eq_some_iff.1 h
    exact (suffix_of_signedDigits? hdigits).trans (List.suffix_cons _ _)
  · obtain ⟨⟨digits, rest⟩, hdigits, ⟨⟩⟩ := Option.map_eq_some_iff.1 h
    exact (suffix_of_signedDigits? hdigits).trans (List.suffix_cons _ _)
  · cases h
    exact List.suffix_refl _

theorem suffix_of_literal? {l : Literal} (h : literal? text = some l) : l.rest <:+ text := by
  rw [literal?.eq_def] at h
  split at h
  rename_i negative unsigned hsign
  have hunsigned : unsigned <:+ text := by
    split at hsign
    · cases hsign
      exact List.suffix_cons _ _
    · cases hsign
      exact List.suffix_refl _
  obtain ⟨⟨_, behindWhole⟩, hwhole, h⟩ := Option.bind_eq_some_iff.1 h
  obtain ⟨⟨_, behindPlaces⟩, hplaces, h⟩ := Option.bind_eq_some_iff.1 h
  obtain ⟨⟨_, behind⟩, hexponent, ⟨⟩⟩ := Option.bind_eq_some_iff.1 h
  exact (suffix_of_exponent? hexponent).trans ((suffix_of_places? hplaces).trans
    ((suffix_of_whole? hwhole).trans hunsigned))

theorem suffix_of_hexFour? {n : Nat} (h : hexFour? text = some (n, rest)) : rest <:+ text := by
  rw [hexFour?.eq_def] at h
  split at h
  · rename_i a b c d more
    obtain ⟨_, -, h⟩ := Option.bind_eq_some_iff.1 h
    obtain ⟨_, -, h⟩ := Option.bind_eq_some_iff.1 h
    obtain ⟨_, -, h⟩ := Option.bind_eq_some_iff.1 h
    obtain ⟨_, -, ⟨⟩⟩ := Option.bind_eq_some_iff.1 h
    exact List.suffix_append [a, b, c, d] _
  · cases h

theorem suffix_of_unicodeEscape? {character : Bytes}
    (h : unicodeEscape? text = some (character, rest)) : rest <:+ text := by
  obtain ⟨⟨n, behind⟩, hfirst, h⟩ := Option.bind_eq_some_iff.1 h
  have hbehind := suffix_of_hexFour? hfirst
  simp only at h
  split at h
  · cases h
  · split at h
    · split at h
      · obtain ⟨⟨low, more⟩, hsecond, h⟩ := Option.bind_eq_some_iff.1 h
        simp only at h
        split at h
        · obtain ⟨-, rfl⟩ := Prod.mk.inj (Option.some.inj h)
          exact ((suffix_of_hexFour? hsecond).trans (List.suffix_append [92, 117] _)).trans hbehind
        · cases h
      · cases h
    · cases h
      exact hbehind

theorem suffix_of_stringStep? {character : Bytes} (h : stringStep? text = some (character, rest)) :
    rest <:+ text.tail := by
  rw [stringStep?.eq_def] at h
  split at h
  · cases h
  · exact (suffix_of_unicodeEscape? h).trans (List.suffix_cons _ _)
  · obtain ⟨b, -, ⟨⟩⟩ := Option.map_eq_some_iff.1 h
    exact List.suffix_cons _ _
  · split at h
    · cases h
    · split at h
      · cases h
      · cases h
        exact List.drop_suffix _ _

theorem suffix_of_string? {s : Bytes} (h : string? fuel text = some (s, rest)) :
    rest <:+ text := by
  induction fuel generalizing text s with
  | zero => cases h
  | succ fuel ih =>
    rw [string?.eq_def] at h
    simp only at h
    split at h
    · cases h
      exact List.suffix_cons _ _
    · obtain ⟨⟨character, behind⟩, hstep, h⟩ := Option.bind_eq_some_iff.1 h
      obtain ⟨⟨more, behind'⟩, hmore, ⟨⟩⟩ := Option.bind_eq_some_iff.1 h
      exact (ih hmore).trans ((suffix_of_stringStep? hstep).trans (List.tail_suffix text))

/-! ## Numbers -/

theorem settles_number (text : Bytes) : Settles text (number text) := by
  rw [number]
  cases hliteral : literal? text with
  | none => exact settles_malformed
  | some l =>
    obtain ⟨literal, htext⟩ := suffix_of_literal? hliteral
    simp only [Literal.value]
    split
    · exact ⟨literal, htext⟩
    · split
      · exact ⟨literal, htext⟩
      · rename_i hfinite
        have htake : text.take (text.length - l.rest.length) = literal := by
          rw [← htext, List.length_append, Nat.add_sub_cancel, List.take_left]
        have hinfinite : l.double.isFinite = false := by simpa using hfinite
        rw [htake]
        exact .inr ⟨literal, rfl, [], l.rest, l, htext.symm, htext ▸ hliteral, rfl, hinfinite⟩

/-! ## Values -/

section Steps

variable (hvalue : ∀ text, Settles text (value fuel text))
  (hitems : ∀ text, Settles text (items fuel text))
  (hmembers : ∀ text, Settles text (members fuel text))

include hitems hmembers in
theorem settles_value_succ (text : Bytes) : Settles text (value (fuel + 1) text) := by
  rw [value]
  split
  · rename_i rest hword
    exact suffix_of_skipGap [110, 117, 108, 108] hword
  · rename_i rest hword
    exact suffix_of_skipGap [116, 114, 117, 101] hword
  · rename_i rest hword
    exact suffix_of_skipGap [102, 97, 108, 115, 101] hword
  · rename_i rest hquote
    split
    · rename_i s behind hstring
      exact (suffix_of_string? hstring).trans (suffix_of_skipGap [34] hquote)
    · exact settles_malformed
  · rename_i rest hbracket
    have hrest : rest <:+ text := suffix_of_skipGap [91] hbracket
    split
    · rename_i behind hclose
      exact (suffix_of_skipGap [93] hclose).trans hrest
    · refine Settles.of_suffix ?_ ((suffix_skipGap rest).trans hrest)
      exact (hitems _).bind fun _ behind => List.suffix_refl behind
  · rename_i rest hbrace
    have hrest : rest <:+ text := suffix_of_skipGap [123] hbrace
    split
    · rename_i behind hclose
      exact (suffix_of_skipGap [125] hclose).trans hrest
    · refine Settles.of_suffix ?_ ((suffix_skipGap rest).trans hrest)
      exact (hmembers _).bind fun _ behind => List.suffix_refl behind
  · exact (settles_number _).of_suffix (suffix_skipGap text)

include hvalue hitems in
theorem settles_items_succ (text : Bytes) : Settles text (items (fuel + 1) text) := by
  rw [items]
  apply (hvalue text).bind
  intro item rest
  simp only
  split
  · rename_i behind hclose
    exact suffix_of_skipGap [93] hclose
  · rename_i behind hcomma
    refine Settles.of_suffix ?_ (suffix_of_skipGap [44] hcomma)
    exact (hitems _).bind fun _ behind => List.suffix_refl behind
  · exact settles_malformed

include hvalue hmembers in
theorem settles_members_succ (text : Bytes) : Settles text (members (fuel + 1) text) := by
  rw [members]
  split
  · rename_i rest hquote
    refine Settles.of_suffix ?_ (suffix_of_skipGap [34] hquote)
    split
    · exact settles_malformed
    · rename_i key behind hkey
      refine Settles.of_suffix ?_ (suffix_of_string? hkey)
      split
      · rename_i behindColon hcolon
        refine Settles.of_suffix ?_ (suffix_of_skipGap [58] hcolon)
        apply (hvalue _).bind
        intro item rest
        simp only
        split
        · rename_i behind hclose
          exact suffix_of_skipGap [125] hclose
        · rename_i behind hcomma
          refine Settles.of_suffix ?_ (suffix_of_skipGap [44] hcomma)
          exact (hmembers _).bind fun _ behind => List.suffix_refl behind
        · exact settles_malformed
      · exact settles_malformed
  · exact settles_malformed

end Steps

theorem settles_value (fuel : Nat) :
    (∀ text, Settles text (value fuel text)) ∧ (∀ text, Settles text (items fuel text)) ∧
      ∀ text, Settles text (members fuel text) := by
  induction fuel with
  | zero =>
    refine ⟨fun text => ?_, fun text => ?_, fun text => ?_⟩
    · rw [value]
      exact settles_malformed
    · rw [items]
      exact settles_malformed
    · rw [members]
      exact settles_malformed
  | succ fuel ih =>
    obtain ⟨hvalue, hitems, hmembers⟩ := ih
    exact ⟨settles_value_succ hitems hmembers, settles_items_succ hvalue hitems,
      settles_members_succ hvalue hmembers⟩

theorem suffix_skipMark (text : Bytes) : skipMark text <:+ text := by
  rw [skipMark.eq_def]
  split
  · exact List.suffix_append [0xEF, 0xBB, 0xBF] _
  · exact List.suffix_refl _

/-- A text that cannot be read is malformed, or has a number in it that is too large. -/
theorem fault_of_read {fault : Fault} (h : read text = .error fault) :
    fault = .malformed ∨ ∃ literal, fault = .overflow literal ∧ Overflows text literal := by
  have hsettles := ((settles_value (2 * text.length + 2)).1 (skipMark text)).of_suffix
    (suffix_skipMark text)
  rw [read] at h
  cases hvalue : value (2 * text.length + 2) (skipMark text) with
  | ok found =>
    rw [hvalue] at h
    cases h
  | error fault' =>
    rw [hvalue] at h hsettles
    cases h
    exact hsettles

end Substitutability.Json
