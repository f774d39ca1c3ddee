import Substitutability.Proofs.Json.Faults

/-!
# How many calls it takes to read a text

A reader that has two calls for each byte does not run out of them, since each call takes a
byte or hands the text on to a reader of another kind. With more calls it reads the same.
-/

set_option autoImplicit false

namespace Substitutability.Json

variable {α β : Type} {text rest : Bytes} {fuel fuel' : Nat}

theorem length_lt_of_skipGap {b : UInt8} (h : skipGap text = b :: rest) :
    rest.length < text.length := by
  have hlength := (suffix_skipGap text).length_le
  rw [h, List.length_cons] at hlength
  exact hlength

theorem Settles.bind_congr {found : Except Fault (α × Bytes)}
    {k k' : α × Bytes → Except Fault (β × Bytes)} (h : Settles text found)
    (hk : ∀ a rest, rest.length ≤ text.length → k (a, rest) = k' (a, rest)) :
    found >>= k = found >>= k' := by
  cases found with
  | ok found => exact hk found.1 found.2 h.length_le
  | error fault => rfl

theorem string?_congr (h : text.length < fuel) (h' : text.length < fuel') :
    string? fuel text = string? fuel' text := by
  induction fuel generalizing fuel' text with
  | zero => cases h
  | succ fuel ih =>
    obtain ⟨fuel', rfl⟩ : ∃ n, fuel' = n + 1 := ⟨fuel' - 1, by omega⟩
    rw [string?.eq_def, string?.eq_def (fuel' + 1)]
    simp only
    split
    · rfl
    · cases hstep : stringStep? text with
      | none => rfl
      | some found =>
        have hshorter : found.2.length ≤ text.tail.length :=
          (suffix_of_stringStep? hstep).length_le
        have hsome : text ≠ [] := by
          rintro rfl
          cases hstep
        have hlength := List.length_pos_iff.2 hsome
        rw [List.length_tail] at hshorter
        have hrest : string? fuel found.2 = string? fuel' found.2 := ih (by omega) (by omega)
        show (string? fuel found.2).bind _ = (string? fuel' found.2).bind _
        rw [hrest]

section Steps

variable
  (hvalue : ∀ {text fuel'}, 2 * text.length + 1 ≤ fuel → 2 * text.length + 1 ≤ fuel' →
    value fuel text = value fuel' text)
  (hitems : ∀ {text fuel'}, 2 * text.length + 2 ≤ fuel → 2 * text.length + 2 ≤ fuel' →
    items fuel text = items fuel' text)
  (hmembers : ∀ {text fuel'}, 2 * text.length + 2 ≤ fuel → 2 * text.length + 2 ≤ fuel' →
    members fuel text = members fuel' text)

include hitems hmembers in
theorem value_succ_congr (h : 2 * text.length ≤ fuel) (h' : 2 * text.length ≤ fuel') :
    value (fuel + 1) text = value (fuel' + 1) text := by
  rw [value, value]
  split
  · rfl
  · rfl
  · rfl
  · rename_i rest hquote
    have hlength := length_lt_of_skipGap hquote
    rw [string?_congr (by omega) (by omega : rest.length < fuel')]
  · rename_i rest hbracket
    have hlength := length_lt_of_skipGap hbracket
    have hgap := (suffix_skipGap rest).length_le
    split
    · rfl
    · rw [hitems (by omega) (by omega : 2 * (skipGap rest).length + 2 ≤ fuel')]
  · rename_i rest hbrace
    have hlength := length_lt_of_skipGap hbrace
    have hgap := (suffix_skipGap rest).length_le
    split
    · rfl
    · rw [hmembers (by omega) (by omega : 2 * (skipGap rest).length + 2 ≤ fuel')]
  · rfl

include hvalue hitems in
theorem items_succ_congr (h : 2 * text.length + 1 ≤ fuel) (h' : 2 * text.length + 1 ≤ fuel') :
    items (fuel + 1) text = items (fuel' + 1) text := by
  rw [items, items, ← hvalue h h']
  apply ((settles_value fuel).1 text).bind_congr
  intro item behind hbehind
  simp only
  split
  · rfl
  · rename_i rest hcomma
    have hlength := length_lt_of_skipGap hcomma
    rw [hitems (by omega) (by omega : 2 * rest.length + 2 ≤ fuel')]
  · rfl

include hvalue hmembers in
theorem members_succ_congr (h : 2 * text.length + 1 ≤ fuel) (h' : 2 * text.length + 1 ≤ fuel') :
    members (fuel + 1) text = members (fuel' + 1) text := by
  rw [members, members]
  split
  · rename_i rest hquote
    have hlength := length_lt_of_skipGap hquote
    rw [string?_congr (by omega) (by omega : rest.length < fuel')]
    split
    · rfl
    · rename_i key behind hkey
      have hbehind := (suffix_of_string? hkey).length_le
      split
      · rename_i behindColon hcolon
        have hlength := length_lt_of_skipGap hcolon
        rw [← hvalue (by omega) (by omega : 2 * behindColon.length + 1 ≤ fuel')]
        apply ((settles_value fuel).1 behindColon).bind_congr
        intro item behind hbehind
        simp only
        split
        · rfl
        · rename_i rest hcomma
          have hlength := length_lt_of_skipGap hcomma
          rw [hmembers (by omega) (by omega : 2 * rest.length + 2 ≤ fuel')]
        · rfl
      · rfl
  · rfl

end Steps

theorem value_congr (fuel : Nat) :
    (∀ {text fuel'}, 2 * text.length + 1 ≤ fuel → 2 * text.length + 1 ≤ fuel' →
      value fuel text = value fuel' text) ∧
    (∀ {text fuel'}, 2 * text.length + 2 ≤ fuel → 2 * text.length + 2 ≤ fuel' →
      items fuel text = items fuel' text) ∧
    ∀ {text fuel'}, 2 * text.length + 2 ≤ fuel → 2 * text.length + 2 ≤ fuel' →
      members fuel text = members fuel' text := by
  induction fuel with
  | zero => exact ⟨fun h _ => by omega, fun h _ => by omega, fun h _ => by omega⟩
  | succ fuel ih =>
    obtain ⟨hvalue, hitems, hmembers⟩ := ih
    refine ⟨fun {text fuel'} h h' => ?_, fun {text fuel'} h h' => ?_, fun {text fuel'} h h' => ?_⟩
    all_goals obtain ⟨fuel', rfl⟩ : ∃ n, fuel' = n + 1 := ⟨fuel' - 1, by omega⟩
    · exact value_succ_congr hitems hmembers (by omega) (by omega)
    · exact items_succ_congr hvalue hitems (by omega) (by omega)
    · exact members_succ_congr hvalue hmembers (by omega) (by omega)

/-- More calls than are enough find the same in a text. -/
theorem map_value_eq_read (h : 2 * text.length + 2 ≤ fuel) :
    (value fuel (skipMark text)).map Prod.fst = read text := by
  have hmark := (suffix_skipMark text).length_le
  have hsame : value fuel (skipMark text) = value (2 * text.length + 2) (skipMark text) :=
    (value_congr fuel).1 (by omega) (by omega)
  rw [read, hsame]

end Substitutability.Json
