import Substitutability.Proofs.Text.Characters
import Substitutability.Proofs.Text.Words

/-!
# Well-formed texts

A text is well-formed if it is a list of characters, one after the other. The reader that
looks for a fault from byte to byte finds none exactly in such a text. Blanks are
characters, so a text is well-formed exactly if all its words are.
-/

set_option autoImplicit false

namespace Substitutability

namespace Utf8

variable {x y text part : Bytes} {size : Nat}

/-! ## Lists of characters -/

@[simp]
theorem wellFormed_nil : wellFormed [] = true := by
  simp [wellFormed, characters]

theorem wellFormed_flatten {parts : List Bytes} (h : ∀ part ∈ parts, isCharacter part = true) :
    wellFormed parts.flatten = true := by
  rw [wellFormed, characters_flatten h]
  exact beq_self_eq_true _

theorem wellFormed_iff :
    wellFormed text = true ↔ ∃ parts : List Bytes, (∀ part ∈ parts, isCharacter part = true) ∧
      text = parts.flatten := by
  constructor
  · intro h
    exact ⟨characters text, fun part => isCharacter_of_mem_characters, (beq_iff_eq.1 h).symm⟩
  · rintro ⟨parts, hparts, rfl⟩
    exact wellFormed_flatten hparts

theorem wellFormed_append (hx : wellFormed x = true) (hy : wellFormed y = true) :
    wellFormed (x ++ y) = true := by
  obtain ⟨xs, hxs, rfl⟩ := wellFormed_iff.1 hx
  obtain ⟨ys, hys, rfl⟩ := wellFormed_iff.1 hy
  rw [← List.flatten_append]
  apply wellFormed_flatten
  intro part hpart
  rcases List.mem_append.1 hpart with hpart | hpart
  · exact hxs part hpart
  · exact hys part hpart

theorem wellFormed_of_isCharacter (h : isCharacter part = true) : wellFormed part = true := by
  have hflatten := wellFormed_flatten (List.forall_mem_singleton.2 h)
  rwa [List.flatten_singleton] at hflatten

theorem wellFormed_of_ascii (h : ∀ b ∈ text, b < 0x80) : wellFormed text = true := by
  have htext : text = (text.map fun b => [b]).flatten := by
    rw [← List.flatMap_def, List.flatMap_singleton']
  rw [htext]
  apply wellFormed_flatten
  intro part hpart
  obtain ⟨b, hb, rfl⟩ := List.mem_map.1 hpart
  exact isCharacter_iff.2 (.single [] (h b hb))

theorem wellFormed_utf8 (s : String) : wellFormed (utf8 s) = true := by
  have hchars : utf8 s = (s.toList.map String.utf8EncodeChar).flatten := by
    rw [← List.flatMap_def, utf8, String.toUTF8, ← String.utf8Encode_toList]
    simp [List.utf8Encode]
  rw [hchars]
  apply wellFormed_flatten
  intro part hpart
  obtain ⟨c, -, rfl⟩ := List.mem_map.1 hpart
  exact isCharacter_utf8EncodeChar c

theorem utf8_injective : Function.Injective utf8 := by
  intro s t h
  have hdata : s.toUTF8.data = t.toUTF8.data := Array.toList_inj.1 h
  exact String.toByteArray_inj.1 (ByteArray.ext hdata)

theorem wellFormed_join {separator : Bytes} {pieces : List Bytes}
    (hseparator : wellFormed separator = true) (h : ∀ piece ∈ pieces, wellFormed piece = true) :
    wellFormed (Bytes.join separator pieces) = true := by
  induction pieces with
  | nil => exact wellFormed_nil
  | cons piece rest ih =>
    obtain ⟨hpiece, hrest⟩ := List.forall_mem_cons.1 h
    cases rest with
    | nil => exact hpiece
    | cons next rest =>
      exact wellFormed_append (wellFormed_append hpiece hseparator) (ih hrest)

/-! ## The first character -/

theorem length_le_flatten_characters (text : Bytes) :
    text.length ≤ (characters text).flatten.length := by
  induction text using characters.induct with
  | case1 => simp
  | case2 first rest hsize ih =>
    rw [characters, hsize]
    simp only [List.flatten_cons, List.length_append, List.length_cons, replacement]
    omega
  | case3 first rest size hsize ih =>
    rw [characters, hsize]
    rw [List.length_drop] at ih
    simp only [List.flatten_cons, List.length_append, List.length_cons, List.length_take]
    omega

theorem wellFormed_of_begins (h : Begins text size) :
    wellFormed text = wellFormed (text.drop size) := by
  rw [Bool.eq_iff_iff, wellFormed, wellFormed, characters_of_begins h, beq_iff_eq, beq_iff_eq,
    List.flatten_cons]
  constructor
  · intro htext
    have hcut := htext.trans (List.take_append_drop size text).symm
    exact List.append_cancel_left hcut
  · intro hrest
    rw [hrest, List.take_append_drop]

theorem not_wellFormed_of_size_eq_zero {first : UInt8} {rest : Bytes}
    (h : characterSize (first :: rest) = 0) : wellFormed (first :: rest) = false := by
  rw [Bool.eq_false_iff, ne_eq, wellFormed, beq_iff_eq, characters, h]
  intro htext
  have hlength := congrArg List.length htext
  have hle := length_le_flatten_characters rest
  simp only [List.flatten_cons, List.length_append, List.length_cons, replacement] at hlength
  omega

theorem wellFormed_append_left (hx : wellFormed x = true) (y : Bytes) :
    wellFormed (x ++ y) = wellFormed y := by
  obtain ⟨parts, hparts, rfl⟩ := wellFormed_iff.1 hx
  induction parts with
  | nil => rfl
  | cons part rest ih =>
    obtain ⟨hpart, hrest⟩ := List.forall_mem_cons.1 hparts
    have hbegins := (isCharacter_iff.1 hpart).append (rest.flatten ++ y)
    rw [List.flatten_cons, List.append_assoc, wellFormed_of_begins hbegins, List.drop_left]
    exact ih hrest (wellFormed_flatten hrest)

/-- A text may be cut before a byte that goes on no character. -/
theorem wellFormed_append_iff (hy : Cuts y) :
    wellFormed (x ++ y) = true ↔ wellFormed x = true ∧ wellFormed y = true := by
  constructor
  · intro h
    rw [wellFormed, characters_append hy, List.flatten_append, beq_iff_eq] at h
    have hlength := congrArg List.length h
    have hlex := length_le_flatten_characters x
    have hley := length_le_flatten_characters y
    rw [List.length_append, List.length_append] at hlength
    obtain ⟨hx, hy⟩ := List.append_inj h (by omega)
    rw [wellFormed, wellFormed, hx, hy]
    exact ⟨beq_self_eq_true x, beq_self_eq_true y⟩
  · rintro ⟨hx, hy⟩
    exact wellFormed_append hx hy

/-! ## Reading byte by byte -/

/-- What may stand after a place: characters, or the rest of one and then characters. -/
def Place.Admits : Place → Bytes → Prop
  | .between, text => wellFormed text = true
  | .inside low high more, text => ∃ second tail rest, text = second :: (tail ++ rest) ∧
      low ≤ second ∧ second ≤ high ∧ tail.length = more ∧ (∀ b ∈ tail, isTail b = true) ∧
      wellFormed rest = true

theorem admits_between_cons (first : UInt8) (rest : Bytes) :
    Place.between.Admits (first :: rest) ↔
      ∃ place, Place.between.next first = some place ∧ place.Admits rest := by
  by_cases hascii : first < 0x80
  · have hbegins : Begins (first :: rest) 1 := .single rest hascii
    simp [Place.Admits, Place.next, hascii, wellFormed_of_begins hbegins]
  · cases hcontinuation : continuation first with
    | none =>
      have hsize : characterSize (first :: rest) = 0 := by
        simp [characterSize, hascii, hcontinuation]
      simp [Place.Admits, Place.next, hascii, hcontinuation, not_wellFormed_of_size_eq_zero hsize]
    | some range =>
      obtain ⟨low, high, more⟩ := range
      have hnext : Place.between.next first = some (.inside low high more) := by
        simp [Place.next, hascii, hcontinuation]
      simp only [hnext, Option.some.injEq, exists_eq_left']
      constructor
      · intro h
        rcases characterSize_eq_zero_or_begins (first :: rest) with hzero | hbegins
        · rw [Place.Admits, not_wellFormed_of_size_eq_zero hzero] at h
          cases h
        · generalize characterSize (first :: rest) = size at hbegins
          rw [Place.Admits, wellFormed_of_begins hbegins] at h
          cases hbegins with
          | single rest hascii' => exact absurd hascii' hascii
          | several after hfirst hsecond hlow hhigh hlength htail =>
            obtain ⟨rfl, rfl, rfl⟩ : low = _ ∧ high = _ ∧ more = _ := by
              simpa using hcontinuation.symm.trans hsecond
            refine ⟨_, _, after, rfl, hlow, hhigh, hlength, htail, ?_⟩
            rwa [List.drop_succ_cons, List.drop_succ_cons, List.drop_left' hlength] at h
      · rintro ⟨second, tail, after, rfl, hlow, hhigh, hlength, htail, hafter⟩
        have hbegins : Begins (first :: second :: (tail ++ after)) (more + 2) :=
          .several after hascii hcontinuation hlow hhigh hlength htail
        rw [Place.Admits, wellFormed_of_begins hbegins, List.drop_succ_cons,
          List.drop_succ_cons, List.drop_left' hlength, hafter]

theorem admits_inside_cons (low high : UInt8) (more : Nat) (b : UInt8) (rest : Bytes) :
    (Place.inside low high more).Admits (b :: rest) ↔
      ∃ place, (Place.inside low high more).next b = some place ∧ place.Admits rest := by
  by_cases hrange : low ≤ b ∧ b ≤ high
  · cases more with
    | zero =>
      simp [Place.Admits, Place.next, hrange]
    | succ more =>
      have hnext : (Place.inside low high (more + 1)).next b = some (.inside 0x80 0xBF more) := by
        simp [Place.next, hrange]
      simp only [hnext, Option.some.injEq, exists_eq_left']
      constructor
      · rintro ⟨_, _ | ⟨second, tail⟩, after, htext, hlow, hhigh, hlength, htail, hafter⟩
        · cases hlength
        obtain ⟨rfl, rfl⟩ := List.cons.inj htext
        obtain ⟨hsecond, htail⟩ := List.forall_mem_cons.1 htail
        rw [isTail, Bool.and_eq_true, decide_eq_true_iff, decide_eq_true_iff] at hsecond
        exact ⟨second, tail, after, rfl, hsecond.1, hsecond.2, Nat.succ.inj hlength, htail, hafter⟩
      · rintro ⟨second, tail, after, rfl, hlow, hhigh, hlength, htail, hafter⟩
        have hsecond : isTail second = true := by simp [isTail, hlow, hhigh]
        exact ⟨b, second :: tail, after, rfl, hrange.1, hrange.2, congrArg Nat.succ hlength,
          List.forall_mem_cons.2 ⟨hsecond, htail⟩, hafter⟩
  · have hnext : (Place.inside low high more).next b = none := by
      unfold Place.next
      exact if_neg (by simpa using hrange)
    simp only [hnext, reduceCtorEq, false_and, exists_false, iff_false]
    rintro ⟨_, tail, after, htext, hlow, hhigh, -⟩
    obtain ⟨rfl, -⟩ := List.cons.inj htext
    exact hrange ⟨hlow, hhigh⟩

theorem faultFrom_eq_none_iff {place : Place} {index : Nat} {last : UInt8} :
    faultFrom place index last text = none ↔ place.Admits text := by
  induction text generalizing place index last with
  | nil =>
    cases place with
    | between => simp [faultFrom, Place.Admits]
    | inside low high more => simp [faultFrom, Place.Admits]
  | cons b rest ih =>
    have hstep : place.Admits (b :: rest) ↔
        ∃ place', place.next b = some place' ∧ place'.Admits rest := by
      cases place with
      | between => exact admits_between_cons b rest
      | inside low high more => exact admits_inside_cons low high more b rest
    rw [hstep, faultFrom]
    cases hnext : place.next b with
    | none => simp
    | some place' => simp [ih]

theorem fault?_eq_none_iff : fault? text = none ↔ wellFormed text = true :=
  faultFrom_eq_none_iff

/-! ## Words -/

theorem ascii_of_isBlank {b : UInt8} (hb : Bytes.isBlank b = true) : b < 0x80 := by
  simp only [Bytes.isBlank] at hb
  grind

theorem cuts_of_isBlank (hy : ∀ b ∈ y.head?, Bytes.isBlank b = true) : Cuts y := by
  intro b hb
  have hascii := ascii_of_isBlank (hy b hb)
  simp only [isTail]
  grind

/-- By induction on the length: the text starts with a run of blanks or with a word. -/
theorem wellFormed_iff_words (text : Bytes) :
    wellFormed text = true ↔ ∀ word ∈ Bytes.words text, wellFormed word = true := by
  induction hlength : text.length using Nat.strong_induction_on generalizing text with
  | _ n ih =>
    by_cases hne : text = []
    · simp [hne, Bytes.words_nil]
    · obtain ⟨x, y, blank, rfl, hx, hblank, hy⟩ := Bytes.exists_first_run hne
      have hshort : y.length < n := by
        have := List.length_pos_iff.2 hx
        rw [← hlength, List.length_append]
        omega
      have hrest := ih y.length hshort y rfl
      cases blank with
      | true =>
        have hascii : ∀ b ∈ x, b < 0x80 := fun b hb => ascii_of_isBlank (hblank b hb)
        rw [wellFormed_append_left (wellFormed_of_ascii hascii),
          Bytes.words_append_of_blank hblank, hrest]
      | false =>
        rw [wellFormed_append_iff (cuts_of_isBlank hy),
          Bytes.words_append_of_unblank hx hblank hy, List.forall_mem_cons, hrest]

end Utf8

end Substitutability
