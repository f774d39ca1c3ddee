import Substitutability.Proofs.Json.Numbers
import Substitutability.Proofs.Json.Printable
import Substitutability.Proofs.Json.Strings

/-!
# Documents are read as they were written

A document without doubles is read again from its text, on one line or indented, and
whatever stands behind it. Its integers fit a word, its texts are well-formed, and the
members of its objects are in order.
-/

set_option autoImplicit false

namespace Substitutability.Json

/-- What a text of the document keeps. -/
inductive Faithful : Json → Prop
  | null : Faithful .null
  | bool (value : Bool) : Faithful (.bool value)
  | integer {n : Int} (h : fitsWord n = true) : Faithful (.integer n)
  | string {s : Bytes} (h : Utf8.wellFormed s = true) : Faithful (.string s)
  | array {items : List Json} (h : ∀ item ∈ items, Faithful item) : Faithful (.array items)
  | object {members : List (Bytes × Json)} (hordered : Ascending (members.map Prod.fst))
      (hkeys : ∀ entry ∈ members, Utf8.wellFormed entry.1 = true)
      (h : ∀ entry ∈ members, Faithful entry.2) : Faithful (.object members)

/-- At any depth, whatever follows, the value is read from its text. -/
def ReadsBack (layout : Layout) (json : Json) : Prop :=
  ∀ depth fuel rest, Stops rest → (print layout depth json).length ≤ fuel →
    value fuel (print layout depth json ++ rest) = .ok (json, rest)

variable {layout : Layout} {depth fuel : Nat} {gap rest text : Bytes} {json : Json}

/-! ## Gaps -/

theorem skipGap_append (h : ∀ b ∈ gap, isGap b = true) (text : Bytes) :
    skipGap (gap ++ text) = skipGap text :=
  List.dropWhile_append_of_pos h

theorem skipGap_cons {b : UInt8} (h : isGap b = false) (text : Bytes) :
    skipGap (b :: text) = b :: text :=
  List.dropWhile_cons_of_neg (by simp [h])

theorem isGap_of_mem_lineBreak {b : UInt8} (h : b ∈ layout.lineBreak depth) : isGap b = true := by
  cases layout with
  | compact => cases h
  | indented =>
    rcases List.mem_cons.1 h with rfl | h
    · rfl
    · rw [List.eq_of_mem_replicate h]
      rfl

theorem skipGap_lineBreak (text : Bytes) :
    skipGap (layout.lineBreak depth ++ text) = skipGap text :=
  skipGap_append (fun _ => isGap_of_mem_lineBreak) text

theorem value_lineBreak (text : Bytes) :
    value fuel (layout.lineBreak depth ++ text) = value fuel text := by
  cases fuel with
  | zero => rw [value, value]
  | succ fuel => rw [value, value, skipGap_lineBreak]

theorem items_lineBreak (text : Bytes) :
    items fuel (layout.lineBreak depth ++ text) = items fuel text := by
  cases fuel with
  | zero => rw [items, items]
  | succ fuel => rw [items, items, value_lineBreak]

theorem members_lineBreak (text : Bytes) :
    members fuel (layout.lineBreak depth ++ text) = members fuel text := by
  cases fuel with
  | zero => rw [members, members]
  | succ fuel => rw [members, members, skipGap_lineBreak]

theorem stops_cons {b : UInt8} (h : Bytes.isDigit b = false ∧ b ≠ 46 ∧ b ≠ 69 ∧ b ≠ 101)
    (rest : Bytes) : Stops (b :: rest) := by
  rintro first ⟨⟩
  exact h

theorem stops_lineBreak {b : UInt8} (h : Bytes.isDigit b = false ∧ b ≠ 46 ∧ b ≠ 69 ∧ b ≠ 101)
    (rest : Bytes) : Stops (layout.lineBreak depth ++ b :: rest) := by
  cases layout with
  | compact => exact stops_cons h rest
  | indented => exact stops_cons (by decide) _

/-! ## What a value starts with -/

def Opens (b : UInt8) : Prop :=
  isGap b = false ∧ b ≠ 93 ∧ b ≠ 0xEF

instance (b : UInt8) : Decidable (Opens b) :=
  inferInstanceAs (Decidable (_ ∧ _))

def OpensNumber (b : UInt8) : Prop :=
  b = 45 ∨ Bytes.isDigit b = true

theorem OpensNumber.ne {b : UInt8} (h : OpensNumber b) :
    isGap b = false ∧ b ≠ 110 ∧ b ≠ 116 ∧ b ≠ 102 ∧ b ≠ 34 ∧ b ≠ 91 ∧ b ≠ 123 ∧ b ≠ 93 ∧
      b ≠ 0xEF := by
  rcases h with rfl | h
  · decide
  · have hrange := Bytes.isDigit_iff.1 h
    have hne : ∀ n : UInt8, n.toNat < 48 ∨ 57 < n.toNat → b ≠ n := by
      rintro n hn rfl
      omega
    refine ⟨?_, hne _ (by decide), hne _ (by decide), hne _ (by decide), hne _ (by decide),
      hne _ (by decide), hne _ (by decide), hne _ (by decide), hne _ (by decide)⟩
    simp only [isGap, Bool.or_eq_false_iff, beq_eq_false_iff_ne]
    exact ⟨⟨⟨hne _ (by decide), hne _ (by decide)⟩, hne _ (by decide)⟩, hne _ (by decide)⟩

theorem exists_ofInt (n : Int) : ∃ b more, Bytes.ofInt n = b :: more ∧ OpensNumber b := by
  rw [Bytes.ofInt]
  split
  · exact ⟨45, _, rfl, .inl rfl⟩
  · obtain ⟨b, more, hfirst, hdigit⟩ := Bytes.exists_digit_ofNat n.natAbs
    exact ⟨b, more, hfirst, .inr hdigit⟩

theorem exists_print (h : Faithful json) (layout : Layout) (depth : Nat) :
    ∃ b more, print layout depth json = b :: more ∧ Opens b := by
  cases h with
  | null => exact ⟨110, _, rfl, by decide⟩
  | bool value =>
    cases value with
    | false => exact ⟨102, _, rfl, by decide⟩
    | true => exact ⟨116, _, rfl, by decide⟩
  | integer h =>
    rename_i n
    obtain ⟨b, more, hfirst, hopens⟩ := exists_ofInt n
    obtain ⟨hgap, -, -, -, -, -, -, hbracket, hmark⟩ := hopens.ne
    exact ⟨b, more, by rw [print, hfirst], hgap, hbracket, hmark⟩
  | string h => exact ⟨34, _, rfl, by decide⟩
  | @array items h =>
    cases items with
    | nil => exact ⟨91, _, rfl, by decide⟩
    | cons item rest => exact ⟨91, _, rfl, by decide⟩
  | @object members hordered hkeys h =>
    cases members with
    | nil => exact ⟨123, _, rfl, by decide⟩
    | cons entry rest => exact ⟨123, _, rfl, by decide⟩

theorem exists_fuel (h : Faithful json) (hfuel : (print layout depth json).length ≤ fuel) :
    ∃ k, fuel = k + 1 := by
  obtain ⟨b, more, hprint, -⟩ := exists_print h layout depth
  rw [hprint] at hfuel
  exact Nat.exists_eq_add_one.2 (Nat.lt_of_lt_of_le (Nat.succ_pos _) hfuel)

theorem Opens.skipGap {b : UInt8} (h : Opens b) (more : Bytes) : skipGap (b :: more) = b :: more :=
  skipGap_cons h.1 more

/-! ## Values of one piece -/

theorem readsBack_null (layout : Layout) : ReadsBack layout .null := by
  intro depth fuel rest _ hfuel
  obtain ⟨fuel, rfl⟩ := exists_fuel .null hfuel
  rw [value]
  rfl

theorem readsBack_bool (layout : Layout) (b : Bool) : ReadsBack layout (.bool b) := by
  intro depth fuel rest _ hfuel
  obtain ⟨fuel, rfl⟩ := exists_fuel (.bool b) hfuel
  rw [value]
  cases b with
  | false => rfl
  | true => rfl

theorem value_number {b : UInt8} (h : OpensNumber b) (more : Bytes) :
    value (fuel + 1) (b :: more) = number (b :: more) := by
  obtain ⟨hgap, hn, ht, hf, hquote, hbracket, hbrace, -⟩ := h.ne
  rw [value, skipGap_cons hgap]
  split
  case h_7 => rfl
  all_goals
    rename_i heq
    have hb := (List.cons.inj heq).1
    contradiction

theorem readsBack_integer (layout : Layout) {n : Int} (h : fitsWord n = true) :
    ReadsBack layout (.integer n) := by
  intro depth fuel rest hrest hfuel
  obtain ⟨fuel, rfl⟩ := exists_fuel (.integer h) hfuel
  obtain ⟨b, more, hfirst, hopens⟩ := exists_ofInt n
  have hnumber := number_ofInt hrest h
  rw [print]
  rw [hfirst, List.cons_append] at hnumber ⊢
  rw [value_number hopens, hnumber]

theorem value_string (text : Bytes) :
    value (fuel + 1) (34 :: text) =
      match string? fuel text with
      | some (s, rest) => .ok (.string s, rest)
      | none => .error .malformed := by
  rw [value]
  rfl

theorem quoted_append (s rest : Bytes) :
    quoted s ++ rest = 34 :: (s.flatMap escapeByte ++ 34 :: rest) := by
  simp [quoted]

theorem length_quoted (s : Bytes) : (quoted s).length = (s.flatMap escapeByte).length + 2 := by
  simp [quoted]

theorem readsBack_string (layout : Layout) {s : Bytes} (h : Utf8.wellFormed s = true) :
    ReadsBack layout (.string s) := by
  intro depth fuel rest _ hfuel
  obtain ⟨fuel, rfl⟩ := exists_fuel (.string h) hfuel
  rw [print, length_quoted] at hfuel
  rw [print, quoted_append, value_string, string?_quoted h (by omega)]

/-! ## Arrays -/

theorem value_array {b : UInt8} {more : Bytes} (h : Opens b) :
    value (fuel + 1) (91 :: (layout.lineBreak depth ++ b :: more)) =
      (items fuel (b :: more)).map fun (items, rest) => (.array items, rest) := by
  have hstart : skipGap (91 :: (layout.lineBreak depth ++ b :: more)) =
      91 :: (layout.lineBreak depth ++ b :: more) := skipGap_cons (by decide) _
  rw [value, hstart]
  simp only [skipGap_lineBreak, h.skipGap]
  split
  · rename_i heq
    exact absurd (List.cons.inj heq).1 h.2.1
  · cases items fuel (b :: more) <;> rfl

theorem items_last (hfuel : value fuel text = .ok (json, layout.lineBreak depth ++ 93 :: rest)) :
    items (fuel + 1) text = .ok ([json], rest) := by
  have hstop : skipGap (layout.lineBreak depth ++ 93 :: rest) = 93 :: rest :=
    (skipGap_lineBreak _).trans (skipGap_cons (by decide) _)
  rw [items, hfuel]
  simp only [bind, Except.bind, hstop]
  rfl

theorem items_next {more : Bytes} (hfuel : value fuel text = .ok (json, 44 :: more)) :
    items (fuel + 1) text = (items fuel more).map fun (items, rest) => (json :: items, rest) := by
  have hstop : skipGap (44 :: more) = 44 :: more := skipGap_cons (by decide) _
  rw [items, hfuel]
  simp only [bind, Except.bind, hstop]
  cases items fuel more <;> rfl

theorem items_print {item : Json} {more : List Json}
    (h : ∀ json ∈ item :: more, ReadsBack layout json)
    (hfuel : (print layout (depth + 1) item ++ printItems layout (depth + 1) more).length < fuel)
    (rest : Bytes) :
    items fuel (print layout (depth + 1) item ++ (printItems layout (depth + 1) more ++
      (layout.lineBreak depth ++ 93 :: rest))) = .ok (item :: more, rest) := by
  induction more generalizing item fuel with
  | nil =>
    obtain ⟨fuel, rfl⟩ := Nat.exists_eq_add_one.2 (Nat.zero_lt_of_lt hfuel)
    rw [printItems, List.append_nil] at hfuel
    apply items_last
    exact h item List.mem_cons_self _ _ _ (stops_lineBreak (by decide) rest) (by omega)
  | cons next more ih =>
    obtain ⟨fuel, rfl⟩ := Nat.exists_eq_add_one.2 (Nat.zero_lt_of_lt hfuel)
    obtain ⟨hitem, hmore⟩ := List.forall_mem_cons.1 h
    have hcomma : utf8 "," = [44] := rfl
    rw [printItems, hcomma] at hfuel ⊢
    simp only [List.length_append, List.length_singleton] at hfuel
    simp only [List.append_assoc, List.cons_append, List.nil_append]
    rw [items_next (hitem _ _ _ (stops_cons (by decide) _) (by omega)), items_lineBreak,
      ih hmore (by rw [List.length_append]; omega)]
    rfl

theorem readsBack_array {items : List Json} (hfaithful : ∀ item ∈ items, Faithful item)
    (h : ∀ item ∈ items, ReadsBack layout item) : ReadsBack layout (.array items) := by
  intro depth fuel rest _ hfuel
  obtain ⟨fuel, rfl⟩ := exists_fuel (.array hfaithful) hfuel
  cases items with
  | nil =>
    rw [value]
    rfl
  | cons item more =>
    obtain ⟨b, after, hprint, hopens⟩ :=
      exists_print (hfaithful item List.mem_cons_self) layout (depth + 1)
    have hopen : utf8 "[" = [91] := rfl
    have hclose : utf8 "]" = [93] := rfl
    rw [print, hopen, hclose] at hfuel ⊢
    simp only [List.length_append, List.length_singleton] at hfuel
    have hitems := @items_print layout depth fuel item more h
      (by rw [List.length_append]; omega) rest
    simp only [List.append_assoc, List.cons_append, List.nil_append, hprint] at hitems ⊢
    rw [value_array hopens, hitems]
    rfl

/-! ## Objects -/

theorem value_colon (layout : Layout) (text : Bytes) :
    ∃ gap, layout.colon ++ text = 58 :: (gap ++ text) ∧
      ∀ fuel, value fuel (gap ++ text) = value fuel text := by
  cases layout with
  | compact => exact ⟨[], rfl, fun _ => rfl⟩
  | indented =>
    refine ⟨[32], rfl, fun fuel => ?_⟩
    have hgap : skipGap ([32] ++ text) = skipGap text :=
      skipGap_append (List.forall_mem_singleton.2 rfl) text
    cases fuel with
    | zero => rw [value, value]
    | succ fuel => rw [value, value, hgap]

theorem value_object {more : Bytes} :
    value (fuel + 1) (123 :: (layout.lineBreak depth ++ 34 :: more)) =
      (members fuel (34 :: more)).map fun (members, rest) => (ofMembers members, rest) := by
  have hstart : skipGap (123 :: (layout.lineBreak depth ++ 34 :: more)) =
      123 :: (layout.lineBreak depth ++ 34 :: more) := skipGap_cons (by decide) _
  have hquote : skipGap (34 :: more) = 34 :: more := skipGap_cons (by decide) _
  rw [value, hstart]
  simp only [skipGap_lineBreak, hquote]
  split
  · rename_i heq
    exact absurd (List.cons.inj heq).1 (by decide)
  · cases members fuel (34 :: more) <;> rfl

section Members

variable {key : Bytes} (hkey : Utf8.wellFormed key = true)
  (hlong : (key.flatMap escapeByte).length < fuel)

include hkey hlong

theorem members_last (hvalue : value fuel text = .ok (json, layout.lineBreak depth ++ 125 :: rest)) :
    members (fuel + 1) (quoted key ++ (layout.colon ++ text)) = .ok ([(key, json)], rest) := by
  obtain ⟨gap, hcolon, hgap⟩ := value_colon layout text
  have hstart : ∀ after, skipGap (34 :: after) = 34 :: after := skipGap_cons (by decide)
  have hmiddle : ∀ after, skipGap (58 :: after) = 58 :: after := skipGap_cons (by decide)
  have hstop : skipGap (layout.lineBreak depth ++ 125 :: rest) = 125 :: rest :=
    (skipGap_lineBreak _).trans (skipGap_cons (by decide) _)
  rw [quoted_append, hcolon, members, hstart]
  simp only [string?_quoted hkey hlong, hmiddle, hgap, hvalue, bind, Except.bind, hstop]
  rfl

theorem members_next {more : Bytes} (hvalue : value fuel text = .ok (json, 44 :: more)) :
    members (fuel + 1) (quoted key ++ (layout.colon ++ text)) =
      (members fuel more).map fun (members, rest) => ((key, json) :: members, rest) := by
  obtain ⟨gap, hcolon, hgap⟩ := value_colon layout text
  have hstart : ∀ after, skipGap (34 :: after) = 34 :: after := skipGap_cons (by decide)
  have hmiddle : ∀ after, skipGap (58 :: after) = 58 :: after := skipGap_cons (by decide)
  have hstop : skipGap (44 :: more) = 44 :: more := skipGap_cons (by decide) _
  rw [quoted_append, hcolon, members, hstart]
  simp only [string?_quoted hkey hlong, hmiddle, hgap, hvalue, bind, Except.bind, hstop]
  cases members fuel more <;> rfl

end Members

theorem members_print {key : Bytes} {item : Json} {more : List (Bytes × Json)}
    (hkeys : ∀ entry ∈ (key, item) :: more, Utf8.wellFormed entry.1 = true)
    (h : ∀ entry ∈ (key, item) :: more, ReadsBack layout entry.2)
    (hfuel : (quoted key ++ layout.colon ++ print layout (depth + 1) item ++
      printMembers layout (depth + 1) more).length < fuel) (rest : Bytes) :
    members fuel (quoted key ++ (layout.colon ++ (print layout (depth + 1) item ++
      (printMembers layout (depth + 1) more ++ (layout.lineBreak depth ++ 125 :: rest))))) =
        .ok ((key, item) :: more, rest) := by
  induction more generalizing key item fuel with
  | nil =>
    obtain ⟨fuel, rfl⟩ := Nat.exists_eq_add_one.2 (Nat.zero_lt_of_lt hfuel)
    have hkey : Utf8.wellFormed key = true := hkeys _ List.mem_cons_self
    have hitem : ReadsBack layout item := h _ List.mem_cons_self
    simp only [List.length_append, length_quoted] at hfuel
    apply members_last hkey (by omega)
    exact hitem _ _ _ (stops_lineBreak (by decide) rest) (by omega)
  | cons next more ih =>
    obtain ⟨nextKey, next⟩ := next
    obtain ⟨fuel, rfl⟩ := Nat.exists_eq_add_one.2 (Nat.zero_lt_of_lt hfuel)
    have hkey : Utf8.wellFormed key = true := hkeys _ List.mem_cons_self
    have hitem : ReadsBack layout item := h _ List.mem_cons_self
    have hmoreKeys := (List.forall_mem_cons.1 hkeys).2
    have hmore := (List.forall_mem_cons.1 h).2
    have hcomma : utf8 "," = [44] := rfl
    rw [printMembers, hcomma] at hfuel ⊢
    simp only [List.length_append, List.length_singleton, length_quoted] at hfuel
    simp only [List.append_assoc, List.cons_append, List.nil_append]
    rw [members_next hkey (by omega) (hitem _ _ _ (stops_cons (by decide) _) (by omega)),
      members_lineBreak, ih hmoreKeys hmore]
    · rfl
    · simp only [List.length_append, length_quoted]
      omega

theorem ofMembers_of_ascending {members : List (Bytes × Json)}
    (h : Ascending (members.map Prod.fst)) : ofMembers members = .object members := by
  have hmap := SortedMap.ofList_toList (⟨members, h⟩ : SortedMap Bytes Json)
  rw [ofMembers, hmap]

theorem readsBack_object {members : List (Bytes × Json)}
    (hordered : Ascending (members.map Prod.fst))
    (hkeys : ∀ entry ∈ members, Utf8.wellFormed entry.1 = true)
    (hfaithful : ∀ entry ∈ members, Faithful entry.2)
    (h : ∀ entry ∈ members, ReadsBack layout entry.2) : ReadsBack layout (.object members) := by
  intro depth fuel rest _ hfuel
  obtain ⟨fuel, rfl⟩ := exists_fuel (.object hordered hkeys hfaithful) hfuel
  cases members with
  | nil =>
    rw [value]
    rfl
  | cons entry more =>
    obtain ⟨key, item⟩ := entry
    have hopen : utf8 "\x7b" = [123] := rfl
    have hclose : utf8 "\x7d" = [125] := rfl
    rw [print, hopen, hclose] at hfuel ⊢
    simp only [List.length_append, List.length_singleton] at hfuel
    have hmembers := @members_print layout depth fuel key item more hkeys h
      (by simp only [List.length_append]; omega) rest
    simp only [List.append_assoc, List.cons_append, List.nil_append] at hmembers ⊢
    rw [quoted_append] at hmembers ⊢
    rw [value_object, hmembers]
    simp only [Except.map, ofMembers_of_ascending hordered]

/-! ## Documents -/

theorem readsBack (h : Faithful json) : ReadsBack layout json := by
  induction h with
  | null => exact readsBack_null layout
  | bool b => exact readsBack_bool layout b
  | integer h => exact readsBack_integer layout h
  | string h => exact readsBack_string layout h
  | array h ih => exact readsBack_array h ih
  | object hordered hkeys h ih => exact readsBack_object hordered hkeys h ih

theorem Faithful.printable (h : Faithful json) : json.Printable := by
  induction h with
  | null => rfl
  | bool b => rfl
  | integer h => rfl
  | string h => exact printable_string.2 h
  | array h ih => exact printable_array.2 ih
  | object hordered hkeys h ih =>
    exact printable_object.2 fun entry hentry => ⟨hkeys entry hentry, ih entry hentry⟩

theorem faithful_record {fields : List (String × Json)}
    (h : ∀ field ∈ fields, Faithful field.2) : Faithful (record fields) := by
  refine .object (SortedMap.ascending _) ?_ ?_
  · intro entry hentry
    obtain ⟨name, value, -, rfl⟩ := mem_record hentry
    exact Utf8.wellFormed_utf8 name
  · intro entry hentry
    obtain ⟨name, value, hfield, rfl⟩ := mem_record hentry
    exact h _ hfield

/-- The text is read to its end, and it is the text of the document. -/
def IsTextOf (text : Bytes) (json : Json) : Prop :=
  value (2 * text.length + 2) (skipMark text) = .ok (json, [])

theorem skipMark_print (h : Faithful json) (layout : Layout) (rest : Bytes) :
    skipMark (print layout 0 json ++ rest) = print layout 0 json ++ rest := by
  obtain ⟨b, more, hprint, hopens⟩ := exists_print h layout 0
  rw [hprint, List.cons_append, skipMark]
  intro after heq
  exact hopens.2.2 (List.cons.inj heq).1

theorem isTextOf_dump (h : Faithful json) (layout : Layout) :
    ∃ text, json.dump layout = .ok text ∧ IsTextOf text json := by
  refine ⟨print layout 0 json, h.printable.dump layout, ?_⟩
  have hmark := skipMark_print h layout []
  have hread : value (2 * (print layout 0 json).length + 2) (print layout 0 json ++ []) =
      .ok (json, []) := readsBack h 0 _ [] nofun (by omega)
  rw [List.append_nil] at hmark hread
  rw [IsTextOf, hmark, hread]

/-- Whatever follows the text of a document, the document is read from it. -/
theorem read_dump (h : Faithful json) (layout : Layout) :
    ∃ text, json.dump layout = .ok text ∧
      ∀ rest, Stops rest → read (text ++ rest) = .ok json := by
  refine ⟨print layout 0 json, h.printable.dump layout, fun rest hrest => ?_⟩
  rw [read, skipMark_print h, readsBack h 0 _ rest hrest (by rw [List.length_append]; omega)]
  rfl

end Substitutability.Json
