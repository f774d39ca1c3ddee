import Substitutability.Json.Printer
import Substitutability.Json.Value
import Substitutability.Proofs.Sorted
import Substitutability.Proofs.Text.WellFormed

/-!
# Documents that can be written

A document can be written exactly if every text in it, keys included, is well-formed. For
an array or an object this is said of its parts.
-/

set_option autoImplicit false

namespace Substitutability.Json

def Printable (json : Json) : Prop :=
  json.textFault? = none

variable {json : Json} {key : Bytes}

theorem exists_dump_iff (layout : Layout) :
    (∃ text, json.dump layout = .ok text) ↔ json.Printable := by
  rw [dump, Printable]
  cases json.textFault? with
  | none => simp
  | some fault => simp

theorem dump_of_not_printable (h : ¬json.Printable) (layout : Layout) :
    ∃ fault, json.dump layout = .error (.badText fault) := by
  obtain ⟨fault, hfault⟩ := Option.ne_none_iff_exists'.1 h
  exact ⟨fault, by rw [dump, hfault]⟩

theorem Printable.dump (h : json.Printable) (layout : Layout) :
    json.dump layout = .ok (print layout 0 json) := by
  rw [Json.dump, h]

/-! ## Parts -/

@[simp]
theorem printable_string {s : Bytes} : (Json.string s).Printable ↔ Utf8.wellFormed s = true := by
  rw [Printable, textFault?, Utf8.fault?_eq_none_iff]

@[simp]
theorem printable_nat (n : Nat) : (nat n).Printable := rfl

@[simp]
theorem printable_float (x : Double) : (Json.float x).Printable := rfl

@[simp]
theorem printable_bool (b : Bool) : (Json.bool b).Printable := rfl

theorem printable_array {items : List Json} :
    (Json.array items).Printable ↔ ∀ item ∈ items, item.Printable := by
  rw [Printable, textFault?]
  induction items with
  | nil => simp [itemsFault?]
  | cons item rest ih => rw [itemsFault?, Option.or_eq_none_iff, ih, List.forall_mem_cons, Printable]

theorem printable_map {α : Type} {f : α → Json} {items : List α} :
    (Json.array (items.map f)).Printable ↔ ∀ item ∈ items, (f item).Printable := by
  rw [printable_array, List.forall_mem_map]

theorem printable_strings {items : List Bytes} :
    (strings items).Printable ↔ ∀ item ∈ items, Utf8.wellFormed item = true := by
  rw [strings, printable_map]
  exact forall₂_congr fun item _ => printable_string

theorem printable_object {members : List (Bytes × Json)} :
    (Json.object members).Printable ↔
      ∀ entry ∈ members, Utf8.wellFormed entry.1 = true ∧ entry.2.Printable := by
  rw [Printable, textFault?]
  induction members with
  | nil => simp [membersFault?]
  | cons entry rest ih =>
    rw [membersFault?, Option.or_eq_none_iff, Option.or_eq_none_iff, ih, List.forall_mem_cons,
      Utf8.fault?_eq_none_iff, Printable]

theorem mem_record {fields : List (String × Json)} {entry : Bytes × Json}
    (h : entry ∈ (SortedMap.ofList (fields.map fun (name, value) => (utf8 name, value))).toList) :
    ∃ name value, (name, value) ∈ fields ∧ entry = (utf8 name, value) := by
  obtain ⟨⟨name, value⟩, hfield, rfl⟩ := List.mem_map.1 (SortedMap.mem_of_mem_ofList h)
  exact ⟨name, value, hfield, rfl⟩

theorem printable_record {fields : List (String × Json)}
    (h : ∀ field ∈ fields, field.2.Printable) : (record fields).Printable := by
  rw [record, ofMembers, printable_object]
  intro entry hentry
  obtain ⟨name, value, hfield, rfl⟩ := mem_record hentry
  exact ⟨Utf8.wellFormed_utf8 name, h _ hfield⟩

theorem Printable.member (h : json.Printable) {value : Json} (hvalue : json.member? key = some value) :
    value.Printable := by
  cases json with
  | object members => exact (printable_object.1 h _ (SortedMap.mem_of_findList hvalue)).2
  | _ => cases hvalue

theorem member?_record {fields : List (String × Json)} (hkeys : (fields.map Prod.fst).Nodup)
    {name : String} {value : Json} (h : (name, value) ∈ fields) :
    (record fields).member? (utf8 name) = some value := by
  have hmem : (utf8 name, value) ∈ fields.map fun (name, value) => (utf8 name, value) :=
    List.mem_map.2 ⟨_, h, rfl⟩
  apply (SortedMap.find?_ofList _).2 hmem
  have hutf8 : (fields.map fun (name, value) => (utf8 name, value)).map Prod.fst =
      (fields.map Prod.fst).map utf8 := by
    rw [List.map_map, List.map_map]
    rfl
  rw [hutf8]
  exact List.Pairwise.map utf8 (fun _ _ => mt (@Utf8.utf8_injective _ _)) hkeys

end Substitutability.Json
