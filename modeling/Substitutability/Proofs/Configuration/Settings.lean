import Mathlib.Data.List.Forall2
import Substitutability.Configuration.Document

/-!
# Settings

The fields of a configuration one at a time. A setting has a key, a type of values, and a way
to read a value from a document that no other setting takes part in. The fields that a merge
goes through are the settings in a fixed order.
-/

set_option autoImplicit false

namespace Substitutability

inductive Setting
  | minLength
  | maxLength
  | contextWidth
  | granularity
  | segmentation
  | minObservations
  | reportFormat
  | visualize
  | lite
  | renderFormat
  | verbose
  deriving DecidableEq, Repr

namespace Setting

def all : List Setting :=
  [.minLength, .maxLength, .contextWidth, .granularity, .segmentation, .minObservations,
    .reportFormat, .visualize, .lite, .renderFormat, .verbose]

def key : Setting → Bytes
  | .minLength => utf8 "min_length"
  | .maxLength => utf8 "max_length"
  | .contextWidth => utf8 "context_width"
  | .granularity => utf8 "granularity"
  | .segmentation => utf8 "segmentation"
  | .minObservations => utf8 "min_observations"
  | .reportFormat => utf8 "report_format"
  | .visualize => utf8 "visualize"
  | .lite => utf8 "lite"
  | .renderFormat => utf8 "render_format"
  | .verbose => utf8 "verbose"

abbrev Value : Setting → Type
  | .minLength => Int32
  | .maxLength => Option Int32
  | .contextWidth => Int32
  | .granularity => Bytes
  | .segmentation => Bytes
  | .minObservations => UInt64
  | .reportFormat => Bytes
  | .visualize => Bool
  | .lite => Bool
  | .renderFormat => Bytes
  | .verbose => Bool

def get : (s : Setting) → Configuration → s.Value
  | .minLength, c => c.minLength
  | .maxLength, c => c.maxLength
  | .contextWidth, c => c.contextWidth
  | .granularity, c => c.granularity
  | .segmentation, c => c.segmentation
  | .minObservations, c => c.minObservations
  | .reportFormat, c => c.reportFormat
  | .visualize, c => c.visualize
  | .lite, c => c.lite
  | .renderFormat, c => c.renderFormat
  | .verbose, c => c.verbose

def put : (s : Setting) → s.Value → Configuration → Configuration
  | .minLength, n, c => { c with minLength := n }
  | .maxLength, n, c => { c with maxLength := n }
  | .contextWidth, n, c => { c with contextWidth := n }
  | .granularity, name, c => { c with granularity := name }
  | .segmentation, name, c => { c with segmentation := name }
  | .minObservations, n, c => { c with minObservations := n }
  | .reportFormat, name, c => { c with reportFormat := name }
  | .visualize, b, c => { c with visualize := b }
  | .lite, b, c => { c with lite := b }
  | .renderFormat, name, c => { c with renderFormat := name }
  | .verbose, b, c => { c with verbose := b }

def ofKind {α : Type} (found : Except Json.Fault α) : Except ConfigurationFault α :=
  found.mapError .valueKind

/-- A count must be positive as an integer of 64 bits. -/
def readCount (json : Json) : Except ConfigurationFault UInt64 := do
  let count ← ofKind json.toInt64
  if count.toInt ≤ 0 then throw (.fewObservations count)
  return count.toUInt64

/-- Null states that there is no greatest length. -/
def readMaximum (json : Json) : Except ConfigurationFault (Option Int32) :=
  if json.kind = .null then .ok none else (ofKind json.toInt32).map some

def read : (s : Setting) → Json → Except ConfigurationFault s.Value
  | .minLength, json => ofKind json.toInt32
  | .maxLength, json => readMaximum json
  | .contextWidth, json => ofKind json.toInt32
  | .granularity, json => ofKind json.toBytes
  | .segmentation, json => ofKind json.toBytes
  | .minObservations, json => readCount json
  | .reportFormat, json => ofKind json.toBytes
  | .visualize, json => ofKind json.toBool
  | .lite, json => ofKind json.toBool
  | .renderFormat, json => ofKind json.toBytes
  | .verbose, json => ofKind json.toBool

/-- The values that the setting can be read from. -/
def Admits : Setting → Json → Prop
  | .minLength, json => json.kind = .number ∨ json.kind = .boolean
  | .maxLength, json => json.kind = .number ∨ json.kind = .boolean ∨ json.kind = .null
  | .contextWidth, json => json.kind = .number ∨ json.kind = .boolean
  | .granularity, json => json.kind = .string
  | .segmentation, json => json.kind = .string
  | .minObservations, json => ∃ count, json.toInt64 = .ok count ∧ 0 < count.toInt
  | .reportFormat, json => json.kind = .string
  | .visualize, json => json.kind = .boolean
  | .lite, json => json.kind = .boolean
  | .renderFormat, json => json.kind = .string
  | .verbose, json => json.kind = .boolean

/-! ## What can be read -/

theorem exists_ofKind_iff {α : Type} {found : Except Json.Fault α} :
    (∃ value, ofKind found = .ok value) ↔ ∃ value, found = .ok value := by
  cases found with
  | error fault => exact iff_of_false (fun ⟨_, h⟩ => nomatch h) (fun ⟨_, h⟩ => nomatch h)
  | ok value => exact iff_of_true ⟨value, rfl⟩ ⟨value, rfl⟩

theorem exists_toInt32_iff {json : Json} :
    (∃ n, json.toInt32 = .ok n) ↔ json.kind = .number ∨ json.kind = .boolean := by
  cases json <;> simp [Json.toInt32, Json.kind]

theorem exists_readMaximum_iff {json : Json} : (∃ n, readMaximum json = .ok n) ↔
    json.kind = .number ∨ json.kind = .boolean ∨ json.kind = .null := by
  cases json <;> simp [readMaximum, ofKind, Json.toInt32, Json.kind, Except.map, Except.mapError]

theorem exists_toBytes_iff {json : Json} : (∃ s, json.toBytes = .ok s) ↔ json.kind = .string := by
  cases json <;> simp [Json.toBytes, Json.kind]

theorem exists_toBool_iff {json : Json} : (∃ b, json.toBool = .ok b) ↔ json.kind = .boolean := by
  cases json <;> simp [Json.toBool, Json.kind]

theorem readCount_eq_ok_iff {json : Json} {n : UInt64} : readCount json = .ok n ↔
    ∃ count, json.toInt64 = .ok count ∧ 0 < count.toInt ∧ count.toUInt64 = n := by
  rw [readCount]
  cases json.toInt64 with
  | error fault => exact iff_of_false nofun fun ⟨_, h, _⟩ => nomatch h
  | ok count =>
    simp only [ofKind, Except.mapError, bind, Except.bind]
    by_cases hcount : count.toInt ≤ 0
    · rw [if_pos hcount]
      refine iff_of_false nofun ?_
      rintro ⟨_, ⟨⟩, hpos, -⟩
      omega
    · rw [if_neg hcount]
      constructor
      · rintro ⟨⟩
        exact ⟨count, rfl, by omega, rfl⟩
      · rintro ⟨_, ⟨⟩, -, rfl⟩
        rfl

theorem admits_iff {s : Setting} {json : Json} :
    s.Admits json ↔ ∃ value, s.read json = .ok value := by
  cases s with
  | minObservations =>
    simp only [Admits, read, readCount_eq_ok_iff]
    constructor
    · rintro ⟨count, hcount, hpos⟩
      exact ⟨_, count, hcount, hpos, rfl⟩
    · rintro ⟨_, count, hcount, hpos, -⟩
      exact ⟨count, hcount, hpos⟩
  | maxLength => exact exists_readMaximum_iff.symm
  | minLength | contextWidth => exact (exists_ofKind_iff.trans exists_toInt32_iff).symm
  | granularity | segmentation | reportFormat | renderFormat =>
    exact (exists_ofKind_iff.trans exists_toBytes_iff).symm
  | visualize | lite | verbose => exact (exists_ofKind_iff.trans exists_toBool_iff).symm

/-! ## Settings are independent -/

variable {s t : Setting} {c c' : Configuration}

theorem mem_all (s : Setting) : s ∈ all := by
  cases s <;> decide

theorem nodup_all : all.Nodup := by
  decide

@[simp]
theorem get_put (s : Setting) (value : s.Value) (c : Configuration) :
    s.get (s.put value c) = value := by
  cases s <;> rfl

theorem get_put_ne (h : t ≠ s) (value : s.Value) (c : Configuration) :
    t.get (s.put value c) = t.get c := by
  cases s <;> cases t <;> first | rfl | exact absurd rfl h

theorem ext_get (h : ∀ s : Setting, s.get c = s.get c') : c = c' := by
  cases c
  cases c'
  congr 1
  · exact h .minLength
  · exact h .maxLength
  · exact h .contextWidth
  · exact h .granularity
  · exact h .segmentation
  · exact h .minObservations
  · exact h .reportFormat
  · exact h .visualize
  · exact h .lite
  · exact h .renderFormat
  · exact h .verbose

end Setting

/-! ## Fields read settings -/

namespace Configuration

/-- The field puts the value that the setting reads, or passes on why it cannot be read. -/
structure Field.Reads (field : Field) (s : Setting) : Prop where
  key_eq : field.key = s.key
  set_eq : ∀ json c, field.set json c = (s.read json).map fun value => s.put value c

theorem Field.Reads.of {α : Type} {key : String} {convert : Json → Except Json.Fault α}
    {put : α → Configuration → Configuration} {s : Setting} (hkey : utf8 key = s.key)
    (hset : ∀ json c, (Setting.ofKind (convert json)).map (fun value => put value c) =
      (s.read json).map fun value => s.put value c) : (Field.of key convert put).Reads s where
  key_eq := hkey
  set_eq json c := by
    rw [← hset]
    simp only [Field.of]
    cases convert json <;> rfl

theorem observationsField_reads : observationsField.Reads .minObservations where
  key_eq := rfl
  set_eq json c := by
    simp only [observationsField, Setting.read, Setting.readCount, Setting.ofKind]
    cases json.toInt64 with
    | error fault => rfl
    | ok count =>
      simp only
      split
      · rename_i h
        simp only [Except.mapError, bind, Except.bind, if_pos h]
        rfl
      · rename_i h
        simp only [Except.mapError, bind, Except.bind, if_neg h]
        rfl

theorem ofKind_toMaxLength (json : Json) :
    Setting.ofKind (toMaxLength json) = Setting.readMaximum json := by
  cases json <;> rfl

theorem fields_read : List.Forall₂ Field.Reads fields Setting.all := by
  have hmaximum : (Field.of "max_length" toMaxLength fun n c => { c with maxLength := n }).Reads
      .maxLength := .of rfl fun json _ => by rw [ofKind_toMaxLength]; rfl
  refine .cons (.of rfl fun _ _ => rfl) (.cons hmaximum
    (.cons (.of rfl fun _ _ => rfl) (.cons (.of rfl fun _ _ => rfl)
    (.cons (.of rfl fun _ _ => rfl) (.cons observationsField_reads ?_)))))
  exact .cons (.of rfl fun _ _ => rfl) (.cons (.of rfl fun _ _ => rfl)
    (.cons (.of rfl fun _ _ => rfl) (.cons (.of rfl fun _ _ => rfl)
    (.cons (.of rfl fun _ _ => rfl) .nil))))

end Configuration

end Substitutability
