import Mathlib.Algebra.Ring.Int.Defs
import Mathlib.Algebra.Ring.Nat
import Substitutability.Configuration.Document
import Substitutability.Proofs.Configuration.Validity
import Substitutability.Proofs.Files.Tree
import Substitutability.Proofs.Json.RoundTrip

/-!
# Configurations are read as they were written

Each field of a configuration is written under the key that it is read from, so a document
of a configuration sets every field to its value. The number of observations is the
exception: it is written as an unsigned number and read as a signed one, so a number in the
upper half of its range is refused. A file gives what its document gives.
-/

set_option autoImplicit false

namespace Substitutability.Configuration

variable {c b : Configuration} {path : Bytes}

/-! ## Single fields -/

def written (c : Configuration) : List (String × Json) :=
  [("min_length", .integer c.minLength.toInt),
    ("max_length", optionalInt c.maxLength),
    ("context_width", .integer c.contextWidth.toInt),
    ("granularity", .string c.granularity),
    ("segmentation", .string c.segmentation),
    ("min_observations", .nat c.minObservations.toNat),
    ("report_format", .string c.reportFormat),
    ("visualize", .bool c.visualize),
    ("lite", .bool c.lite),
    ("render_format", .string c.renderFormat),
    ("verbose", .bool c.verbose)]

theorem toJson_eq (c : Configuration) : c.toJson = .record c.written := rfl

theorem member?_toJson {name : String} {value : Json} (h : (name, value) ∈ c.written) :
    c.toJson.member? (utf8 name) = some value := by
  have hkeys : (c.written.map Prod.fst).Nodup := by simp [written]
  rw [toJson_eq]
  exact Json.member?_record hkeys h

/-- The document of a configuration makes the field do the update, whatever was there before. -/
def Field.Takes (c : Configuration) (field : Field) (update : Configuration → Configuration) :
    Prop :=
  ∃ value, c.toJson.member? field.key = some value ∧ ∀ b, field.set value b = .ok (update b)

theorem Field.takes_of {α : Type} {key : String} {convert : Json → Except Json.Fault α}
    {put : α → Configuration → Configuration} {value : Json} {a : α}
    (hwritten : (key, value) ∈ c.written) (hconvert : convert value = .ok a) :
    Field.Takes c (.of key convert put) (put a) := by
  refine ⟨value, member?_toJson hwritten, fun b => ?_⟩
  simp only [Field.of, hconvert]

section Takes

variable {key : String}

theorem takes_int {n : Int32} {put : Int32 → Configuration → Configuration}
    (h : (key, .integer n.toInt) ∈ c.written) :
    Field.Takes c (.of key Json.toInt32 put) (put n) := by
  apply Field.takes_of h
  rw [Json.toInt32, Int32.ofInt_toInt]

theorem takes_optionalInt {n : Option Int32} {put : Option Int32 → Configuration → Configuration}
    (h : (key, optionalInt n) ∈ c.written) : Field.Takes c (.of key toMaxLength put) (put n) := by
  apply Field.takes_of h
  cases n with
  | none => rfl
  | some n =>
    rw [optionalInt, toMaxLength]
    · rw [Json.toInt32, Int32.ofInt_toInt]
      rfl
    · simp

theorem takes_bytes {s : Bytes} {put : Bytes → Configuration → Configuration}
    (h : (key, .string s) ∈ c.written) : Field.Takes c (.of key Json.toBytes put) (put s) :=
  Field.takes_of h rfl

theorem takes_bool {value : Bool} {put : Bool → Configuration → Configuration}
    (h : (key, .bool value) ∈ c.written) : Field.Takes c (.of key Json.toBool put) (put value) :=
  Field.takes_of h rfl

end Takes

/-! ## The number of observations -/

theorem ofInt_toNat (n : UInt64) : Int64.ofInt n.toNat = n.toInt64 := by
  rw [Int64.ofInt_eq_ofNat, ← UInt64.toInt64_ofNat', UInt64.ofNat_toNat]

theorem toInt_toInt64 (n : UInt64) :
    n.toInt64.toInt = if n.toNat < 2 ^ 63 then (n.toNat : Int) else n.toNat - 2 ^ 64 := by
  have hlt : n.toNat < 2 ^ 64 := n.toNat_lt
  have hsize : (Int64.size : Int) = 2 ^ 64 := rfl
  rw [← ofInt_toNat, Int64.toInt_ofInt, Int.bmod_def, hsize]
  split <;> split <;> omega

theorem member?_observations (c : Configuration) :
    c.toJson.member? observationsField.key = some (.nat c.minObservations.toNat) :=
  member?_toJson (by simp [written])

theorem observations_taken (hpos : c.minObservations ≠ 0)
    (hsmall : c.minObservations.toNat < 2 ^ 63) :
    observationsField.Takes c fun b => { b with minObservations := c.minObservations } := by
  refine ⟨_, member?_observations c, fun b => ?_⟩
  have hcount : ¬c.minObservations.toInt64.toInt ≤ 0 := by
    have hne : c.minObservations.toNat ≠ 0 := fun h => hpos (UInt64.toNat_inj.1 h)
    rw [toInt_toInt64, if_pos hsmall]
    omega
  simp only [observationsField, Json.nat, Json.toInt64, ofInt_toNat]
  rw [if_neg hcount, UInt64.toUInt64_toInt64]

theorem observations_refused (hlarge : ¬c.minObservations.toNat < 2 ^ 63) (b : Configuration) :
    observationsField.set (.nat c.minObservations.toNat) b =
      .error (.fewObservations c.minObservations.toInt64) := by
  have hlt : c.minObservations.toNat < 2 ^ 64 := c.minObservations.toNat_lt
  have hcount : c.minObservations.toInt64.toInt ≤ 0 := by
    rw [toInt_toInt64, if_neg hlarge]
    omega
  simp only [observationsField, Json.nat, Json.toInt64, ofInt_toNat]
  rw [if_pos hcount]

/-! ## Documents -/

theorem mergeFields_takes {field : Field} {update : Configuration → Configuration}
    (h : field.Takes c update) (rest : List Field) (b : Configuration) :
    mergeFields c.toJson (field :: rest) b = mergeFields c.toJson rest (update b) := by
  obtain ⟨value, hvalue, hset⟩ := h
  rw [mergeFields, hvalue]
  simp only [hset]

theorem mergeFields_append {front rest : List Field}
    {updates : List (Configuration → Configuration)} (h : List.Forall₂ (Field.Takes c) front updates)
    (b : Configuration) :
    mergeFields c.toJson (front ++ rest) b =
      mergeFields c.toJson rest (updates.foldl (fun b update => update b) b) := by
  induction h generalizing b with
  | nil => rfl
  | cons hfield hmore ih => rw [List.cons_append, mergeFields_takes hfield, ih, List.foldl_cons]

theorem takes_front (c : Configuration) :
    List.Forall₂ (Field.Takes c) (fields.take 5)
      [fun b => { b with minLength := c.minLength },
        fun b => { b with maxLength := c.maxLength },
        fun b => { b with contextWidth := c.contextWidth },
        fun b => { b with granularity := c.granularity },
        fun b => { b with segmentation := c.segmentation }] := by
  refine .cons (takes_int (by simp [written])) ?_
  refine .cons (takes_optionalInt (by simp [written])) ?_
  refine .cons (takes_int (by simp [written])) ?_
  refine .cons (takes_bytes (by simp [written])) ?_
  exact .cons (takes_bytes (by simp [written])) .nil

theorem takes_back (c : Configuration) :
    List.Forall₂ (Field.Takes c) (fields.drop 6)
      [fun b => { b with reportFormat := c.reportFormat },
        fun b => { b with visualize := c.visualize },
        fun b => { b with lite := c.lite },
        fun b => { b with renderFormat := c.renderFormat },
        fun b => { b with verbose := c.verbose }] := by
  refine .cons (takes_bytes (by simp [written])) ?_
  refine .cons (takes_bool (by simp [written])) ?_
  refine .cons (takes_bool (by simp [written])) ?_
  refine .cons (takes_bytes (by simp [written])) ?_
  exact .cons (takes_bool (by simp [written])) .nil

theorem merge_toJson (c b : Configuration) :
    b.merge c.toJson = mergeFields c.toJson (observationsField :: fields.drop 6)
      { b with
        minLength := c.minLength
        maxLength := c.maxLength
        contextWidth := c.contextWidth
        granularity := c.granularity
        segmentation := c.segmentation } :=
  mergeFields_append (takes_front c) b

theorem merge?_toJson (hpos : c.minObservations ≠ 0) (hsmall : c.minObservations.toNat < 2 ^ 63)
    (b : Configuration) : b.merge? c.toJson = .ok c := by
  have hback : ∀ b', mergeFields c.toJson (fields.drop 6 ++ []) b' = _ :=
    mergeFields_append (takes_back c)
  rw [merge?, merge_toJson, mergeFields_takes (observations_taken hpos hsmall),
    ← List.append_nil (fields.drop 6), hback]
  rfl

theorem merge?_refused (hlarge : ¬c.minObservations.toNat < 2 ^ 63) (b : Configuration) :
    b.merge? c.toJson = .error (.fewObservations c.minObservations.toInt64) := by
  rw [merge?, merge_toJson, mergeFields, member?_observations]
  simp only [observations_refused hlarge]

/-! ## Files -/

theorem fitsWord_toInt (n : Int32) : Json.fitsWord n.toInt = true := by
  have hlow := n.le_toInt
  have hhigh := n.toInt_lt
  simp only [Json.fitsWord, Bool.and_eq_true, decide_eq_true_eq]
  omega

theorem ascii_of_lowerByte {b : UInt8} (h : Bytes.lowerByte b < 0x80) : b < 0x80 := by
  rw [Bytes.lowerByte] at h
  split at h
  · rename_i hupper
    simp only [Bytes.isUpper, Bool.and_eq_true, decide_eq_true_eq] at hupper
    grind
  · exact h

theorem wellFormed_granularity {name : Bytes} {granularity : Granularity}
    (h : Granularity.ofName name = .ok granularity) : Utf8.wellFormed name = true := by
  have hlower : Bytes.lower name ∈ ["word", "words", "character", "char", "chars"].map utf8 := by
    simp only [Granularity.ofName] at h
    split at h
    · rename_i hword
      rcases hword with hword | hword <;> simp [hword]
    · split at h
      · rename_i hcharacter
        rcases hcharacter with hcharacter | hcharacter | hcharacter <;> simp [hcharacter]
      · cases h
  have hletters : (["word", "words", "character", "char", "chars"].map utf8).all
      (fun letters => letters.all fun b => decide (b < 0x80)) = true := by
    decide
  simp only [List.all_eq_true, decide_eq_true_iff] at hletters
  apply Utf8.wellFormed_of_ascii
  intro b hb
  exact ascii_of_lowerByte (hletters _ hlower _ (List.mem_map.2 ⟨b, hb, rfl⟩))

theorem wellFormed_of_mem_utf8 {name : Bytes} {names : List String} (h : name ∈ names.map utf8) :
    Utf8.wellFormed name = true := by
  obtain ⟨s, -, rfl⟩ := List.mem_map.1 h
  exact Utf8.wellFormed_utf8 s

theorem faithful_toJson (h : c.rejection? = none) : c.toJson.Faithful := by
  obtain ⟨-, -, hname, houtput⟩ := rejection?_eq_none_iff.1 h
  obtain ⟨⟨granularity, hgranularity⟩, hsegmentation⟩ := nameRejection?_eq_none_iff.1 hname
  obtain ⟨-, hreport, hrender⟩ := outputRejection?_eq_none_iff.1 houtput
  have hsegmentation : c.segmentation ∈ ["period", "line"].map utf8 := by
    simpa using exists_segmentation_iff.1 hsegmentation
  have hmaximum : (optionalInt c.maxLength).Faithful := by
    cases c.maxLength with
    | none => exact .null
    | some n => exact .integer (fitsWord_toInt n)
  have hcount : Json.fitsWord c.minObservations.toNat = true := by
    have hlt : c.minObservations.toNat < 2 ^ 64 := c.minObservations.toNat_lt
    simp only [Json.fitsWord, Bool.and_eq_true, decide_eq_true_eq]
    omega
  rw [toJson_eq]
  apply Json.faithful_record
  simp only [written, List.forall_mem_cons, List.not_mem_nil, false_imp_iff, implies_true, and_true]
  refine ⟨.integer (fitsWord_toInt _), hmaximum, .integer (fitsWord_toInt _),
    .string (wellFormed_granularity hgranularity), .string (wellFormed_of_mem_utf8 hsegmentation),
    .integer hcount, .string (wellFormed_of_mem_utf8 hreport), .bool _, .bool _,
    .string (wellFormed_of_mem_utf8 hrender), .bool _⟩

/-- A file of a valid configuration that can be written at all is written, and reading it
gives what the document gives. -/
theorem ofFile_toFile (h : c.rejection? = none) {w : World}
    (hwritable : (w.files.write path []).isSome = true) :
    ∃ w', (toFile path c).run w = (.ok (), w') ∧
      (ofFile path).run w' = ((merge? c.toJson {}).mapError .configuration, w') := by
  obtain ⟨text, hdump, hread⟩ := Json.read_dump (faithful_toJson h) .indented
  obtain ⟨files, hfiles⟩ := Option.isSome_iff_exists.1 hwritable
  obtain ⟨files', hfiles'⟩ := FileTree.exists_write_of_write hfiles (text ++ [Bytes.newline])
  refine ⟨{ w with files := files' }, ?_, ?_⟩
  · rw [toFile, Job.run_bind_of_ok (Job.run_write hfiles), hdump]
    exact Job.run_write hfiles'
  · have hdocument : Json.read (text ++ [Bytes.newline]) = .ok c.toJson :=
      hread _ (Json.stops_cons (by decide) [])
    rw [ofFile, Job.run_bind_of_ok (Job.run_read path _), FileTree.read_of_write hfiles']
    simp only [hdocument]
    exact Job.run_ofConfiguration _ _

/-! ## Round trips -/

/-- A valid configuration whose number of observations is in the lower half of its range
replaces any configuration it is merged into, and comes back from its file. Any other is
refused, as a negative number of observations. -/
theorem merge_restores_small_observations (c : Configuration) (h : c.rejection? = none) :
    (c.minObservations.toNat < 2 ^ 63 →
      (∀ b : Configuration, b.merge? c.toJson = .ok c) ∧
      ∀ path w, (w.files.write path []).isSome = true →
        ∃ w', (toFile path c).run w = (.ok (), w') ∧ (ofFile path).run w' = (.ok c, w')) ∧
    (2 ^ 63 ≤ c.minObservations.toNat →
      ∃ count : Int64, count.toInt = (c.minObservations.toNat : Int) - 2 ^ 64 ∧
        (∀ b : Configuration, b.merge? c.toJson = .error (.fewObservations count)) ∧
        ∀ path w, (w.files.write path []).isSome = true →
          ∃ w', (toFile path c).run w = (.ok (), w') ∧
            (ofFile path).run w' = (.error (.configuration (.fewObservations count)), w')) := by
  obtain ⟨-, -, -, houtput⟩ := rejection?_eq_none_iff.1 h
  obtain ⟨hpos, -, -⟩ := outputRejection?_eq_none_iff.1 houtput
  constructor
  · intro hsmall
    have hmerge := merge?_toJson hpos hsmall
    refine ⟨hmerge, fun path w hwritable => ?_⟩
    obtain ⟨w', hwrite, hread⟩ := ofFile_toFile h hwritable
    rw [hmerge] at hread
    exact ⟨w', hwrite, hread⟩
  · intro hlarge
    have hmerge := merge?_refused (Nat.not_lt.2 hlarge)
    refine ⟨c.minObservations.toInt64, ?_, hmerge, fun path w hwritable => ?_⟩
    · rw [toInt_toInt64, if_neg (Nat.not_lt.2 hlarge)]
    · obtain ⟨w', hwrite, hread⟩ := ofFile_toFile h hwritable
      rw [hmerge] at hread
      exact ⟨w', hwrite, hread⟩

/-- Three observations come back from a file in an empty folder. -/
theorem three_observations_restored :
    ({ maxLength := some 4, minObservations := 3 } : Configuration).rejection? = none ∧
    (∀ b : Configuration, b.merge? (toJson { maxLength := some 4, minObservations := 3 }) =
      .ok { maxLength := some 4, minObservations := 3 }) ∧
    ∀ w : World, w.files = FileTree.empty →
      ∃ w', (toFile (utf8 "learn.json") { maxLength := some 4, minObservations := 3 }).run w =
          (.ok (), w') ∧
        (ofFile (utf8 "learn.json")).run w' =
          (.ok { maxLength := some 4, minObservations := 3 }, w') := by
  have hvalid : ({ maxLength := some 4, minObservations := 3 } : Configuration).rejection? = none := by
    decide
  obtain ⟨hsmall, -⟩ := merge_restores_small_observations _ hvalid
  obtain ⟨hmerge, hfile⟩ := hsmall (by decide)
  refine ⟨hvalid, hmerge, fun w hw => hfile _ w ?_⟩
  rw [hw]
  decide

theorem large_observations_refused :
    ({ minObservations := 9223372036854775808 } : Configuration).rejection? = none ∧
    merge? (toJson { minObservations := 9223372036854775808 }) {} =
      .error (.fewObservations (-9223372036854775808)) :=
  ⟨by decide, merge?_refused (by decide) {}⟩

end Substitutability.Configuration
