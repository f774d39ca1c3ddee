import Substitutability.Action
import Substitutability.Configuration.Basic
import Substitutability.Document
import Substitutability.Json.Printer
import Substitutability.Json.Reader
import Substitutability.Text.Bytes

/-!
# Configurations outside of the program

A configuration is read from a JSON file or from four environment variables, in
both cases on top of the defaults, and is written to a file as indented JSON.
`merge` reads the fields that a document has, in a fixed order, and leaves the
others alone. It stops at the first field that cannot be read and keeps what it
has read so far.
-/

set_option autoImplicit false

namespace Substitutability.Configuration

def toJson (c : Configuration) : Json :=
  .record
    [("min_length", .integer c.minLength.toInt),
      ("max_length", optionalInt c.maxLength),
      ("context_width", .integer c.contextWidth.toInt),
      ("granularity", .string c.granularity),
      ("segmentation", .string c.segmentation),
      ("min_observations", .nat c.minObservations.toNat),
      ("report_format", .string c.reportFormat),
      ("visualize", .bool c.visualize),
      ("lite", .bool c.lite),
      ("render_format", .string c.renderFormat),
      ("verbose", .bool c.verbose)]

structure Field where
  key : Bytes
  set : Json → Configuration → Except ConfigurationFault Configuration

def Field.of {α : Type} (key : String) (convert : Json → Except Json.Fault α)
    (put : α → Configuration → Configuration) : Field where
  key := utf8 key
  set json c :=
    match convert json with
    | .ok value => .ok (put value c)
    | .error fault => .error (.valueKind fault)

def toMaxLength : Json → Except Json.Fault (Option Int32)
  | .null => .ok none
  | json => json.toInt32.map some

def observationsField : Field where
  key := utf8 "min_observations"
  set json c :=
    match json.toInt64 with
    | .error fault => .error (.valueKind fault)
    | .ok count =>
      if count.toInt ≤ 0 then .error (.fewObservations count)
      else .ok { c with minObservations := count.toUInt64 }

def fields : List Field :=
  [.of "min_length" Json.toInt32 fun n c => { c with minLength := n },
    .of "max_length" toMaxLength fun n c => { c with maxLength := n },
    .of "context_width" Json.toInt32 fun n c => { c with contextWidth := n },
    .of "granularity" Json.toBytes fun s c => { c with granularity := s },
    .of "segmentation" Json.toBytes fun s c => { c with segmentation := s },
    observationsField,
    .of "report_format" Json.toBytes fun s c => { c with reportFormat := s },
    .of "visualize" Json.toBool fun b c => { c with visualize := b },
    .of "lite" Json.toBool fun b c => { c with lite := b },
    .of "render_format" Json.toBytes fun s c => { c with renderFormat := s },
    .of "verbose" Json.toBool fun b c => { c with verbose := b }]

def mergeFields (json : Json) :
    List Field → Configuration → Configuration × Option ConfigurationFault
  | [], c => (c, none)
  | field :: rest, c =>
    match json.member? field.key with
    | none => mergeFields json rest c
    | some value =>
      match field.set value c with
      | .ok c => mergeFields json rest c
      | .error fault => (c, some fault)

/-- The configuration with the fields of a document, and what stopped reading. -/
def merge (json : Json) (c : Configuration) : Configuration × Option ConfigurationFault :=
  mergeFields json fields c

def merge? (json : Json) (c : Configuration) : Except ConfigurationFault Configuration :=
  match c.merge json with
  | (c, none) => .ok c
  | (_, some fault) => .error fault

def ofFile (path : Bytes) : Job Configuration := do
  match ← Job.read path with
  | .nothing => Job.failInput (.configurationUnopened path)
  | .folder => throw .documentIsFolder
  | .text text =>
    match Json.read text with
    | .error .malformed => Job.failInput (.configurationMalformed path .malformed)
    | .error fault => throw (.document fault)
    | .ok json => Job.ofConfiguration (merge? json {})

/-- The file is opened, and emptied, before its text is known to be writable. -/
def toFile (path : Bytes) (c : Configuration) : Job Unit := do
  Job.write path [] (.fileUnwritten path)
  let text ← Job.ofDocument (c.toJson.dump .indented)
  Job.write path (text ++ [Bytes.newline]) (.fileUnwritten path)

def variableInt? (name : String) : Job (Option Int32) := do
  match ← Job.lookup (utf8 name) with
  | none => return none
  | some value =>
    match Integer.ofBytes value with
    | some n => return some n
    | none => throw (.configuration (.variableNotInteger (utf8 name) value))

def ofEnvironment : Job Configuration := do
  let c : Configuration := {}
  let minimum ← variableInt? "SLG_MIN_LENGTH"
  let maximum ← variableInt? "SLG_MAX_LENGTH"
  let width ← variableInt? "SLG_CONTEXT_WIDTH"
  let granularity ← Job.lookup (utf8 "SLG_GRANULARITY")
  return { c with
    minLength := minimum.getD c.minLength
    maxLength := maximum
    contextWidth := width.getD c.contextWidth
    granularity := granularity.getD c.granularity }

end Substitutability.Configuration
