import Substitutability.Number.Basic
import Substitutability.Sorted.Map
import Substitutability.Text.Utf8

/-!
# JSON values

Members of an object stand in ascending order of their keys, each key once.
Numbers are integers or doubles, as their text says. Any number or truth value
can be read as an integer of fixed width: a double loses its fraction, and an
integer keeps its low bits. Every other reading needs the kind that it asks
for.
-/

set_option autoImplicit false

namespace Substitutability

inductive Json
  | null
  | bool (value : Bool)
  | integer (value : Int)
  | float (value : Double)
  | string (value : Bytes)
  | array (items : List Json)
  | object (members : List (Bytes × Json))
  deriving Inhabited

namespace Json

/-- An object from its members in any order; the last of equal keys counts. -/
def ofMembers (members : List (Bytes × Json)) : Json :=
  .object (SortedMap.ofList members).toList

def record (fields : List (String × Json)) : Json :=
  ofMembers (fields.map fun (name, value) => (utf8 name, value))

def nat (n : Nat) : Json := .integer n

def text (s : String) : Json := .string (utf8 s)

def strings (items : List Bytes) : Json := .array (items.map .string)

inductive Kind
  | null
  | boolean
  | number
  | string
  | array
  | object
  deriving DecidableEq, Repr

def Kind.name : Kind → Bytes
  | .null => utf8 "null"
  | .boolean => utf8 "boolean"
  | .number => utf8 "number"
  | .string => utf8 "string"
  | .array => utf8 "array"
  | .object => utf8 "object"

def kind : Json → Kind
  | .null => .null
  | .bool _ => .boolean
  | .integer _ => .number
  | .float _ => .number
  | .string _ => .string
  | .array _ => .array
  | .object _ => .object

inductive Fault
  | malformed
  | overflow (literal : Bytes)
  | wrongKind (wanted found : Kind)
  | noMembers (found : Kind)
  | missingKey (key : Bytes)
  | badText (fault : Utf8.Fault)
  deriving DecidableEq, Repr

def hexDigit (n : Nat) : UInt8 :=
  if n < 10 then UInt8.ofNat (48 + n) else UInt8.ofNat (55 + n)

def hexByte (b : UInt8) : Bytes :=
  utf8 "0x" ++ [hexDigit (b.toNat / 16), hexDigit (b.toNat % 16)]

def badTextMessage : Utf8.Fault → Bytes
  | .unexpected index byte =>
    utf8 "invalid UTF-8 byte at index " ++ Bytes.ofNat index ++ utf8 ": " ++ hexByte byte
  | .incomplete last => utf8 "incomplete UTF-8 string; last byte: " ++ hexByte last

/-- What the JSON library says. Its message for a malformed text goes on with the line and the
column of the error, the token that was read last and the one that was expected; here it ends
before them. -/
def Fault.message : Fault → Bytes
  | .malformed => utf8 "[json.exception.parse_error.101] parse error"
  | .overflow literal =>
    utf8 "[json.exception.out_of_range.406] number overflow parsing '" ++ literal ++ utf8 "'"
  | .wrongKind wanted found =>
    utf8 "[json.exception.type_error.302] type must be " ++ wanted.name ++ utf8 ", but is " ++
      found.name
  | .noMembers found =>
    utf8 "[json.exception.type_error.304] cannot use at() with " ++ found.name
  | .missingKey key =>
    utf8 "[json.exception.out_of_range.403] key '" ++ key ++ utf8 "' not found"
  | .badText fault => utf8 "[json.exception.type_error.316] " ++ badTextMessage fault

end Json

end Substitutability

namespace Substitutability.Json

/-- A double without its places. The library casts it, and outside the width of the result the
cast is undefined; here it gives the least integer, as on x86. -/
def roundedTo (least greatest : Int) (x : Double) : Int :=
  match x.truncate? with
  | some n => if least ≤ n ∧ n ≤ greatest then n else least
  | none => least

def toInt32 : Json → Except Fault Int32
  | .integer n => .ok (Int32.ofInt n)
  | .float x => .ok (Int32.ofInt (roundedTo (-2147483648) 2147483647 x))
  | .bool b => .ok (if b then 1 else 0)
  | json => .error (.wrongKind .number json.kind)

def toInt64 : Json → Except Fault Int64
  | .integer n => .ok (Int64.ofInt n)
  | .float x => .ok (Int64.ofInt (roundedTo (-9223372036854775808) 9223372036854775807 x))
  | .bool b => .ok (if b then 1 else 0)
  | json => .error (.wrongKind .number json.kind)

def toBool : Json → Except Fault Bool
  | .bool b => .ok b
  | json => .error (.wrongKind .boolean json.kind)

def toBytes : Json → Except Fault Bytes
  | .string s => .ok s
  | json => .error (.wrongKind .string json.kind)

def toStrings : Json → Except Fault (List Bytes)
  | .array items => items.mapM toBytes
  | json => .error (.wrongKind .array json.kind)

def member? (json : Json) (key : Bytes) : Option Json :=
  match json with
  | .object members => SortedMap.findList key members
  | _ => none

def member (json : Json) (key : Bytes) : Except Fault Json :=
  match json with
  | .object members =>
    match SortedMap.findList key members with
    | some value => .ok value
    | none => .error (.missingKey key)
  | other => .error (.noMembers other.kind)

end Substitutability.Json
