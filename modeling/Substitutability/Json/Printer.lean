import Substitutability.Json.Value
import Substitutability.Number.Decimal

/-!
# Writing JSON

A document is written on one line or indented by two. Only the quote, the
backslash and control characters are escaped. Text that is not well-formed
cannot be written, and the first such text in the order of writing is the fault.
-/

set_option autoImplicit false

namespace Substitutability.Json

inductive Layout
  | compact
  | indented
  deriving DecidableEq, Repr

namespace Layout

def lineBreak (layout : Layout) (depth : Nat) : Bytes :=
  match layout with
  | .compact => []
  | .indented => Bytes.newline :: List.replicate (2 * depth) Bytes.space

def colon : Layout → Bytes
  | .compact => utf8 ":"
  | .indented => utf8 ": "

end Layout

def lowerHexDigit (n : Nat) : UInt8 :=
  if n < 10 then UInt8.ofNat (48 + n) else UInt8.ofNat (87 + n)

def escapeByte (b : UInt8) : Bytes :=
  if b = 34 then utf8 "\\\""
  else if b = 92 then utf8 "\\\\"
  else if b = 8 then utf8 "\\b"
  else if b = 12 then utf8 "\\f"
  else if b = 10 then utf8 "\\n"
  else if b = 13 then utf8 "\\r"
  else if b = 9 then utf8 "\\t"
  else if b < 32 then utf8 "\\u00" ++ [lowerHexDigit (b.toNat / 16), lowerHexDigit (b.toNat % 16)]
  else [b]

def quoted (s : Bytes) : Bytes :=
  34 :: s.flatMap escapeByte ++ [34]

/-- The fewest digits that read back, nearest to the double among those. The library prints with
Grisu2, which for some doubles takes a neighbouring last digit or one digit more; what it
prints reads back as the same double. -/
def printDouble (x : Double) : Bytes :=
  if x.isFinite then Notation.document.text x else utf8 "null"

mutual

def print (layout : Layout) (depth : Nat) : Json → Bytes
  | .null => utf8 "null"
  | .bool true => utf8 "true"
  | .bool false => utf8 "false"
  | .integer n => Bytes.ofInt n
  | .float x => printDouble x
  | .string s => quoted s
  | .array [] => utf8 "[]"
  | .array (item :: rest) =>
    utf8 "[" ++ layout.lineBreak (depth + 1) ++ print layout (depth + 1) item ++
      printItems layout (depth + 1) rest ++ layout.lineBreak depth ++ utf8 "]"
  | .object [] => utf8 "\x7b\x7d"
  | .object ((key, value) :: rest) =>
    utf8 "\x7b" ++ layout.lineBreak (depth + 1) ++ quoted key ++ layout.colon ++
      print layout (depth + 1) value ++ printMembers layout (depth + 1) rest ++
      layout.lineBreak depth ++ utf8 "\x7d"

def printItems (layout : Layout) (depth : Nat) : List Json → Bytes
  | [] => []
  | item :: rest =>
    utf8 "," ++ layout.lineBreak depth ++ print layout depth item ++ printItems layout depth rest

def printMembers (layout : Layout) (depth : Nat) : List (Bytes × Json) → Bytes
  | [] => []
  | (key, value) :: rest =>
    utf8 "," ++ layout.lineBreak depth ++ quoted key ++ layout.colon ++ print layout depth value ++
      printMembers layout depth rest

end

mutual

def textFault? : Json → Option Utf8.Fault
  | .string s => Utf8.fault? s
  | .array items => itemsFault? items
  | .object members => membersFault? members
  | _ => none

def itemsFault? : List Json → Option Utf8.Fault
  | [] => none
  | item :: rest => (textFault? item).or (itemsFault? rest)

def membersFault? : List (Bytes × Json) → Option Utf8.Fault
  | [] => none
  | (key, value) :: rest => ((Utf8.fault? key).or (textFault? value)).or (membersFault? rest)

end

def dump (layout : Layout) (json : Json) : Except Fault Bytes :=
  match json.textFault? with
  | some fault => .error (.badText fault)
  | none => .ok (print layout 0 json)

end Substitutability.Json
