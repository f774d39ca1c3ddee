import Substitutability.Json.Value

/-!
# Reading JSON

`read` takes the value at the start of a text and ignores what follows. The
grammar is strict: no trailing commas, no leading zeros, no control characters
or malformed characters in strings. An integer beyond 64 bits becomes a double.
-/

set_option autoImplicit false

namespace Substitutability.Json

def isGap (b : UInt8) : Bool :=
  b == 32 || b == 9 || b == 10 || b == 13

def skipGap (text : Bytes) : Bytes :=
  text.dropWhile isGap

def hexValue? (b : UInt8) : Option Nat :=
  if Bytes.isDigit b then some (b.toNat - 48)
  else if 65 ≤ b && b ≤ 70 then some (b.toNat - 55)
  else if 97 ≤ b && b ≤ 102 then some (b.toNat - 87)
  else none

def hexFour? : Bytes → Option (Nat × Bytes)
  | a :: b :: c :: d :: rest => do
    let a ← hexValue? a
    let b ← hexValue? b
    let c ← hexValue? c
    let d ← hexValue? d
    some (4096 * a + 256 * b + 16 * c + d, rest)
  | _ => none

/-- A character number in hexadecimal digits; the upper half of a pair needs its
lower half. -/
def unicodeEscape? (text : Bytes) : Option (Bytes × Bytes) := do
  let (n, rest) ← hexFour? text
  if 0xDC00 ≤ n ∧ n < 0xE000 then none
  else if 0xD800 ≤ n ∧ n < 0xDC00 then
    match rest with
    | 92 :: 117 :: more =>
      let (low, more) ← hexFour? more
      if 0xDC00 ≤ low ∧ low < 0xE000 then
        some (Utf8.encode (0x10000 + 1024 * (n - 0xD800) + (low - 0xDC00)), more)
      else none
    | _ => none
  else some (Utf8.encode n, rest)

def simpleEscape? (letter : UInt8) : Option UInt8 :=
  if letter = 34 ∨ letter = 92 ∨ letter = 47 then some letter
  else if letter = 98 then some 8
  else if letter = 102 then some 12
  else if letter = 110 then some 10
  else if letter = 114 then some 13
  else if letter = 116 then some 9
  else none

def stringStep? : Bytes → Option (Bytes × Bytes)
  | [] => none
  | 92 :: 117 :: rest => unicodeEscape? rest
  | 92 :: letter :: rest => (simpleEscape? letter).map fun b => ([b], rest)
  | b :: rest =>
    if b < 32 ∨ b = 92 then none
    else match Utf8.characterSize (b :: rest) with
      | 0 => none
      | size + 1 => some (b :: rest.take size, rest.drop size)

/-- The string after an opening quote and the text after its closing quote; a
character costs one call. -/
def string? : Nat → Bytes → Option (Bytes × Bytes)
  | 0, _ => none
  | fuel + 1, text =>
    match text with
    | 34 :: rest => some ([], rest)
    | _ => do
      let (character, rest) ← stringStep? text
      let (more, rest) ← string? fuel rest
      some (character ++ more, rest)

structure Literal where
  negative : Bool
  whole : Bytes
  places : Option Bytes
  exponent : Option Int
  rest : Bytes

def digits? (text : Bytes) : Option (Bytes × Bytes) :=
  match text.takeWhile Bytes.isDigit with
  | [] => none
  | digits => some (digits, text.dropWhile Bytes.isDigit)

def whole? : Bytes → Option (Bytes × Bytes)
  | 48 :: rest => some ([48], rest)
  | text => digits? text

def places? : Bytes → Option (Option Bytes × Bytes)
  | 46 :: rest => (digits? rest).map fun (digits, rest) => (some digits, rest)
  | text => some (none, text)

def signedDigits? : Bytes → Option (Int × Bytes)
  | 45 :: rest => (digits? rest).map fun (digits, rest) => (-(Bytes.toNat digits : Int), rest)
  | 43 :: rest => (digits? rest).map fun (digits, rest) => ((Bytes.toNat digits : Int), rest)
  | text => (digits? text).map fun (digits, rest) => ((Bytes.toNat digits : Int), rest)

def exponent? : Bytes → Option (Option Int × Bytes)
  | 69 :: rest => (signedDigits? rest).map fun (n, rest) => (some n, rest)
  | 101 :: rest => (signedDigits? rest).map fun (n, rest) => (some n, rest)
  | text => some (none, text)

def literal? (text : Bytes) : Option Literal := do
  let (negative, text) := match text with
    | 45 :: rest => (true, rest)
    | _ => (false, text)
  let (whole, text) ← whole? text
  let (places, text) ← places? text
  let (exponent, text) ← exponent? text
  some ⟨negative, whole, places, exponent, text⟩

def Literal.signedWhole (l : Literal) : Int :=
  if l.negative then -(Bytes.toNat l.whole : Int) else Bytes.toNat l.whole

def Literal.double (l : Literal) : Double :=
  let places := l.places.getD []
  Double.ofDecimal l.negative (Bytes.toNat (l.whole ++ places)) (l.exponent.getD 0 - places.length)

/-- Whether 64 bits, signed or unsigned, hold the number. -/
def fitsWord (n : Int) : Bool :=
  -9223372036854775808 ≤ n && n < 18446744073709551616

def Literal.value (l : Literal) (text : Bytes) : Except Fault Json :=
  if l.places = none ∧ l.exponent = none ∧ fitsWord l.signedWhole then .ok (.integer l.signedWhole)
  else if l.double.isFinite then .ok (.float l.double)
  else .error (.overflow (text.take (text.length - l.rest.length)))

def number (text : Bytes) : Except Fault (Json × Bytes) :=
  match literal? text with
  | none => .error .malformed
  | some l => do
    let value ← l.value text
    return (value, l.rest)

mutual

def value : Nat → Bytes → Except Fault (Json × Bytes)
  | 0, _ => .error .malformed
  | fuel + 1, text =>
    match skipGap text with
    | 110 :: 117 :: 108 :: 108 :: rest => .ok (.null, rest)
    | 116 :: 114 :: 117 :: 101 :: rest => .ok (.bool true, rest)
    | 102 :: 97 :: 108 :: 115 :: 101 :: rest => .ok (.bool false, rest)
    | 34 :: rest =>
      match string? fuel rest with
      | some (s, rest) => .ok (.string s, rest)
      | none => .error .malformed
    | 91 :: rest =>
      match skipGap rest with
      | 93 :: rest => .ok (.array [], rest)
      | rest => do
        let (items, rest) ← items fuel rest
        return (.array items, rest)
    | 123 :: rest =>
      match skipGap rest with
      | 125 :: rest => .ok (.object [], rest)
      | rest => do
        let (members, rest) ← members fuel rest
        return (ofMembers members, rest)
    | text => number text

def items : Nat → Bytes → Except Fault (List Json × Bytes)
  | 0, _ => .error .malformed
  | fuel + 1, text => do
    let (item, rest) ← value fuel text
    match skipGap rest with
    | 93 :: rest => return ([item], rest)
    | 44 :: rest =>
      let (more, rest) ← items fuel rest
      return (item :: more, rest)
    | _ => .error .malformed

def members : Nat → Bytes → Except Fault (List (Bytes × Json) × Bytes)
  | 0, _ => .error .malformed
  | fuel + 1, text =>
    match skipGap text with
    | 34 :: rest =>
      match string? fuel rest with
      | none => .error .malformed
      | some (key, rest) =>
        match skipGap rest with
        | 58 :: rest => do
          let (item, rest) ← value fuel rest
          match skipGap rest with
          | 125 :: rest => return ([(key, item)], rest)
          | 44 :: rest =>
            let (more, rest) ← members fuel rest
            return ((key, item) :: more, rest)
          | _ => .error .malformed
        | _ => .error .malformed
    | _ => .error .malformed

end

def skipMark : Bytes → Bytes
  | 0xEF :: 0xBB :: 0xBF :: rest => rest
  | text => text

/-- Two calls a byte are enough. -/
def read (text : Bytes) : Except Fault Json :=
  (value (2 * text.length + 2) (skipMark text)).map Prod.fst

end Substitutability.Json
