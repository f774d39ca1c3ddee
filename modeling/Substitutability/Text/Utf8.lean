import Substitutability.Text.Bytes

/-!
# Characters in byte strings

A character is one to four bytes. The first byte announces the length and the
range of the second; every later byte lies in 80 to BF. Overlong forms,
surrogates and numbers above 10FFFF are no characters.
-/

set_option autoImplicit false

namespace Substitutability.Utf8

def isTail (b : UInt8) : Bool :=
  0x80 ≤ b && b ≤ 0xBF

/-- How a character that starts with this byte goes on: the least and greatest
second byte and the number of bytes after it. -/
def continuation (first : UInt8) : Option (UInt8 × UInt8 × Nat) :=
  if first < 0xC2 then none
  else if first < 0xE0 then some (0x80, 0xBF, 0)
  else if first = 0xE0 then some (0xA0, 0xBF, 1)
  else if first = 0xED then some (0x80, 0x9F, 1)
  else if first < 0xF0 then some (0x80, 0xBF, 1)
  else if first = 0xF0 then some (0x90, 0xBF, 2)
  else if first < 0xF4 then some (0x80, 0xBF, 2)
  else if first = 0xF4 then some (0x80, 0x8F, 2)
  else none

def characterSize : Bytes → Nat
  | [] => 0
  | first :: rest =>
    if first < 0x80 then 1
    else match continuation first, rest with
      | some (low, high, more), second :: tail =>
        if low ≤ second && second ≤ high && (tail.take more).length == more &&
            (tail.take more).all isTail
        then more + 2 else 0
      | _, _ => 0

def replacement : Bytes := [0xEF, 0xBF, 0xBD]

/-- A malformed byte becomes U+FFFD, and the next byte is tried as a start. -/
def characters (text : Bytes) : List Bytes :=
  match text with
  | [] => []
  | first :: rest =>
    match characterSize (first :: rest) with
    | 0 => replacement :: characters rest
    | size + 1 => (first :: rest.take size) :: characters (rest.drop size)
termination_by text.length
decreasing_by all_goals (simp only [List.length_cons, List.length_drop]; omega)

def isCharacter (text : Bytes) : Bool :=
  characterSize text == text.length && !text.isEmpty

def wellFormed (text : Bytes) : Bool :=
  (characters text).flatten == text

/-- Where a reader stands inside a text: between characters, or with the range
of the next byte and the number of bytes after it. -/
inductive Place
  | between
  | inside (low high : UInt8) (more : Nat)

def Place.next (place : Place) (b : UInt8) : Option Place :=
  match place with
  | .between =>
    if b < 0x80 then some .between
    else (continuation b).map fun (low, high, more) => .inside low high more
  | .inside low high more =>
    if low ≤ b && b ≤ high then
      match more with
      | 0 => some .between
      | more + 1 => some (.inside 0x80 0xBF more)
    else none

/-- Why a text is not well-formed: a byte that cannot follow, with its index,
or an end inside a character, with the last byte. -/
inductive Fault
  | unexpected (index : Nat) (byte : UInt8)
  | incomplete (last : UInt8)
  deriving DecidableEq, Repr

def faultFrom : Place → Nat → UInt8 → Bytes → Option Fault
  | .between, _, _, [] => none
  | .inside _ _ _, _, last, [] => some (.incomplete last)
  | place, index, _, b :: rest =>
    match place.next b with
    | none => some (.unexpected index b)
    | some place' => faultFrom place' (index + 1) b rest

def fault? (text : Bytes) : Option Fault :=
  faultFrom .between 0 0 text

def encode (n : Nat) : Bytes :=
  if n < 0x80 then [UInt8.ofNat n]
  else if n < 0x800 then [UInt8.ofNat (0xC0 + n / 64), UInt8.ofNat (0x80 + n % 64)]
  else if n < 0x10000 then
    [UInt8.ofNat (0xE0 + n / 4096), UInt8.ofNat (0x80 + n / 64 % 64), UInt8.ofNat (0x80 + n % 64)]
  else
    [UInt8.ofNat (0xF0 + n / 262144), UInt8.ofNat (0x80 + n / 4096 % 64),
      UInt8.ofNat (0x80 + n / 64 % 64), UInt8.ofNat (0x80 + n % 64)]

end Substitutability.Utf8
