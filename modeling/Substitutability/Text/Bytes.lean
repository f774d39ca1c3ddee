/-!
# Byte strings

All text of the library is a list of bytes. Characters above 127 have no
meaning here; `Text.Utf8` gives them one. Lists of bytes compare byte by byte,
a proper start of a text before the text itself. `Integer.ofBytes` reads any
number of blanks, an optional sign, one or more decimal digits and nothing more,
with a value of 32 bits.
-/

set_option autoImplicit false

namespace Substitutability

abbrev Bytes := List UInt8

instance : LawfulBEq Bytes := inferInstance

instance : Std.TransOrd Bytes := inferInstance

instance : Std.LawfulEqOrd Bytes := inferInstance

def utf8 (text : String) : Bytes :=
  text.toUTF8.data.toList

namespace Bytes

def newline : UInt8 := 10

def space : UInt8 := 32

/-- Space, tab, line feed, vertical tab, form feed and carriage return. -/
def isBlank (b : UInt8) : Bool :=
  b == 32 || (9 ≤ b && b ≤ 13)

def isEdge (b : UInt8) : Bool :=
  b == 32 || b == 9 || b == 13 || b == 10

def isUpper (b : UInt8) : Bool :=
  65 ≤ b && b ≤ 90

def isLower (b : UInt8) : Bool :=
  97 ≤ b && b ≤ 122

def isLetter (b : UInt8) : Bool :=
  isUpper b || isLower b

def isDigit (b : UInt8) : Bool :=
  48 ≤ b && b ≤ 57

def lowerByte (b : UInt8) : UInt8 :=
  if isUpper b then b + 32 else b

def upperByte (b : UInt8) : UInt8 :=
  if isLower b then b - 32 else b

def lower (text : Bytes) : Bytes :=
  text.map lowerByte

def upper (text : Bytes) : Bytes :=
  text.map upperByte

def dropEnd (p : UInt8 → Bool) (text : Bytes) : Bytes :=
  (text.reverse.dropWhile p).reverse

def trim (text : Bytes) : Bytes :=
  dropEnd isEdge (text.dropWhile isEdge)

/-- The pieces between separators, empty ones included; one piece more than
separators. -/
def pieces (separates : UInt8 → Bool) : Bytes → List Bytes
  | [] => [[]]
  | b :: rest =>
    if separates b then [] :: pieces separates rest
    else match pieces separates rest with
      | [] => [[b]]
      | piece :: more => (b :: piece) :: more

def splitOn (separator : UInt8) (text : Bytes) : List Bytes :=
  pieces (· == separator) text

def words (text : Bytes) : List Bytes :=
  (pieces isBlank text).filter (!·.isEmpty)

def join (separator : Bytes) : List Bytes → Bytes
  | [] => []
  | [piece] => piece
  | piece :: next :: rest => piece ++ separator ++ join separator (next :: rest)

def digit (n : Nat) : UInt8 :=
  UInt8.ofNat (48 + n % 10)

def ofNat (n : Nat) : Bytes :=
  if n < 10 then [digit n] else ofNat (n / 10) ++ [digit n]
termination_by n
decreasing_by omega

def ofInt (n : Int) : Bytes :=
  if n < 0 then 45 :: ofNat n.natAbs else ofNat n.natAbs

def toNat (digits : Bytes) : Nat :=
  digits.foldl (fun value b => 10 * value + (b.toNat - 48)) 0

def ruler (length : Nat) (mark : UInt8) : Bytes :=
  List.replicate length mark

def lines (rows : List Bytes) : Bytes :=
  rows.flatMap (· ++ [newline])

def startsWith (start text : Bytes) : Bool :=
  start.isPrefixOf text

def padEnd (width : Nat) (text : Bytes) : Bytes :=
  text ++ List.replicate (width - text.length) space

def untilNul (text : Bytes) : Bytes :=
  text.takeWhile (· != 0)

theorem ofNat_ne_nil (n : Nat) : ofNat n ≠ [] := by
  unfold ofNat
  split <;> simp

theorem pieces_ne_nil (separates : UInt8 → Bool) (text : Bytes) :
    pieces separates text ≠ [] := by
  induction text with
  | nil => simp [pieces]
  | cons b rest ih =>
    unfold pieces
    split
    · simp
    · split <;> simp

theorem join_splitOn (separator : UInt8) (text : Bytes) :
    join [separator] (splitOn separator text) = text := by
  unfold splitOn
  induction text with
  | nil => simp [pieces, join]
  | cons b rest ih =>
    unfold pieces
    cases hs : pieces (· == separator) rest with
    | nil => exact absurd hs (pieces_ne_nil _ rest)
    | cons piece more =>
      rw [hs] at ih
      split
      · rename_i h
        simp_all [join]
      · cases more with
        | nil => simpa [join] using ih
        | cons next rest => simpa [join] using ih

end Bytes

end Substitutability

namespace Substitutability.Integer

def unsigned? (text : Bytes) : Option Nat :=
  if text ≠ [] ∧ text.all Bytes.isDigit then some (Bytes.toNat text) else none

def signed? : Bytes → Option Int
  | 45 :: digits => (unsigned? digits).map fun n => -(n : Int)
  | 43 :: digits => (unsigned? digits).map fun n => (n : Int)
  | digits => (unsigned? digits).map fun n => (n : Int)

def fits (n : Int) : Bool :=
  -2147483648 ≤ n && n ≤ 2147483647

def ofBytes (text : Bytes) : Option Int32 := do
  let n ← signed? (text.dropWhile Bytes.isBlank)
  if fits n then some (Int32.ofInt n) else none

end Substitutability.Integer
