import Substitutability.Failure
import Substitutability.Sorted.Map
import Substitutability.Text.Bytes

/-!
# Arguments

The words after a command are read from left to right as assignments of values
to options: `--name value`, `--name=value`, `-n value`, or a flag alone. The last
assignment of an option counts, and an option that is not assigned has its
default.
-/

set_option autoImplicit false

namespace Substitutability

structure OptionSpec where
  name : Bytes
  short : Bytes
  description : Bytes
  /-- The value if the option is not given, or nothing. -/
  default : Bytes := []
  required : Bool := false
  isFlag : Bool := false
  choices : List Bytes := []
  deriving DecidableEq, Repr

namespace OptionSpec

def check (o : OptionSpec) (value : Bytes) : Except ConfigurationFault Unit :=
  if o.choices = [] ∨ value ∈ o.choices then .ok ()
  else .error (.valueNotAllowed o.name value o.choices)

def valueHint (o : OptionSpec) : Bytes :=
  if o.isFlag then [] else utf8 " <value>"

def shortHint (o : OptionSpec) : Bytes :=
  if o.short = [] then [] else utf8 ", -" ++ o.short

def choiceHint (o : OptionSpec) : Bytes :=
  if o.choices = [] then [] else utf8 " [" ++ commaList o.choices ++ utf8 "]"

def defaultHint (o : OptionSpec) : Bytes :=
  if o.default = [] then [] else utf8 " (default: " ++ o.default ++ utf8 ")"

def requiredHint (o : OptionSpec) : Bytes :=
  if o.required then utf8 " [required]" else []

def usage (o : OptionSpec) : List Bytes :=
  [utf8 "  --" ++ o.name ++ o.shortHint ++ o.valueHint,
    utf8 "      " ++ o.description ++ o.choiceHint ++ o.defaultHint ++ o.requiredHint]

end OptionSpec

structure Assignment where
  name : Bytes
  value : Bytes
  deriving DecidableEq, Repr

structure Arguments where
  values : SortedMap Bytes Bytes

namespace Arguments

def dash : UInt8 := 45

def equals : UInt8 := 61

def flagValue : Bytes := utf8 "true"

def findLast? (p : OptionSpec → Bool) (options : List OptionSpec) : Option OptionSpec :=
  options.reverse.find? p

/-- The option that a word names, and the value that is part of the word. -/
def named (options : List OptionSpec) : Bytes → Option OptionSpec × Option Bytes
  | _ :: second :: rest =>
    if second = dash then
      let name := rest.takeWhile (· != equals)
      (findLast? (·.name == name) options, (rest.dropWhile (· != equals)).tail?)
    else if rest = [] then (findLast? (·.short == [second]) options, none)
    else (none, none)
  | _ => (none, none)

def mention (options : List OptionSpec) (word : Bytes) :
    Except ConfigurationFault (OptionSpec × Option Bytes) :=
  if word.head? ≠ some dash ∨ word = [dash] then .error (.unexpectedWord word)
  else match named options word with
    | (some o, value) => .ok (o, value)
    | (none, _) => .error (.unknownOption word)

def assign (o : OptionSpec) (value : Bytes) : Except ConfigurationFault Assignment := do
  o.check value
  return ⟨o.name, value⟩

def assignments (options : List OptionSpec) :
    List Bytes → Except ConfigurationFault (List Assignment)
  | [] => .ok []
  | word :: rest => do
    let (o, given) ← mention options word
    if o.isFlag then
      if given.isSome then throw (.flagValue o.name)
      return ⟨o.name, flagValue⟩ :: (← assignments options rest)
    else
      match given with
      | some value => return (← assign o value) :: (← assignments options rest)
      | none =>
        match rest with
        | value :: rest => return (← assign o value) :: (← assignments options rest)
        | [] => throw (.valueMissing word)

def ofAssignments (assigned : List Assignment) : Arguments :=
  ⟨SortedMap.ofList (assigned.map fun a => (a.name, a.value))⟩

def has (args : Arguments) (name : Bytes) : Bool :=
  args.values.contains name

/-- Give every option its default; an option that is required must have a value. -/
def complete : List OptionSpec → Arguments → Except ConfigurationFault Arguments
  | [], args => .ok args
  | o :: rest, args =>
    if args.has o.name then complete rest args
    else if o.required then .error (.optionMissing o.name)
    else if o.default = [] then complete rest args
    else complete rest ⟨args.values.insert o.name o.default⟩

def parse (options : List OptionSpec) (words : List Bytes) :
    Except ConfigurationFault Arguments := do
  complete options (ofAssignments (← assignments options words))

def value? (args : Arguments) (name : Bytes) : Option Bytes :=
  args.values.find? name

def require (args : Arguments) (name : Bytes) : Except ConfigurationFault Bytes :=
  match args.value? name with
  | some value => .ok value
  | none => .error (.optionMissing name)

def readInt (value : Bytes) : Except ConfigurationFault Int32 :=
  match Integer.ofBytes value with
  | some n => .ok n
  | none => .error (.notInteger value)

def int? (args : Arguments) (name : Bytes) : Except ConfigurationFault (Option Int32) :=
  match args.value? name with
  | some value => (readInt value).map some
  | none => .ok none

end Arguments

end Substitutability
