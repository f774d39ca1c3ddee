import Substitutability.Action
import Substitutability.CommandLine.Arguments

/-!
# Programs of several commands

The first word names a command and the others are its arguments. `plan` decides
what is to be done: show a usage text, complain, or call a command. At most one
command is called, and never if its arguments cannot be read.
-/

set_option autoImplicit false

namespace Substitutability

structure Command where
  name : Bytes
  description : Bytes
  options : List OptionSpec
  act : Arguments → Job Int32

namespace Command

def requiredOptions (c : Command) : Bytes :=
  (c.options.filter (·.required)).flatMap fun o => utf8 " --" ++ o.name ++ utf8 " <value>"

def usage (program : Bytes) (c : Command) : Bytes :=
  Bytes.lines <|
    [[], utf8 "Usage: " ++ program ++ utf8 " " ++ c.name ++ c.requiredOptions ++ utf8 " [options]",
      [], c.description, [], utf8 "Options:"] ++ c.options.flatMap OptionSpec.usage ++ [[]]

end Command

structure Program where
  name : Bytes
  version : Bytes
  commands : SortedMap Bytes Command

namespace Program

/-- Of two commands with one name the last one counts. -/
def ofCommands (name version : Bytes) (commands : List Command) : Program :=
  ⟨name, version, SortedMap.ofList (commands.map fun c => (c.name, c))⟩

def commandLine (entry : Bytes × Command) : Bytes :=
  utf8 "  " ++ Bytes.padEnd 16 entry.1 ++ entry.2.description

def usage (p : Program) : Bytes :=
  Bytes.lines <|
    [p.name ++ utf8 " - Substitutable grammar learner", [],
      utf8 "Usage: " ++ p.name ++ utf8 " <command> [options]", [], utf8 "Commands:"] ++
    p.commands.toList.map commandLine ++
    [[], utf8 "Run '" ++ p.name ++ utf8 " <command> --help' for command-specific options.", [],
      utf8 "Version: " ++ p.version]

def unknownCommand (p : Program) (word : Bytes) : Bytes :=
  Bytes.lines
    [utf8 "Unknown command: " ++ word,
      utf8 "Run '" ++ p.name ++ utf8 " --help' for available commands."]

inductive Plan
  | inform (text : Bytes)
  | complain (text : Bytes)
  | reject (command : Command) (fault : ConfigurationFault)
  | call (command : Command) (args : Arguments)

def asksForHelp (word : Bytes) : Bool :=
  word == utf8 "--help" || word == utf8 "-h"

def planCommand (p : Program) (c : Command) (words : List Bytes) : Plan :=
  if words.any asksForHelp then .inform (c.usage p.name)
  else match Arguments.parse c.options words with
    | .ok args => .call c args
    | .error fault => .reject c fault

def plan (p : Program) : List Bytes → Plan
  | [] => .complain p.usage
  | word :: rest =>
    if asksForHelp word then .inform p.usage
    else if word = utf8 "--version" then
      .inform (p.name ++ utf8 " " ++ p.version ++ [Bytes.newline])
    else match p.commands.find? word with
      | some c => p.planCommand c rest
      | none => .complain (p.unknownCommand word)

def helpHint (p : Program) (c : Command) : Failure → List Bytes
  | .configuration _ =>
    [utf8 "Run '" ++ p.name ++ utf8 " " ++ c.name ++ utf8 " --help' for options."]
  | _ => []

def fail (p : Program) (c : Command) (failure : Failure) : Action Int32 :=
  .warn (Bytes.lines ((utf8 "Error: " ++ failure.message) :: p.helpHint c failure)) (.done 1)

def carryOut (p : Program) : Plan → Action Int32
  | .inform text => .print text (.done 0)
  | .complain text => .warn text (.done 1)
  | .reject c fault => p.fail c (.configuration fault)
  | .call c args => do
    match ← ExceptT.run (c.act args) with
    | .ok code => return code
    | .error failure => p.fail c failure

def run (p : Program) (words : List Bytes) : Action Int32 :=
  p.carryOut (p.plan words)

/-- The words among the texts that a system starts a program with. The first of these texts
is what the program was started as, and a text ends at its first NUL byte. -/
def wordsOf (count : Nat) (texts : List Bytes) : List Bytes :=
  ((texts.take count).drop (if 0 < count then 1 else 0)).map Bytes.untilNul

def runStarted (p : Program) (count : Nat) (texts : List Bytes) : Action Int32 :=
  p.run (wordsOf count texts)

end Program

end Substitutability
