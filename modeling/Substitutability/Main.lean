import Std.Time
import Substitutability.Commands.Registry

/-!
# The program on a real system

Every request of an action is answered by the system.
-/

set_option autoImplicit false

namespace Substitutability.Main

def bytesOf (data : ByteArray) : Bytes :=
  data.data.toList

def dataOf (text : Bytes) : ByteArray :=
  ⟨text.toArray⟩

/-- A path as the system writes it; nothing is found under an empty path. -/
def name? (path : Bytes) : Option String :=
  match Path.visible path with
  | [] => none
  | visible => String.fromUTF8? (dataOf visible)

def attempt {α : Type} (action : IO α) : IO (Option α) := do
  try
    return some (← action)
  catch _ =>
    return none

def statusOf (path : Bytes) : IO Status := do
  match name? path with
  | none => return .absent
  | some name =>
    let place := (← IO.currentDir) / name
    match ← attempt place.metadata with
    | none => return .absent
    | some found => return match found.type with
      | .dir => .folder
      | .file => .file
      | _ => .absent

def entryNames (name : String) : IO (List Bytes) := do
  let place := (← IO.currentDir) / name
  let mut names := #[]
  for entry in ← place.readDir do
    if (← statusOf (utf8 entry.path.toString)) == .file then
      names := names.push (utf8 entry.fileName)
  return names.toList

def namesIn (folder : Bytes) : IO (Except PathFault (List Bytes)) := do
  match name? folder, ← statusOf folder with
  | some name, .folder => return .ok ((← attempt (entryNames name)).getD [])
  | _, .file => return .error .notFolder
  | _, _ => return .error .missing

def contentOf (path : Bytes) : IO Reading := do
  match name? path, ← statusOf path with
  | some _, .folder => return .folder
  | some name, _ =>
    match ← attempt (IO.FS.readBinFile name) with
    | some data => return .text (bytesOf data)
    | none => return .nothing
  | none, _ => return .nothing

def put (path content : Bytes) : IO Bool := do
  match name? path with
  | none => return false
  | some name => return (← attempt (IO.FS.writeBinFile name (dataOf content))).isSome

def lookup (name : Bytes) : IO (Option Bytes) := do
  match String.fromUTF8? (dataOf name) with
  | none => return none
  | some name => return (← IO.getEnv name).map utf8

def momentOf (time : Std.Time.PlainDateTime) : Moment :=
  { year := time.year.toInt.toNat
    month := time.month.toInt.toNat
    day := time.day.toInt.toNat
    hour := time.hour.val.toNat
    minute := time.minute.val.toNat
    second := time.second.val.toNat }

def readClock : IO Clock := do
  let stamp ← Std.Time.Timestamp.now
  let universal := momentOf (Std.Time.PlainDateTime.ofWallTime (stamp.toWallTime .zero))
  let here := (← attempt Std.Time.PlainDateTime.now).map momentOf
  return ⟨universal, here.getD universal, ← IO.monoNanosNow⟩

def emit (stream : IO.FS.Stream) (text : Bytes) : IO Unit := do
  stream.write (dataOf text)
  stream.flush

def perform {α : Type} : Action α → IO α
  | .done result => return result
  | .status path next => do perform (next (← statusOf path))
  | .names folder next => do perform (next (← namesIn folder))
  | .read path next => do perform (next (← contentOf path))
  | .write path content next => do perform (next (← put path content))
  | .lookup name next => do perform (next (← lookup name))
  | .clock next => do perform (next (← readClock))
  | .progress _ next => perform next
  | .print text next => do
    emit (← IO.getStdout) text
    perform next
  | .warn text next => do
    emit (← IO.getStderr) text
    perform next

end Substitutability.Main

open Substitutability in
def main (words : List String) : IO UInt32 := do
  let program := Commands.program (utf8 "slg") (utf8 "1.0.0")
  let code ← Main.perform (program.run (words.map utf8))
  return code.toUInt32
