import Substitutability.Failure
import Substitutability.Sorted.Map
import Substitutability.Text.Bytes

/-!
# Paths and file trees

A path is a text of parts with slashes between them. The file name is what
follows the last slash, and the extension starts at its last period. Folders and
the contents of files lie below one top folder, from which all paths start. The
part `..` leads to the folder above, and above the top is the top.
-/

set_option autoImplicit false

namespace Substitutability.Path

def slash : UInt8 := 47

def period : UInt8 := 46

def visible (path : Bytes) : Bytes :=
  Bytes.untilNul path

def longest : Nat := 4095

def longestPart : Nat := 255

def parts (path : Bytes) : List Bytes :=
  Bytes.splitOn slash path

def fileName (path : Bytes) : Bytes :=
  (path.reverse.takeWhile (· != slash)).reverse

/-- A period at the start of a name starts no extension. -/
def extension (path : Bytes) : Bytes :=
  let name := fileName path
  if name = utf8 ".." then []
  else
    let tail := name.reverse.takeWhile (· != period)
    if name.length ≤ tail.length + 1 then [] else period :: tail.reverse

def withExtension (extension' path : Bytes) : Bytes :=
  path.take (path.length - (extension path).length) ++ extension'

def child (folder name : Bytes) : Bytes :=
  if folder.getLast? = some slash then folder ++ name else folder ++ slash :: name

end Substitutability.Path

namespace Substitutability

abbrev Place := List Bytes

inductive Status
  | folder
  | file
  | absent
  deriving DecidableEq, Repr

inductive Reading
  | text (content : Bytes)
  | folder
  | nothing
  deriving DecidableEq, Repr

structure FileTree where
  contents : SortedMap Place Bytes
  folders : SortedSet Place

namespace FileTree

def empty : FileTree := ⟨SortedMap.empty, SortedSet.empty⟩

def isFolder (t : FileTree) (place : Place) : Bool :=
  place.isEmpty || t.folders.toList.contains place

def statusAt (t : FileTree) (place : Place) : Status :=
  if t.isFolder place then .folder
  else if t.contents.contains place then .file
  else .absent

/-- One part further; only a folder can be left. -/
def enter (t : FileTree) (place : Place) (part : Bytes) : Except PathFault Place :=
  match t.statusAt place with
  | .file => .error .notFolder
  | .absent => .error .missing
  | .folder =>
    if Path.longestPart < part.length then .error .nameTooLong
    else if part = [] ∨ part = utf8 "." then .ok place
    else if part = utf8 ".." then .ok place.dropLast
    else .ok (place ++ [part])

def walk (t : FileTree) : Place → List Bytes → Except PathFault Place
  | place, [] => .ok place
  | place, part :: rest => do t.walk (← t.enter place part) rest

def resolve (t : FileTree) (path : Bytes) : Except PathFault Place :=
  match Path.visible path with
  | [] => .error .missing
  | path =>
    if Path.longest < path.length then .error .nameTooLong else t.walk [] (Path.parts path)

def status (t : FileTree) (path : Bytes) : Status :=
  match t.resolve path with
  | .ok place => t.statusAt place
  | .error _ => .absent

def nameIn (folder place : Place) : Option Bytes :=
  match place.getLast? with
  | some name => if place.dropLast = folder then some name else none
  | none => none

def names (t : FileTree) (path : Bytes) : Except PathFault (List Bytes) := do
  let place ← t.resolve path
  match t.statusAt place with
  | .folder => return t.contents.keys.filterMap (nameIn place)
  | .file => .error .notFolder
  | .absent => .error .missing

/-- What is found behind a path that is opened for reading. -/
def read (t : FileTree) (path : Bytes) : Reading :=
  match t.resolve path with
  | .error _ => .nothing
  | .ok place =>
    if t.isFolder place then .folder
    else match t.contents.find? place with
      | some content => .text content
      | none => .nothing

/-- Replace or create a file in a folder that exists. -/
def write (t : FileTree) (path content : Bytes) : Option FileTree :=
  match t.resolve path with
  | .error _ => none
  | .ok place =>
    if t.isFolder place then none else some { t with contents := t.contents.insert place content }

def starts (place : Place) : List Place :=
  (List.range (place.length + 1)).map place.take

def addFolder (place : Place) (t : FileTree) : FileTree :=
  { t with folders := t.folders.insertAll ((starts place).filter (!·.isEmpty)) }

def addFile (place : Place) (content : Bytes) (t : FileTree) : FileTree :=
  { t.addFolder place.dropLast with contents := t.contents.insert place content }

def pathOf (place : Place) : Bytes :=
  Bytes.join [Path.slash] place

end FileTree

end Substitutability
