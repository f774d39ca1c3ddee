import Substitutability.Context
import Substitutability.Number.Basic
import Substitutability.Sorted.Map

/-!
# Context sets

For each phrase, the set of its contexts and the places where it occurs, in the
order in which they were recorded.
-/

set_option autoImplicit false

namespace Substitutability

structure Occurrence where
  sentence : Nat
  start : Nat
  stop : Nat
  deriving DecidableEq, Repr

/-- An occurrence that stops before it starts has no sensible length; what it
has is the difference in an unsigned word. -/
def Occurrence.length (occurrence : Occurrence) : Nat :=
  unsignedWord (occurrence.stop - occurrence.start)

structure Attestation where
  contexts : SortedSet Context
  occurrences : List Occurrence
  deriving Inhabited

structure ContextSet where
  entries : SortedMap Phrase Attestation

namespace ContextSet

def empty : ContextSet := ⟨SortedMap.empty⟩

def addList (old : Option Attestation) (contexts : List Context) (occurrences : List Occurrence) :
    Attestation :=
  let old := old.getD default
  ⟨old.contexts.insertAll contexts, old.occurrences ++ occurrences⟩

def add (phrase : Phrase) (context : Context) (occurrence : Occurrence) (s : ContextSet) :
    ContextSet :=
  ⟨s.entries.alter phrase fun old => addList old [context] [occurrence]⟩

/-- Phrases with their contexts, without occurrences. -/
def ofContexts (entries : List (Phrase × List Context)) : ContextSet :=
  ⟨entries.foldl (fun m entry => m.alter entry.1 fun old => addList old entry.2 []) SortedMap.empty⟩

def contextsOf? (s : ContextSet) (phrase : Phrase) : Option (SortedSet Context) :=
  (s.entries.find? phrase).map Attestation.contexts

def occurrencesOf (s : ContextSet) (phrase : Phrase) : List Occurrence :=
  match s.entries.find? phrase with
  | some attestation => attestation.occurrences
  | none => []

def contains (s : ContextSet) (phrase : Phrase) : Bool :=
  s.entries.contains phrase

def phraseCount (s : ContextSet) : Nat :=
  s.entries.size

def occurrenceCount (s : ContextSet) : Nat :=
  total (s.entries.values.map fun attestation => attestation.occurrences.length)

def isEmpty (s : ContextSet) : Bool :=
  s.entries.toList.isEmpty

def distinctContexts (s : ContextSet) : SortedSet Context :=
  SortedSet.ofList (s.entries.values.flatMap fun attestation => attestation.contexts.toList)

def described (s : ContextSet) : List (Phrase × List Context) :=
  (s.entries.toList.map fun (phrase, attestation) => (phrase, attestation.contexts.toList)).filter
    (!·.2.isEmpty)

end ContextSet

end Substitutability
