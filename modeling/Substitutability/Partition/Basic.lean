import Substitutability.Failure
import Substitutability.Number.Basic

/-!
# Partitions into congruence classes

A class has a number and a list of members; the numbers count from 0 in the
order of the list, and no phrase is a member twice. `ofClasses` accepts exactly
the lists with these properties.
-/

set_option autoImplicit false

namespace Substitutability

structure CongruenceClass where
  index : Nat
  members : List Phrase
  representative : Phrase
  deriving DecidableEq, Repr

def nonterminal (index : Nat) : Bytes :=
  utf8 "N" ++ Bytes.ofNat index

namespace CongruenceClass

def size (c : CongruenceClass) : Nat :=
  c.members.length

def isSingleton (c : CongruenceClass) : Bool :=
  c.members.length == 1

end CongruenceClass

structure Partition where
  classes : List CongruenceClass
  numbered : classes.map CongruenceClass.index = List.range classes.length
  disjoint : (classes.flatMap CongruenceClass.members).Nodup

namespace Partition

def empty : Partition := ⟨[], rfl, List.nodup_nil⟩

def seeMembers (seen : List Phrase) : List Phrase → Except PartitionFault (List Phrase)
  | [] => .ok seen
  | member :: rest =>
    if member ∈ seen then .error (.sharedMember member) else seeMembers (member :: seen) rest

def faultFrom (position : Nat) (seen : List Phrase) :
    List CongruenceClass → Option PartitionFault
  | [] => none
  | c :: rest =>
    if c.index ≠ position then some (.indexOutOfPlace c.index position)
    else match seeMembers seen c.members with
      | .error fault => some fault
      | .ok seen => faultFrom (position + 1) seen rest

theorem seeMembers_ok {seen members seen' : List Phrase} (hseen : seen.Nodup)
    (h : seeMembers seen members = .ok seen') :
    (members ++ seen).Nodup ∧ seen'.Perm (members ++ seen) := by
  induction members generalizing seen with
  | nil =>
    simp only [seeMembers, Except.ok.injEq] at h
    subst h
    exact ⟨hseen, List.Perm.refl _⟩
  | cons member rest ih =>
    simp only [seeMembers] at h
    split at h
    · cases h
    · rename_i hm
      obtain ⟨hd, hp⟩ := ih (List.nodup_cons.2 ⟨hm, hseen⟩) h
      have hmid : (rest ++ member :: seen).Perm (member :: rest ++ seen) := List.perm_middle
      exact ⟨hmid.nodup_iff.1 hd, hp.trans hmid⟩

theorem faultFrom_eq_none {position : Nat} {seen : List Phrase} {classes : List CongruenceClass}
    (hseen : seen.Nodup) (h : faultFrom position seen classes = none) :
    classes.map CongruenceClass.index = List.range' position classes.length ∧
      (classes.flatMap CongruenceClass.members ++ seen).Nodup := by
  induction classes generalizing position seen with
  | nil => exact ⟨rfl, hseen⟩
  | cons c rest ih =>
    simp only [faultFrom] at h
    split at h
    · cases h
    · rename_i hi
      split at h
      · cases h
      · rename_i seen' hs
        obtain ⟨hd, hp⟩ := seeMembers_ok hseen hs
        obtain ⟨hn, hr⟩ := ih (hp.nodup_iff.2 hd) h
        refine ⟨?_, ?_⟩
        · simp only [ne_eq, Decidable.not_not] at hi
          simp [hn, hi, List.range'_succ]
        · have hmove : (rest.flatMap CongruenceClass.members ++ seen').Perm
              ((c :: rest).flatMap CongruenceClass.members ++ seen) := by
            refine (hp.append_left _).trans ?_
            rw [List.flatMap_cons, List.append_assoc]
            refine (List.perm_append_comm_assoc _ _ _).trans ?_
            exact List.Perm.refl _
          exact hmove.nodup_iff.1 hr

def ofClasses (classes : List CongruenceClass) : Except PartitionFault Partition :=
  match h : faultFrom 0 [] classes with
  | some fault => .error fault
  | none => .ok
    { classes := classes
      numbered := by
        rw [(faultFrom_eq_none List.nodup_nil h).1, List.range_eq_range']
      disjoint := by
        simpa using (faultFrom_eq_none List.nodup_nil h).2 }

def class? (p : Partition) (index : Nat) : Option CongruenceClass :=
  p.classes[index]?

def classOf? (p : Partition) (phrase : Phrase) : Option Nat :=
  (p.classes.find? fun c => c.members.contains phrase).map CongruenceClass.index

def sameClass (p : Partition) (a b : Phrase) : Bool :=
  match p.classOf? a, p.classOf? b with
  | some i, some j => i == j
  | _, _ => false

def size (p : Partition) : Nat :=
  p.classes.length

def memberCount (p : Partition) : Nat :=
  total (p.classes.map CongruenceClass.size)

def singletonCount (p : Partition) : Nat :=
  p.classes.countP CongruenceClass.isSingleton

def largestSize (p : Partition) : Nat :=
  (p.classes.map CongruenceClass.size).foldl max 0

end Partition

end Substitutability
