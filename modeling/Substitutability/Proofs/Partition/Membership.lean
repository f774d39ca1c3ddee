import Substitutability.Proofs.Partition.Checking
import Substitutability.Proofs.Sorted

/-!
# Partitions with a map of their members

The class of a phrase can be looked up in a map that is filled while the classes are checked:
each member is entered with the number of its class, and one that is there already ends the
check. The map stops at the same fault as the check of the classes alone, and what it tells of
phrases is what a search through the classes tells.
-/

set_option autoImplicit false

namespace Substitutability

structure Directory where
  classes : List CongruenceClass
  membership : SortedMap Phrase Nat

namespace Directory

def enter (index : Nat) :
    List Phrase → SortedMap Phrase Nat → Except PartitionFault (SortedMap Phrase Nat)
  | [], m => .ok m
  | member :: rest, m =>
    if m.contains member then .error (.sharedMember member)
    else enter index rest (m.insert member index)

def enterAll (position : Nat) :
    List CongruenceClass → SortedMap Phrase Nat → Except PartitionFault (SortedMap Phrase Nat)
  | [], m => .ok m
  | c :: rest, m =>
    if c.index ≠ position then .error (.indexOutOfPlace c.index position)
    else match enter c.index c.members m with
      | .error fault => .error fault
      | .ok m => enterAll (position + 1) rest m

def ofClasses (classes : List CongruenceClass) : Except PartitionFault Directory :=
  (enterAll 0 classes SortedMap.empty).map fun m => ⟨classes, m⟩

def classOf? (d : Directory) (phrase : Phrase) : Option Nat :=
  d.membership.find? phrase

def sameClass (d : Directory) (a b : Phrase) : Bool :=
  match d.classOf? a, d.classOf? b with
  | some i, some j => i == j
  | _, _ => false

def memberCount (d : Directory) : Nat :=
  d.membership.size

/-! ## The walk over the classes -/

def Keeps (m : SortedMap Phrase Nat) (seen : List Phrase) : Prop :=
  ∀ phrase, m.contains phrase = true ↔ phrase ∈ seen

variable {m : SortedMap Phrase Nat} {seen : List Phrase}

theorem keeps_empty : Keeps SortedMap.empty [] :=
  fun phrase => by simp [SortedMap.contains, SortedMap.find?_empty]

theorem Keeps.insert (h : Keeps m seen) (member : Phrase) (index : Nat) :
    Keeps (m.insert member index) (member :: seen) := by
  intro phrase
  rw [List.mem_cons, ← h phrase, SortedMap.contains, SortedMap.insert]
  by_cases hphrase : phrase = member
  · rw [hphrase, SortedMap.find?_alter_self]
    simp
  · rw [SortedMap.find?_alter_ne hphrase, SortedMap.contains]
    simp [hphrase]

def entries (classes : List CongruenceClass) : List (Phrase × Nat) :=
  classes.flatMap fun c => c.members.map (·, c.index)

def insertAll (entries : List (Phrase × Nat)) (m : SortedMap Phrase Nat) : SortedMap Phrase Nat :=
  entries.foldl (fun m entry => m.insert entry.1 entry.2) m

theorem enter_eq (h : Keeps m seen) (index : Nat) (members : List Phrase) :
    (∃ fault, Partition.seeMembers seen members = .error fault ∧
      enter index members m = .error fault) ∨
    ∃ seen', Partition.seeMembers seen members = .ok seen' ∧
      enter index members m = .ok (insertAll (members.map (·, index)) m) ∧
      Keeps (insertAll (members.map (·, index)) m) seen' := by
  induction members generalizing m seen with
  | nil => exact .inr ⟨seen, rfl, rfl, h⟩
  | cons member rest ih =>
    rw [Partition.seeMembers, enter]
    by_cases hmember : member ∈ seen
    · rw [if_pos hmember, if_pos ((h member).2 hmember)]
      exact .inl ⟨_, rfl, rfl⟩
    · rw [if_neg hmember, if_neg (mt (h member).1 hmember)]
      exact ih (h.insert member index)

theorem enterAll_eq (h : Keeps m seen) (position : Nat) (classes : List CongruenceClass) :
    enterAll position classes m =
      match Partition.faultFrom position seen classes with
      | some fault => .error fault
      | none => .ok (insertAll (entries classes) m) := by
  induction classes generalizing m seen position with
  | nil => rfl
  | cons c rest ih =>
    rw [enterAll, Partition.faultFrom]
    by_cases hindex : c.index = position
    · rw [if_neg (not_not.2 hindex), if_neg (not_not.2 hindex)]
      obtain ⟨fault, hsee, henter⟩ | ⟨seen', hsee, henter, hkeeps⟩ := enter_eq h c.index c.members
      · rw [hsee, henter]
      · have hentries : insertAll (entries (c :: rest)) m =
            insertAll (entries rest) (insertAll (c.members.map (·, c.index)) m) := by
          rw [entries, List.flatMap_cons, insertAll, List.foldl_append]
          rfl
        rw [hsee, henter, hentries]
        exact ih hkeeps (position + 1)
    · rw [if_pos hindex, if_pos hindex]

end Directory

namespace Partition

variable {p : Partition}

def directory (p : Partition) : Directory :=
  ⟨p.classes, SortedMap.ofList (Directory.entries p.classes)⟩

theorem keys_entries (classes : List CongruenceClass) :
    (Directory.entries classes).map Prod.fst = classes.flatMap CongruenceClass.members := by
  rw [Directory.entries, List.map_flatMap]
  congr
  funext c
  rw [List.map_map]
  exact List.map_id c.members

theorem nodup_keys_entries (p : Partition) :
    ((Directory.entries p.classes).map Prod.fst).Nodup := by
  rw [keys_entries]
  exact p.disjoint

theorem classOf?_directory (p : Partition) (phrase : Phrase) :
    p.directory.classOf? phrase = p.classOf? phrase := by
  ext i
  rw [Directory.classOf?, directory, SortedMap.find?_ofList p.nodup_keys_entries, classOf?_eq_some,
    Directory.entries, List.mem_flatMap]
  constructor
  · rintro ⟨c, hc, hentry⟩
    obtain ⟨member, hmember, heq⟩ := List.mem_map.1 hentry
    cases heq
    exact ⟨c, hc, rfl, hmember⟩
  · rintro ⟨c, hc, rfl, hphrase⟩
    exact ⟨c, hc, List.mem_map.2 ⟨phrase, hphrase, rfl⟩⟩

theorem sameClass_directory (p : Partition) (a b : Phrase) :
    p.directory.sameClass a b = p.sameClass a b := by
  rw [Directory.sameClass, classOf?_directory, classOf?_directory]
  rfl

theorem memberCount_directory (p : Partition) : p.directory.memberCount = p.memberCount := by
  rw [Directory.memberCount, directory, SortedMap.size_ofList p.nodup_keys_entries,
    ← List.length_map Prod.fst, keys_entries, memberCount_eq_length]

/-- The check that fills the map ends as the check of the classes alone, and with the map of the
partition. -/
theorem ofClasses_directory (classes : List CongruenceClass) :
    Directory.ofClasses classes = (ofClasses classes).map directory := by
  rw [Directory.ofClasses, Directory.enterAll_eq Directory.keeps_empty]
  cases hfault : faultFrom 0 [] classes with
  | some fault =>
    rw [ofClasses_of_faultFrom hfault]
    rfl
  | none =>
    obtain ⟨hnumbered, hdisjoint⟩ := faultFrom_eq_none List.nodup_nil hfault
    rw [← List.range_eq_range'] at hnumbered
    rw [List.append_nil] at hdisjoint
    obtain ⟨p, rfl⟩ : ∃ p : Partition, p.classes = classes := ⟨⟨classes, hnumbered, hdisjoint⟩, rfl⟩
    rw [ofClasses_classes]
    rfl

end Partition

end Substitutability
