import Mathlib.Data.List.Induction
import Mathlib.Data.Set.Card
import Substitutability.Proofs.Graph.Degrees
import Substitutability.Proofs.Partition.Classes

/-!
# The check of a list of classes

Some lists of classes are partitions: the classes are numbered from 0 in their order, and
no phrase stands twice among all their members. In every other list one fault comes
first: the classes before it are a partition by themselves, and the number of a class is
looked at before its members. The check accepts the partitions, from then on every phrase
is found in the class that has it, and of any other list it reports the first fault.
-/

set_option autoImplicit false

namespace Substitutability.Partition

variable {classes before : List CongruenceClass} {p : Partition} {fault : PartitionFault}

/-- The numbers are 0, 1, 2 and so on, and no phrase is a member twice, be it of two
classes or of one. -/
structure IsPartition (classes : List CongruenceClass) : Prop where
  numbered : classes.map CongruenceClass.index = List.range classes.length
  disjoint : (classes.flatMap CongruenceClass.members).Nodup

inductive FirstFault (classes : List CongruenceClass) : PartitionFault → Prop
  | number {before rest : List CongruenceClass} {c : CongruenceClass}
      (hclasses : classes = before ++ c :: rest) (hbefore : IsPartition before)
      (hindex : c.index ≠ before.length) :
    FirstFault classes (.indexOutOfPlace c.index before.length)
  | member {before rest : List CongruenceClass} {c : CongruenceClass} {front back : List Phrase}
      {member : Phrase} (hclasses : classes = before ++ c :: rest) (hbefore : IsPartition before)
      (hindex : c.index = before.length) (hmembers : c.members = front ++ member :: back)
      (hfront : (before.flatMap CongruenceClass.members ++ front).Nodup)
      (hmember : member ∈ before.flatMap CongruenceClass.members ++ front) :
    FirstFault classes (.sharedMember member)

/-! ## A fault comes first -/

theorem isPartition_nil : IsPartition [] :=
  ⟨rfl, List.nodup_nil⟩

theorem isPartition_append_singleton {c : CongruenceClass} :
    IsPartition (before ++ [c]) ↔ IsPartition before ∧ c.index = before.length ∧
      (before.flatMap CongruenceClass.members ++ c.members).Nodup := by
  have hnumbered : (before ++ [c]).map CongruenceClass.index =
        List.range (before ++ [c]).length ↔
      before.map CongruenceClass.index = List.range before.length ∧ c.index = before.length := by
    rw [List.length_append, List.length_singleton, List.range_succ, List.map_append,
      List.map_singleton]
    constructor
    · intro h
      obtain ⟨hfront, hlast⟩ := List.append_inj h (by simp)
      exact ⟨hfront, List.singleton_inj.1 hlast⟩
    · rintro ⟨hfront, hlast⟩
      rw [hfront, hlast]
  have hmembers : (before ++ [c]).flatMap CongruenceClass.members =
      before.flatMap CongruenceClass.members ++ c.members := by simp
  constructor
  · rintro ⟨hall, hdisjoint⟩
    rw [hmembers] at hdisjoint
    obtain ⟨hbefore, hindex⟩ := hnumbered.1 hall
    exact ⟨⟨hbefore, hdisjoint.of_append_left⟩, hindex, hdisjoint⟩
  · rintro ⟨hbefore, hindex, hdisjoint⟩
    exact ⟨hnumbered.2 ⟨hbefore.numbered, hindex⟩, by rwa [hmembers]⟩

theorem FirstFault.append (h : FirstFault classes fault) (more : List CongruenceClass) :
    FirstFault (classes ++ more) fault := by
  have hsplit : ∀ {before rest : List CongruenceClass} {c : CongruenceClass},
      classes = before ++ c :: rest → classes ++ more = before ++ c :: (rest ++ more) := by
    rintro before rest c rfl
    rw [List.append_assoc, List.cons_append]
  cases h with
  | number hclasses hbefore hindex => exact .number (hsplit hclasses) hbefore hindex
  | member hclasses hbefore hindex hmembers hfront hmember =>
    exact .member (hsplit hclasses) hbefore hindex hmembers hfront hmember

theorem exists_first_repeat {seen members : List Phrase} (hseen : seen.Nodup)
    (h : ¬(seen ++ members).Nodup) :
    ∃ front member back, members = front ++ member :: back ∧ (seen ++ front).Nodup ∧
      member ∈ seen ++ front := by
  induction members using List.reverseRecOn with
  | nil => exact absurd (by rwa [List.append_nil]) h
  | append_singleton front member ih =>
    by_cases hfront : (seen ++ front).Nodup
    · refine ⟨front, member, [], rfl, hfront, ?_⟩
      by_contra hfresh
      refine h ?_
      rw [← List.append_assoc, ← List.concat_eq_append]
      exact hfront.concat hfresh
    · obtain ⟨first, repeated, back, hsplit, hnodup, hmem⟩ := ih hfront
      exact ⟨first, repeated, back ++ [member], by simp [hsplit], hnodup, hmem⟩

theorem exists_firstFault (h : ¬IsPartition classes) : ∃ fault, FirstFault classes fault := by
  induction classes using List.reverseRecOn with
  | nil => exact absurd isPartition_nil h
  | append_singleton before c ih =>
    by_cases hbefore : IsPartition before
    · by_cases hindex : c.index = before.length
      · have hrepeat : ¬(before.flatMap CongruenceClass.members ++ c.members).Nodup :=
          fun hnodup => h (isPartition_append_singleton.2 ⟨hbefore, hindex, hnodup⟩)
        obtain ⟨front, member, back, hmembers, hfront, hmember⟩ :=
          exists_first_repeat hbefore.disjoint hrepeat
        exact ⟨_, .member rfl hbefore hindex hmembers hfront hmember⟩
      · exact ⟨_, .number rfl hbefore hindex⟩
    · obtain ⟨fault, hfault⟩ := ih hbefore
      exact ⟨fault, hfault.append [c]⟩

/-! ## The walk over the classes -/

theorem seeMembers_append {seen front : List Phrase} (h : (seen ++ front).Nodup) :
    ∃ seen', seen'.Perm (seen ++ front) ∧
      ∀ rest, seeMembers seen (front ++ rest) = seeMembers seen' rest := by
  induction front generalizing seen with
  | nil => exact ⟨seen, by simp, fun rest => rfl⟩
  | cons member front ih =>
    have hmove : (member :: seen ++ front).Perm (seen ++ member :: front) :=
      List.perm_middle.symm
    have hfresh : member ∉ seen := fun hmem =>
      (List.nodup_append.1 h).2.2 member hmem member List.mem_cons_self rfl
    obtain ⟨seen', hperm, hrest⟩ := ih (hmove.nodup_iff.2 h)
    refine ⟨seen', hperm.trans hmove, fun rest => ?_⟩
    rw [List.cons_append, seeMembers, if_neg hfresh, hrest]

theorem faultFrom_append (h : IsPartition before) :
    ∃ seen, seen.Perm (before.flatMap CongruenceClass.members) ∧
      ∀ rest, faultFrom 0 [] (before ++ rest) = faultFrom before.length seen rest := by
  induction before using List.reverseRecOn with
  | nil => exact ⟨[], .refl _, fun rest => rfl⟩
  | append_singleton before c ih =>
    obtain ⟨hbefore, hindex, hdisjoint⟩ := isPartition_append_singleton.1 h
    obtain ⟨seen, hseen, hwalk⟩ := ih hbefore
    have hmembers := hseen.append_right c.members
    obtain ⟨seen', hperm, hsee⟩ := seeMembers_append (hmembers.nodup_iff.2 hdisjoint)
    have hall : seeMembers seen c.members = .ok seen' := by
      rw [← List.append_nil c.members, hsee]
      rfl
    refine ⟨seen', ?_, fun rest => ?_⟩
    · simpa using hperm.trans hmembers
    · rw [List.append_assoc, List.singleton_append, hwalk, faultFrom,
        if_neg (not_not.2 hindex), hall, List.length_append, List.length_singleton]

theorem ofClasses_eq_ok : ofClasses classes = .ok p ↔ p.classes = classes := by
  constructor
  · intro h
    rw [ofClasses] at h
    split at h
    · cases h
    · cases h
      rfl
  · rintro rfl
    exact ofClasses_classes p

theorem ofClasses_of_faultFrom (h : faultFrom 0 [] classes = some fault) :
    ofClasses classes = .error fault := by
  rw [ofClasses]
  split
  · rename_i other hother
    rw [h, Option.some.injEq] at hother
    rw [hother]
  · rename_i hnone
    rw [h] at hnone
    cases hnone

theorem exists_ofClasses_iff : (∃ p, ofClasses classes = .ok p) ↔ IsPartition classes := by
  simp only [ofClasses_eq_ok]
  constructor
  · rintro ⟨p, rfl⟩
    exact ⟨p.numbered, p.disjoint⟩
  · rintro ⟨hnumbered, hdisjoint⟩
    exact ⟨⟨classes, hnumbered, hdisjoint⟩, rfl⟩

theorem FirstFault.ofClasses (h : FirstFault classes fault) :
    ofClasses classes = .error fault := by
  apply ofClasses_of_faultFrom
  cases h with
  | @number before rest c hclasses hbefore hindex =>
    obtain ⟨seen, -, hwalk⟩ := faultFrom_append hbefore
    rw [hclasses, hwalk, faultFrom, if_pos hindex]
  | @member before rest c front back member hclasses hbefore hindex hmembers hfront hmember =>
    obtain ⟨seen, hseen, hwalk⟩ := faultFrom_append hbefore
    have hperm := hseen.append_right front
    obtain ⟨seen', hseen', hsee⟩ := seeMembers_append (hperm.nodup_iff.2 hfront)
    have hknown : member ∈ seen' := (hseen'.trans hperm).mem_iff.2 hmember
    have hshared : seeMembers seen c.members = .error (.sharedMember member) := by
      rw [hmembers, hsee, seeMembers, if_pos hknown]
    rw [hclasses, hwalk, faultFrom, if_neg (not_not.2 hindex), hshared]

theorem ofClasses_eq_error : ofClasses classes = .error fault ↔ FirstFault classes fault := by
  constructor
  · intro h
    have hnot : ¬IsPartition classes := by
      intro hpartition
      obtain ⟨p, hp⟩ := exists_ofClasses_iff.2 hpartition
      rw [h] at hp
      cases hp
    obtain ⟨first, hfirst⟩ := exists_firstFault hnot
    rw [hfirst.ofClasses, Except.error.injEq] at h
    exact h ▸ hfirst
  · exact FirstFault.ofClasses

/-! ## What is found in a partition -/

/-- What a partition of these classes tells about phrases. -/
structure Classifies (p : Partition) (classes : List CongruenceClass) : Prop where
  classes_eq : p.classes = classes
  classOf?_iff : ∀ phrase i,
    p.classOf? phrase = some i ↔ ∃ c, classes[i]? = some c ∧ phrase ∈ c.members
  class?_classOf? : ∀ phrase i, p.classOf? phrase = some i →
    ∃ c, p.class? i = some c ∧ phrase ∈ c.members
  memberCount_eq_sum : p.memberCount = (classes.map fun c => c.members.length).sum
  /-- As many phrases as there are members are found in a class. -/
  memberCount_eq_ncard : p.memberCount = {phrase | (p.classOf? phrase).isSome = true}.ncard
  equivalence : Equivalence fun a b : {phrase // ∃ c ∈ classes, phrase ∈ c.members} =>
    p.sameClass a b = true
  sameClass_eq_false : ∀ a b, (¬(∃ c ∈ classes, a ∈ c.members) ∨ ¬∃ c ∈ classes, b ∈ c.members) →
    p.sameClass a b = false

theorem getElem?_classes {i : Nat} {c : CongruenceClass} :
    p.classes[i]? = some c ↔ c ∈ p.classes ∧ c.index = i := by
  constructor
  · exact fun h => ⟨List.mem_of_getElem? h, index_of_getElem? h⟩
  · rintro ⟨hc, rfl⟩
    obtain ⟨i, hi⟩ := List.mem_iff_getElem?.1 hc
    rwa [index_of_getElem? hi]

theorem memberCount_eq_length (p : Partition) :
    p.memberCount = (p.classes.flatMap CongruenceClass.members).length := by
  rw [memberCount, total_eq_sum, List.length_flatMap]
  rfl

theorem memberCount_eq_ncard (p : Partition) :
    p.memberCount = {phrase | (p.classOf? phrase).isSome = true}.ncard := by
  have hfound : {phrase | (p.classOf? phrase).isSome = true} =
      ↑(p.classes.flatMap CongruenceClass.members).toFinset := by
    ext phrase
    simp [isSome_classOf?]
  rw [hfound, Set.ncard_coe_finset, List.toFinset_card_of_nodup p.disjoint,
    memberCount_eq_length]

theorem classifies (p : Partition) : p.Classifies p.classes where
  classes_eq := rfl
  classOf?_iff phrase i := by
    simp only [classOf?_eq_some, getElem?_classes, and_assoc]
  class?_classOf? phrase i h := by
    obtain ⟨c, hc, hi, hphrase⟩ := classOf?_eq_some.1 h
    exact ⟨c, getElem?_classes.2 ⟨hc, hi⟩, hphrase⟩
  memberCount_eq_sum := by
    rw [memberCount_eq_length, List.length_flatMap]
  memberCount_eq_ncard := p.memberCount_eq_ncard
  equivalence := by
    refine ⟨fun a => ?_, fun {a b} h => ?_, fun {a b d} hab hbd => ?_⟩
    · obtain ⟨c, hc, ha⟩ := a.2
      exact sameClass_iff.2 ⟨c, hc, ha, ha⟩
    · obtain ⟨c, hc, ha, hb⟩ := sameClass_iff.1 h
      exact sameClass_iff.2 ⟨c, hc, hb, ha⟩
    · obtain ⟨c, hc, ha, hb⟩ := sameClass_iff.1 hab
      obtain ⟨c', hc', hb', hd⟩ := sameClass_iff.1 hbd
      rw [class_unique hc' hc hb' hb] at hd
      exact sameClass_iff.2 ⟨c, hc, ha, hd⟩
  sameClass_eq_false a b h := by
    rw [Bool.eq_false_iff, Ne, sameClass_iff]
    rintro ⟨c, hc, ha, hb⟩
    exact h.elim (fun hno => hno ⟨c, hc, ha⟩) fun hno => hno ⟨c, hc, hb⟩

/-- Exactly the partitions are accepted, and then tell the class of every member. Of any
other list of classes the first fault is reported. -/
theorem ofClasses_accepts_partitions (classes : List CongruenceClass) :
    ((∃ p, ofClasses classes = .ok p) ↔ IsPartition classes) ∧
    (∀ p, ofClasses classes = .ok p → p.Classifies classes) ∧
    (∀ fault, ofClasses classes = .error fault ↔ FirstFault classes fault) := by
  refine ⟨exists_ofClasses_iff, fun p h => ?_, fun fault => ofClasses_eq_error⟩
  rw [← ofClasses_eq_ok.1 h]
  exact p.classifies

example : faultFrom 0 [] [⟨0, [[[97]], [[97]]], [[97]]⟩, ⟨7, [], []⟩] =
    some (.sharedMember [[97]]) := by decide

end Substitutability.Partition
