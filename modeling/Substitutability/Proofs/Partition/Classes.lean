import Substitutability.Partition.Basic
import Mathlib.Data.List.Nodup
import Mathlib.Data.List.Pairwise

/-!
# Classes of a partition

A phrase is in at most one class, so two phrases are in the same class exactly when
one class has both. The check of a list of classes accepts the classes of every
partition.
-/

set_option autoImplicit false

namespace Substitutability

theorem CongruenceClass.isSingleton_iff {c : CongruenceClass} :
    c.isSingleton = true ↔ c.size = 1 :=
  beq_iff_eq

namespace Partition

variable {p : Partition}

theorem nodup_members {c : CongruenceClass} (hc : c ∈ p.classes) : c.members.Nodup :=
  (List.nodup_flatMap.1 p.disjoint).1 c hc

theorem class_unique {c d : CongruenceClass} {phrase : Phrase} (hc : c ∈ p.classes)
    (hd : d ∈ p.classes) (hphrasec : phrase ∈ c.members) (hphrased : phrase ∈ d.members) :
    c = d := by
  by_contra hne
  have hdisjoint := (List.nodup_flatMap.1 p.disjoint).2
  have hsymm : Std.Symm (Function.onFun List.Disjoint CongruenceClass.members) :=
    ⟨fun _ _ h _ hb ha => h ha hb⟩
  exact hdisjoint.forall hc hd hne hphrasec hphrased

theorem index_injective {c d : CongruenceClass} (hc : c ∈ p.classes) (hd : d ∈ p.classes)
    (h : c.index = d.index) : c = d := by
  have hnodup : (p.classes.map CongruenceClass.index).Nodup := by
    rw [p.numbered]
    exact List.nodup_range
  exact List.inj_on_of_nodup_map hnodup hc hd h

theorem index_of_getElem? {i : Nat} {c : CongruenceClass} (h : p.classes[i]? = some c) :
    c.index = i := by
  have hindex : (p.classes.map CongruenceClass.index)[i]? = some c.index := by
    rw [List.getElem?_map, h]
    rfl
  obtain ⟨hlt, -⟩ := List.getElem?_eq_some_iff.1 h
  rw [p.numbered, List.getElem?_range hlt, Option.some.injEq] at hindex
  exact hindex.symm

theorem index_lt_size {c : CongruenceClass} (hc : c ∈ p.classes) : c.index < p.size := by
  have hindex : c.index ∈ p.classes.map CongruenceClass.index := List.mem_map_of_mem hc
  rw [p.numbered] at hindex
  exact List.mem_range.1 hindex

theorem classOf?_eq_some {phrase : Phrase} {i : Nat} :
    p.classOf? phrase = some i ↔ ∃ c ∈ p.classes, c.index = i ∧ phrase ∈ c.members := by
  rw [classOf?, Option.map_eq_some_iff]
  constructor
  · rintro ⟨c, hfind, hi⟩
    have hmem := List.find?_some hfind
    exact ⟨c, List.mem_of_find?_eq_some hfind, hi, by simpa using hmem⟩
  · rintro ⟨c, hc, hi, hphrase⟩
    cases hfind : p.classes.find? fun c => c.members.contains phrase with
    | none =>
      have := List.find?_eq_none.1 hfind c hc
      simp [hphrase] at this
    | some d =>
      have hd := List.mem_of_find?_eq_some hfind
      have hphrased : phrase ∈ d.members := by simpa using List.find?_some hfind
      exact ⟨d, rfl, class_unique hc hd hphrase hphrased ▸ hi⟩

theorem classOf?_lt_size {phrase : Phrase} {i : Nat} (h : p.classOf? phrase = some i) :
    i < p.size := by
  obtain ⟨c, hc, rfl, -⟩ := classOf?_eq_some.1 h
  exact index_lt_size hc

theorem classOf?_eq_index {c : CongruenceClass} (hc : c ∈ p.classes) {phrase : Phrase} :
    p.classOf? phrase = some c.index ↔ phrase ∈ c.members := by
  rw [classOf?_eq_some]
  constructor
  · rintro ⟨d, hd, hindex, hphrase⟩
    rwa [index_injective hd hc hindex] at hphrase
  · exact fun hphrase => ⟨c, hc, rfl, hphrase⟩

theorem isSome_classOf? {phrase : Phrase} :
    (p.classOf? phrase).isSome = true ↔ ∃ c ∈ p.classes, phrase ∈ c.members := by
  rw [Option.isSome_iff_exists]
  simp only [classOf?_eq_some]
  constructor
  · rintro ⟨i, c, hc, -, hphrase⟩
    exact ⟨c, hc, hphrase⟩
  · rintro ⟨c, hc, hphrase⟩
    exact ⟨c.index, c, hc, rfl, hphrase⟩

theorem sameClass_iff_classOf? {a b : Phrase} :
    p.sameClass a b = true ↔ ∃ i, p.classOf? a = some i ∧ p.classOf? b = some i := by
  rw [sameClass]
  cases p.classOf? a with
  | none => simp
  | some i =>
    cases p.classOf? b with
    | none => simp
    | some j =>
      show (i == j) = true ↔ _
      rw [beq_iff_eq]
      constructor
      · rintro rfl
        exact ⟨i, rfl, rfl⟩
      · rintro ⟨k, hi, hj⟩
        exact Option.some.inj (hi.trans hj.symm)

theorem sameClass_iff_of_classOf? {a : Phrase} {i : Nat} (ha : p.classOf? a = some i)
    (b : Phrase) : p.sameClass a b = true ↔ p.classOf? b = some i := by
  rw [sameClass_iff_classOf?, ha]
  constructor
  · intro h
    obtain ⟨j, hij, hb⟩ := h
    rwa [hij]
  · intro h
    exact ⟨i, rfl, h⟩

theorem sameClass_iff {a b : Phrase} :
    p.sameClass a b = true ↔ ∃ c ∈ p.classes, a ∈ c.members ∧ b ∈ c.members := by
  rw [sameClass_iff_classOf?]
  simp only [classOf?_eq_some]
  constructor
  · rintro ⟨i, ⟨c, hc, hci, ha⟩, ⟨d, hd, hdi, hb⟩⟩
    have := index_injective hc hd (hci.trans hdi.symm)
    subst this
    exact ⟨c, hc, ha, hb⟩
  · rintro ⟨c, hc, ha, hb⟩
    exact ⟨c.index, ⟨c, hc, rfl, ha⟩, ⟨c, hc, rfl, hb⟩⟩

/-! ## The check -/

theorem seeMembers_of_nodup {members seen : List Phrase} (h : (members ++ seen).Nodup) :
    ∃ seen', seeMembers seen members = .ok seen' := by
  induction members generalizing seen with
  | nil => exact ⟨seen, rfl⟩
  | cons member rest ih =>
    have hmid : (rest ++ member :: seen).Nodup :=
      (List.perm_middle (a := member)).nodup_iff.2 h
    have hfresh : member ∉ seen := fun hmem =>
      (List.nodup_append.1 h).2.2 member List.mem_cons_self member hmem rfl
    rw [seeMembers, if_neg hfresh]
    exact ih hmid

theorem faultFrom_of_valid {classes : List CongruenceClass} {position : Nat} {seen : List Phrase}
    (hindex : classes.map CongruenceClass.index = List.range' position classes.length)
    (hnodup : (classes.flatMap CongruenceClass.members ++ seen).Nodup) :
    faultFrom position seen classes = none := by
  induction classes generalizing position seen with
  | nil => rfl
  | cons c rest ih =>
    rw [List.map_cons, List.length_cons, List.range'_succ, List.cons.injEq] at hindex
    rw [List.flatMap_cons, List.append_assoc] at hnodup
    have hperm : (c.members ++ (rest.flatMap CongruenceClass.members ++ seen)).Perm
        (rest.flatMap CongruenceClass.members ++ (c.members ++ seen)) :=
      List.perm_append_comm_assoc _ _ _
    have hmembers := (List.nodup_append.1 (hperm.nodup_iff.1 hnodup)).2.1
    obtain ⟨seen', hseen⟩ := seeMembers_of_nodup hmembers
    have hseen' := (seeMembers_ok (List.nodup_append.1 hmembers).2.1 hseen).2
    rw [faultFrom, if_neg (not_not.2 hindex.1), hseen]
    apply ih hindex.2
    exact ((hseen'.append_left _).trans hperm.symm).nodup_iff.2 hnodup

/-- The check accepts the classes of a partition, and gives the partition back. -/
theorem ofClasses_classes (p : Partition) : ofClasses p.classes = .ok p := by
  have hnone : faultFrom 0 [] p.classes = none := by
    apply faultFrom_of_valid
    · rw [p.numbered, List.range_eq_range']
    · simpa using p.disjoint
  rw [ofClasses]
  split
  · rename_i fault hfault
    rw [hnone] at hfault
    cases hfault
  · rfl

end Partition

end Substitutability
