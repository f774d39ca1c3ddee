/-!
# Sets in ascending order

A set is the strictly ascending list of its elements, so two sets with the same
elements are equal. `insert` walks to the place of the new element.
-/

set_option autoImplicit false

namespace Substitutability

variable {α : Type} [Ord α]

def Ascending (xs : List α) : Prop :=
  xs.Pairwise fun a b => compare a b = .lt

structure SortedSet (α : Type) [Ord α] where
  toList : List α
  ascending : Ascending toList

namespace SortedSet

def insertList (a : α) : List α → List α
  | [] => [a]
  | b :: rest =>
    match compare a b with
    | .lt => a :: b :: rest
    | .eq => b :: rest
    | .gt => b :: insertList a rest

theorem mem_insertList [Std.LawfulEqOrd α] {a x : α} {xs : List α} :
    x ∈ insertList a xs ↔ x = a ∨ x ∈ xs := by
  induction xs with
  | nil => simp [insertList]
  | cons b rest ih =>
    unfold insertList
    split
    · simp
    · rename_i h
      have := Std.LawfulEqOrd.eq_of_compare h
      subst this
      simp
    · simp only [List.mem_cons, ih]
      constructor <;> rintro (h | h | h) <;> simp [h]

theorem ascending_insertList [Std.TransOrd α] [Std.LawfulEqOrd α] (a : α) {xs : List α}
    (h : Ascending xs) : Ascending (insertList a xs) := by
  induction xs with
  | nil => simp [insertList, Ascending]
  | cons b rest ih =>
    have hb := (List.pairwise_cons.1 h).1
    have hr := (List.pairwise_cons.1 h).2
    unfold insertList
    split
    · rename_i hab
      refine List.pairwise_cons.2 ⟨?_, h⟩
      intro x hx
      rcases List.mem_cons.1 hx with rfl | hx
      · exact hab
      · exact Std.TransCmp.lt_trans hab (hb x hx)
    · exact h
    · rename_i hab
      refine List.pairwise_cons.2 ⟨?_, ih hr⟩
      intro x hx
      rcases mem_insertList.1 hx with rfl | hx
      · exact Std.OrientedCmp.gt_iff_lt.1 hab
      · exact hb x hx

theorem ascending_nil : Ascending ([] : List α) :=
  List.Pairwise.nil

def empty : SortedSet α :=
  ⟨[], ascending_nil⟩

instance : EmptyCollection (SortedSet α) := ⟨empty⟩

instance : Inhabited (SortedSet α) := ⟨empty⟩

instance : Membership α (SortedSet α) := ⟨fun s a => a ∈ s.toList⟩

variable [Std.TransOrd α] [Std.LawfulEqOrd α]

def insert (a : α) (s : SortedSet α) : SortedSet α :=
  ⟨insertList a s.toList, ascending_insertList a s.ascending⟩

def insertAll (xs : List α) (s : SortedSet α) : SortedSet α :=
  xs.foldl (fun s a => s.insert a) s

def ofList (xs : List α) : SortedSet α :=
  insertAll xs empty

omit [Std.TransOrd α] [Std.LawfulEqOrd α] in
theorem not_mem_empty (a : α) : a ∉ (empty : SortedSet α) :=
  List.not_mem_nil

theorem mem_insert {a x : α} {s : SortedSet α} : x ∈ s.insert a ↔ x = a ∨ x ∈ s :=
  mem_insertList

theorem mem_insertAll {x : α} {xs : List α} {s : SortedSet α} :
    x ∈ insertAll xs s ↔ x ∈ xs ∨ x ∈ s := by
  induction xs generalizing s with
  | nil => simp [insertAll]
  | cons a rest ih =>
    have : insertAll (a :: rest) s = insertAll rest (s.insert a) := rfl
    rw [this, ih, mem_insert, List.mem_cons]
    simp only [or_assoc, or_left_comm]

theorem mem_ofList {x : α} {xs : List α} : x ∈ ofList xs ↔ x ∈ xs := by
  simp [ofList, mem_insertAll, not_mem_empty]

end SortedSet

end Substitutability
