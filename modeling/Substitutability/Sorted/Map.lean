import Substitutability.Sorted.Set

/-!
# Maps in ascending order

A map is the list of its entries, keys strictly ascending, so two maps with the
same entries are equal. `alter` is the one way to change an entry.
-/

set_option autoImplicit false

namespace Substitutability

variable {κ α : Type} [Ord κ]

structure SortedMap (κ α : Type) [Ord κ] where
  toList : List (κ × α)
  ascending : Ascending (toList.map Prod.fst)

namespace SortedMap

def alterList (key : κ) (f : Option α → α) : List (κ × α) → List (κ × α)
  | [] => [(key, f none)]
  | (k, value) :: rest =>
    match compare key k with
    | .lt => (key, f none) :: (k, value) :: rest
    | .eq => (k, f (some value)) :: rest
    | .gt => (k, value) :: alterList key f rest

theorem keys_alterList (key : κ) (f : Option α → α) (entries : List (κ × α)) :
    (alterList key f entries).map Prod.fst = SortedSet.insertList key (entries.map Prod.fst) := by
  induction entries with
  | nil => rfl
  | cons entry rest ih =>
    obtain ⟨k, value⟩ := entry
    cases h : compare key k <;> simp [alterList, SortedSet.insertList, h, ih]

def findList (key : κ) : List (κ × α) → Option α
  | [] => none
  | (k, value) :: rest => if compare key k = .eq then some value else findList key rest

def empty : SortedMap κ α :=
  ⟨[], SortedSet.ascending_nil⟩

instance : EmptyCollection (SortedMap κ α) := ⟨empty⟩

instance : Inhabited (SortedMap κ α) := ⟨empty⟩

def keys (m : SortedMap κ α) : List κ :=
  m.toList.map Prod.fst

def values (m : SortedMap κ α) : List α :=
  m.toList.map Prod.snd

def size (m : SortedMap κ α) : Nat :=
  m.toList.length

def find? (m : SortedMap κ α) (key : κ) : Option α :=
  findList key m.toList

def contains (m : SortedMap κ α) (key : κ) : Bool :=
  (m.find? key).isSome

variable [Std.TransOrd κ] [Std.LawfulEqOrd κ]

def alter (key : κ) (f : Option α → α) (m : SortedMap κ α) : SortedMap κ α :=
  ⟨alterList key f m.toList, by
    rw [keys_alterList]
    exact SortedSet.ascending_insertList key m.ascending⟩

def insert (key : κ) (value : α) (m : SortedMap κ α) : SortedMap κ α :=
  m.alter key fun _ => value

/-- Change the entries of some keys, the last one first. Changes in ascending
order of keys touch only the front of an empty map. -/
def alterAll {β : Type} (f : β → Option α → α) (changes : List (κ × β)) (m : SortedMap κ α) :
    SortedMap κ α :=
  changes.foldr (fun change m => m.alter change.1 (f change.2)) m

theorem mem_keys_alter {key x : κ} {f : Option α → α} {m : SortedMap κ α} :
    x ∈ (m.alter key f).keys ↔ x = key ∨ x ∈ m.keys := by
  simp only [keys, alter, keys_alterList, SortedSet.mem_insertList]

theorem mem_keys_alterAll {β : Type} {x : κ} {f : β → Option α → α} {changes : List (κ × β)}
    {m : SortedMap κ α} :
    x ∈ (alterAll f changes m).keys ↔ x ∈ changes.map Prod.fst ∨ x ∈ m.keys := by
  induction changes with
  | nil => simp [alterAll]
  | cons change rest ih =>
    have : alterAll f (change :: rest) m = (alterAll f rest m).alter change.1 (f change.2) := rfl
    rw [this, mem_keys_alter, ih, List.map_cons, List.mem_cons, or_assoc]

/-- A later entry of the same key replaces an earlier one. -/
def ofList (entries : List (κ × α)) : SortedMap κ α :=
  entries.foldl (fun m entry => m.insert entry.1 entry.2) empty

def group (items : List (κ × α)) : SortedMap κ (List α) :=
  items.foldl (fun m item => m.alter item.1 fun old => old.getD [] ++ [item.2]) empty

omit [Std.TransOrd κ] [Std.LawfulEqOrd κ] in
theorem perm_alterList_append (key : κ) (item : α) (entries : List (κ × List α)) :
    ((alterList key (fun old => old.getD [] ++ [item]) entries).map Prod.snd).flatten.Perm
      (item :: (entries.map Prod.snd).flatten) := by
  induction entries with
  | nil => simp [alterList]
  | cons entry rest ih =>
    obtain ⟨k, items⟩ := entry
    simp only [alterList]
    split
    · simp
    · simp
    · simp only [List.map_cons, List.flatten_cons]
      exact (ih.append_left items).trans List.perm_middle

theorem perm_flatten_group (items : List (κ × α)) :
    (group items).values.flatten.Perm (items.map Prod.snd) := by
  have step : ∀ (items : List (κ × α)) (m : SortedMap κ (List α)),
      (items.foldl (fun m item => m.alter item.1 fun old => old.getD [] ++ [item.2]) m).values.flatten.Perm
        (m.values.flatten ++ items.map Prod.snd) := by
    intro items
    induction items with
    | nil => intro m; simp
    | cons item rest ih =>
      intro m
      refine (ih _).trans ?_
      refine ((perm_alterList_append item.1 item.2 m.toList).append_right _).trans ?_
      exact List.perm_middle.symm
  simpa [group, empty, values] using step items empty

end SortedMap

end Substitutability
