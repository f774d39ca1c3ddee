import Mathlib.Data.List.Induction
import Substitutability.Sorted.Map

/-!
# Sorted sets and maps

A list in ascending order is determined by its elements, so two maps with the same
answers are equal. Grouping answers a key with the items of that key.
-/

set_option autoImplicit false

namespace Substitutability

variable {α β κ : Type} [Ord α] [Ord κ]

theorem compare_self_ne_lt [Std.ReflOrd α] (a : α) : compare a a ≠ .lt := by
  simp [Std.ReflOrd.compare_self]

theorem Ascending.nodup [Std.TransOrd α] {xs : List α} (h : Ascending xs) : xs.Nodup := by
  refine h.imp ?_
  rintro a b hab rfl
  exact compare_self_ne_lt a hab

theorem eq_of_ascending_map [Std.TransOrd α] {f : β → α} {xs ys : List β}
    (hx : Ascending (xs.map f)) (hy : Ascending (ys.map f)) (h : ∀ b, b ∈ xs ↔ b ∈ ys) :
    xs = ys := by
  have nodup_of : ∀ {zs : List β}, Ascending (zs.map f) → zs.Nodup := by
    intro zs hz
    refine List.Pairwise.of_map f ?_ hz.nodup
    exact fun a b hab => fun hf => hab (congrArg f hf)
  have hperm : xs.Perm ys :=
    (List.perm_ext_iff_of_nodup (nodup_of hx) (nodup_of hy)).2 h
  refine hperm.eq_of_pairwise ?_ (List.pairwise_map.1 hx) (List.pairwise_map.1 hy)
  intro a b _ _ hab hba
  exact absurd (Std.TransCmp.lt_trans hab hba) (compare_self_ne_lt (f a))

theorem eq_of_ascending [Std.TransOrd α] {xs ys : List α} (hx : Ascending xs)
    (hy : Ascending ys) (h : ∀ a, a ∈ xs ↔ a ∈ ys) : xs = ys := by
  apply eq_of_ascending_map (f := id)
  · rwa [List.map_id]
  · rwa [List.map_id]
  · exact h

namespace SortedSet

variable [Std.TransOrd α]

theorem ext {s t : SortedSet α} (h : ∀ a, a ∈ s ↔ a ∈ t) : s = t := by
  have htoList : s.toList = t.toList := eq_of_ascending s.ascending t.ascending h
  cases s
  cases t
  congr 1

theorem ofList_congr [Std.LawfulEqOrd α] {xs ys : List α} (h : ∀ a, a ∈ xs ↔ a ∈ ys) :
    ofList xs = ofList ys := by
  apply ext
  intro a
  rw [mem_ofList, mem_ofList, h]

end SortedSet

namespace SortedMap

theorem size_eq_length_keys (m : SortedMap κ β) : m.size = m.keys.length :=
  (List.length_map _).symm

section Lookup

variable [Std.LawfulEqOrd κ]

theorem findList_eq_some {key : κ} {value : β} {entries : List (κ × β)}
    (h : Ascending (entries.map Prod.fst)) :
    findList key entries = some value ↔ (key, value) ∈ entries := by
  induction entries with
  | nil => simp [findList]
  | cons entry rest ih =>
    obtain ⟨k, v⟩ := entry
    obtain ⟨hk, hrest⟩ := List.pairwise_cons.1 h
    rw [findList]
    split
    · rename_i he
      have hkey : key = k := Std.LawfulEqOrd.eq_of_compare he
      subst hkey
      have hnot : (key, value) ∉ rest := fun hmem =>
        compare_self_ne_lt key (hk key (List.mem_map.2 ⟨_, hmem, rfl⟩))
      simp [hnot, eq_comm]
    · rename_i he
      have hkey : key ≠ k := fun hk => he (hk ▸ Std.ReflOrd.compare_self)
      rw [ih hrest]
      simp [hkey]

theorem mem_of_findList {key : κ} {value : β} {entries : List (κ × β)}
    (h : findList key entries = some value) : (key, value) ∈ entries := by
  induction entries with
  | nil => cases h
  | cons entry rest ih =>
    obtain ⟨k, v⟩ := entry
    rw [findList] at h
    split at h
    · rename_i he
      obtain rfl := Std.LawfulEqOrd.eq_of_compare he
      cases h
      exact List.mem_cons_self
    · exact List.mem_cons_of_mem _ (ih h)

theorem find?_eq_some {m : SortedMap κ β} {key : κ} {value : β} :
    m.find? key = some value ↔ (key, value) ∈ m.toList :=
  findList_eq_some m.ascending

omit [Std.LawfulEqOrd κ] in
theorem find?_empty (key : κ) : (empty : SortedMap κ β).find? key = none := rfl

theorem mem_keys {m : SortedMap κ β} {key : κ} :
    key ∈ m.keys ↔ ∃ value, m.find? key = some value := by
  simp only [keys, List.mem_map, find?_eq_some]
  constructor
  · rintro ⟨⟨k, v⟩, hmem, rfl⟩
    exact ⟨v, hmem⟩
  · rintro ⟨v, hmem⟩
    exact ⟨(key, v), hmem, rfl⟩

theorem mem_values {m : SortedMap κ β} {value : β} :
    value ∈ m.values ↔ ∃ key, m.find? key = some value := by
  simp only [values, List.mem_map, find?_eq_some]
  constructor
  · rintro ⟨⟨k, v⟩, hmem, rfl⟩
    exact ⟨k, hmem⟩
  · rintro ⟨k, hmem⟩
    exact ⟨(k, value), hmem, rfl⟩

theorem findList_alterList_ne {key x : κ} {f : Option β → β} {entries : List (κ × β)}
    (hne : x ≠ key) : findList x (alterList key f entries) = findList x entries := by
  have hcompare : compare x key ≠ .eq := fun h => hne (Std.LawfulEqOrd.eq_of_compare h)
  induction entries with
  | nil => simp [alterList, findList, hcompare]
  | cons entry rest ih =>
    obtain ⟨k, v⟩ := entry
    rw [alterList]
    split
    · simp [findList, hcompare]
    · rename_i heq
      have := Std.LawfulEqOrd.eq_of_compare heq
      subst this
      simp [findList, hcompare]
    · simp only [findList, ih]

variable [Std.TransOrd κ]

theorem ext_find? {m n : SortedMap κ β} (h : ∀ key, m.find? key = n.find? key) : m = n := by
  have htoList : m.toList = n.toList := by
    apply eq_of_ascending_map m.ascending n.ascending
    rintro ⟨key, value⟩
    rw [← find?_eq_some, ← find?_eq_some, h]
  obtain ⟨xs, hx⟩ := m
  obtain ⟨ys, hy⟩ := n
  congr 1

theorem findList_alterList_self {key : κ} {f : Option β → β} {entries : List (κ × β)}
    (h : Ascending (entries.map Prod.fst)) :
    findList key (alterList key f entries) = some (f (findList key entries)) := by
  induction entries with
  | nil => simp [alterList, findList, Std.ReflOrd.compare_self]
  | cons entry rest ih =>
    obtain ⟨k, v⟩ := entry
    obtain ⟨hk, hrest⟩ := List.pairwise_cons.1 h
    rw [alterList]
    split
    · rename_i hlt
      have hnone : findList key ((k, v) :: rest) = none := by
        rw [Option.eq_none_iff_forall_ne_some]
        intro value hvalue
        rcases List.mem_cons.1 ((findList_eq_some h).1 hvalue) with he | hmem
        · cases he
          exact compare_self_ne_lt key hlt
        · have hgt := hk key (List.mem_map.2 ⟨_, hmem, rfl⟩)
          exact compare_self_ne_lt key (Std.TransCmp.lt_trans hlt hgt)
      rw [hnone]
      simp [findList, Std.ReflOrd.compare_self]
    · rename_i heq
      simp [findList, heq]
    · rename_i hgt
      simp [findList, hgt, ih hrest]

theorem find?_alter_self (key : κ) (f : Option β → β) (m : SortedMap κ β) :
    (m.alter key f).find? key = some (f (m.find? key)) :=
  findList_alterList_self m.ascending

theorem find?_alter_ne {key x : κ} (h : x ≠ key) (f : Option β → β) (m : SortedMap κ β) :
    (m.alter key f).find? x = m.find? x :=
  findList_alterList_ne h

theorem size_alter (key : κ) (f : Option β → β) (m : SortedMap κ β) :
    (m.alter key f).size = m.size + if m.contains key then 0 else 1 := by
  have hafter : (m.alter key f).keys.Nodup := (m.alter key f).ascending.nodup
  have hbefore : m.keys.Nodup := m.ascending.nodup
  have hcontains : m.contains key = true ↔ key ∈ m.keys := by
    rw [contains, Option.isSome_iff_exists, mem_keys]
  rw [size_eq_length_keys, size_eq_length_keys]
  by_cases hkey : key ∈ m.keys
  · have hperm : (m.alter key f).keys.Perm m.keys := by
      apply (List.perm_ext_iff_of_nodup hafter hbefore).2
      intro x
      rw [mem_keys_alter]
      exact ⟨fun h => h.elim (fun hx => hx ▸ hkey) id, .inr⟩
    rw [hperm.length_eq, if_pos (hcontains.2 hkey), Nat.add_zero]
  · have hperm : (m.alter key f).keys.Perm (key :: m.keys) := by
      apply (List.perm_ext_iff_of_nodup hafter (List.nodup_cons.2 ⟨hkey, hbefore⟩)).2
      intro x
      rw [mem_keys_alter, List.mem_cons]
    rw [hperm.length_eq, if_neg (mt hcontains.1 hkey), List.length_cons]

theorem alter_congr {key : κ} {f f' : Option β → β} {m : SortedMap κ β}
    (h : f (m.find? key) = f' (m.find? key)) : m.alter key f = m.alter key f' := by
  apply ext_find?
  intro x
  by_cases hx : x = key
  · rw [hx, find?_alter_self, find?_alter_self, h]
  · rw [find?_alter_ne hx, find?_alter_ne hx]

theorem alter_eq_self {key : κ} {f : Option β → β} {m : SortedMap κ β} {value : β}
    (hvalue : m.find? key = some value) (h : f (some value) = value) : m.alter key f = m := by
  apply ext_find?
  intro x
  by_cases hx : x = key
  · rw [hx, find?_alter_self, hvalue, h]
  · rw [find?_alter_ne hx]

theorem ofList_append_singleton (entries : List (κ × β)) (key : κ) (value : β) :
    ofList (entries ++ [(key, value)]) = (ofList entries).insert key value := by
  rw [ofList, List.foldl_append]
  rfl

theorem find?_ofList {entries : List (κ × β)} (h : (entries.map Prod.fst).Nodup) {key : κ}
    {value : β} : (ofList entries).find? key = some value ↔ (key, value) ∈ entries := by
  induction entries using List.reverseRecOn with
  | nil => simp [ofList, find?_empty]
  | append_singleton entries entry ih =>
    obtain ⟨k, v⟩ := entry
    rw [List.map_append, List.nodup_append] at h
    rw [ofList_append_singleton, insert, List.mem_append, List.mem_singleton]
    by_cases hk : key = k
    · subst hk
      have hfresh : ∀ value, (key, value) ∉ entries := fun value hmem =>
        h.2.2 key (List.mem_map.2 ⟨_, hmem, rfl⟩) key (List.mem_singleton.2 rfl) rfl
      rw [find?_alter_self]
      simp [hfresh, eq_comm]
    · rw [find?_alter_ne hk, ih h.1]
      simp [hk]

theorem size_ofList {entries : List (κ × β)} (h : (entries.map Prod.fst).Nodup) :
    (ofList entries).size = entries.length := by
  have hkeys : (ofList entries).keys.Nodup := (ofList entries).ascending.nodup
  have hperm : (ofList entries).keys.Perm (entries.map Prod.fst) := by
    apply (List.perm_ext_iff_of_nodup hkeys h).2
    intro key
    rw [mem_keys]
    simp only [find?_ofList h, List.mem_map, Prod.exists, exists_and_right, exists_eq_right]
  rw [size_eq_length_keys, hperm.length_eq, List.length_map]

theorem ofList_toList (m : SortedMap κ β) : ofList m.toList = m := by
  apply ext_find?
  intro key
  ext value
  rw [find?_ofList m.ascending.nodup, find?_eq_some]

theorem find?_ofList_append (entries more : List (κ × β)) (key : κ) :
    (ofList (entries ++ more)).find? key =
      ((ofList more).find? key).or ((ofList entries).find? key) := by
  induction more using List.reverseRecOn with
  | nil =>
    have hnone : (ofList ([] : List (κ × β))).find? key = none := rfl
    rw [List.append_nil, hnone, Option.none_or]
  | append_singleton more last ih =>
    obtain ⟨k, v⟩ := last
    rw [← List.append_assoc, ofList_append_singleton, ofList_append_singleton, insert, insert]
    by_cases hkey : key = k
    · rw [hkey, find?_alter_self, find?_alter_self, Option.some_or]
    · rw [find?_alter_ne hkey, find?_alter_ne hkey, ih]

theorem mem_of_mem_ofList {entries : List (κ × β)} {entry : κ × β}
    (h : entry ∈ (ofList entries).toList) : entry ∈ entries := by
  induction entries using List.reverseRecOn with
  | nil => cases h
  | append_singleton entries last ih =>
    rw [ofList_append_singleton, insert] at h
    have hfind := find?_eq_some.2 h
    by_cases hkey : entry.1 = last.1
    · rw [hkey, find?_alter_self] at hfind
      have hlast : entry = last := Prod.ext hkey (Option.some.inj hfind).symm
      exact List.mem_append_right _ (hlast ▸ List.mem_cons_self)
    · rw [find?_alter_ne hkey, find?_eq_some] at hfind
      exact List.mem_append_left _ (ih hfind)

/-! ### Other values under the same keys -/

section Values

variable {γ : Type} (f : β → γ)

omit [Std.LawfulEqOrd κ] [Std.TransOrd κ] in
theorem findList_map (key : κ) (entries : List (κ × β)) :
    findList key (entries.map (Prod.map id f)) = (findList key entries).map f := by
  induction entries with
  | nil => rfl
  | cons entry rest ih =>
    obtain ⟨k, v⟩ := entry
    rw [List.map_cons, Prod.map, id, findList, findList, ih]
    split <;> rfl

omit [Std.LawfulEqOrd κ] [Std.TransOrd κ] in
theorem alterList_map (key : κ) (value : β) (entries : List (κ × β)) :
    alterList key (fun _ => f value) (entries.map (Prod.map id f)) =
      (alterList key (fun _ => value) entries).map (Prod.map id f) := by
  induction entries with
  | nil => rfl
  | cons entry rest ih =>
    obtain ⟨k, v⟩ := entry
    simp only [alterList, List.map_cons, Prod.map, id_eq]
    cases compare key k with
    | lt => rfl
    | eq => rfl
    | gt => exact congrArg _ ih

theorem toList_ofList_map (entries : List (κ × β)) :
    (ofList (entries.map (Prod.map id f))).toList =
      (ofList entries).toList.map (Prod.map id f) := by
  induction entries using List.reverseRecOn with
  | nil => rfl
  | append_singleton entries entry ih =>
    obtain ⟨key, value⟩ := entry
    rw [List.map_append, List.map_singleton, Prod.map, id, ofList_append_singleton,
      ofList_append_singleton]
    show alterList key (fun _ => f value) _ = (alterList key (fun _ => value) _).map _
    rw [ih, alterList_map]

end Values

end Lookup

section Grouping

variable [DecidableEq κ]

def itemsOf (key : κ) (items : List (κ × β)) : List β :=
  items.filterMap fun item => if item.1 = key then some item.2 else none

omit [Ord κ] in
theorem mem_itemsOf {key : κ} {b : β} {items : List (κ × β)} :
    b ∈ itemsOf key items ↔ (key, b) ∈ items := by
  simp only [itemsOf, List.mem_filterMap, Option.ite_none_right_eq_some, Option.some.injEq]
  constructor
  · rintro ⟨⟨k, v⟩, hmem, rfl, rfl⟩
    exact hmem
  · intro hmem
    exact ⟨(key, b), hmem, rfl, rfl⟩

omit [Ord κ] in
theorem itemsOf_cons_self (key : κ) (b : β) (rest : List (κ × β)) :
    itemsOf key ((key, b) :: rest) = b :: itemsOf key rest := by
  simp [itemsOf]

omit [Ord κ] in
theorem itemsOf_cons_ne {key k : κ} (h : key ≠ k) (b : β) (rest : List (κ × β)) :
    itemsOf key ((k, b) :: rest) = itemsOf key rest := by
  simp [itemsOf, Ne.symm h]

omit [Ord κ] in
theorem itemsOf_append (key : κ) (items rest : List (κ × β)) :
    itemsOf key (items ++ rest) = itemsOf key items ++ itemsOf key rest :=
  List.filterMap_append

omit [Ord κ] in
theorem itemsOf_eq_singleton {key : κ} {b : β} {items : List (κ × β)}
    (h : (items.map Prod.fst).Nodup) (hmem : (key, b) ∈ items) : itemsOf key items = [b] := by
  induction items with
  | nil => cases hmem
  | cons item rest ih =>
    obtain ⟨k, c⟩ := item
    obtain ⟨hk, hrest⟩ := List.nodup_cons.1 h
    by_cases hkey : key = k
    · subst hkey
      have hnot : ∀ d, (key, d) ∉ rest := fun d hd => hk (List.mem_map.2 ⟨_, hd, rfl⟩)
      have hno : itemsOf key rest = [] :=
        List.eq_nil_iff_forall_not_mem.2 fun d hd => hnot d (mem_itemsOf.1 hd)
      have hb : b = c := by simpa [hnot] using hmem
      rw [itemsOf_cons_self, hno, hb]
    · have hb : (key, b) ∈ rest := by simpa [hkey] using hmem
      rw [itemsOf_cons_ne hkey, ih hrest hb]

variable [Std.TransOrd κ] [Std.LawfulEqOrd κ]

theorem find?_alterAll {γ : Type} (f : γ → Option β → β) (changes : List (κ × γ))
    (m : SortedMap κ β) (key : κ) :
    (alterAll f changes m).find? key =
      (itemsOf key changes).foldr (fun c old => some (f c old)) (m.find? key) := by
  induction changes with
  | nil => rfl
  | cons change rest ih =>
    obtain ⟨k, c⟩ := change
    have hcons : alterAll f ((k, c) :: rest) m = (alterAll f rest m).alter k (f c) := rfl
    by_cases hk : key = k
    · subst hk
      rw [hcons, find?_alter_self, ih, itemsOf_cons_self, List.foldr_cons]
    · rw [hcons, find?_alter_ne hk, ih, itemsOf_cons_ne hk]

theorem getD_find?_group (key : κ) (items : List (κ × β)) :
    ((group items).find? key).getD [] = itemsOf key items := by
  have run : ∀ (items : List (κ × β)) (m : SortedMap κ (List β)),
      ((items.foldl (fun m item => m.alter item.1 fun old => old.getD [] ++ [item.2]) m).find?
        key).getD [] = (m.find? key).getD [] ++ itemsOf key items := by
    intro items
    induction items with
    | nil => intro m; simp [itemsOf]
    | cons item rest ih =>
      intro m
      obtain ⟨k, b⟩ := item
      rw [List.foldl_cons, ih]
      by_cases hk : key = k
      · subst hk
        rw [find?_alter_self, itemsOf_cons_self]
        simp
      · rw [find?_alter_ne hk, itemsOf_cons_ne hk]
  simpa [group, find?_empty] using run items empty

omit [DecidableEq κ] in
theorem mem_keys_group {key : κ} {items : List (κ × β)} :
    key ∈ (group items).keys ↔ key ∈ items.map Prod.fst := by
  have run : ∀ (items : List (κ × β)) (m : SortedMap κ (List β)),
      key ∈ (items.foldl (fun m item => m.alter item.1 fun old => old.getD [] ++ [item.2]) m).keys ↔
        key ∈ m.keys ∨ key ∈ items.map Prod.fst := by
    intro items
    induction items with
    | nil => intro m; simp
    | cons item rest ih =>
      intro m
      rw [List.foldl_cons, ih, mem_keys_alter, List.map_cons, List.mem_cons]
      simp only [or_assoc, or_left_comm]
  simpa [group, keys, empty] using run items empty

theorem find?_group {key : κ} {items : List (κ × β)} {values : List β} :
    (group items).find? key = some values ↔ values = itemsOf key items ∧ values ≠ [] := by
  have hitems := getD_find?_group key items
  have hkeys : key ∈ (group items).keys ↔ itemsOf key items ≠ [] := by
    rw [mem_keys_group]
    constructor
    · intro hmem
      obtain ⟨⟨k, b⟩, hb, rfl⟩ := List.mem_map.1 hmem
      exact List.ne_nil_of_mem (mem_itemsOf.2 hb)
    · intro hne
      obtain ⟨b, hb⟩ := List.exists_mem_of_ne_nil _ hne
      exact List.mem_map.2 ⟨(key, b), mem_itemsOf.1 hb, rfl⟩
  constructor
  · intro h
    have hmem : key ∈ (group items).keys := mem_keys.2 ⟨values, h⟩
    rw [h, Option.getD_some] at hitems
    exact ⟨hitems, hitems ▸ hkeys.1 hmem⟩
  · rintro ⟨rfl, hne⟩
    obtain ⟨values, hvalues⟩ := mem_keys.1 (hkeys.2 hne)
    rw [hvalues, Option.getD_some] at hitems
    rw [hvalues, hitems]

end Grouping

end SortedMap

end Substitutability
