import Substitutability.DisjointSet
import Mathlib.Data.Finset.Card
import Mathlib.Data.Finset.Range
import Mathlib.Logic.Relation

/-!
# Disjoint sets hold the equivalence closure

The size that an element had when it lost its place as a root is at most half of
the size of its parent. Hence the chain of parents of every element ends at a
root before the fuel of a search runs out, and the root function is the only one
that is constant along parents and fixes the roots. Searches keep it, uniting two
elements merges their two roots, and after a whole run two elements have one root
exactly when the united pairs link them.
-/

set_option autoImplicit false

namespace Substitutability.DisjointSet

/-- The recorded size of the set of a root; for any other element, of the set that
it was the root of. -/
def weight (s : DisjointSet) (i : Nat) : Nat :=
  s.sizes.getD i 0

/-- Parents are elements, and a step to a parent at least doubles the weight. -/
structure Forest (s : DisjointSet) : Prop where
  size_sizes : s.sizes.size = s.size
  parent_lt : ∀ i < s.size, parent s.parents i < s.size
  weight_pos : ∀ i < s.size, 0 < s.weight i
  doubles : ∀ i < s.size, parent s.parents i ≠ i →
    2 * s.weight i ≤ s.weight (parent s.parents i)

theorem parent_eq_getElem {parents : Array Nat} {i : Nat} (h : i < parents.size) :
    parent parents i = parents[i] := by
  simp [parent, h]

theorem parent_of_size_le {parents : Array Nat} {i : Nat} (h : parents.size ≤ i) :
    parent parents i = i := by
  simp [parent, Array.getD, Nat.not_lt.2 h]

theorem parent_setIfInBounds {parents : Array Nat} {i r : Nat} (hi : i < parents.size) (j : Nat) :
    parent (parents.setIfInBounds i r) j = if j = i then r else parent parents j := by
  by_cases hj : j < parents.size
  · rw [parent_eq_getElem (by simpa using hj), Array.getElem_setIfInBounds hj,
      parent_eq_getElem hj]
    simp only [eq_comm]
  · have hne : j ≠ i := by omega
    rw [parent_of_size_le (by simpa using hj), parent_of_size_le (by omega), if_neg hne]

theorem climb_of_settled {parents : Array Nat} {i : Nat} (h : parent parents i = i) (fuel : Nat) :
    climb parents fuel i = i := by
  cases fuel with
  | zero => rfl
  | succ fuel => rw [climb, if_pos h]

theorem climb_succ_of_settled {parents : Array Nat} {fuel i : Nat}
    (h : parent parents (climb parents fuel i) = climb parents fuel i) :
    climb parents (fuel + 1) i = climb parents fuel i := by
  induction fuel generalizing i with
  | zero => exact climb_of_settled h 1
  | succ fuel ih =>
    by_cases hi : parent parents i = i
    · rw [climb_of_settled hi, climb_of_settled hi]
    · have hstep : ∀ fuel, climb parents (fuel + 1) i = climb parents fuel (parent parents i) :=
        fun fuel => by rw [climb, if_neg hi]
      rw [hstep] at h
      rw [hstep, hstep]
      exact ih h

def heavier (s : DisjointSet) (i : Nat) : Finset Nat :=
  (Finset.range s.size).filter fun j => s.weight i < s.weight j

theorem card_heavier_le (s : DisjointSet) (i : Nat) : (s.heavier i).card ≤ s.size :=
  (Finset.card_filter_le _ _).trans (Finset.card_range s.size).le

namespace Forest

variable {s : DisjointSet}

theorem weight_lt_parent (h : Forest s) {i : Nat} (hi : i < s.size)
    (hne : parent s.parents i ≠ i) : s.weight i < s.weight (parent s.parents i) := by
  have hpos := h.weight_pos i hi
  have hdouble := h.doubles i hi hne
  omega

theorem card_heavier_parent (h : Forest s) {i : Nat} (hi : i < s.size)
    (hne : parent s.parents i ≠ i) : (s.heavier (parent s.parents i)).card < (s.heavier i).card := by
  have hlt := h.weight_lt_parent hi hne
  have hmem : parent s.parents i ∈ s.heavier i :=
    Finset.mem_filter.2 ⟨Finset.mem_range.2 (h.parent_lt i hi), hlt⟩
  have hnot : parent s.parents i ∉ s.heavier (parent s.parents i) :=
    fun hself => lt_irrefl _ (Finset.mem_filter.1 hself).2
  have hsubset : s.heavier (parent s.parents i) ⊆ s.heavier i := by
    intro j hj
    simp only [heavier, Finset.mem_filter] at hj ⊢
    exact ⟨hj.1, lt_trans hlt hj.2⟩
  exact Finset.card_lt_card (Finset.ssubset_of_subset_of_ssubset (Finset.subset_erase.2 ⟨hsubset, hnot⟩)
    (Finset.erase_ssubset hmem))

/-- As many steps as there are heavier elements lead to a root. -/
theorem climb_settled (h : Forest s) {fuel i : Nat} (hi : i < s.size)
    (hfuel : (s.heavier i).card ≤ fuel) :
    parent s.parents (climb s.parents fuel i) = climb s.parents fuel i := by
  induction fuel generalizing i with
  | zero =>
    by_contra hne
    have := h.card_heavier_parent hi hne
    omega
  | succ fuel ih =>
    by_cases hne : parent s.parents i = i
    · rw [climb, if_pos hne]
      exact hne
    · rw [climb, if_neg hne]
      have hfewer := h.card_heavier_parent hi hne
      exact ih (h.parent_lt i hi) (by omega)

theorem parent_root (h : Forest s) (i : Nat) : parent s.parents (s.root i) = s.root i := by
  by_cases hi : i < s.size
  · exact h.climb_settled hi (s.card_heavier_le i)
  · have hsettled : parent s.parents i = i := parent_of_size_le (Nat.not_lt.1 hi)
    rw [root, climb_of_settled hsettled, hsettled]

theorem root_of_settled {i : Nat} (h : parent s.parents i = i) : s.root i = i :=
  climb_of_settled h s.size

theorem root_parent (h : Forest s) (i : Nat) : s.root (parent s.parents i) = s.root i := by
  by_cases hi : parent s.parents i = i
  · rw [hi]
  · have hstep : climb s.parents (s.size + 1) i = s.root (parent s.parents i) := by
      rw [climb, if_neg hi]
      rfl
    rw [← hstep, climb_succ_of_settled (h.parent_root i)]
    rfl

theorem root_root (h : Forest s) (i : Nat) : s.root (s.root i) = s.root i :=
  root_of_settled (h.parent_root i)

theorem root_eq (h : Forest s) {f : Nat → Nat} (hparent : ∀ i, f (parent s.parents i) = f i)
    (hroot : ∀ i, parent s.parents i = i → f i = i) (i : Nat) : s.root i = f i := by
  have hclimb : ∀ fuel i, f (climb s.parents fuel i) = f i := by
    intro fuel
    induction fuel with
    | zero => intro i; rfl
    | succ fuel ih =>
      intro i
      rw [climb]
      split
      · rfl
      · rw [ih, hparent]
  rw [← hroot _ (h.parent_root i)]
  exact hclimb s.size i

theorem climb_bounds (h : Forest s) {i : Nat} (hi : i < s.size) (fuel : Nat) :
    climb s.parents fuel i < s.size ∧ s.weight i ≤ s.weight (climb s.parents fuel i) := by
  induction fuel generalizing i with
  | zero => exact ⟨hi, le_rfl⟩
  | succ fuel ih =>
    rw [climb]
    split
    · exact ⟨hi, le_rfl⟩
    · rename_i hne
      obtain ⟨hlt, hle⟩ := ih (h.parent_lt i hi)
      exact ⟨hlt, (h.weight_lt_parent hi hne).le.trans hle⟩

theorem root_lt (h : Forest s) {i : Nat} (hi : i < s.size) : s.root i < s.size :=
  (h.climb_bounds hi s.size).1

theorem doubles_root (h : Forest s) {i : Nat} (hi : i < s.size)
    (hne : parent s.parents i ≠ i) : 2 * s.weight i ≤ s.weight (s.root i) := by
  rw [← h.root_parent i]
  exact (h.doubles i hi hne).trans (h.climb_bounds (h.parent_lt i hi) s.size).2

end Forest

/-! ## One step -/

theorem size_ofSize (n : Nat) : (ofSize n).size = n := by
  simp [ofSize, size]

theorem parent_ofSize (n i : Nat) : parent (ofSize n).parents i = i := by
  by_cases hi : i < n
  · rw [parent_eq_getElem (by simpa [ofSize] using hi)]
    simp [ofSize]
  · exact parent_of_size_le (by simpa [ofSize] using hi)

theorem forest_ofSize (n : Nat) : Forest (ofSize n) where
  size_sizes := by simp [ofSize, size]
  parent_lt i hi := by rwa [parent_ofSize]
  weight_pos i hi := by
    rw [size_ofSize] at hi
    simp [weight, ofSize, Array.getD, hi]
  doubles i _ hne := absurd (parent_ofSize n i) hne

theorem root_ofSize (n i : Nat) : (ofSize n).root i = i :=
  Forest.root_of_settled (parent_ofSize n i)

def redirect (s : DisjointSet) (i r : Nat) : DisjointSet :=
  { s with parents := s.parents.setIfInBounds i r }

theorem size_redirect (s : DisjointSet) (i r : Nat) : (s.redirect i r).size = s.size := by
  simp [redirect, size]

theorem Forest.redirect {s : DisjointSet} (h : Forest s) {i : Nat} (hi : i < s.size)
    (hne : parent s.parents i ≠ i) : Forest (s.redirect i (s.root i)) := by
  have hparent := parent_setIfInBounds (r := s.root i) hi
  refine ⟨?_, ?_, ?_, ?_⟩
  · rw [size_redirect]
    exact h.size_sizes
  · intro j hj
    rw [size_redirect] at hj ⊢
    change parent (s.parents.setIfInBounds i (s.root i)) j < s.size
    rw [hparent]
    split
    · exact h.root_lt hi
    · exact h.parent_lt j hj
  · intro j hj
    rw [size_redirect] at hj
    exact h.weight_pos j hj
  · intro j hj
    rw [size_redirect] at hj
    change parent (s.parents.setIfInBounds i (s.root i)) j ≠ j →
      2 * s.weight j ≤ s.weight (parent (s.parents.setIfInBounds i (s.root i)) j)
    rw [hparent]
    split
    · rename_i hji
      subst hji
      exact fun _ => h.doubles_root hi hne
    · exact h.doubles j hj

theorem Forest.root_redirect {s : DisjointSet} (h : Forest s) {i : Nat} (hi : i < s.size)
    (hne : parent s.parents i ≠ i) (j : Nat) : (s.redirect i (s.root i)).root j = s.root j := by
  have hparent := parent_setIfInBounds (r := s.root i) hi
  refine (h.redirect hi hne).root_eq ?_ ?_ j
  · intro j
    change s.root (parent (s.parents.setIfInBounds i (s.root i)) j) = s.root j
    rw [hparent]
    split
    · rename_i hji
      rw [hji, h.root_root]
    · exact h.root_parent j
  · intro j
    change parent (s.parents.setIfInBounds i (s.root i)) j = j → s.root j = j
    rw [hparent]
    split
    · rename_i hji
      exact fun hroot => hji ▸ hroot
    · exact Forest.root_of_settled

/-- What a search may do to a disjoint set: nothing that its sets show. -/
structure Refines (s t : DisjointSet) : Prop where
  forest : Forest t
  size : t.size = s.size
  sizes : t.sizes = s.sizes
  count : t.count = s.count
  root : ∀ j, t.root j = s.root j

theorem Refines.weight {s t : DisjointSet} (h : Refines s t) (i : Nat) : t.weight i = s.weight i := by
  rw [DisjointSet.weight, h.sizes, DisjointSet.weight]

theorem Refines.trans {s t u : DisjointSet} (hst : Refines s t) (htu : Refines t u) :
    Refines s u :=
  ⟨htu.forest, htu.size.trans hst.size, htu.sizes.trans hst.sizes, htu.count.trans hst.count,
    fun j => (htu.root j).trans (hst.root j)⟩

theorem Forest.compress {s : DisjointSet} (h : Forest s) {i : Nat} (hi : i < s.size)
    (fuel : Nat) :
    Refines s { s with parents := DisjointSet.compress (s.root i) fuel i s.parents } := by
  induction fuel generalizing s i with
  | zero => exact ⟨h, rfl, rfl, rfl, fun _ => rfl⟩
  | succ fuel ih =>
    rw [DisjointSet.compress]
    by_cases hnext : parent s.parents i = s.root i
    · rw [if_pos hnext]
      exact ⟨h, rfl, rfl, rfl, fun _ => rfl⟩
    · rw [if_neg hnext]
      have hne : parent s.parents i ≠ i := by
        intro hi
        rw [Forest.root_of_settled hi] at hnext
        exact hnext hi
      have hredirect : Refines s (s.redirect i (s.root i)) :=
        ⟨h.redirect hi hne, size_redirect _ _ _, rfl, rfl, h.root_redirect hi hne⟩
      have hnextlt : parent s.parents i < (s.redirect i (s.root i)).size := by
        rw [size_redirect]
        exact h.parent_lt i hi
      have hrest := ih hredirect.forest hnextlt
      rw [hredirect.root, h.root_parent] at hrest
      exact hredirect.trans hrest

theorem Forest.find {s : DisjointSet} (h : Forest s) {i : Nat} (hi : i < s.size) :
    (s.find i).1 = s.root i ∧ Refines s (s.find i).2 :=
  ⟨rfl, h.compress hi s.size⟩

theorem size_link (s : DisjointSet) (a b : Nat) : (s.link a b).size = s.size := by
  simp [link, size]

section Link

variable {s : DisjointSet} {a b : Nat}

theorem weight_link (ha : a < s.sizes.size) (j : Nat) :
    (s.link a b).weight j = if j = a then s.weight a + s.weight b else s.weight j := by
  by_cases hj : j = a
  · subst hj
    simp [link, weight, ha]
  · rw [if_neg hj]
    simp [link, weight, Ne.symm hj]

theorem parent_link (hb : b < s.size) (j : Nat) :
    parent (s.link a b).parents j = if j = b then a else parent s.parents j :=
  parent_setIfInBounds hb j

theorem Forest.link (h : Forest s) (ha : a < s.size) (hb : b < s.size)
    (hroot : parent s.parents a = a) (hne : a ≠ b) (hle : s.weight b ≤ s.weight a) :
    Forest (s.link a b) := by
  have hweight := weight_link (b := b) (h.size_sizes ▸ ha)
  refine ⟨?_, ?_, ?_, ?_⟩
  · rw [size_link, ← h.size_sizes]
    simp [DisjointSet.link]
  · intro j hj
    rw [size_link] at hj ⊢
    rw [parent_link hb]
    split
    · exact ha
    · exact h.parent_lt j hj
  · intro j hj
    rw [size_link] at hj
    have := h.weight_pos j hj
    rw [hweight]
    split
    · have := h.weight_pos a ha
      omega
    · exact this
  · intro j hj
    rw [size_link] at hj
    rw [parent_link hb]
    by_cases hjb : j = b
    · subst hjb
      intro _
      rw [if_pos rfl, hweight, hweight, if_pos rfl, if_neg (Ne.symm hne)]
      omega
    · rw [if_neg hjb]
      intro hparent
      have hja : j ≠ a := fun hja => hparent (hja ▸ hroot)
      have hdouble := h.doubles j hj hparent
      rw [hweight, hweight, if_neg hja]
      split
      · rename_i hpa
        rw [hpa] at hdouble
        omega
      · exact hdouble

theorem Forest.root_link (h : Forest s) (ha : a < s.size) (hb : b < s.size)
    (hroota : parent s.parents a = a) (hrootb : parent s.parents b = b) (hne : a ≠ b)
    (hle : s.weight b ≤ s.weight a) (j : Nat) :
    (s.link a b).root j = if s.root j = b then a else s.root j := by
  refine (h.link ha hb hroota hne hle).root_eq (f := fun j => if s.root j = b then a else s.root j)
    ?_ ?_ j
  · intro j
    rw [parent_link hb]
    by_cases hjb : j = b
    · subst hjb
      rw [if_pos rfl, root_of_settled hroota, root_of_settled hrootb, if_neg hne, if_pos rfl]
    · rw [if_neg hjb, h.root_parent]
  · intro j
    rw [parent_link hb]
    split
    · rename_i hjb
      exact fun hab => absurd (hab.trans hjb) hne
    · rename_i hjb
      intro hparent
      rw [root_of_settled hparent, if_neg hjb]

end Link

/-- All that uniting two elements does: after the searches it leaves the forest
alone or links the root of the lighter set to the other root. -/
theorem Forest.unite_eq {s : DisjointSet} (h : Forest s) {a b : Nat} (ha : a < s.size)
    (hb : b < s.size) :
    ∃ t, Refines s t ∧ s.unite a b =
      if s.root a = s.root b then (false, t)
      else if s.weight (s.root a) < s.weight (s.root b) then (true, t.link (s.root b) (s.root a))
      else (true, t.link (s.root a) (s.root b)) := by
  obtain ⟨hra, hfa⟩ := h.find ha
  obtain ⟨hrb, hfb⟩ := hfa.forest.find (hfa.size ▸ hb)
  have ht := hfa.trans hfb
  rw [hfa.root] at hrb
  refine ⟨((s.find a).2.find b).2, ht, ?_⟩
  have hunite : s.unite a b =
      if (s.find a).1 = ((s.find a).2.find b).1 then (false, ((s.find a).2.find b).2)
      else if ((s.find a).2.find b).2.weight (s.find a).1 <
          ((s.find a).2.find b).2.weight ((s.find a).2.find b).1 then
        (true, ((s.find a).2.find b).2.link ((s.find a).2.find b).1 (s.find a).1)
      else (true, ((s.find a).2.find b).2.link (s.find a).1 ((s.find a).2.find b).1) := rfl
  rw [hunite, hra, hrb, ht.weight, ht.weight]

theorem Forest.unite_cases {s : DisjointSet} (h : Forest s) {a b : Nat} (ha : a < s.size)
    (hb : b < s.size) :
    ∃ t, Refines s t ∧
      ((s.root a = s.root b ∧ s.unite a b = (false, t)) ∨
        ∃ winner loser, winner ≠ loser ∧ t.weight loser ≤ t.weight winner ∧
          ((winner = s.root a ∧ loser = s.root b) ∨ (winner = s.root b ∧ loser = s.root a)) ∧
          s.unite a b = (true, t.link winner loser)) := by
  obtain ⟨t, ht, hunite⟩ := h.unite_eq ha hb
  refine ⟨t, ht, ?_⟩
  simp only [ht.weight]
  by_cases hab : s.root a = s.root b
  · rw [if_pos hab] at hunite
    exact .inl ⟨hab, hunite⟩
  · rw [if_neg hab] at hunite
    by_cases hlt : s.weight (s.root a) < s.weight (s.root b)
    · rw [if_pos hlt] at hunite
      exact .inr ⟨s.root b, s.root a, Ne.symm hab, hlt.le, .inr ⟨rfl, rfl⟩, hunite⟩
    · rw [if_neg hlt] at hunite
      exact .inr ⟨s.root a, s.root b, hab, Nat.not_lt.1 hlt, .inl ⟨rfl, rfl⟩, hunite⟩

theorem Forest.unite {s : DisjointSet} (h : Forest s) {a b : Nat} (ha : a < s.size)
    (hb : b < s.size) :
    Forest (s.unite a b).2 ∧ (s.unite a b).2.size = s.size ∧
      ∀ x y, (s.unite a b).2.root x = (s.unite a b).2.root y ↔
        s.root x = s.root y ∨ (s.root x = s.root a ∧ s.root y = s.root b) ∨
          (s.root x = s.root b ∧ s.root y = s.root a) := by
  obtain ⟨t, ht, ⟨hab, hunite⟩ | ⟨winner, loser, hne, hle, hroots, hunite⟩⟩ := h.unite_cases ha hb
  · rw [hunite]
    refine ⟨ht.forest, ht.size, fun x y => ?_⟩
    rw [ht.root, ht.root, hab]
    grind
  · have hsettled : ∀ r, r = s.root a ∨ r = s.root b → parent t.parents r = r ∧ r < t.size := by
      intro r hr
      rw [← ht.root, ← ht.root] at hr
      rcases hr with rfl | rfl
      · exact ⟨ht.forest.parent_root a, ht.forest.root_lt (ht.size ▸ ha)⟩
      · exact ⟨ht.forest.parent_root b, ht.forest.root_lt (ht.size ▸ hb)⟩
    obtain ⟨hwinner, hwinnerlt⟩ := hsettled winner (hroots.imp And.left And.left)
    obtain ⟨hloser, hloserlt⟩ := hsettled loser (hroots.symm.imp And.right And.right)
    have hlink := ht.forest.root_link hwinnerlt hloserlt hwinner hloser hne hle
    rw [hunite]
    refine ⟨ht.forest.link hwinnerlt hloserlt hwinner hne hle, (size_link _ _ _).trans ht.size,
      fun x y => ?_⟩
    rw [hlink, hlink, ht.root, ht.root]
    grind

/-! ## A whole run -/

/-- The least equivalence that relates what one root or one of the pairs relates. -/
def Linked (s : DisjointSet) (pairs : List (Nat × Nat)) : Nat → Nat → Prop :=
  Relation.EqvGen fun x y => s.root x = s.root y ∨ (x, y) ∈ pairs

theorem linked_nil (s : DisjointSet) (x y : Nat) : s.Linked [] x y ↔ s.root x = s.root y := by
  have hequiv : Equivalence fun x y => s.root x = s.root y ∨ (x, y) ∈ ([] : List (Nat × Nat)) := by
    simp only [List.not_mem_nil, or_false]
    exact ⟨fun _ => rfl, Eq.symm, Eq.trans⟩
  rw [Linked, hequiv.eqvGen_iff]
  simp

theorem linked_le {s t : DisjointSet} {ps qs : List (Nat × Nat)}
    (hroot : ∀ x y, s.root x = s.root y → t.Linked qs x y)
    (hpairs : ∀ x y, (x, y) ∈ ps → t.Linked qs x y) {x y : Nat} (h : s.Linked ps x y) :
    t.Linked qs x y := by
  induction h with
  | rel x y hxy => exact hxy.elim (hroot x y) (hpairs x y)
  | refl x => exact .refl x
  | symm x y _ ih => exact .symm x y ih
  | trans x y z _ _ ihxy ihyz => exact .trans x y z ihxy ihyz

theorem Forest.linked_unite {s : DisjointSet} (h : Forest s) {a b : Nat} (ha : a < s.size)
    (hb : b < s.size) (rest : List (Nat × Nat)) (x y : Nat) :
    (s.unite a b).2.Linked rest x y ↔ s.Linked ((a, b) :: rest) x y := by
  obtain ⟨-, -, hunite⟩ := h.unite ha hb
  have hroot : ∀ x y, s.root x = s.root y → s.Linked ((a, b) :: rest) x y :=
    fun x y hxy => .rel x y (.inl hxy)
  have hab : s.Linked ((a, b) :: rest) a b := .rel a b (.inr (by simp))
  constructor
  · refine linked_le ?_ ?_
    · intro x y hxy
      rcases (hunite x y).1 hxy with hxy | ⟨hx, hy⟩ | ⟨hx, hy⟩
      · exact hroot x y hxy
      · exact .trans x a y (hroot x a hx) (.trans a b y hab (hroot b y hy.symm))
      · exact .trans x b y (hroot x b hx) (.trans b a y (.symm a b hab) (hroot a y hy.symm))
    · intro x y hxy
      exact .rel x y (.inr (List.mem_cons_of_mem _ hxy))
  · refine linked_le ?_ ?_
    · intro x y hxy
      exact .rel x y (.inl ((hunite x y).2 (.inl hxy)))
    · intro x y hxy
      rcases List.mem_cons.1 hxy with hxy | hxy
      · cases hxy
        exact .rel _ _ (.inl ((hunite _ _).2 (.inr (.inl ⟨rfl, rfl⟩))))
      · exact .rel x y (.inr hxy)

/-- After a run two elements have one root exactly when the roots before it and the
united pairs link them. -/
theorem Forest.uniteAll {s : DisjointSet} (h : Forest s) {pairs : List (Nat × Nat)}
    (hpairs : ∀ p ∈ pairs, p.1 < s.size ∧ p.2 < s.size) :
    Forest (s.uniteAll pairs) ∧ (s.uniteAll pairs).size = s.size ∧
      ∀ x y, (s.uniteAll pairs).root x = (s.uniteAll pairs).root y ↔ s.Linked pairs x y := by
  induction pairs generalizing s with
  | nil => exact ⟨h, rfl, fun x y => (linked_nil s x y).symm⟩
  | cons p rest ih =>
    obtain ⟨a, b⟩ := p
    obtain ⟨ha, hb⟩ := hpairs _ List.mem_cons_self
    obtain ⟨hforest, hsize, -⟩ := h.unite ha hb
    obtain ⟨hrest, hrestsize, hrestroot⟩ := ih hforest (by
      intro p hp
      rw [hsize]
      exact hpairs p (List.mem_cons_of_mem _ hp))
    refine ⟨hrest, hrestsize.trans hsize, fun x y => ?_⟩
    exact (hrestroot x y).trans (h.linked_unite ha hb rest x y)

theorem linked_ofSize {n : Nat} {pairs : List (Nat × Nat)} {x y : Nat} :
    (ofSize n).Linked pairs x y ↔ Relation.EqvGen (fun x y => (x, y) ∈ pairs) x y := by
  constructor
  · intro h
    induction h with
    | rel x y hxy =>
      rcases hxy with hxy | hxy
      · rw [root_ofSize, root_ofSize] at hxy
        exact hxy ▸ .refl x
      · exact .rel x y hxy
    | refl x => exact .refl x
    | symm x y _ ih => exact .symm x y ih
    | trans x y z _ _ ihxy ihyz => exact .trans x y z ihxy ihyz
  · exact Relation.EqvGen.mono (fun x y hxy => .inr hxy) x y

/-- Uniting pairs of separate elements computes the equivalence closure of the pairs. -/
theorem root_uniteAll_ofSize {n : Nat} {pairs : List (Nat × Nat)}
    (hpairs : ∀ p ∈ pairs, p.1 < n ∧ p.2 < n) (x y : Nat) :
    ((ofSize n).uniteAll pairs).root x = ((ofSize n).uniteAll pairs).root y ↔
      Relation.EqvGen (fun x y => (x, y) ∈ pairs) x y := by
  rw [((forest_ofSize n).uniteAll ((size_ofSize n).symm ▸ hpairs)).2.2, linked_ofSize]

theorem Forest.findAll {s : DisjointSet} (h : Forest s) {elements : List Nat}
    (helements : ∀ i ∈ elements, i < s.size) : (s.findAll elements).1 = elements.map s.root := by
  induction elements generalizing s with
  | nil => rfl
  | cons i rest ih =>
    obtain ⟨hroot, hfind⟩ := h.find (helements i List.mem_cons_self)
    rw [DisjointSet.findAll, List.map_cons]
    have hrest := ih hfind.forest (by
      intro j hj
      rw [hfind.size]
      exact helements j (List.mem_cons_of_mem _ hj))
    simp only [hrest, hroot]
    congr 1
    exact List.map_congr_left fun j _ => hfind.root j

end Substitutability.DisjointSet
