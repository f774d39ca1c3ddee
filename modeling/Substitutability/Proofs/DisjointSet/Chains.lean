import Mathlib.Data.Nat.Log
import Substitutability.Proofs.DisjointSet.Runs

/-!
# Chains of parents stay short

A step to a parent at least doubles the weight, and the weight of a root is the size of
its set. So an element that is `d` steps away from its root belongs to a set of `2 ^ d`
elements or more. A search points elements at the root of their own chain, which makes
the chains through them shorter and leaves the others as they are.
-/

set_option autoImplicit false

namespace Substitutability.DisjointSet

variable {s : DisjointSet}

inductive Chain (parents : Array Nat) : Nat → Nat → Nat → Prop
  | root {r : Nat} : parents[r]? = some r → Chain parents r 0 r
  | step {i next d r : Nat} : parents[i]? = some next → next ≠ i → Chain parents next d r →
      Chain parents i (d + 1) r

namespace Chain

variable {parents : Array Nat} {i d e r q : Nat}

theorem lt_size (h : Chain parents i d r) : i < parents.size := by
  cases h with
  | root hroot => exact (Array.getElem?_eq_some_iff.1 hroot).1
  | step hnext _ _ => exact (Array.getElem?_eq_some_iff.1 hnext).1

theorem lt_size_root (h : Chain parents i d r) : r < parents.size := by
  induction h with
  | root hroot => exact (Array.getElem?_eq_some_iff.1 hroot).1
  | step _ _ _ ih => exact ih

theorem unique (h : Chain parents i d r) (h' : Chain parents i e q) : d = e ∧ r = q := by
  induction h generalizing e q with
  | root hroot =>
    cases h' with
    | root _ => exact ⟨rfl, rfl⟩
    | step hnext hne _ =>
      rw [hroot, Option.some.injEq] at hnext
      exact absurd hnext.symm hne
  | step hnext hne _ ih =>
    cases h' with
    | root hroot =>
      rw [hroot, Option.some.injEq] at hnext
      exact absurd hnext.symm hne
    | step hnext' _ hrest =>
      rw [hnext, Option.some.injEq] at hnext'
      subst hnext'
      obtain ⟨rfl, rfl⟩ := ih hrest
      exact ⟨rfl, rfl⟩

end Chain

theorem Climbs.exists_chain {parents : Array Nat} {i r : Nat} (h : Climbs parents i r) :
    ∃ d, Chain parents i d r := by
  induction h with
  | stop hroot => exact ⟨0, .root hroot⟩
  | step hnext hne _ ih =>
    obtain ⟨d, hchain⟩ := ih
    exact ⟨d + 1, .step hnext hne hchain⟩

theorem parent_of_getElem? {parents : Array Nat} {i next : Nat} (h : parents[i]? = some next) :
    parent parents i = next := by
  rw [parent, Array.getD_eq_getD_getElem?, h]
  rfl

theorem Chain.root_eq {i d r : Nat} (h : Chain s.parents i d r) (hs : Forest s) :
    s.root i = r := by
  induction h with
  | root hroot => exact Forest.root_of_settled (parent_of_getElem? hroot)
  | step hnext _ _ ih => rw [← hs.root_parent, parent_of_getElem? hnext, ih]

/-! ## Steps and sizes -/

theorem Chain.two_pow_mul_weight_le {i d r : Nat} (h : Chain s.parents i d r) (hs : Forest s) :
    2 ^ d * s.weight i ≤ s.weight r := by
  induction h with
  | root _ => rw [pow_zero, one_mul]
  | @step i next d r hnext hne hrest ih =>
    have hlt := (Chain.step hnext hne hrest).lt_size
    have hparent := parent_of_getElem? hnext
    have hdouble : 2 * s.weight i ≤ s.weight next := by
      rw [← hparent] at hne ⊢
      exact hs.doubles i hlt hne
    calc 2 ^ (d + 1) * s.weight i = 2 ^ d * (2 * s.weight i) := by rw [pow_succ, mul_assoc]
      _ ≤ 2 ^ d * s.weight next := Nat.mul_le_mul_left _ hdouble
      _ ≤ s.weight r := ih

theorem Chain.two_pow_le_weight {i d r : Nat} (h : Chain s.parents i d r) (hs : Forest s) :
    2 ^ d ≤ s.weight r :=
  calc 2 ^ d = 2 ^ d * 1 := (mul_one _).symm
    _ ≤ 2 ^ d * s.weight i := Nat.mul_le_mul_left _ (hs.weight_pos i h.lt_size)
    _ ≤ s.weight r := h.two_pow_mul_weight_le hs

/-- A chain is no longer than the logarithm of the number of all elements. -/
theorem Chain.le_log {i d r : Nat} (h : Chain s.parents i d r) (hs : Exact s) :
    d ≤ Nat.log 2 s.size := by
  have hroot : s.root r = r := by
    rw [← h.root_eq hs.forest, hs.forest.root_root]
  have hmembers : (s.members r).card ≤ s.size :=
    (Finset.card_filter_le _ _).trans (Finset.card_range s.size).le
  have hpow : 2 ^ d ≤ s.size :=
    calc 2 ^ d ≤ s.weight r := h.two_pow_le_weight hs.forest
      _ = (s.members r).card := hs.weight_root r h.lt_size_root hroot
      _ ≤ s.size := hmembers
  exact Nat.le_log_of_pow_le Nat.one_lt_two hpow

/-! ## Searches -/

theorem Chain.redirect {i j d r : Nat} (h : Chain s.parents j d r) (hs : Forest s)
    (hi : i < s.size) (hne : parent s.parents i ≠ i) :
    ∃ e ≤ d, Chain (s.redirect i (s.root i)).parents j e r := by
  have hkept : ∀ k, k ≠ i → (s.redirect i (s.root i)).parents[k]? = s.parents[k]? :=
    fun k hk => Array.getElem?_setIfInBounds_ne (Ne.symm hk)
  have hroot : ∀ {k}, s.parents[k]? = some k →
      Chain (s.redirect i (s.root i)).parents k 0 k := by
    intro k hk
    refine .root ?_
    rwa [hkept k]
    rintro rfl
    exact hne (parent_of_getElem? hk)
  induction h with
  | root hsettled => exact ⟨0, le_rfl, hroot hsettled⟩
  | @step j next d r hnext hnot hrest ih =>
    by_cases hji : j = i
    · -- the element itself is now right below the root
      subst hji
      have hr : s.root j = r := (Chain.step hnext hnot hrest).root_eq hs
      have hsettled : s.parents[r]? = some r := by
        rw [getElem?_parents hrest.lt_size_root, ← hr, hs.parent_root]
      have hrj : r ≠ j := by
        rintro rfl
        exact hne (parent_of_getElem? hsettled)
      have hparent : (s.redirect j (s.root j)).parents[j]? = some r := by
        rw [← hr]
        exact Array.getElem?_setIfInBounds_self_of_lt hi
      exact ⟨1, by omega, .step hparent hrj (hroot hsettled)⟩
    · obtain ⟨e, hle, hchain⟩ := ih
      refine ⟨e + 1, by omega, .step ?_ hnot hchain⟩
      rwa [hkept j hji]

theorem Chain.compress {j d r : Nat} (h : Chain s.parents j d r) (hs : Forest s) {i : Nat}
    (hi : i < s.size) (fuel : Nat) :
    ∃ e ≤ d, Chain (DisjointSet.compress (s.root i) fuel i s.parents) j e r := by
  induction fuel generalizing s i d with
  | zero => exact ⟨d, le_rfl, h⟩
  | succ fuel ih =>
    rw [DisjointSet.compress]
    by_cases hnext : parent s.parents i = s.root i
    · rw [if_pos hnext]
      exact ⟨d, le_rfl, h⟩
    · rw [if_neg hnext]
      have hne : parent s.parents i ≠ i := by
        intro hsettled
        rw [Forest.root_of_settled hsettled] at hnext
        exact hnext hsettled
      obtain ⟨e, hle, hchain⟩ := h.redirect hs hi hne
      have hparent : parent s.parents i < (s.redirect i (s.root i)).size := by
        rw [size_redirect]
        exact hs.parent_lt i hi
      obtain ⟨f, hlast, hrest⟩ := ih hchain (hs.redirect hi hne) hparent
      rw [hs.root_redirect hi hne, hs.root_parent] at hrest
      exact ⟨f, hlast.trans hle, hrest⟩

/-! ## Runs -/

/-- How far the elements of a disjoint set of `n` elements are from their roots. -/
structure Shallow (n : Nat) (s : DisjointSet) : Prop where
  exists_chain : ∀ i < n, ∃! d, Chain s.parents i d (s.find i).1
  two_pow_le_size : ∀ i d r, Chain s.parents i d r →
    ∃ size, s.sizes[r]? = some size ∧ 2 ^ d ≤ size
  le_log : ∀ i d r, Chain s.parents i d r → d ≤ Nat.log 2 n
  find_shortens : ∀ x < n, ∀ i d r, Chain s.parents i d r →
    ∃ e ≤ d, Chain (s.find x).2.parents i e r

theorem Exact.shallow (h : Exact s) : Shallow s.size s where
  exists_chain i hi := by
    obtain ⟨d, hchain⟩ := (h.forest.climbs hi).exists_chain
    exact ⟨d, hchain, fun e hother => (hother.unique hchain).1⟩
  two_pow_le_size i d r hchain := by
    have hlt : r < s.sizes.size := h.forest.size_sizes ▸ hchain.lt_size_root
    refine ⟨s.weight r, ?_, hchain.two_pow_le_weight h.forest⟩
    simp [weight, hlt]
  le_log i d r hchain := hchain.le_log h
  find_shortens x hx i d r hchain := hchain.compress h.forest hx s.size

/-- After any calls on separate elements, no element is farther from its root than the
logarithm of the size of its set, and a search takes none farther away. -/
theorem after_shallow (n : Nat) {calls : List Call} (h : ∀ call ∈ calls, call.Within n) :
    Shallow n (after calls (ofSize n)) := by
  have hcalls : ∀ call ∈ calls, call.Within (ofSize n).size := by rwa [size_ofSize]
  obtain ⟨hexact, hsize, -⟩ := (exact_ofSize n).after hcalls
  rw [size_ofSize] at hsize
  have hshallow := hexact.shallow
  rwa [hsize] at hshallow

def pairOfPairs : List Call :=
  [.unite 0 1, .unite 2 3, .find 3, .unite 0 2]

theorem pairOfPairs_shallow : (∀ call ∈ pairOfPairs, call.Within 4) ∧
    Shallow 4 (after pairOfPairs (ofSize 4)) ∧
    Chain (after pairOfPairs (ofSize 4)).parents 3 2 0 := by
  have hwithin : ∀ call ∈ pairOfPairs, call.Within 4 := by decide
  have hparents : (after pairOfPairs (ofSize 4)).parents = #[0, 0, 0, 2] := by decide
  have hchain : Chain (after pairOfPairs (ofSize 4)).parents 3 2 0 := by
    rw [hparents]
    have hroot : Chain #[0, 0, 0, 2] 0 0 0 := .root rfl
    have hsecond : Chain #[0, 0, 0, 2] 2 1 0 := .step rfl (by decide) hroot
    exact .step rfl (by decide) hsecond
  exact ⟨hwithin, after_shallow 4 hwithin, hchain⟩

end Substitutability.DisjointSet
