import Mathlib.Data.Set.Card
import Mathlib.Data.Setoid.Basic
import Substitutability.Proofs.DisjointSet.Counting

/-!
# Runs of a disjoint set

Both walks of a search come to an end by themselves: there are always fewer heavier
elements ahead, and pointing an element at its root takes none of them out of order. A
run is a list of calls. Each call keeps the record of the sets exact, and only uniting
merges sets, so after a run two elements have one root exactly when the united pairs
link them. A search in between changes no later answer.
-/

set_option autoImplicit false

namespace Substitutability.DisjointSet

variable {s t : DisjointSet}

/-! ## The walks of a search -/

/-- The walk from an element along the parents ends at a root. It never leaves the
elements. -/
inductive Climbs (parents : Array Nat) : Nat → Nat → Prop
  | stop {i : Nat} : parents[i]? = some i → Climbs parents i i
  | step {i next r : Nat} : parents[i]? = some next → next ≠ i → Climbs parents next r →
      Climbs parents i r

/-- The walk from an element that points all it meets at the root ends with these
parents. It never leaves the elements. -/
inductive Redirects (root : Nat) : Nat → Array Nat → Array Nat → Prop
  | stop {i : Nat} {parents : Array Nat} : parents[i]? = some root →
      Redirects root i parents parents
  | step {i next : Nat} {parents result : Array Nat} : parents[i]? = some next → next ≠ root →
      Redirects root next (parents.setIfInBounds i root) result → Redirects root i parents result

theorem getElem?_parents {i : Nat} (hi : i < s.size) :
    s.parents[i]? = some (parent s.parents i) := by
  rw [parent_eq_getElem hi]
  exact Array.getElem?_eq_getElem hi

theorem Forest.climbs (h : Forest s) {i : Nat} (hi : i < s.size) :
    Climbs s.parents i (s.root i) := by
  induction hn : (s.heavier i).card using Nat.strong_induction_on generalizing i with
  | _ n ih =>
    have hparent := getElem?_parents hi
    by_cases hne : parent s.parents i = i
    · rw [root_of_settled hne]
      rw [hne] at hparent
      exact .stop hparent
    · have hfewer := h.card_heavier_parent hi hne
      rw [← h.root_parent i]
      exact .step hparent hne (ih _ (hn ▸ hfewer) (h.parent_lt i hi) rfl)

theorem heavier_redirect (s : DisjointSet) (i r j : Nat) :
    (s.redirect i r).heavier j = s.heavier j := by
  rw [heavier, size_redirect]
  rfl

theorem Forest.redirects (h : Forest s) {fuel i : Nat} (hi : i < s.size)
    (hfuel : (s.heavier i).card ≤ fuel) :
    Redirects (s.root i) i s.parents (DisjointSet.compress (s.root i) fuel i s.parents) := by
  induction fuel generalizing s i with
  | zero =>
    have hsettled : parent s.parents i = i := by
      by_contra hne
      have := h.card_heavier_parent hi hne
      omega
    have hroot : s.parents[i]? = some (s.root i) := by
      rw [getElem?_parents hi, hsettled, root_of_settled hsettled]
    exact .stop hroot
  | succ fuel ih =>
    rw [DisjointSet.compress]
    by_cases hnext : parent s.parents i = s.root i
    · rw [if_pos hnext]
      exact .stop (hnext ▸ getElem?_parents hi)
    · rw [if_neg hnext]
      have hne : parent s.parents i ≠ i := by
        intro hsettled
        rw [root_of_settled hsettled] at hnext
        exact hnext hsettled
      have hfewer := h.card_heavier_parent hi hne
      have hparent : parent s.parents i < (s.redirect i (s.root i)).size := by
        rw [size_redirect]
        exact h.parent_lt i hi
      have hrest := ih (h.redirect hi hne) hparent (by rw [heavier_redirect]; omega)
      rw [h.root_redirect hi hne, h.root_parent] at hrest
      exact .step (getElem?_parents hi) hnext hrest

/-! ## Calls -/

inductive Call
  | find (element : Nat)
  | unite (a b : Nat)
  deriving DecidableEq, Repr

inductive Answer
  | root (element : Nat)
  | united (isNew : Bool)
  deriving DecidableEq, Repr

namespace Call

def Within (n : Nat) : Call → Prop
  | .find x => x < n
  | .unite a b => a < n ∧ b < n

instance (n : Nat) (call : Call) : Decidable (call.Within n) := by
  cases call
  · exact inferInstanceAs (Decidable (_ < _))
  · exact inferInstanceAs (Decidable (_ ∧ _))

def pairs : Call → List (Nat × Nat)
  | .find _ => []
  | .unite a b => [(a, b)]

end Call

def perform (s : DisjointSet) : Call → Answer × DisjointSet
  | .find x => (.root (s.find x).1, (s.find x).2)
  | .unite a b => (.united (s.unite a b).1, (s.unite a b).2)

def after : List Call → DisjointSet → DisjointSet
  | [], s => s
  | call :: rest, s => after rest (s.perform call).2

def answers : List Call → DisjointSet → List Answer
  | [], _ => []
  | call :: rest, s => (s.perform call).1 :: answers rest (s.perform call).2

theorem Refines.linked (h : Refines s t) (pairs : List (Nat × Nat)) (x y : Nat) :
    t.Linked pairs x y ↔ s.Linked pairs x y := by
  simp only [Linked, h.root]

theorem Exact.perform (h : Exact s) {call : Call} (hcall : call.Within s.size) :
    Exact (s.perform call).2 ∧ (s.perform call).2.size = s.size ∧
      ∀ rest x y, (s.perform call).2.Linked rest x y ↔ s.Linked (call.pairs ++ rest) x y := by
  cases call with
  | find x =>
    obtain ⟨-, hfind⟩ := h.forest.find hcall
    exact ⟨h.refines hfind, hfind.size, hfind.linked⟩
  | unite a b =>
    obtain ⟨ha, hb⟩ := hcall
    exact ⟨h.unite ha hb, (h.forest.unite ha hb).2.1, h.forest.linked_unite ha hb⟩

theorem Exact.after {calls : List Call} (h : Exact s)
    (hcalls : ∀ call ∈ calls, call.Within s.size) :
    Exact (after calls s) ∧ (DisjointSet.after calls s).size = s.size ∧
      ∀ x y, (DisjointSet.after calls s).root x = (DisjointSet.after calls s).root y ↔
        s.Linked (calls.flatMap Call.pairs) x y := by
  induction calls generalizing s with
  | nil => exact ⟨h, rfl, fun x y => (linked_nil s x y).symm⟩
  | cons call rest ih =>
    obtain ⟨hexact, hsize, hlinked⟩ := h.perform (hcalls call List.mem_cons_self)
    obtain ⟨hrest, hrestsize, hrestroot⟩ := ih hexact (by
      intro later hlater
      rw [hsize]
      exact hcalls later (List.mem_cons_of_mem _ hlater))
    refine ⟨hrest, hrestsize.trans hsize, fun x y => ?_⟩
    rw [List.flatMap_cons, ← hlinked]
    exact hrestroot x y

/-! ## Searches in between -/

theorem Refines.refl (h : Forest s) : Refines s s :=
  ⟨h, rfl, rfl, rfl, fun _ => rfl⟩

theorem Refines.symm (h : Refines s t) (hs : Forest s) : Refines t s :=
  ⟨hs, h.size.symm, h.sizes.symm, h.count.symm, fun j => (h.root j).symm⟩

theorem Refines.link (h : Refines s t) (hs : Forest s) {a b : Nat} (ha : a < s.size)
    (hb : b < s.size) (hroota : s.root a = a) (hrootb : s.root b = b) (hne : a ≠ b)
    (hle : s.weight b ≤ s.weight a) : Refines (s.link a b) (t.link a b) := by
  have htle : t.weight b ≤ t.weight a := by rwa [h.weight, h.weight]
  obtain ⟨-, hroots⟩ := hs.link_roots ha hb hroota hrootb hne hle
  obtain ⟨hforest, hroott⟩ := h.forest.link_roots (h.size ▸ ha) (h.size ▸ hb)
    ((h.root a).trans hroota) ((h.root b).trans hrootb) hne htle
  constructor
  · exact hforest
  · rw [size_link, size_link, h.size]
  · simp only [DisjointSet.link, h.sizes]
  · simp only [DisjointSet.link, h.count]
  · intro j
    rw [hroots, hroott, h.root]

/-- Two forests that show the same are still so after a call, and answer it alike. -/
theorem Refines.perform (h : Refines s t) (hs : Forest s) {call : Call}
    (hcall : call.Within s.size) :
    (t.perform call).1 = (s.perform call).1 ∧ Refines (s.perform call).2 (t.perform call).2 := by
  cases call with
  | find x =>
    obtain ⟨hroots, hfinds⟩ := hs.find hcall
    obtain ⟨hroott, hfindt⟩ := h.forest.find (h.size.symm ▸ hcall : x < t.size)
    refine ⟨?_, (hfinds.symm hs).trans (h.trans hfindt)⟩
    rw [DisjointSet.perform, DisjointSet.perform, hroots, hroott, h.root]
  | unite a b =>
    obtain ⟨ha, hb⟩ := hcall
    obtain ⟨u, hu, hunites⟩ := hs.unite_eq ha hb
    obtain ⟨v, hv, hunitet⟩ := h.forest.unite_eq (h.size.symm ▸ ha) (h.size.symm ▸ hb)
    have huv : Refines u v := (hu.symm hs).trans (h.trans hv)
    have hroot : ∀ x, x < s.size → s.root x < u.size ∧ u.root (s.root x) = s.root x := by
      intro x hx
      rw [hu.size, hu.root, hs.root_root]
      exact ⟨hs.root_lt hx, rfl⟩
    simp only [h.root, h.weight] at hunitet
    rw [DisjointSet.perform, DisjointSet.perform, hunites, hunitet]
    by_cases hab : s.root a = s.root b
    · rw [if_pos hab, if_pos hab]
      exact ⟨rfl, huv⟩
    · rw [if_neg hab, if_neg hab]
      by_cases hlt : s.weight (s.root a) < s.weight (s.root b)
      · rw [if_pos hlt, if_pos hlt]
        refine ⟨rfl, huv.link hu.forest (hroot b hb).1 (hroot a ha).1 (hroot b hb).2 (hroot a ha).2
          (Ne.symm hab) ?_⟩
        rw [hu.weight, hu.weight]
        exact hlt.le
      · rw [if_neg hlt, if_neg hlt]
        refine ⟨rfl, huv.link hu.forest (hroot a ha).1 (hroot b hb).1 (hroot a ha).2 (hroot b hb).2
          hab ?_⟩
        rw [hu.weight, hu.weight]
        exact Nat.not_lt.1 hlt

theorem Refines.answers {calls : List Call} (h : Refines s t) (hs : Exact s)
    (hcalls : ∀ call ∈ calls, call.Within s.size) :
    DisjointSet.answers calls t = DisjointSet.answers calls s := by
  induction calls generalizing s t with
  | nil => rfl
  | cons call rest ih =>
    have hcall := hcalls call List.mem_cons_self
    obtain ⟨hanswer, hrefines⟩ := h.perform hs.forest hcall
    obtain ⟨hexact, hsize, -⟩ := hs.perform hcall
    rw [DisjointSet.answers, DisjointSet.answers, hanswer, ih hrefines hexact]
    intro later hlater
    rw [hsize]
    exact hcalls later (List.mem_cons_of_mem _ hlater)

/-! ## Classes -/

def Together (pairs : List (Nat × Nat)) : Nat → Nat → Prop :=
  Relation.EqvGen fun x y => (x, y) ∈ pairs

def classes (n : Nat) (pairs : List (Nat × Nat)) : Setoid (Fin n) :=
  (Relation.EqvGen.setoid fun x y => (x, y) ∈ pairs).comap Fin.val

theorem card_classes {pairs : List (Nat × Nat)}
    (h : ∀ x y, s.root x = s.root y ↔ Together pairs x y) :
    Nat.card (Quotient (classes s.size pairs)) = s.roots.card := by
  have hker : classes s.size pairs = Setoid.ker fun x : Fin s.size => s.root x := by
    ext x y
    exact (h x y).symm
  have hrange : Set.range (fun x : Fin s.size => s.root x) = ↑s.roots := by
    ext r
    simp [roots, Fin.exists_iff]
  rw [hker, Nat.card_congr (Setoid.quotientKerEquivRange _), hrange, Nat.card_coe_set_eq,
    Set.ncard_coe_finset]

/-- What a disjoint set of `n` elements shows when some pairs have been united. -/
structure Represents (n : Nat) (pairs : List (Nat × Nat)) (s : DisjointSet) : Prop where
  search_ends : ∀ x < n, Climbs s.parents x (s.find x).1 ∧
    Redirects (s.find x).1 x s.parents (s.find x).2.parents
  find_eq_iff : ∀ x < n, ∀ y < n, (s.find x).1 = (s.find y).1 ↔ Together pairs x y
  find_find : ∀ x < n, ((s.find x).2.find (s.find x).1).1 = (s.find x).1
  find_after_find : ∀ x < n, ∀ y < n, ((s.find x).2.find y).1 = (s.find y).1
  count_find : ∀ x < n, (s.find x).2.count = s.count
  /-- A search changes no answer to any later calls. -/
  answers_find : ∀ x < n, ∀ later : List Call, (∀ call ∈ later, call.Within n) →
    answers later (s.find x).2 = answers later s
  unite_iff : ∀ a < n, ∀ b < n, (s.unite a b).1 = true ↔ ¬ Together pairs a b
  count_classes : s.count = Nat.card (Quotient (classes n pairs))
  count_roots : s.count = ((Finset.range n).image fun x => (s.find x).1).card
  sizes : ∀ r < n, (s.find r).1 = r → s.sizes[r]? = some {x | x < n ∧ Together pairs x r}.ncard

theorem Exact.sizes {pairs : List (Nat × Nat)} (h : Exact s)
    (htogether : ∀ x y, s.root x = s.root y ↔ Together pairs x y) {r : Nat} (hr : r < s.size)
    (hroot : s.root r = r) :
    s.sizes[r]? = some {x | x < s.size ∧ Together pairs x r}.ncard := by
  have hset : {x | x < s.size ∧ Together pairs x r} = ↑(s.members r) := by
    ext x
    rw [Set.mem_ofPred_eq, ← htogether, hroot, Finset.mem_coe, mem_members]
  have hlt : r < s.sizes.size := h.forest.size_sizes ▸ hr
  have hweight := h.weight_root r hr hroot
  rw [hset, Set.ncard_coe_finset, ← hweight]
  simp [weight, hlt]

theorem Exact.represents {pairs : List (Nat × Nat)} (h : Exact s)
    (htogether : ∀ x y, s.root x = s.root y ↔ Together pairs x y) :
    Represents s.size pairs s where
  search_ends x hx := ⟨h.forest.climbs hx, h.forest.redirects hx (s.card_heavier_le x)⟩
  find_eq_iff x _ y _ := htogether x y
  find_find x hx := ((h.forest.find hx).2.root _).trans (h.forest.root_root x)
  find_after_find x hx y _ := (h.forest.find hx).2.root y
  count_find _ _ := rfl
  answers_find x hx later hlater := (h.forest.find hx).2.answers h hlater
  unite_iff a ha b hb := by
    obtain ⟨t, -, hunite⟩ := h.forest.unite_eq ha hb
    rw [hunite, ← htogether]
    by_cases hab : s.root a = s.root b
    · simp [hab]
    · by_cases hlt : s.weight (s.root a) < s.weight (s.root b) <;> simp [hab, hlt]
  count_classes := by rw [card_classes htogether, h.count_eq]
  count_roots := h.count_eq
  sizes r hr hroot := h.sizes htogether hr hroot

/-- After any calls on separate elements, the disjoint set shows the equivalence closure
of the pairs that were united. -/
theorem after_represents (n : Nat) {calls : List Call} (h : ∀ call ∈ calls, call.Within n) :
    Represents n (calls.flatMap Call.pairs) (after calls (ofSize n)) := by
  have hcalls : ∀ call ∈ calls, call.Within (ofSize n).size := by rwa [size_ofSize]
  obtain ⟨hexact, hsize, hroot⟩ := (exact_ofSize n).after hcalls
  rw [size_ofSize] at hsize
  have hrepresents := hexact.represents fun x y => (hroot x y).trans linked_ofSize
  rwa [hsize] at hrepresents

def threeAndTwo : List Call :=
  [.unite 0 1, .find 1, .unite 3 4, .unite 2 1, .find 2, .unite 0 2]

theorem three_and_two_represented : (∀ call ∈ threeAndTwo, call.Within 5) ∧
    Represents 5 [(0, 1), (3, 4), (2, 1), (0, 2)] (after threeAndTwo (ofSize 5)) := by
  have hwithin : ∀ call ∈ threeAndTwo, call.Within 5 := by decide
  exact ⟨hwithin, after_represents 5 hwithin⟩

end Substitutability.DisjointSet
