import Substitutability.Proofs.DisjointSet

/-!
# Sizes and numbers of sets

The size recorded at a root is the number of elements of its set, and the recorded
number of sets is the number of roots. Searches move no element. Linking two roots
gives the elements of the one to the other, so the sizes add up and one root is lost.
-/

set_option autoImplicit false

namespace Substitutability.DisjointSet

variable {s t : DisjointSet} {a b : Nat}

def members (s : DisjointSet) (r : Nat) : Finset Nat :=
  (Finset.range s.size).filter fun i => s.root i = r

def roots (s : DisjointSet) : Finset Nat :=
  (Finset.range s.size).image s.root

theorem mem_members {r i : Nat} : i ∈ s.members r ↔ i < s.size ∧ s.root i = r := by
  simp [members]

theorem mem_roots (h : Forest s) {r : Nat} : r ∈ s.roots ↔ r < s.size ∧ s.root r = r := by
  simp only [roots, Finset.mem_image, Finset.mem_range]
  constructor
  · rintro ⟨i, hi, rfl⟩
    exact ⟨h.root_lt hi, h.root_root i⟩
  · intro hr
    exact ⟨r, hr⟩

theorem Refines.members (h : Refines s t) (r : Nat) : t.members r = s.members r := by
  simp only [DisjointSet.members, h.size, h.root]

theorem Refines.roots (h : Refines s t) : t.roots = s.roots := by
  rw [DisjointSet.roots, DisjointSet.roots, h.size, funext h.root]

/-- What is recorded of the sets is true of them. -/
structure Exact (s : DisjointSet) : Prop where
  forest : Forest s
  weight_root : ∀ r < s.size, s.root r = r → s.weight r = (s.members r).card
  count_eq : s.count = s.roots.card

theorem exact_ofSize (n : Nat) : Exact (ofSize n) where
  forest := forest_ofSize n
  weight_root r hr _ := by
    rw [size_ofSize] at hr
    have hmembers : (ofSize n).members r = {r} := by
      ext i
      rw [mem_members, size_ofSize, root_ofSize, Finset.mem_singleton]
      omega
    rw [hmembers, Finset.card_singleton]
    simp [weight, ofSize, Array.getD, hr]
  count_eq := by
    have hroots : (ofSize n).roots = Finset.range n := by
      ext r
      rw [mem_roots (forest_ofSize n), size_ofSize, root_ofSize, Finset.mem_range]
      simp
    rw [hroots, Finset.card_range]
    rfl

theorem Exact.refines (h : Exact s) (hst : Refines s t) : Exact t where
  forest := hst.forest
  weight_root r hr hroot := by
    rw [hst.size] at hr
    rw [hst.root] at hroot
    rw [hst.weight, hst.members, h.weight_root r hr hroot]
  count_eq := by rw [hst.count, hst.roots, h.count_eq]

/-! ## Linking two roots -/

section Link

variable (h : Forest s) (ha : a < s.size) (hb : b < s.size) (hroota : s.root a = a)
  (hrootb : s.root b = b) (hne : a ≠ b) (hle : s.weight b ≤ s.weight a)
include h ha hb hroota hrootb hne hle

theorem Forest.link_roots : Forest (s.link a b) ∧
    ∀ j, (s.link a b).root j = if s.root j = b then a else s.root j := by
  have hsettleda : parent s.parents a = a := hroota ▸ h.parent_root a
  have hsettledb : parent s.parents b = b := hrootb ▸ h.parent_root b
  exact ⟨h.link ha hb hsettleda hne hle,
    h.root_link ha hb hsettleda hsettledb hne hle⟩

theorem Forest.members_link_winner : (s.link a b).members a = s.members a ∪ s.members b := by
  obtain ⟨-, hroot⟩ := h.link_roots ha hb hroota hrootb hne hle
  ext i
  rw [Finset.mem_union, mem_members, mem_members, mem_members, size_link, hroot]
  by_cases hi : s.root i = b <;> simp [hi, Ne.symm hne]

theorem Forest.members_link_other {r : Nat} (hra : r ≠ a) (hrb : r ≠ b) :
    (s.link a b).members r = s.members r := by
  obtain ⟨-, hroot⟩ := h.link_roots ha hb hroota hrootb hne hle
  ext i
  rw [mem_members, mem_members, size_link, hroot]
  by_cases hi : s.root i = b <;> simp [hi, Ne.symm hra, Ne.symm hrb]

theorem Forest.roots_link : (s.link a b).roots = s.roots.erase b := by
  obtain ⟨hforest, hroot⟩ := h.link_roots ha hb hroota hrootb hne hle
  ext r
  rw [Finset.mem_erase, mem_roots hforest, mem_roots h, size_link, hroot]
  by_cases hr : s.root r = b
  · rw [if_pos hr]
    constructor
    · rintro ⟨-, rfl⟩
      exact absurd (hroota.symm.trans hr) hne
    · rintro ⟨hrb, -, hself⟩
      exact absurd (hself.symm.trans hr) hrb
  · rw [if_neg hr]
    constructor
    · rintro ⟨hlt, hself⟩
      exact ⟨fun hrb => hr (hrb ▸ hrootb), hlt, hself⟩
    · exact fun hr => hr.2

end Link

theorem Exact.link (h : Exact s) (ha : a < s.size) (hb : b < s.size) (hroota : s.root a = a)
    (hrootb : s.root b = b) (hne : a ≠ b) (hle : s.weight b ≤ s.weight a) :
    Exact (s.link a b) := by
  obtain ⟨hforest, hroot⟩ := h.forest.link_roots ha hb hroota hrootb hne hle
  have hweight := weight_link (b := b) (h.forest.size_sizes ▸ ha)
  refine ⟨hforest, ?_, ?_⟩
  · intro r hr hself
    rw [size_link] at hr
    by_cases hra : r = a
    · subst hra
      have hdisjoint : Disjoint (s.members r) (s.members b) := by
        rw [Finset.disjoint_left]
        intro i hi hib
        exact hne ((mem_members.1 hi).2.symm.trans (mem_members.1 hib).2)
      rw [hweight, if_pos rfl, h.weight_root r ha hroota, h.weight_root b hb hrootb,
        h.forest.members_link_winner ha hb hroota hrootb hne hle,
        Finset.card_union_of_disjoint hdisjoint]
    · -- the root that was linked is none any more
      have hrb : r ≠ b := by
        rintro rfl
        rw [hroot, if_pos hrootb] at hself
        exact hne hself
      have hold : s.root r = r := by
        rw [hroot] at hself
        by_cases hlinked : s.root r = b
        · rw [if_pos hlinked] at hself
          exact absurd hself.symm hra
        · rwa [if_neg hlinked] at hself
      rw [hweight, if_neg hra, h.weight_root r hr hold,
        h.forest.members_link_other ha hb hroota hrootb hne hle hra hrb]
  · have hmem : b ∈ s.roots := (mem_roots h.forest).2 ⟨hb, hrootb⟩
    rw [h.forest.roots_link ha hb hroota hrootb hne hle, Finset.card_erase_of_mem hmem,
      ← h.count_eq]
    rfl

/-! ## Uniting -/

theorem Exact.unite (h : Exact s) (ha : a < s.size) (hb : b < s.size) :
    Exact (s.unite a b).2 := by
  obtain ⟨t, ht, ⟨-, hunite⟩ | ⟨winner, loser, hne, hle, hroots, hunite⟩⟩ :=
    h.forest.unite_cases ha hb
  · rw [hunite]
    exact h.refines ht
  · rw [hunite]
    have hroot : ∀ r, r = s.root a ∨ r = s.root b → r < t.size ∧ t.root r = r := by
      intro r hr
      rw [ht.size, ht.root]
      rcases hr with rfl | rfl
      · exact ⟨h.forest.root_lt ha, h.forest.root_root a⟩
      · exact ⟨h.forest.root_lt hb, h.forest.root_root b⟩
    obtain ⟨hwinner, hwinnerroot⟩ := hroot winner (hroots.imp And.left And.left)
    obtain ⟨hloser, hloserroot⟩ := hroot loser (hroots.symm.imp And.right And.right)
    exact (h.refines ht).link hwinner hloser hwinnerroot hloserroot hne hle

theorem Forest.count_le_unite (h : Forest s) (ha : a < s.size) (hb : b < s.size) :
    s.count ≤ (s.unite a b).2.count + 1 := by
  obtain ⟨t, ht, ⟨-, hunite⟩ | ⟨winner, loser, -, -, -, hunite⟩⟩ := h.unite_cases ha hb
  · rw [hunite, ← ht.count]
    exact Nat.le_succ _
  · have hcount : (t.link winner loser).count = t.count - 1 := rfl
    rw [hunite, hcount, ht.count]
    omega

theorem Exact.uniteAll {pairs : List (Nat × Nat)} (h : Exact s)
    (hpairs : ∀ p ∈ pairs, p.1 < s.size ∧ p.2 < s.size) :
    Exact (s.uniteAll pairs) ∧ s.count ≤ (s.uniteAll pairs).count + pairs.length := by
  induction pairs generalizing s with
  | nil => exact ⟨h, le_rfl⟩
  | cons p rest ih =>
    obtain ⟨a, b⟩ := p
    obtain ⟨ha, hb⟩ : a < s.size ∧ b < s.size := hpairs _ List.mem_cons_self
    have hrest : ∀ p ∈ rest, p.1 < (s.unite a b).2.size ∧ p.2 < (s.unite a b).2.size := by
      intro p hp
      rw [(h.forest.unite ha hb).2.1]
      exact hpairs p (List.mem_cons_of_mem _ hp)
    have hfirst := h.forest.count_le_unite ha hb
    obtain ⟨hexact, hcount⟩ := ih (h.unite ha hb) hrest
    have hall : s.uniteAll ((a, b) :: rest) = (s.unite a b).2.uniteAll rest := rfl
    rw [hall, List.length_cons]
    exact ⟨hexact, by omega⟩

end Substitutability.DisjointSet
