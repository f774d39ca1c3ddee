import Substitutability.Partition.Components
import Substitutability.Proofs.DisjointSet
import Substitutability.Proofs.Graph.Edges
import Substitutability.Proofs.Partition.Classes

/-!
# Classes are the connected components

The classes of a graph are its connected components, in a form that leaves no
choice: members and representatives ascend. So the partition depends on which
phrases are nodes and which pairs are edges, and on nothing else of the graph.
-/

set_option autoImplicit false

namespace Substitutability.Graph

variable {g : Graph}

/-- A path of edges leads from the one phrase to the other. -/
def Joined (g : Graph) : Phrase → Phrase → Prop :=
  Relation.ReflTransGen fun a b => g.hasEdge a b = true

theorem Joined.symm {a b : Phrase} (h : g.Joined a b) : g.Joined b a := by
  induction h with
  | refl => exact .refl
  | tail _ hlast ih => exact .head (hasEdge_comm _ _ ▸ hlast) ih

theorem Joined.mem_nodes {a b : Phrase} (h : g.Joined a b) (ha : a ∈ g.nodes) : b ∈ g.nodes := by
  cases h with
  | refl => exact ha
  | tail _ hlast => exact (mem_nodes_of_hasEdge hlast).2

/-! ## Roots -/

def ends (g : Graph) : List (Nat × Nat) :=
  g.edges.map fun e => (e.source, e.target)

def united (g : Graph) : DisjointSet :=
  (DisjointSet.ofSize g.nodeCount).uniteAll g.ends

theorem ends_lt {pair : Nat × Nat} (h : pair ∈ g.ends) :
    pair.1 < g.nodeCount ∧ pair.2 < g.nodeCount := by
  obtain ⟨e, he, rfl⟩ := List.mem_map.1 h
  have := g.ordered e he
  simp only [nodeCount]
  omega

theorem ends_lt_size {pair : Nat × Nat} (h : pair ∈ g.ends) :
    pair.1 < (DisjointSet.ofSize g.nodeCount).size ∧
      pair.2 < (DisjointSet.ofSize g.nodeCount).size := by
  rw [DisjointSet.size_ofSize]
  exact ends_lt h

theorem forest_united (g : Graph) : g.united.Forest ∧ g.united.size = g.nodeCount := by
  obtain ⟨hforest, hsize, -⟩ :=
    (DisjointSet.forest_ofSize g.nodeCount).uniteAll fun _ => ends_lt_size
  exact ⟨hforest, hsize.trans (DisjointSet.size_ofSize _)⟩

theorem roots_eq (g : Graph) : g.roots = (List.range g.nodeCount).map g.united.root := by
  obtain ⟨hforest, hsize⟩ := g.forest_united
  apply hforest.findAll
  intro i hi
  rw [hsize]
  exact List.mem_range.1 hi

theorem mem_ends {i j : Nat} : (i, j) ∈ g.ends ↔ (⟨i, j⟩ : Edge) ∈ g.edges := by
  rw [ends, List.mem_map]
  constructor
  · rintro ⟨e, he, heq⟩
    cases heq
    exact he
  · intro h
    exact ⟨⟨i, j⟩, h, rfl⟩

theorem joined_of_eqvGen {i j : Nat}
    (h : Relation.EqvGen (fun i j => (i, j) ∈ g.ends) i j) :
    (∀ a, g.nodes[i]? = some a → ∃ b, g.nodes[j]? = some b ∧ g.Joined a b) ∧
      ∀ b, g.nodes[j]? = some b → ∃ a, g.nodes[i]? = some a ∧ g.Joined b a := by
  induction h with
  | rel i j hij =>
    have hedge := mem_ends.1 hij
    obtain ⟨-, a, b, ha, hb, hab⟩ := mem_edges_iff_hasEdge.1 hedge
    constructor
    · intro a' ha'
      cases ha.symm.trans ha'
      exact ⟨b, hb, .single hab⟩
    · intro b' hb'
      cases hb.symm.trans hb'
      exact ⟨a, ha, .single (hasEdge_comm a b ▸ hab)⟩
  | refl i => exact ⟨fun a ha => ⟨a, ha, .refl⟩, fun a ha => ⟨a, ha, .refl⟩⟩
  | symm i j _ ih => exact ⟨ih.2, ih.1⟩
  | trans i j k _ _ ihij ihjk =>
    constructor
    · intro a ha
      obtain ⟨b, hb, hab⟩ := ihij.1 a ha
      obtain ⟨c, hc, hbc⟩ := ihjk.1 b hb
      exact ⟨c, hc, hab.trans hbc⟩
    · intro c hc
      obtain ⟨b, hb, hcb⟩ := ihjk.2 c hc
      obtain ⟨a, ha, hba⟩ := ihij.2 b hb
      exact ⟨a, ha, hcb.trans hba⟩

theorem eqvGen_of_joined {a b : Phrase} (h : g.Joined a b) {i j : Nat}
    (hi : g.nodes[i]? = some a) (hj : g.nodes[j]? = some b) :
    Relation.EqvGen (fun i j => (i, j) ∈ g.ends) i j := by
  induction h generalizing j with
  | refl =>
    rw [node_injective hi hj]
    exact .refl j
  | tail _ hlast ih =>
    obtain ⟨k, l, hk, hl, hedge⟩ := hasEdge_iff.1 hlast
    have := node_injective hl hj
    subst this
    refine .trans _ _ _ (ih hk) ?_
    rcases Nat.lt_or_ge k l with hlt | hge
    · rw [Edge.between_of_lt hlt] at hedge
      exact .rel _ _ (mem_ends.2 hedge)
    · have hbetween : Edge.between k l = ⟨l, k⟩ := if_neg (by omega)
      rw [hbetween] at hedge
      exact .symm _ _ (.rel _ _ (mem_ends.2 hedge))

theorem root_eq_iff_joined {i j : Nat} {a b : Phrase} (hi : g.nodes[i]? = some a)
    (hj : g.nodes[j]? = some b) : g.united.root i = g.united.root j ↔ g.Joined a b := by
  rw [united, DisjointSet.root_uniteAll_ofSize fun _ => ends_lt]
  constructor
  · intro h
    obtain ⟨b', hb', hab⟩ := (joined_of_eqvGen h).1 a hi
    cases hj.symm.trans hb'
    exact hab
  · exact fun h => eqvGen_of_joined h hi hj

/-! ## Components -/

theorem mem_groups {members : List Phrase} :
    members ∈ g.groups ↔
      ∃ r, members = SortedMap.itemsOf r (g.roots.zip g.nodes) ∧ members ≠ [] := by
  rw [groups, SortedMap.mem_values]
  simp only [SortedMap.find?_group]

theorem mem_group {r : Nat} {a : Phrase} :
    a ∈ SortedMap.itemsOf r (g.roots.zip g.nodes) ↔
      ∃ i, g.nodes[i]? = some a ∧ g.united.root i = r := by
  rw [SortedMap.mem_itemsOf, List.mem_iff_getElem?]
  simp only [List.getElem?_zip_eq_some, roots_eq, List.getElem?_map, Option.map_eq_some_iff]
  constructor
  · rintro ⟨i, ⟨k, hk, hroot⟩, hi⟩
    obtain ⟨hlt, rfl⟩ := List.getElem?_eq_some_iff.1 hk
    rw [List.getElem_range] at hroot
    exact ⟨i, hi, hroot⟩
  · rintro ⟨i, hi, hroot⟩
    obtain ⟨hlt, -⟩ := List.getElem?_eq_some_iff.1 hi
    exact ⟨i, ⟨i, List.getElem?_range hlt, hroot⟩, hi⟩

theorem notAfter_iff {a b : Phrase} : notAfter a b = true ↔ (compare a b).isLE = true := by
  rw [notAfter]
  cases compare a b <;> decide

theorem notAfter_trans (a b c : Phrase) (hab : notAfter a b = true) (hbc : notAfter b c = true) :
    notAfter a c = true := by
  rw [notAfter_iff] at *
  exact Std.TransCmp.isLE_trans hab hbc

theorem notAfter_total (a b : Phrase) : (notAfter a b || notAfter b a) = true := by
  have hswap : compare a b = (compare b a).swap := Std.OrientedCmp.eq_swap
  rw [Bool.or_eq_true, notAfter_iff, notAfter_iff, hswap]
  cases compare b a <;> decide

theorem lt_of_notAfter {a b : Phrase} (h : notAfter a b = true) (hne : a ≠ b) :
    compare a b = .lt := by
  rw [notAfter_iff] at h
  cases hab : compare a b with
  | lt => rfl
  | eq => exact absurd (Std.LawfulEqOrd.eq_of_compare hab) hne
  | gt =>
    rw [hab] at h
    cases h

theorem ascending_sortMembers {members : List Phrase} (h : members.Nodup) :
    Ascending (sortMembers members) := by
  have hsorted := List.pairwise_mergeSort notAfter_trans notAfter_total members
  have hnodup : (sortMembers members).Nodup := (List.mergeSort_perm _ _).nodup_iff.2 h
  exact (hsorted.and hnodup).imp fun hab => lt_of_notAfter hab.1 hab.2

theorem mem_sortMembers {members : List Phrase} {a : Phrase} :
    a ∈ sortMembers members ↔ a ∈ members :=
  List.mem_mergeSort

theorem nodup_of_mem_groups {members : List Phrase} (h : members ∈ g.groups) : members.Nodup :=
  (List.nodup_flatten.1 (g.perm_flatten_groups.nodup_iff.2 g.nodup)).1 members h

/-- A component is what some node is joined to, in ascending order. -/
theorem mem_components {members : List Phrase} :
    members ∈ g.components ↔
      Ascending members ∧ ∃ a ∈ g.nodes, ∀ b, b ∈ members ↔ g.Joined a b := by
  have hgroup : ∀ {i : Nat} {a : Phrase}, g.nodes[i]? = some a → ∀ b,
      b ∈ SortedMap.itemsOf (g.united.root i) (g.roots.zip g.nodes) ↔ g.Joined a b := by
    intro i a hi b
    rw [mem_group]
    constructor
    · rintro ⟨j, hj, hroot⟩
      exact (root_eq_iff_joined hi hj).1 hroot.symm
    · intro hab
      obtain ⟨j, hj⟩ := List.mem_iff_getElem?.1 (hab.mem_nodes (List.mem_of_getElem? hi))
      exact ⟨j, hj, ((root_eq_iff_joined hi hj).2 hab).symm⟩
  rw [components, List.mem_mergeSort, List.mem_map]
  constructor
  · rintro ⟨group, hmem, rfl⟩
    refine ⟨ascending_sortMembers (nodup_of_mem_groups hmem), ?_⟩
    obtain ⟨r, rfl, hne⟩ := mem_groups.1 hmem
    obtain ⟨a, ha⟩ := List.exists_mem_of_ne_nil _ hne
    obtain ⟨i, hi, rfl⟩ := mem_group.1 ha
    refine ⟨a, List.mem_of_getElem? hi, fun b => ?_⟩
    rw [mem_sortMembers, hgroup hi]
  · rintro ⟨hascending, a, ha, hmembers⟩
    obtain ⟨i, hi⟩ := List.mem_iff_getElem?.1 ha
    have hself := (hgroup hi a).2 .refl
    have hmem : SortedMap.itemsOf (g.united.root i) (g.roots.zip g.nodes) ∈ g.groups :=
      mem_groups.2 ⟨_, rfl, List.ne_nil_of_mem hself⟩
    refine ⟨_, hmem, ?_⟩
    apply eq_of_ascending (ascending_sortMembers (nodup_of_mem_groups hmem)) hascending
    intro b
    rw [mem_sortMembers, hgroup hi, hmembers]

theorem ne_nil_of_mem_components {members : List Phrase} (h : members ∈ g.components) :
    members ≠ [] := by
  obtain ⟨-, a, -, hmembers⟩ := mem_components.1 h
  exact List.ne_nil_of_mem ((hmembers a).2 .refl)

theorem representative_mem {members : List Phrase} (h : members ≠ []) :
    representative members ∈ members := by
  cases members with
  | nil => exact absurd rfl h
  | cons a rest => exact List.mem_cons_self

theorem ascending_representatives (g : Graph) : Ascending (g.components.map representative) := by
  have hsorted : g.components.Pairwise fun xs ys =>
      notAfter (representative xs) (representative ys) = true :=
    List.pairwise_mergeSort
      (fun xs ys zs => notAfter_trans (representative xs) (representative ys) (representative zs))
      (fun xs ys => notAfter_total (representative xs) (representative ys)) _
  have hdisjoint :=
    (List.nodup_flatten.1 (g.perm_flatten_components.nodup_iff.2 g.nodup)).2
  apply List.pairwise_map.2
  refine (hsorted.and hdisjoint).imp_of_mem ?_
  rintro xs ys hxs hys ⟨hle, hdisjoint⟩
  apply lt_of_notAfter hle
  intro heq
  have hx := representative_mem (ne_nil_of_mem_components hxs)
  exact hdisjoint hx (heq ▸ representative_mem (ne_nil_of_mem_components hys))

/-! ## The partition -/

/-- The components of a graph as classes, in the one order that there is. -/
structure IsComponentPartition (g : Graph) (p : Partition) : Prop where
  classOf : ∀ a, (p.classOf? a).isSome = true ↔ a ∈ g.nodes
  sameClass : ∀ a b, p.sameClass a b = true ↔ a ∈ g.nodes ∧ g.Joined a b
  members : ∀ c ∈ p.classes, c.members ≠ [] ∧ Ascending c.members ∧
    c.members.head? = some c.representative
  representatives : Ascending (p.classes.map CongruenceClass.representative)
  numbered : p.classes.map CongruenceClass.index = List.range p.classes.length

theorem mem_classesOf {components : List (List Phrase)} {c : CongruenceClass}
    (h : c ∈ classesOf components) :
    c.members ∈ components ∧ c.representative = representative c.members := by
  obtain ⟨⟨members, i⟩, hmem, rfl⟩ := List.mem_map.1 h
  exact ⟨List.mem_of_getElem? (List.mem_zipIdx_iff_getElem?.1 hmem), rfl⟩

theorem exists_mem_classesOf {components : List (List Phrase)} {members : List Phrase}
    (h : members ∈ components) : ∃ c ∈ classesOf components, c.members = members := by
  obtain ⟨i, hi⟩ := List.mem_iff_getElem?.1 h
  exact ⟨⟨i, members, representative members⟩,
    List.mem_map.2 ⟨(members, i), List.mem_zipIdx_iff_getElem?.2 hi, rfl⟩, rfl⟩

theorem map_representative_classesOf (components : List (List Phrase)) :
    (classesOf components).map CongruenceClass.representative =
      components.map representative := by
  have hfirst : (classesOf components).map CongruenceClass.representative =
      (components.zipIdx.map Prod.fst).map representative := by
    rw [classesOf, List.map_map, List.map_map]
    rfl
  rw [hfirst, List.zipIdx_map_fst]

theorem sameClass_partition {a b : Phrase} :
    g.partition.sameClass a b = true ↔ a ∈ g.nodes ∧ g.Joined a b := by
  rw [Partition.sameClass_iff]
  constructor
  · rintro ⟨c, hc, ha, hb⟩
    obtain ⟨-, x, hx, hmembers⟩ := mem_components.1 (mem_classesOf hc).1
    have hxa := (hmembers a).1 ha
    exact ⟨hxa.mem_nodes hx, hxa.symm.trans ((hmembers b).1 hb)⟩
  · rintro ⟨ha, hab⟩
    obtain ⟨members, hmem, hmembers⟩ := List.mem_flatten.1
      (g.perm_flatten_components.mem_iff.2 ha)
    obtain ⟨-, x, -, hjoined⟩ := mem_components.1 hmem
    obtain ⟨c, hc, rfl⟩ := exists_mem_classesOf hmem
    exact ⟨c, hc, hmembers, (hjoined b).2 (((hjoined a).1 hmembers).trans hab)⟩

theorem sameClass_partition_lift {h : Graph} (f : Phrase → Phrase)
    (hnodes : ∀ a ∈ g.nodes, f a ∈ h.nodes)
    (hedges : ∀ a b, g.hasEdge a b = true → h.hasEdge (f a) (f b) = true) {a b : Phrase}
    (hab : g.partition.sameClass a b = true) : h.partition.sameClass (f a) (f b) = true := by
  obtain ⟨ha, hjoined⟩ := sameClass_partition.1 hab
  exact sameClass_partition.2 ⟨hnodes a ha, Relation.ReflTransGen.lift f hedges a b hjoined⟩

/-- More nodes and more edges split no class. -/
theorem sameClass_partition_mono {h : Graph} (hnodes : ∀ a ∈ g.nodes, a ∈ h.nodes)
    (hedges : ∀ a b, g.hasEdge a b = true → h.hasEdge a b = true) {a b : Phrase}
    (hab : g.partition.sameClass a b = true) : h.partition.sameClass a b = true :=
  sameClass_partition_lift id hnodes hedges hab

theorem isSome_classOf?_partition {a : Phrase} :
    (g.partition.classOf? a).isSome = true ↔ a ∈ g.nodes := by
  rw [Partition.isSome_classOf?, ← g.perm_flatten_components.mem_iff,
    ← members_classesOf, List.mem_flatMap]
  rfl

theorem mem_nodes_iff_class {a : Phrase} :
    a ∈ g.nodes ↔ ∃ c ∈ g.partition.classes, a ∈ c.members :=
  isSome_classOf?_partition.symm.trans Partition.isSome_classOf?

theorem partition_isComponentPartition (g : Graph) : IsComponentPartition g g.partition where
  classOf _ := isSome_classOf?_partition
  sameClass _ _ := sameClass_partition
  members c hc := by
    obtain ⟨hmem, hrepresentative⟩ := mem_classesOf hc
    have hne := ne_nil_of_mem_components hmem
    refine ⟨hne, (mem_components.1 hmem).1, ?_⟩
    rw [hrepresentative]
    cases hmembers : c.members with
    | nil => exact absurd hmembers hne
    | cons a rest => rfl
  representatives := by
    rw [show g.partition.classes = classesOf g.components from rfl, map_representative_classesOf]
    exact g.ascending_representatives
  numbered := g.partition.numbered

namespace IsComponentPartition

variable {p q : Partition}

theorem mem_nodes_of_mem_members (h : IsComponentPartition g p) {c : CongruenceClass}
    (hc : c ∈ p.classes) {a : Phrase} (ha : a ∈ c.members) : a ∈ g.nodes :=
  ((h.sameClass a a).1 (Partition.sameClass_iff.2 ⟨c, hc, ha, ha⟩)).1

theorem mem_members_iff_joined (h : IsComponentPartition g p) {c : CongruenceClass}
    (hc : c ∈ p.classes) {a b : Phrase} (ha : a ∈ c.members) :
    b ∈ c.members ↔ g.Joined a b := by
  constructor
  · intro hb
    exact ((h.sameClass a b).1 (Partition.sameClass_iff.2 ⟨c, hc, ha, hb⟩)).2
  · intro hab
    have hnode := h.mem_nodes_of_mem_members hc ha
    obtain ⟨d, hd, had, hbd⟩ := Partition.sameClass_iff.1 ((h.sameClass a b).2 ⟨hnode, hab⟩)
    rwa [Partition.class_unique hc hd ha had]

theorem mem_members (h : IsComponentPartition g p) {members : List Phrase} :
    members ∈ p.classes.map CongruenceClass.members ↔
      Ascending members ∧ ∃ a ∈ g.nodes, ∀ b, b ∈ members ↔ g.Joined a b := by
  rw [List.mem_map]
  constructor
  · rintro ⟨c, hc, rfl⟩
    obtain ⟨hne, hascending, -⟩ := h.members c hc
    obtain ⟨a, ha⟩ := List.exists_mem_of_ne_nil _ hne
    exact ⟨hascending, a, h.mem_nodes_of_mem_members hc ha,
      fun b => h.mem_members_iff_joined hc ha⟩
  · rintro ⟨hascending, a, hnode, hmembers⟩
    obtain ⟨c, hc, ha⟩ := Partition.isSome_classOf?.1 ((h.classOf a).2 hnode)
    refine ⟨c, hc, ?_⟩
    apply eq_of_ascending (h.members c hc).2.1 hascending
    intro b
    rw [h.mem_members_iff_joined hc ha, hmembers]

theorem representative_eq (h : IsComponentPartition g p) {c : CongruenceClass}
    (hc : c ∈ p.classes) : c.representative = representative c.members := by
  obtain ⟨-, -, hhead⟩ := h.members c hc
  rw [representative, List.headD_eq_head?_getD, hhead]
  rfl

theorem classes_eq (h : IsComponentPartition g p) :
    p.classes = classesOf (p.classes.map CongruenceClass.members) := by
  rw [classesOf, List.zipIdx_map, List.map_map]
  apply List.ext_getElem?
  intro i
  rw [List.getElem?_map, List.getElem?_zipIdx, Option.map_map]
  cases hc : p.classes[i]? with
  | none => rfl
  | some c =>
    have hindex : (p.classes.map CongruenceClass.index)[i]? = some c.index := by
      rw [List.getElem?_map, hc]
      rfl
    obtain ⟨hlt, -⟩ := List.getElem?_eq_some_iff.1 hc
    rw [h.numbered, List.getElem?_range hlt, Option.some.injEq] at hindex
    have hrepresentative := h.representative_eq (List.mem_of_getElem? hc)
    obtain ⟨index, members, first⟩ := c
    simp only at hindex hrepresentative
    simp [hindex, hrepresentative]

theorem unique (hp : IsComponentPartition g p) (hq : IsComponentPartition g q) : p = q := by
  have hascending : ∀ {p : Partition}, IsComponentPartition g p →
      Ascending ((p.classes.map CongruenceClass.members).map representative) := by
    intro p h
    rw [List.map_map]
    have := h.representatives
    rwa [List.map_congr_left fun c hc => h.representative_eq hc] at this
  have hmembers : p.classes.map CongruenceClass.members =
      q.classes.map CongruenceClass.members := by
    apply eq_of_ascending_map (hascending hp) (hascending hq)
    intro members
    rw [hp.mem_members, hq.mem_members]
  have hclasses : p.classes = q.classes := by
    rw [hp.classes_eq, hq.classes_eq, hmembers]
  obtain ⟨_, _, _⟩ := p
  obtain ⟨_, _, _⟩ := q
  cases hclasses
  rfl

theorem congr {h : Graph} (hp : IsComponentPartition g p) (hnodes : ∀ a, a ∈ h.nodes ↔ a ∈ g.nodes)
    (hedges : ∀ a b, h.hasEdge a b = g.hasEdge a b) : IsComponentPartition h p := by
  have hjoined : ∀ a b, h.Joined a b ↔ g.Joined a b := by
    intro a b
    simp only [Joined, hedges]
  refine ⟨fun a => ?_, fun a b => ?_, hp.members, hp.representatives, hp.numbered⟩
  · rw [hp.classOf, hnodes]
  · rw [hp.sameClass, hnodes, hjoined]

end IsComponentPartition

/-- The check of the classes never fails, the classes are the components in their one
order, and graphs with the same nodes and the same edges have the same partition. -/
theorem partition_canonical (g : Graph) :
    Partition.ofClasses (classesOf g.components) = .ok g.partition ∧
      IsComponentPartition g g.partition ∧
      ∀ h : Graph, (∀ a, a ∈ h.nodes ↔ a ∈ g.nodes) →
        (∀ a b, h.hasEdge a b = g.hasEdge a b) → h.partition = g.partition := by
  refine ⟨Partition.ofClasses_classes g.partition, g.partition_isComponentPartition, ?_⟩
  intro h hnodes hedges
  have hh := h.partition_isComponentPartition
  exact hh.unique (g.partition_isComponentPartition.congr hnodes hedges)

end Substitutability.Graph
