import Substitutability.Graph.Basic
import Substitutability.Proofs.ContextSet
import Substitutability.Proofs.Graph.Edges

/-!
# The graph of a context set is its intersection graph

Two phrases are joined exactly when they have a common context, and the witness is
the least one: what a search through all pairs of phrases would find. It does not
matter that the buckets are joined in the order of edges and not of contexts.
-/

set_option autoImplicit false

namespace Substitutability.Graph

theorem mem_pairs {is : List Nat} (h : is.Pairwise (· < ·)) {i j : Nat} :
    (i, j) ∈ pairs is ↔ i ∈ is ∧ j ∈ is ∧ i < j := by
  induction is with
  | nil => simp [pairs]
  | cons k rest ih =>
    obtain ⟨hk, hrest⟩ := List.pairwise_cons.1 h
    rw [pairs, List.mem_append, ih hrest]
    simp only [List.mem_map, Prod.mk.injEq, List.mem_cons]
    constructor
    · rintro (⟨x, hx, rfl, rfl⟩ | ⟨hi, hj, hlt⟩)
      · exact ⟨.inl rfl, .inr hx, hk x hx⟩
      · exact ⟨.inr hi, .inr hj, hlt⟩
    · rintro ⟨rfl | hi, rfl | hj, hlt⟩
      · omega
      · exact .inl ⟨j, hj, rfl, rfl⟩
      · have := hk i hi
        omega
      · exact .inr ⟨hi, hj, hlt⟩

theorem nodes_addNodes {phrases : List Phrase} {g : Graph} (h : (g.nodes ++ phrases).Nodup) :
    (addNodes phrases g).nodes = g.nodes ++ phrases := by
  induction phrases generalizing g with
  | nil => simp [addNodes]
  | cons phrase rest ih =>
    have hfresh : phrase ∉ g.nodes := by
      intro hmem
      exact (List.nodup_append.1 h).2.2 phrase hmem phrase List.mem_cons_self rfl
    have hnodes := nodes_addNode_of_not_mem hfresh
    rw [addNodes, List.foldl_cons]
    have hrest : (addNodes rest (g.addNode phrase)).nodes = (g.addNode phrase).nodes ++ rest := by
      apply ih
      rw [hnodes]
      simpa using h
    rw [hnodes, List.append_assoc, List.singleton_append] at hrest
    exact hrest

theorem witnesses_addNodes (phrases : List Phrase) (g : Graph) :
    (addNodes phrases g).witnesses = g.witnesses := by
  induction phrases generalizing g with
  | nil => rfl
  | cons phrase rest ih => exact (ih (g.addNode phrase)).trans (witnesses_addNode g phrase)

/-! ## Buckets -/

section Buckets

variable {described : List (Phrase × List Context)}

def positions (described : List (Phrase × List Context)) (c : Context) : List Nat :=
  SortedMap.itemsOf c
    (described.zipIdx.flatMap fun ((_, contexts), i) => contexts.map (·, i))

theorem find?_buckets {c : Context} {is : List Nat} :
    (buckets described).find? c = some is ↔ is = positions described c ∧ is ≠ [] :=
  SortedMap.find?_group

theorem mem_positions {c : Context} {i : Nat} :
    i ∈ positions described c ↔
      ∃ phrase contexts, described[i]? = some (phrase, contexts) ∧ c ∈ contexts := by
  rw [positions, SortedMap.mem_itemsOf, List.mem_flatMap]
  constructor
  · rintro ⟨⟨⟨phrase, contexts⟩, j⟩, hj, hmem⟩
    obtain ⟨d, hd, heq⟩ := List.mem_map.1 hmem
    cases heq
    exact ⟨phrase, contexts, List.mem_zipIdx_iff_getElem?.1 hj, hd⟩
  · rintro ⟨phrase, contexts, hi, hc⟩
    exact ⟨((phrase, contexts), i), List.mem_zipIdx_iff_getElem?.2 hi, List.mem_map.2 ⟨c, hc, rfl⟩⟩

theorem positions_ascending
    (h : ∀ phrase contexts, (phrase, contexts) ∈ described → Ascending contexts) (c : Context) :
    (positions described c).Pairwise (· < ·) := by
  have hlater : (described.zipIdx.map Prod.snd).Pairwise (· < ·) := by
    rw [List.zipIdx_map_snd]
    exact List.pairwise_lt_range'
  rw [positions, SortedMap.itemsOf, List.pairwise_filterMap, List.pairwise_flatMap]
  constructor
  · -- one phrase has the context once
    rintro ⟨⟨phrase, contexts⟩, i⟩ hmem
    have hcontexts := h phrase contexts (List.mem_of_getElem? (List.mem_zipIdx_iff_getElem?.1 hmem))
    apply List.pairwise_map.2
    refine hcontexts.nodup.imp ?_
    intro d d' hne b hb b' hb'
    simp only [Option.ite_none_right_eq_some] at hb hb'
    exact absurd (hb.1.trans hb'.1.symm) hne
  · refine (List.pairwise_map.1 hlater).imp ?_
    rintro ⟨⟨phrase, contexts⟩, i⟩ ⟨⟨phrase', contexts'⟩, i'⟩ hlt x hx y hy b hb b' hb'
    obtain ⟨d, -, rfl⟩ := List.mem_map.1 hx
    obtain ⟨d', -, rfl⟩ := List.mem_map.1 hy
    simp only [Option.ite_none_right_eq_some, Option.some.injEq] at hb hb'
    obtain ⟨-, rfl⟩ := hb
    obtain ⟨-, rfl⟩ := hb'
    exact hlt

/-- The joins of all buckets are the pairs of positions with a common context. -/
theorem mem_joins (h : ∀ phrase contexts, (phrase, contexts) ∈ described → Ascending contexts)
    {e : Edge} {c : Context} :
    (e, c) ∈ joins (buckets described).toList ↔
      e.source < e.target ∧ e.source ∈ positions described c ∧
        e.target ∈ positions described c := by
  have hpairs := fun {i j} => mem_pairs (i := i) (j := j) (positions_ascending h c)
  rw [joins, List.mem_mergeSort, List.mem_flatMap]
  constructor
  · rintro ⟨⟨d, is⟩, hbucket, hmem⟩
    obtain ⟨⟨i, j⟩, hij, heq⟩ := List.mem_map.1 hmem
    cases heq
    obtain ⟨rfl, -⟩ := find?_buckets.1 (SortedMap.find?_eq_some.2 hbucket)
    obtain ⟨hi, hj, hlt⟩ := hpairs.1 hij
    rw [Edge.between_of_lt hlt]
    exact ⟨hlt, hi, hj⟩
  · rintro ⟨hlt, hsource, htarget⟩
    have hbucket := find?_buckets.2 ⟨rfl, List.ne_nil_of_mem hsource⟩
    refine ⟨(c, positions described c), SortedMap.find?_eq_some.1 hbucket, List.mem_map.2 ?_⟩
    refine ⟨(e.source, e.target), hpairs.2 ⟨hsource, htarget, hlt⟩, ?_⟩
    show (Edge.between e.source e.target, c) = (e, c)
    rw [Edge.between_of_lt hlt]

end Buckets

/-! ## Joining pair by pair -/

/-- Go through the buckets and join their pairs one after the other. -/
def connectBuckets (buckets : List (Context × List Nat)) (g : Graph) : Graph :=
  buckets.foldl (fun g bucket =>
    (pairs bucket.2).foldl (fun g (i, j) => g.connect i j bucket.1) g) g

theorem connectBuckets_eq (buckets : List (Context × List Nat)) (g : Graph) :
    connectBuckets buckets g = g.connectAll (joins buckets) := by
  have hstep : ∀ (g : Graph) (bucket : Context × List Nat),
      (pairs bucket.2).foldl (fun g (i, j) => g.connect i j bucket.1) g =
        (bucketJoins bucket).foldl (fun g join => g.connectAll [join]) g := by
    intro g bucket
    rw [bucketJoins, List.foldl_map]
    rfl
  rw [connectBuckets]
  simp only [hstep]
  rw [← List.foldl_flatMap, foldl_connectAll]
  apply connectAll_congr
  intro join
  rw [joins, List.mem_mergeSort]

theorem ofContexts_eq_connectBuckets (s : ContextSet) :
    ofContexts s =
      { connectBuckets (buckets s.described).toList (addNodes (s.described.map Prod.fst) empty) with
        contextIndex := buckets s.described } := by
  rw [connectBuckets_eq]
  rfl

/-! ## The graph -/

theorem ofContexts_congr {s t : ContextSet}
    (h : ∀ phrase context, s.Attests phrase context ↔ t.Attests phrase context) :
    ofContexts s = ofContexts t := by
  simp only [ofContexts, ContextSet.described_congr h]

theorem nodes_ofContexts (s : ContextSet) : (ofContexts s).nodes = s.described.map Prod.fst := by
  have hnodup : (empty.nodes ++ s.described.map Prod.fst).Nodup := s.ascending_described.nodup
  exact nodes_addNodes hnodup

theorem mem_positions_described {s : ContextSet} {c : Context} {i : Nat} :
    i ∈ positions s.described c ↔
      ∃ phrase, (ofContexts s).nodes[i]? = some phrase ∧ s.Attests phrase c := by
  rw [mem_positions, nodes_ofContexts, List.getElem?_map]
  constructor
  · rintro ⟨phrase, contexts, hi, hc⟩
    refine ⟨phrase, by rw [hi]; rfl, ?_⟩
    exact ContextSet.attests_iff_described.2 ⟨contexts, List.mem_of_getElem? hi, hc⟩
  · rintro ⟨phrase, hphrase, hattests⟩
    obtain ⟨⟨p, contexts⟩, hi, rfl⟩ := Option.map_eq_some_iff.1 hphrase
    obtain ⟨contexts', hmem, hc⟩ := ContextSet.attests_iff_described.1 hattests
    obtain ⟨set, hset, rfl, -⟩ := ContextSet.mem_described.1 (List.mem_of_getElem? hi)
    obtain ⟨set', hset', rfl, -⟩ := ContextSet.mem_described.1 hmem
    rw [hset] at hset'
    cases hset'
    exact ⟨p, set.toList, hi, hc⟩

theorem leastOf_witnesses (s : ContextSet) (e : Edge) :
    LeastOf (fun d => e.source < e.target ∧ e.source ∈ positions s.described d ∧
      e.target ∈ positions s.described d) ((ofContexts s).witnesses.find? e) := by
  have hcontexts : ∀ phrase contexts, (phrase, contexts) ∈ s.described → Ascending contexts :=
    fun _ _ => ContextSet.ascending_contexts
  refine (LeastOf.congr fun d => ?_).1 (leastOf_connectAll
    (addNodes (s.described.map Prod.fst) empty) (joins (buckets s.described).toList) e)
  rw [mem_joins hcontexts, witnesses_addNodes,
    show (addNodes (s.described.map Prod.fst) empty).nodes = (ofContexts s).nodes from rfl]
  constructor
  · rintro (⟨-, h⟩ | h)
    · exact h
    · cases h
  · rintro ⟨hlt, hsource, htarget⟩
    obtain ⟨phrase, hphrase, -⟩ := mem_positions_described.1 htarget
    obtain ⟨hlast, -⟩ := List.getElem?_eq_some_iff.1 hphrase
    exact .inl ⟨Edge.fits_iff.2 ⟨hlt, hlast⟩, hlt, hsource, htarget⟩

theorem mem_positions_iff {s : ContextSet} {i : Nat} {phrase : Phrase} {c : Context}
    (hi : (ofContexts s).nodes[i]? = some phrase) :
    i ∈ positions s.described c ↔ s.Attests phrase c := by
  rw [mem_positions_described]
  constructor
  · rintro ⟨p, hp, h⟩
    rw [hi] at hp
    cases hp
    exact h
  · exact fun h => ⟨phrase, hi, h⟩

theorem mem_nodes_ofContexts {s : ContextSet} {phrase : Phrase} :
    phrase ∈ (ofContexts s).nodes ↔ ∃ c, s.Attests phrase c := by
  rw [nodes_ofContexts, ContextSet.mem_described_phrases]

theorem leastOf_between {s : ContextSet} {a b : Phrase} {i j : Nat}
    (hi : (ofContexts s).nodes[i]? = some a) (hj : (ofContexts s).nodes[j]? = some b)
    (hij : i ≠ j) :
    LeastOf (fun d => s.Attests a d ∧ s.Attests b d)
      ((ofContexts s).witnesses.find? (Edge.between i j)) := by
  refine (LeastOf.congr fun d => ?_).1 (leastOf_witnesses s (Edge.between i j))
  rw [← mem_positions_iff hi, ← mem_positions_iff hj]
  rcases Nat.lt_or_gt_of_ne hij with hlt | hlt
  · simp [Edge.between_of_lt hlt, hlt]
  · simp [Edge.between_of_gt hlt, hlt, and_comm]

theorem leastOf_witness? (s : ContextSet) (a b : Phrase) :
    LeastOf (fun d => a ≠ b ∧ s.Attests a d ∧ s.Attests b d) ((ofContexts s).witness? a b) := by
  cases hw : (ofContexts s).witness? a b with
  | none =>
    rintro d ⟨hab, ha, hb⟩
    obtain ⟨i, hi⟩ := List.mem_iff_getElem?.1 (mem_nodes_ofContexts.2 ⟨d, ha⟩)
    obtain ⟨j, hj⟩ := List.mem_iff_getElem?.1 (mem_nodes_ofContexts.2 ⟨d, hb⟩)
    have hij : i ≠ j := by
      rintro rfl
      rw [hi] at hj
      exact hab (Option.some.inj hj)
    have hleast := leastOf_between hi hj hij
    rw [← witness?_eq hi hj hij, hw] at hleast
    exact hleast d ⟨ha, hb⟩
  | some c =>
    obtain ⟨i, j, hi, hj, hfind⟩ := witness?_eq_some.1 hw
    have hij := ne_of_between hfind
    have hab : a ≠ b := by
      rintro rfl
      exact hij (node_injective hi hj)
    have hleast := leastOf_between hi hj hij
    rw [hfind] at hleast
    exact (LeastOf.congr fun d => by simp [hab]).1 hleast

/-- The graph of all pairs of phrases with a common context, with the least such
context for each pair, and with the numbers of the phrases that have a context. -/
structure IsIntersectionGraph (s : ContextSet) (g : Graph) : Prop where
  nodes_ascending : Ascending g.nodes
  mem_nodes : ∀ a, a ∈ g.nodes ↔ ∃ c, s.Attests a c
  hasEdge : ∀ a b, g.hasEdge a b = true ↔ a ≠ b ∧ ∃ c, s.Attests a c ∧ s.Attests b c
  witness : ∀ a b, LeastOf (fun c => a ≠ b ∧ s.Attests a c ∧ s.Attests b c) (g.witness? a b)
  edges_ascending : Ascending g.edges
  mem_edges : ∀ e, e ∈ g.edges ↔ e.source < e.target ∧
    ∃ a b, g.node? e.source = some a ∧ g.node? e.target = some b ∧ g.hasEdge a b = true
  mem_index : ∀ c, c ∈ g.contextIndex.keys ↔ ∃ a, s.Attests a c
  index : ∀ c is, g.contextIndex.find? c = some is →
    is.Pairwise (· < ·) ∧ ∀ i, i ∈ is ↔ ∃ a, g.node? i = some a ∧ s.Attests a c

theorem hasEdge_ofContexts {s : ContextSet} {a b : Phrase} :
    (ofContexts s).hasEdge a b = true ↔ a ≠ b ∧ ∃ c, s.Attests a c ∧ s.Attests b c := by
  rw [hasEdge, (leastOf_witness? s a b).isSome_iff, exists_and_left]

theorem find?_contextIndex {s : ContextSet} {c : Context} {is : List Nat} :
    (ofContexts s).contextIndex.find? c = some is ↔ is = positions s.described c ∧ is ≠ [] :=
  find?_buckets

theorem mem_contextIndex {s : ContextSet} {c : Context} :
    c ∈ (ofContexts s).contextIndex.keys ↔ ∃ a, s.Attests a c := by
  rw [SortedMap.mem_keys]
  constructor
  · rintro ⟨is, his⟩
    obtain ⟨rfl, hne⟩ := find?_contextIndex.1 his
    obtain ⟨i, hi⟩ := List.exists_mem_of_ne_nil _ hne
    obtain ⟨a, -, ha⟩ := mem_positions_described.1 hi
    exact ⟨a, ha⟩
  · rintro ⟨a, ha⟩
    obtain ⟨i, hi⟩ := List.mem_iff_getElem?.1 (mem_nodes_ofContexts.2 ⟨c, ha⟩)
    have hmem : i ∈ positions s.described c := (mem_positions_iff hi).2 ha
    exact ⟨_, find?_contextIndex.2 ⟨rfl, List.ne_nil_of_mem hmem⟩⟩

theorem ofContexts_isIntersectionGraph (s : ContextSet) :
    IsIntersectionGraph s (ofContexts s) where
  nodes_ascending := by
    rw [nodes_ofContexts]
    exact s.ascending_described
  mem_nodes _ := mem_nodes_ofContexts
  hasEdge _ _ := hasEdge_ofContexts
  witness a b := leastOf_witness? s a b
  edges_ascending := (ofContexts s).witnesses.ascending
  mem_edges _ := mem_edges_iff_hasEdge
  mem_index _ := mem_contextIndex
  index c is his := by
    obtain ⟨rfl, -⟩ := find?_contextIndex.1 his
    constructor
    · exact positions_ascending (fun _ _ => ContextSet.ascending_contexts) c
    · exact fun i => mem_positions_described

def Indexed (g : Graph) : Prop :=
  ∀ bucket ∈ g.contextIndex.toList, ∀ i ∈ bucket.2, i < g.nodes.length

theorem indexed_ofContexts (s : ContextSet) : Indexed (ofContexts s) := by
  rintro ⟨c, is⟩ hbucket i hi
  obtain ⟨rfl, -⟩ := find?_contextIndex.1 (SortedMap.find?_eq_some.2 hbucket)
  obtain ⟨phrase, hphrase, -⟩ := mem_positions_described.1 hi
  exact (List.getElem?_eq_some_iff.1 hphrase).1

end Substitutability.Graph
