import Substitutability.Proofs.Graph.OfContexts
import Substitutability.Proofs.Graph.Tables

/-!
# The tables of the graph of a context set

The graph of a context set can be built in tables: the phrases become nodes one by one, each is
entered for all of its contexts, and then every two nodes of a context are joined. The tables that
this leaves are those of the graph, and so are the numbers of the nodes that have a context.
-/

set_option autoImplicit false

namespace Substitutability

/-- The phrases with their contexts, also those that have none. -/
def ContextSet.listed (s : ContextSet) : List (Phrase × List Context) :=
  s.entries.toList.map fun (phrase, attestation) => (phrase, attestation.contexts.toList)

namespace Tables

abbrev Index := SortedMap Context (List Nat)

def enter (index : Index) (item : Context × Nat) : Index :=
  index.alter item.1 fun old => old.getD [] ++ [item.2]

def describe (state : Tables × Index) (entry : Phrase × List Context) : Tables × Index :=
  if entry.2 = [] then state
  else
    let (i, t) := state.1.addNode entry.1
    (t, (entry.2.map (·, i)).foldl enter state.2)

def join (t : Tables) (bucket : Context × List Nat) : Tables :=
  (Graph.pairs bucket.2).foldl (fun t (i, j) => (t.connect i j bucket.1).2) t

def build (entries : List (Phrase × List Context)) : Tables × Index :=
  let described := entries.foldl describe (empty, SortedMap.empty)
  (described.2.toList.foldl join described.1, described.2)

theorem describe_of_contexts {t : Tables} {index : Index} {entry : Phrase × List Context}
    (h : entry.2 ≠ []) :
    describe (t, index) entry =
      ((t.addNode entry.1).2, (entry.2.map (·, (t.addNode entry.1).1)).foldl enter index) :=
  if_neg h

end Tables

namespace Graph

open Tables (describe enter join)

/-! ## Entering the phrases -/

/-- The contexts of phrases that are numbered from a number on, each with the number. -/
def numbered (first : Nat) (described : List (Phrase × List Context)) : List (Context × Nat) :=
  (described.zipIdx first).flatMap fun ((_, contexts), i) => contexts.map (·, i)

theorem foldl_describe {entries : List (Phrase × List Context)} {g : Graph}
    (h : (g.nodes ++ entries.map Prod.fst).Nodup) (index : Tables.Index) :
    entries.foldl describe (g.tables, index) =
      ((addNodes ((entries.filter (!·.2.isEmpty)).map Prod.fst) g).tables,
        (numbered g.nodes.length (entries.filter (!·.2.isEmpty))).foldl enter index) := by
  induction entries generalizing g index with
  | nil => rfl
  | cons entry rest ih =>
    obtain ⟨phrase, contexts⟩ := entry
    rw [List.foldl_cons]
    by_cases hcontexts : contexts = []
    · have hrest : (g.nodes ++ rest.map Prod.fst).Nodup :=
        h.sublist ((List.sublist_cons_self _ _).append_left g.nodes)
      subst hcontexts
      exact ih hrest index
    · have hfresh : phrase ∉ g.nodes := fun hmem =>
        (List.nodup_append.1 h).2.2 phrase hmem phrase List.mem_cons_self rfl
      have hnodes := nodes_addNode_of_not_mem hfresh
      obtain ⟨i, hi, hadd⟩ := g.tables_addNode phrase
      have hlast : (g.addNode phrase).nodes[g.nodes.length]? = some phrase := by simp [hnodes]
      obtain rfl := node_injective hi hlast
      have hrest : ((g.addNode phrase).nodes ++ rest.map Prod.fst).Nodup := by
        rw [hnodes]
        simpa using h
      have hkept : ((phrase, contexts) :: rest).filter (!·.2.isEmpty) =
          (phrase, contexts) :: rest.filter (!·.2.isEmpty) :=
        List.filter_cons_of_pos (by simpa using hcontexts)
      rw [Tables.describe_of_contexts hcontexts, hadd, hkept, numbered, List.zipIdx_cons,
        List.flatMap_cons, List.foldl_append]
      simp only
      rw [ih hrest, hnodes, List.length_append]
      rfl

/-! ## Joining the nodes -/

theorem mem_of_mem_pairs {is : List Nat} {pair : Nat × Nat} (h : pair ∈ pairs is) :
    pair.1 ∈ is ∧ pair.2 ∈ is := by
  induction is with
  | nil => cases h
  | cons i rest ih =>
    rcases List.mem_append.1 h with h | h
    · obtain ⟨j, hj, rfl⟩ := List.mem_map.1 h
      exact ⟨List.mem_cons_self, List.mem_cons_of_mem _ hj⟩
    · exact ⟨List.mem_cons_of_mem _ (ih h).1, List.mem_cons_of_mem _ (ih h).2⟩

theorem foldl_connect {joins : List (Nat × Nat)} {g : Graph}
    (h : ∀ pair ∈ joins, pair.1 < g.nodes.length ∧ pair.2 < g.nodes.length) (c : Context) :
    joins.foldl (fun t (i, j) => (t.connect i j c).2) g.tables =
      (joins.foldl (fun g (i, j) => g.connect i j c) g).tables := by
  induction joins generalizing g with
  | nil => rfl
  | cons pair rest ih =>
    obtain ⟨hpair, hrest⟩ := List.forall_mem_cons.1 h
    rw [List.foldl_cons, List.foldl_cons]
    simp only [tables_connect hpair.1 hpair.2]
    exact ih hrest

theorem nodes_foldl_connect (joins : List (Nat × Nat)) (g : Graph) (c : Context) :
    (joins.foldl (fun g (i, j) => g.connect i j c) g).nodes = g.nodes := by
  induction joins generalizing g with
  | nil => rfl
  | cons pair rest ih => exact ih (g.connect pair.1 pair.2 c)

theorem foldl_join {buckets : List (Context × List Nat)} {g : Graph}
    (h : ∀ bucket ∈ buckets, ∀ i ∈ bucket.2, i < g.nodes.length) :
    buckets.foldl join g.tables = (connectBuckets buckets g).tables := by
  induction buckets generalizing g with
  | nil => rfl
  | cons bucket rest ih =>
    obtain ⟨hbucket, hrest⟩ := List.forall_mem_cons.1 h
    have hpairs : ∀ pair ∈ pairs bucket.2,
        pair.1 < g.nodes.length ∧ pair.2 < g.nodes.length := fun pair hpair =>
      ⟨hbucket _ (mem_of_mem_pairs hpair).1, hbucket _ (mem_of_mem_pairs hpair).2⟩
    rw [List.foldl_cons, join, foldl_connect hpairs]
    apply ih
    rw [nodes_foldl_connect]
    exact hrest

theorem nodup_keys_listed (s : ContextSet) : (s.listed.map Prod.fst).Nodup := by
  rw [ContextSet.listed, List.map_map]
  exact s.entries.ascending.nodup

/-- Building in tables what a context set lists gives the tables and the index of its graph. -/
theorem build_eq_tables (s : ContextSet) :
    Tables.build s.listed = ((ofContexts s).tables, (ofContexts s).contextIndex) := by
  have hdescribed : s.listed.foldl describe (Tables.empty, SortedMap.empty) =
      ((addNodes (s.described.map Prod.fst) empty).tables, buckets s.described) :=
    foldl_describe (g := empty) (nodup_keys_listed s) SortedMap.empty
  have hjoined : (buckets s.described).toList.foldl join
        (addNodes (s.described.map Prod.fst) empty).tables =
      (connectBuckets (buckets s.described).toList
        (addNodes (s.described.map Prod.fst) empty)).tables :=
    foldl_join (indexed_ofContexts s)
  rw [Tables.build, hdescribed, ofContexts_eq_connectBuckets]
  exact Prod.ext hjoined rfl

end Graph

end Substitutability
