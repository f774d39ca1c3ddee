import Substitutability.Corpus.Basic
import Substitutability.Proofs.Graph.Fanouts
import Substitutability.Proofs.Interchange
import Substitutability.Proofs.Learning.Learner

/-!
# Numbers of different stages agree

Each stage counts what it made, from its own data. The numbers of the context set, of the
graph, of its classes and of the grammar bound and determine one another.
-/

set_option autoImplicit false

namespace Substitutability

theorem Extractor.nodes_graph (extractor : Extractor) (sentences : List Sentence) :
    (extractor.graph sentences).nodes = (extractor.extract sentences).entries.keys := by
  have hnodes := Graph.ofContexts_isIntersectionGraph (extractor.extract sentences)
  apply eq_of_ascending hnodes.nodes_ascending (extractor.extract sentences).entries.ascending
  intro a
  exact Graph.mem_nodes_ofContexts.trans mem_keys_extract_iff_attests.symm

/-- What the numbers of the stages say about one another. -/
structure Learned.CountsAgree (r : Learned) : Prop where
  phrases : r.summary.phrases = r.summary.nodes
  contexts : r.summary.distinctContexts = r.graph.statistics.contexts
  neighbors :
    r.graph.degrees = (List.range r.summary.nodes).map fun i => (r.graph.neighbors i).length
  degrees : total r.graph.degrees = 2 * r.summary.edges
  isolated : r.graph.statistics.isolatedNodes = r.summary.singletons
  fewest_edges : r.summary.nodes ≤ r.summary.classes + r.summary.edges
  most_edges :
    r.summary.edges ≤ total (r.partition.classes.map fun c => c.size * (c.size - 1) / 2)
  widest : r.graph.statistics.widestContext ≤ r.summary.largestClass
  greatest : r.summary.nodes ≠ 0 → r.graph.statistics.greatestDegree + 1 ≤ r.summary.largestClass
  members : total (r.partition.classes.map CongruenceClass.size) = r.summary.nodes
  fragments : r.summary.productive + r.summary.unproductive = r.summary.classes
  unshared : r.summary.sharedContexts = 0 ↔ r.summary.edges = 0
  edgeless : r.summary.edges = 0 ↔ r.summary.singletons = r.summary.classes

theorem Grammar.productive_add_unproductive (g : Grammar) :
    g.productive.length + g.unproductive.length = g.fragments.length :=
  (List.length_eq_length_filter_add Fragment.productive).symm

theorem Graph.greatest_degrees_lt (g : Graph) (h : g.nodes ≠ []) :
    greatest g.degrees + 1 ≤ g.partition.largestSize := by
  have hdegree : ∀ a ∈ g.nodes, (g.partners a).length + 1 ≤ g.partition.largestSize := by
    intro a ha
    obtain ⟨c, hc, hmember⟩ := mem_nodes_iff_class.1 ha
    exact (length_partners_lt_size hc hmember).trans (size_le_largestSize hc)
  have hgreatest : greatest g.degrees ≤ g.partition.largestSize - 1 := by
    rw [greatest_le_iff, degrees_eq]
    intro n hn
    obtain ⟨a, ha, rfl⟩ := List.mem_map.1 hn
    have := hdegree a ha
    omega
  obtain ⟨a, ha⟩ := List.exists_mem_of_ne_nil _ h
  have := hdegree a ha
  omega

theorem Learner.countsAgree_learned (l : Learner) (corpus : Corpus) :
    (l.learned corpus).CountsAgree where
  phrases := by
    show (l.extractor.extract corpus.sentences).entries.size =
      (l.extractor.graph corpus.sentences).nodes.length
    rw [Extractor.nodes_graph, SortedMap.size_eq_length_keys]
  contexts := Graph.size_contextIndex _
  neighbors := by
    simp only [Graph.length_neighbors]
    exact Graph.degrees_eq_map _
  degrees := Graph.total_degrees _
  isolated := Graph.isolated_eq_singletons _
  fewest_edges := Graph.nodeCount_le _
  most_edges := Graph.edgeCount_le_pairs _
  widest := Graph.greatest_fanouts_le _
  greatest h := Graph.greatest_degrees_lt _ fun hnil => h (congrArg List.length hnil)
  members := Graph.memberCount_partition _
  fragments := by
    have hfragments := Grammar.productive_add_unproductive (l.learned corpus).grammar
    exact hfragments.trans (List.length_map _)
  unshared := Graph.sharedContexts_eq_zero_iff _
  edgeless := by
    have hclasses := (l.learned corpus).graph.edgeCount_eq_zero_iff
    rwa [← List.countP_eq_length] at hclasses

theorem Learned.CountsAgree.timed {r : Learned} (h : r.CountsAgree) (durations : Durations) :
    CountsAgree { r with durations := durations } :=
  ⟨h.phrases, h.contexts, h.neighbors, h.degrees, h.isolated, h.fewest_edges, h.most_edges,
    h.widest, h.greatest, h.members, h.fragments, h.unshared, h.edgeless⟩

/-- The learner of a valid configuration returns numbers that agree, for every corpus that
has a sentence. -/
theorem counts_of_stages_agree {c : Configuration} (hc : c.rejection? = none) (corpus : Corpus)
    (h : corpus.sentences ≠ []) :
    ∃ l, c.learner? = .ok l ∧ (l.learn corpus).Returns fun r =>
      r.CountsAgree ∧ ∃ durations, r = { l.learned corpus with durations := durations } := by
  obtain ⟨l, hl, -⟩ := Configuration.exists_learner hc
  refine ⟨l, hl, (l.returns_learn h).imp ?_⟩
  intro r hr
  obtain ⟨durations, rfl⟩ := hr
  exact ⟨(l.countsAgree_learned corpus).timed durations, durations, rfl⟩

theorem counts_of_dogs_and_cats :
    ({} : Configuration).rejection? = none ∧ Corpus.dogsAndCats.sentences ≠ [] ∧
      ∃ l, ({} : Configuration).learner? = .ok l ∧
        (l.learn Corpus.dogsAndCats).Returns fun r => r.CountsAgree ∧
          ∃ durations, r = { l.learned Corpus.dogsAndCats with durations := durations } := by
  have hvalid : ({} : Configuration).rejection? = none := by decide
  have hsome : Corpus.dogsAndCats.sentences ≠ [] := by decide
  exact ⟨hvalid, hsome, counts_of_stages_agree hvalid Corpus.dogsAndCats hsome⟩

example :
    let graph := Extractor.whole.graph Corpus.dogsAndCats.sentences
    (graph.nodeCount, graph.edgeCount, graph.partition.size, graph.partition.singletonCount,
      graph.partition.largestSize) = (19, 14, 9, 2, 4) := by
  cbv

end Substitutability
