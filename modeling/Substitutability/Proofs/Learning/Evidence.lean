import Substitutability.Corpus.Basic
import Substitutability.Proofs.Grammar.Productivity
import Substitutability.Proofs.Learning.Learner

/-!
# More evidence

A corpus that has all sentences of another attests all that the other attests. Its graph
has the nodes and the edges of the other graph, so phrases of one class stay in one
class. That class has all contexts of the old one and stays productive.
-/

set_option autoImplicit false

namespace Substitutability

/-! ## Graphs -/

namespace Graph

/-- The second graph has the nodes and the edges of the first one, and for these edges
no larger witnesses. -/
structure Within (g h : Graph) : Prop where
  nodes : ∀ a ∈ g.nodes, a ∈ h.nodes
  hasEdge : ∀ a b, g.hasEdge a b = true → h.hasEdge a b = true
  witness : ∀ a b c d, g.witness? a b = some c → h.witness? a b = some d → compare d c ≠ .gt

theorem ofContexts_within {s t : ContextSet}
    (h : ∀ a c, s.Attests a c → t.Attests a c) : (ofContexts s).Within (ofContexts t) where
  nodes a ha := by
    obtain ⟨c, hc⟩ := mem_nodes_ofContexts.1 ha
    exact mem_nodes_ofContexts.2 ⟨c, h a c hc⟩
  hasEdge a b hab := by
    obtain ⟨hne, c, ha, hb⟩ := hasEdge_ofContexts.1 hab
    exact hasEdge_ofContexts.2 ⟨hne, c, h a c ha, h b c hb⟩
  witness a b c d hc hd := by
    have hleast := leastOf_witness? s a b
    have hleast' := leastOf_witness? t a b
    rw [hc, leastOf_some] at hleast
    rw [hd, leastOf_some] at hleast'
    obtain ⟨hne, ha, hb⟩ := hleast.1
    exact hleast'.2 c ⟨hne, h a c ha, h b c hb⟩

variable {g h : Graph}

theorem Within.sameClass (hgh : g.Within h) {a b : Phrase}
    (hab : g.partition.sameClass a b = true) : h.partition.sameClass a b = true :=
  sameClass_partition_mono hgh.nodes hgh.hasEdge hab

theorem Within.classOf? (hgh : g.Within h) {a : Phrase} {i : Nat}
    (ha : g.partition.classOf? a = some i) : ∃ j, h.partition.classOf? a = some j ∧
      ∀ b, g.partition.classOf? b = some i → h.partition.classOf? b = some j := by
  have hself := hgh.sameClass (Partition.sameClass_iff_classOf?.2 ⟨i, ha, ha⟩)
  obtain ⟨j, hj, -⟩ := Partition.sameClass_iff_classOf?.1 hself
  refine ⟨j, hj, ?_⟩
  intro b hb
  have hab := hgh.sameClass ((Partition.sameClass_iff_of_classOf? ha b).2 hb)
  exact (Partition.sameClass_iff_of_classOf? hj b).1 hab

end Graph

theorem Extractor.graph_within {extractor : Extractor} {sentences more : List Sentence}
    (h : ∀ tokens ∈ sentences.map Sentence.tokens, tokens ∈ more.map Sentence.tokens) :
    (extractor.graph sentences).Within (extractor.graph more) :=
  Graph.ofContexts_within fun _ _ => attests_mono h

/-! ## Productive classes -/

namespace Grammar

variable {extractor : Extractor} {least : Nat} {corpus other : Corpus} {p q : Partition}
  {f f' : Fragment}

theorem patternCount_mono
    (hsentences : ∀ tokens ∈ corpus.sentences.map Sentence.tokens,
      tokens ∈ other.sentences.map Sentence.tokens)
    (hf : f ∈ (induce extractor least corpus p).fragments)
    (hf' : f' ∈ (induce extractor least other q).fragments)
    (hmembers : ∀ a, p.classOf? a = some f.index → q.classOf? a = some f'.index) :
    f.patternCount ≤ f'.patternCount := by
  apply patternCount_le Function.injective_id hf hf'
  intro a context ha hattests
  exact ⟨a, hmembers a ha, Extractor.attests_mono hsentences hattests⟩

end Grammar

/-! ## Results -/

/-- Nothing that the first result says about phrases is taken back by the second one. -/
structure Learned.ExtendedBy (r r' : Learned) : Prop where
  graph : r.graph.Within r'.graph
  sameClass : ∀ a b, r.partition.sameClass a b = true → r'.partition.sameClass a b = true
  productive : ∀ a i, r.partition.classOf? a = some i → r.grammar.isProductive i = true →
    ∃ j, r'.partition.classOf? a = some j ∧ r'.grammar.isProductive j = true

theorem Learned.ExtendedBy.timed {r r' : Learned} (h : r.ExtendedBy r')
    (durations durations' : Durations) :
    ExtendedBy { r with durations := durations } { r' with durations := durations' } :=
  ⟨h.graph, h.sameClass, h.productive⟩

theorem Learner.extendedBy_learned {l : Learner} {corpus other : Corpus}
    (h : ∀ tokens ∈ corpus.sentences.map Sentence.tokens,
      tokens ∈ other.sentences.map Sentence.tokens) :
    (l.learned corpus).ExtendedBy (l.learned other) := by
  have hwithin : (l.learned corpus).graph.Within (l.learned other).graph :=
    Extractor.graph_within h
  refine ⟨hwithin, fun a b => hwithin.sameClass, ?_⟩
  intro a i ha hproductive
  obtain ⟨f, hf, rfl, hleast⟩ := Grammar.isProductive_iff.1 hproductive
  obtain ⟨j, hj, hmembers⟩ := hwithin.classOf? ha
  obtain ⟨f', hf', rfl⟩ := Grammar.exists_fragment_of_classOf? l.extractor l.least other hj
  refine ⟨f'.index, hj, Grammar.isProductive_iff.2 ⟨f', hf', rfl, ?_⟩⟩
  exact hleast.trans (Grammar.patternCount_mono h hf hf' hmembers)

/-- With the learner of a valid configuration, more sentences take nothing back: the
edges stay with witnesses that are no larger, phrases of one class stay in one class,
and the class of a phrase stays productive. -/
theorem more_sentences_extend {c : Configuration} (hc : c.rejection? = none)
    (corpus other : Corpus) (h : ∀ tokens ∈ corpus.sentences.map Sentence.tokens,
      tokens ∈ other.sentences.map Sentence.tokens) :
    ∃ l, c.learner? = .ok l ∧ (l.learned corpus).ExtendedBy (l.learned other) ∧
      (corpus.sentences ≠ [] → (l.learn corpus).Returns fun r =>
        (l.learn other).Returns fun r' => r.ExtendedBy r') := by
  obtain ⟨l, hl, -⟩ := Configuration.exists_learner hc
  have hextended := Learner.extendedBy_learned (l := l) h
  refine ⟨l, hl, hextended, ?_⟩
  intro hsome
  have hother : other.sentences ≠ [] := by
    obtain ⟨sentence, hsentence⟩ := List.exists_mem_of_ne_nil _ hsome
    have htokens := List.ne_nil_of_mem (h _ (List.mem_map_of_mem hsentence))
    exact fun hnil => htokens (List.map_eq_nil_iff.2 hnil)
  apply Learner.returns_learn_both hsome hother
  exact hextended.timed

theorem two_sentences_extended_by_four :
    ({} : Configuration).rejection? = none ∧
    ∃ l, ({} : Configuration).learner? = .ok l ∧
      (l.learn { Corpus.dogsAndCats with
        sentences := Corpus.dogsAndCats.sentences.take 2 }).Returns fun r =>
        (l.learn Corpus.dogsAndCats).Returns fun r' => r.ExtendedBy r' := by
  have hvalid : ({} : Configuration).rejection? = none := by decide
  obtain ⟨l, hl, -, hlearn⟩ := more_sentences_extend hvalid
    { Corpus.dogsAndCats with sentences := Corpus.dogsAndCats.sentences.take 2 }
    Corpus.dogsAndCats
    fun tokens htokens => (List.take_sublist 2 _).map Sentence.tokens |>.subset htokens
  exact ⟨hvalid, l, hl, hlearn (by decide)⟩

end Substitutability
