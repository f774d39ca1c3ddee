import Mathlib.Data.List.Forall2
import Substitutability.Corpus.Basic
import Substitutability.Proofs.Graph.Degrees
import Substitutability.Proofs.Graph.OfContexts
import Substitutability.Proofs.Learning.Learner
import Substitutability.Proofs.Partition.Classes
import Substitutability.Proofs.Report.Entries
import Substitutability.Report.Markup

/-!
# Reports account for everything

Each section of a report that is laid out in lines walks through one structure of the result
and writes an entry for each item. What a limit or an option leaves out is counted, so the
entries and the count together are the whole structure: the nodes, the edges, the shared
contexts, the classes. Each class of the grammar has a block of rules or an entry among the
classes with too few contexts, never both, and the blocks together have all rules.
-/

set_option autoImplicit false

namespace Substitutability.Report

/-! ## Sections -/

def Markup.format : Markup → Format
  | .plain => .text
  | .markdown => .markdown

structure Sections where
  /-- The title, the warnings and the statistics. -/
  opening : List Bytes
  graph : List Bytes
  contexts : List Bytes
  classes : List Bytes
  grammar : List Bytes

def Sections.lines (s : Sections) : List Bytes :=
  s.opening ++ s.graph ++ s.contexts ++ s.classes ++ s.grammar

def Included (asked : Bool) (listed : List Bytes → Prop) (lines : List Bytes) : Prop :=
  if asked then listed lines else lines = []

/-- A number of items that were left out has a line of its own, unless there are none. -/
def Announced (text : Nat → Bytes) (count : Nat) (lines : List Bytes) : Prop :=
  (count = 0 ∧ lines = []) ∨ (0 < count ∧ lines = [text count])

variable (m : Markup) (separator : Bytes)

/-- The first nodes in the order of their numbers, so many as the limit allows, and the number
of the others. -/
def VerticesListed (limit : Nat) (g : Graph) (lines : List Bytes) : Prop :=
  ∃ shown omitted more, shown <+: g.nodes ∧
    shown.length = (if limit = 0 then g.nodeCount else min limit g.nodeCount) ∧
    shown.length + omitted = g.nodeCount ∧ Announced (omittedText m) omitted more ∧
    lines = titleText m "Vertices" "VERTICES" "--------" ++
      shown.map (vertexText m separator) ++ more ++ [[]]

def IsEdgeEntry (g : Graph) (e : Edge) (line : Bytes) : Prop :=
  ∃ first second witness, g.node? e.source = some first ∧ g.node? e.target = some second ∧
    g.witnessOf? e = some witness ∧ line = edgeText m separator first second witness

def EdgesListed (g : Graph) (lines : List Bytes) : Prop :=
  ∃ entries, List.Forall₂ (IsEdgeEntry m separator g) g.edges entries ∧
    lines = titleText m "Edges" "EDGES" "-----" ++
      (if entries = [] then [utf8 "(none)"] else entries) ++ [[]]

def GraphListed (limit : Nat) (g : Graph) (lines : List Bytes) : Prop :=
  ∃ vertices edges, VerticesListed m separator limit g vertices ∧
    EdgesListed m separator g edges ∧ lines = vertices ++ edges

def IsContextEntry (g : Graph) (key : Context × List Nat) (line : Bytes) : Prop :=
  ∃ members, key.2.map g.node? = members.map some ∧
    line = contextMembersText m separator key.1 members

/-- One entry for each context that two nodes or more have. -/
def ContextsListed (g : Graph) (lines : List Bytes) : Prop :=
  ∃ entries, List.Forall₂ (IsContextEntry m separator g)
      (g.contextIndex.toList.filter fun key => 2 ≤ key.2.length) entries ∧
    lines = titleText m "Shared Contexts" "SHARED CONTEXTS" "---------------" ++
      (if entries = [] then [utf8 "(none)"] else entries) ++ [[]]

/-- The classes in the order of their numbers: all of them, or those of several members and
the number of the others. -/
def ClassesListed (collapse : Bool) (p : Partition) (lines : List Bytes) : Prop :=
  ∃ (listed : List CongruenceClass) (collapsed : Nat) (more : List Bytes),
    listed.Sublist p.classes ∧
    (listed.map CongruenceClass.index).Pairwise (· < ·) ∧
    (∀ c ∈ p.classes, c ∈ listed ↔ (collapse = true → c.size ≠ 1)) ∧
    listed.length + collapsed = p.size ∧
    Announced (collapsedText m) collapsed more ∧
    lines = titleText m "Congruence Classes" "CONGRUENCE CLASSES" "------------------" ++
      listed.map (classText m separator) ++ more ++ [[]]

/-- Each class has a block of rules or an entry behind the blocks, and not both. The entries of
the blocks are as many as there are rules. -/
def GrammarListed (p : Partition) (g : Grammar) (lines : List Bytes) : Prop :=
  ∃ blocks others, (blocks ++ others).Perm g.fragments ∧
    ((blocks ++ others).map Fragment.index).Perm (List.range p.size) ∧
    (blocks.flatMap (ruleEntries m separator)).length = g.ruleCount ∧
    lines = grammarHeadText m separator g blocks p.size ++
      (if blocks = [] then noRulesText m else blocks.flatMap (blockText m separator)) ++ [[]] ++
      (if others = [] then []
        else unattestedHeadText m ++ others.map (unattestedText m separator) ++ [[]])

/-- The title, one entry for each warning, and the statistics that were asked for. -/
def OpeningListed (settings : Settings) (l : Learned) (lines : List Bytes) : Prop :=
  lines =
    headText m settings.title l.corpus.name l.corpus.sentences.length
        (settings.generated.map Moment.timestamp) ++
      (if l.warnings = [] then []
        else titleText m "Warnings" "WARNINGS" "--------" ++ l.warnings.map warningText ++ [[]]) ++
      (if settings.statistics then titleText m "Statistics" "STATISTICS" "----------" ++
          (columnsText m ++ (quantities l.summary).map (quantityText m)) ++ [[]]
        else [])

/-- Each section accounts for the structure that it walks through. -/
structure Accounts (settings : Settings) (l : Learned) (s : Sections) : Prop where
  opening : OpeningListed m settings l s.opening
  graph : Included settings.graph
    (GraphListed m l.corpus.separator settings.maxVertices l.graph) s.graph
  contexts : Included settings.contexts
    (ContextsListed m l.corpus.separator l.graph) s.contexts
  classes : ClassesListed m l.corpus.separator settings.collapseSingletons l.partition s.classes
  grammar : GrammarListed m l.corpus.separator l.partition l.grammar s.grammar

variable {m} {r : Report}

/-! ## The graph -/

theorem announced_ite (text : Nat → Bytes) (count : Nat) :
    Announced text count (if count = 0 then [] else [text count]) := by
  by_cases h : count = 0
  · rw [if_pos h]
    exact .inl ⟨h, rfl⟩
  · rw [if_neg h]
    exact .inr ⟨Nat.pos_of_ne_zero h, rfl⟩

theorem vertices_graphListing (limit : Nat) (g : Graph) :
    (graphListing limit g).vertices <+: g.nodes ∧ (graphListing limit g).vertices.length =
      if limit = 0 then g.nodeCount else min limit g.nodeCount := by
  rw [graphListing]
  by_cases h : limit = 0
  · simp only [if_pos h]
    exact ⟨List.prefix_rfl, rfl⟩
  · simp only [if_neg h]
    exact ⟨List.take_prefix _ _, List.length_take⟩

theorem verticesListed (limit : Nat) (g : Graph) :
    VerticesListed m r.separator limit g (m.block "Vertices"
      ((graphListing limit g).vertices.map (vertexLine m r) ++
        omittedLines m (graphListing limit g).omitted)) := by
  obtain ⟨hfirst, hlength⟩ := vertices_graphListing limit g
  refine ⟨_, (graphListing limit g).omitted, _, hfirst, hlength, ?_, announced_ite _ _, ?_⟩
  · exact Nat.add_sub_cancel' hfirst.length_le
  · rw [block_eq "Vertices" "VERTICES" "--------" rfl rfl, funext vertexLine_eq, omittedLines_eq]
    simp only [List.append_assoc]

theorem node?_phraseAt {g : Graph} {i : Nat} (h : i < g.nodes.length) :
    g.node? i = some (phraseAt g i) := by
  rw [phraseAt, Graph.node?, List.getElem?_eq_getElem h]
  rfl

theorem isEdgeEntry {g : Graph} {entry : Edge × Context} (h : entry ∈ g.witnesses.toList) :
    IsEdgeEntry m r.separator g entry.1 (edgeLine m r (edgeEntry g entry)) := by
  obtain ⟨hlt, hbound⟩ := g.ordered entry.1 (List.mem_map_of_mem h)
  exact ⟨_, _, entry.2, node?_phraseAt (Nat.lt_trans hlt hbound), node?_phraseAt hbound,
    SortedMap.find?_eq_some.2 h, edgeLine_eq _⟩

theorem edgesListed (limit : Nat) (g : Graph) :
    EdgesListed m r.separator g (m.block "Edges"
      (Markup.orNone ((graphListing limit g).edges.map (edgeLine m r)))) := by
  refine ⟨_, ?_, block_eq "Edges" "EDGES" "-----" rfl rfl _⟩
  show List.Forall₂ _ (g.witnesses.toList.map Prod.fst) _
  rw [graphListing, List.map_map, List.forall₂_map_left_iff, List.forall₂_map_right_iff,
    List.forall₂_same]
  exact fun _ => isEdgeEntry

theorem contextsListed {g : Graph} (h : g.Indexed) :
    ContextsListed m r.separator g (m.block "Shared Contexts"
      (Markup.orNone ((sharedContexts g).map (contextLine m r)))) := by
  refine ⟨_, ?_, block_eq "Shared Contexts" "SHARED CONTEXTS" "---------------" rfl rfl _⟩
  rw [sharedContexts, List.map_map, List.forall₂_map_right_iff, List.forall₂_same]
  intro key hkey
  refine ⟨key.2.map (phraseAt g), ?_, contextLine_eq _⟩
  rw [List.map_map]
  apply List.map_congr_left
  intro i hi
  exact node?_phraseAt (h key (List.mem_of_mem_filter hkey) i hi)

/-! ## Classes -/

theorem indexes_ascending (p : Partition) :
    (p.classes.map CongruenceClass.index).Pairwise (· < ·) := by
  rw [p.numbered]
  exact List.pairwise_lt_range

theorem classesListed (collapse : Bool) (p : Partition) :
    ClassesListed m r.separator collapse p (m.block "Congruence Classes"
      ((classListing collapse p).classes.map (classLine m r) ++
        collapsedLines m (classListing collapse p).collapsed)) := by
  have hsublist : (classListing collapse p).classes.Sublist p.classes := by
    cases collapse with
    | false => exact List.Sublist.refl _
    | true => exact List.filter_sublist
  refine ⟨_, (classListing collapse p).collapsed, _, hsublist,
    (indexes_ascending p).sublist (hsublist.map _), ?_, ?_, announced_ite _ _, ?_⟩
  · intro c hc
    cases collapse with
    | false => simp [classListing, hc]
    | true =>
      show c ∈ p.classes.filter (!·.isSingleton) ↔ _
      rw [List.mem_filter, Bool.not_eq_true', ← Bool.not_eq_true, CongruenceClass.isSingleton_iff]
      exact ⟨fun h _ => h.2, fun h => ⟨hc, h rfl⟩⟩
  · cases collapse with
    | false => rfl
    | true =>
      have hcount := List.length_eq_length_filter_add (l := p.classes) CongruenceClass.isSingleton
      rw [← List.countP_eq_length_filter] at hcount
      exact (Nat.add_comm _ _).trans hcount.symm
  · rw [block_eq "Congruence Classes" "CONGRUENCE CLASSES" "------------------" rfl rfl,
      funext classLine_eq, collapsedLines_eq]
    simp only [List.append_assoc]

/-! ## The grammar -/

theorem length_ruleEntries (separator : Bytes) (f : Fragment) :
    (ruleEntries m separator f).length = f.ruleCount := by
  cases m <;>
    simp only [ruleEntries, ruleTexts, Fragment.ruleCount, Fragment.patternCount, List.length_map,
      List.length_append]

theorem ruleLines_eq :
    ruleLines m r =
      if r.grammar.productive = [] then noRulesText m
      else r.grammar.productive.flatMap (blockText m r.separator) := by
  rw [ruleLines, funext fragmentLines_eq]
  cases r.grammar.productive with
  | nil => cases m <;> rfl
  | cons f rest => rfl

theorem unproductiveLines_eq :
    unproductiveLines m r =
      if r.grammar.unproductive = [] then []
      else unattestedHeadText m ++
        r.grammar.unproductive.map (unattestedText m r.separator) ++ [[]] := by
  rw [unproductiveLines, funext unproductiveLine_eq]
  cases r.grammar.unproductive with
  | nil => rfl
  | cons f rest => cases m <;> rfl

theorem grammarListed {p : Partition}
    (h : r.grammar.fragments.map Fragment.index = List.range p.size) :
    GrammarListed m r.separator p r.grammar (grammarLines m r) := by
  have hperm : (r.grammar.productive ++ r.grammar.unproductive).Perm
      r.grammar.fragments := List.filter_append_perm _ _
  have hsize : r.grammar.fragments.length = p.size := by
    rw [← List.length_map, h, List.length_range]
  refine ⟨r.grammar.productive, r.grammar.unproductive, hperm, h ▸ hperm.map _, ?_, ?_⟩
  · rw [List.length_flatMap, Grammar.ruleCount, total_eq_sum]
    simp only [length_ruleEntries]
  · rw [grammarLines, grammarHead_eq, ruleLines_eq, unproductiveLines_eq, hsize]

theorem index_fragments_induce (extractor : Extractor) (least : Nat) (corpus : Corpus)
    (p : Partition) : (Grammar.induce extractor least corpus p).fragments.map Fragment.index =
      List.range p.size := by
  rw [Partition.size, ← p.numbered, Grammar.induce, List.map_map]
  rfl

/-! ## Reports of results -/

theorem openingListed (settings : Settings) (l : Learned) :
    OpeningListed m settings l (headerLines m (ofLearned settings l) ++
      warningLines m (ofLearned settings l) ++ statisticsLines m (ofLearned settings l)) := by
  have hstatistics : statisticsLines m (ofLearned settings l) =
      if settings.statistics then titleText m "Statistics" "STATISTICS" "----------" ++
        (columnsText m ++ (quantities l.summary).map (quantityText m)) ++ [[]] else [] := by
    rw [statisticsLines, ofLearned, funext metricLine_eq]
    cases settings.statistics with
    | false => rfl
    | true => exact block_eq "Statistics" "STATISTICS" "----------" rfl rfl _
  rw [OpeningListed, headerLines_eq, hstatistics, warningLines,
    block_eq "Warnings" "WARNINGS" "--------" rfl rfl]
  rfl

def sections (m : Markup) (report : Report) : Sections where
  opening := headerLines m report ++ warningLines m report ++ statisticsLines m report
  graph := graphLines m report
  contexts := contextLines m report
  classes := classLines m report
  grammar := grammarLines m report

theorem accounts_sections (m : Markup) (settings : Settings) {l : Learned}
    (hindexed : l.graph.Indexed)
    (hgrammar : l.grammar.fragments.map Fragment.index = List.range l.partition.size) :
    Accounts m settings l (sections m (ofLearned settings l)) where
  opening := openingListed settings l
  graph := by
    rw [Included, sections, graphLines, ofLearned]
    cases settings.graph with
    | false => rfl
    | true => exact ⟨_, _, verticesListed (r := ofLearned settings l) _ _,
        edgesListed (r := ofLearned settings l) _ _, rfl⟩
  contexts := by
    rw [Included, sections, contextLines, ofLearned]
    cases settings.contexts with
    | false => rfl
    | true => exact contextsListed (r := ofLearned settings l) hindexed
  classes := classesListed (r := ofLearned settings l) _ _
  grammar := grammarListed (r := ofLearned settings l) hgrammar

theorem write_format (m : Markup) (settings : Settings) (l : Learned) :
    write m.format settings l =
      .ok ((sections m (ofLearned settings l)).lines.flatMap fun line => line ++ utf8 "\n") := by
  cases m with
  | plain => rfl
  | markdown => rfl

/-- A report in lines of a result that was learned accounts for all of the result, under all
settings. -/
theorem reports_account_for_results (learner : Learner) {corpus : Corpus}
    (h : corpus.sentences ≠ []) :
    (learner.learn corpus).Returns fun l => ∀ (m : Markup) (settings : Settings),
      ∃ s, write m.format settings l = .ok (s.lines.flatMap fun line => line ++ utf8 "\n") ∧
        Accounts m settings l s := by
  apply (learner.returns_learn h).imp
  intro l hl m settings
  obtain ⟨durations, rfl⟩ := hl
  refine ⟨_, write_format m settings _, accounts_sections m settings (Graph.indexed_ofContexts _) ?_⟩
  exact index_fragments_induce _ _ _ _

theorem dogs_and_cats_reported :
    ∃ learner, ({} : Configuration).learner? = .ok learner ∧ Corpus.dogsAndCats.sentences ≠ [] ∧
      (learner.learn Corpus.dogsAndCats).Returns fun l => ∀ (m : Markup) (settings : Settings),
        ∃ s, write m.format settings l = .ok (s.lines.flatMap fun line => line ++ utf8 "\n") ∧
          Accounts m settings l s := by
  have hvalid : ({} : Configuration).rejection? = none := by decide
  have hsome : Corpus.dogsAndCats.sentences ≠ [] := by decide
  obtain ⟨learner, hlearner, -⟩ := Configuration.exists_learner hvalid
  exact ⟨learner, hlearner, hsome, reports_account_for_results learner hsome⟩

end Substitutability.Report
