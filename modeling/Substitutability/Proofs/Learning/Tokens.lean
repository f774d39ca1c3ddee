import Substitutability.Proofs.Grammar.Alphabet
import Substitutability.Proofs.Learning.Learner

/-!
# Where tokens come from

No stage makes tokens of its own. All phrases, contexts, members and patterns of a result
are made of the tokens of the sentences and of the two markers, so what holds of these holds
of every token in the result.
-/

set_option autoImplicit false

namespace Substitutability

def Phrase.All (P : Bytes → Prop) (phrase : Phrase) : Prop :=
  ∀ token ∈ phrase, P token

def Context.All (P : Bytes → Prop) (c : Context) : Prop :=
  Phrase.All P c.left ∧ Phrase.All P c.right

def CongruenceClass.All (P : Bytes → Prop) (c : CongruenceClass) : Prop :=
  Phrase.All P c.representative ∧ ∀ member ∈ c.members, Phrase.All P member

structure Fragment.All (P : Bytes → Prop) (f : Fragment) : Prop where
  members : ∀ member ∈ f.members, Phrase.All P member
  patterns : ∀ pattern ∈ f.patterns, Phrase.All P pattern.left ∧ Phrase.All P pattern.right
  tokens : ∀ token ∈ f.tokens, P token

structure Grammar.All (P : Bytes → Prop) (g : Grammar) : Prop where
  alphabet : ∀ token ∈ g.alphabet, P token
  sentences : ∀ sentence ∈ g.sentences, Phrase.All P sentence
  fragments : ∀ f ∈ g.fragments, f.All P

structure Graph.All (P : Bytes → Prop) (g : Graph) : Prop where
  nodes : ∀ node ∈ g.nodes, Phrase.All P node
  witnesses : ∀ entry ∈ g.witnesses.toList, entry.2.All P

structure Learned.All (P : Bytes → Prop) (l : Learned) : Prop where
  graph : l.graph.All P
  classes : ∀ c ∈ l.partition.classes, c.All P
  grammar : l.grammar.All P

/-- All tokens of the sentences have the property, and the markers have it. -/
structure Corpus.All (P : Bytes → Prop) (corpus : Corpus) : Prop where
  start : P startMarker
  stop : P endMarker
  sentences : ∀ s ∈ corpus.sentences, Phrase.All P s.tokens

variable {P : Bytes → Prop} {corpus : Corpus} {extractor : Extractor} {p : Phrase} {c : Context}

/-! ## Contexts -/

theorem Phrase.All.append {u v : Phrase} (hu : Phrase.All P u) (hv : Phrase.All P v) :
    Phrase.All P (u ++ v) := by
  intro token htoken
  rcases List.mem_append.1 htoken with htoken | htoken
  · exact hu token htoken
  · exact hv token htoken

theorem Phrase.All.subset {u v : Phrase} (hu : Phrase.All P u) (h : v ⊆ u) : Phrase.All P v :=
  fun token htoken => hu token (h htoken)

theorem Span.phrase_subset (span : Span) (tokens : Phrase) : span.phrase tokens ⊆ tokens :=
  fun _ htoken => List.mem_of_mem_take (List.mem_of_mem_drop htoken)

theorem Context.all_contextAt {width : Nat} {tokens : Phrase} (hstart : P startMarker)
    (hstop : P endMarker) (h : Phrase.All P tokens) (span : Span) :
    (contextAt width tokens span).All P := by
  have hleft : ∀ first, Phrase.All P (if first = 0 then [startMarker] else []) := by
    intro first
    split
    · exact List.forall_mem_singleton.2 hstart
    · exact List.forall_mem_nil _
  have hright : ∀ last, Phrase.All P (if last = tokens.length then [endMarker] else []) := by
    intro last
    split
    · exact List.forall_mem_singleton.2 hstop
    · exact List.forall_mem_nil _
  constructor
  · apply (hleft _).append
    exact h.subset fun _ htoken => List.mem_of_mem_take (List.mem_of_mem_drop htoken)
  · apply Phrase.All.append _ (hright _)
    exact h.subset fun _ htoken => List.mem_of_mem_take (List.mem_of_mem_drop htoken)

theorem all_of_attests (h : corpus.All P)
    (hattests : (extractor.extract corpus.sentences).Attests p c) :
    Phrase.All P p ∧ c.All P := by
  obtain ⟨s, hs, span, -, rfl, rfl⟩ := Extractor.attests_extract.1 hattests
  have htokens := h.sentences s hs
  exact ⟨htokens.subset (span.phrase_subset _), Context.all_contextAt h.start h.stop htokens span⟩

/-! ## Graph and classes -/

theorem all_of_mem_nodes (h : corpus.All P) (hp : p ∈ (extractor.graph corpus.sentences).nodes) :
    Phrase.All P p := by
  obtain ⟨c, hattests⟩ := Graph.mem_nodes_ofContexts.1 hp
  exact (all_of_attests h hattests).1

theorem all_of_mem_witnesses (h : corpus.All P) {entry : Edge × Context}
    (hentry : entry ∈ (extractor.graph corpus.sentences).witnesses.toList) : entry.2.All P := by
  have hfind : (Graph.ofContexts (extractor.extract corpus.sentences)).witnesses.find? entry.1 =
      some entry.2 := SortedMap.find?_eq_some.2 hentry
  have hleast := Graph.leastOf_witnesses (extractor.extract corpus.sentences) entry.1
  rw [hfind] at hleast
  obtain ⟨⟨-, hsource, -⟩, -⟩ := hleast
  obtain ⟨p, -, hattests⟩ := Graph.mem_positions_described.1 hsource
  exact (all_of_attests h hattests).2

theorem all_of_mem_classes (h : corpus.All P) {c : CongruenceClass}
    (hc : c ∈ (extractor.graph corpus.sentences).partition.classes) : c.All P := by
  have hmembers : ∀ member ∈ c.members, Phrase.All P member := by
    intro member hmember
    apply all_of_mem_nodes h
    exact Graph.mem_nodes_iff_class.2 ⟨c, hc, hmember⟩
  obtain ⟨hcomponent, hrepresentative⟩ := Graph.mem_classesOf hc
  have hne := Graph.ne_nil_of_mem_components hcomponent
  refine ⟨?_, hmembers⟩
  rw [hrepresentative]
  exact hmembers _ (Graph.representative_mem hne)

/-! ## The grammar -/

theorem all_of_mem_fragments (h : corpus.All P) {least : Nat} {f : Fragment}
    (hf : f ∈ (Grammar.ofCorpus extractor least corpus).fragments) : f.All P where
  members member hmember := all_of_mem_nodes h (Grammar.mem_nodes_of_mem_members hf hmember)
  patterns pattern hpattern := by
    obtain ⟨-, a, -, hattests⟩ := (Grammar.mem_patterns hf).1 hpattern
    exact (all_of_attests h hattests).2
  tokens token htoken := by
    have hmember : [token] ∈ f.members :=
      (Grammar.mem_members hf).2 ((Grammar.mem_tokens hf).1 htoken)
    have hall := all_of_mem_nodes h (Grammar.mem_nodes_of_mem_members hf hmember)
    exact hall token List.mem_cons_self

theorem all_ofCorpus (h : corpus.All P) (extractor : Extractor) (least : Nat) :
    (Grammar.ofCorpus extractor least corpus).All P where
  alphabet token htoken := by
    obtain ⟨a, ha, hmem⟩ := Grammar.mem_alphabet.1 htoken
    exact all_of_mem_nodes h ha token hmem
  sentences sentence hsentence := by
    obtain ⟨s, hs, rfl⟩ := Grammar.mem_sentences.1 hsentence
    exact h.sentences s hs
  fragments f hf := all_of_mem_fragments h hf

/-! ## Results -/

theorem Learner.all_learned (l : Learner) (h : corpus.All P) : (l.learned corpus).All P where
  graph := ⟨fun _ => all_of_mem_nodes h, fun _ => all_of_mem_witnesses h⟩
  classes _ := all_of_mem_classes h
  grammar := all_ofCorpus h l.extractor l.least

end Substitutability
