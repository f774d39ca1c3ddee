import Substitutability.Proofs.Grammar.Productivity
import Substitutability.Proofs.Learning.SentenceOrder
import Substitutability.Proofs.Windows

/-!
# Sentences read backwards

In a sentence that is read backwards, what stood before a phrase stands after it, and the
start of the sentence is its end. So a corpus without markers and the corpus of its sentences
read backwards have the same graph up to the direction of reading, with the same classes.
These are seen equally often and in equally many contexts.
-/

set_option autoImplicit false

namespace Substitutability

/-! ## Reversed corpora -/

def Sentence.reversed (sentence : Sentence) : Sentence :=
  { sentence with tokens := sentence.tokens.reverse }

def Corpus.reversed (corpus : Corpus) : Corpus :=
  { corpus with sentences := corpus.sentences.map Sentence.reversed }

theorem Sentence.map_reversed_reversed (sentences : List Sentence) :
    (sentences.map reversed).map reversed = sentences := by
  induction sentences with
  | nil => rfl
  | cons sentence rest ih => simpa [reversed] using ih

@[simp]
theorem Corpus.reversed_reversed (corpus : Corpus) : corpus.reversed.reversed = corpus := by
  cases corpus
  exact congrArg (Corpus.mk _ · _) (Sentence.map_reversed_reversed _)

theorem Extractor.Unmarked.reversed {sentences : List Sentence} (h : Unmarked sentences) :
    Unmarked (sentences.map Sentence.reversed) := by
  intro sentence hsentence
  obtain ⟨original, horiginal, rfl⟩ := List.mem_map.1 hsentence
  simpa [Sentence.reversed] using h original horiginal

/-! ## Mirrored spans -/

namespace Span

variable {n : Nat} {span : Span} {tokens : Phrase}

/-- The same part of a sentence of `n` tokens after it is reversed. -/
def mirror (n : Nat) (span : Span) : Span :=
  ⟨n - span.stop, n - span.start⟩

theorem mirror_mirror (hle : span.start ≤ span.stop) (hstop : span.stop ≤ n) :
    (span.mirror n).mirror n = span := by
  have hstart : n - (n - span.start) = span.start := Nat.sub_sub_self (hle.trans hstop)
  have hend : n - (n - span.stop) = span.stop := Nat.sub_sub_self hstop
  simp only [mirror, hstart, hend]

theorem take_mirror (span : Span) (tokens : Phrase) :
    tokens.reverse.take (span.mirror tokens.length).start = (tokens.drop span.stop).reverse :=
  List.reverse_drop.symm

theorem drop_mirror (span : Span) (tokens : Phrase) :
    tokens.reverse.drop (span.mirror tokens.length).stop = (tokens.take span.start).reverse :=
  List.reverse_take.symm

theorem phrase_mirror (hle : span.start ≤ span.stop) (hstop : span.stop ≤ tokens.length) :
    (span.mirror tokens.length).phrase tokens.reverse = (span.phrase tokens).reverse := by
  have hlength : (tokens.drop span.start).length - (span.stop - span.start) =
      tokens.length - span.stop := by
    rw [List.length_drop]
    omega
  show (tokens.reverse.take (tokens.length - span.start)).drop (tokens.length - span.stop) = _
  rw [← List.reverse_drop, ← hlength, ← List.reverse_take, ← List.drop_take, phrase]

end Span

/-! ## Mirrored contexts -/

namespace Context

variable {l r tokens : Phrase}

def exchange : Equiv.Perm Bytes :=
  Equiv.swap startMarker endMarker

theorem exchange_comp_exchange : exchange ∘ exchange = id :=
  funext (Equiv.swap_apply_self startMarker endMarker)

theorem map_exchange (h : startMarker ∉ tokens ∧ endMarker ∉ tokens) :
    tokens.map exchange = tokens := by
  have hfixed : ∀ token ∈ tokens, exchange token = id token := fun token htoken =>
    Equiv.swap_apply_of_ne_of_ne (ne_of_mem_of_not_mem htoken h.1)
      (ne_of_mem_of_not_mem htoken h.2)
  rw [List.map_congr_left hfixed, List.map_id]

def mirror (c : Context) : Context :=
  ⟨(c.right.map exchange).reverse, (c.left.map exchange).reverse⟩

theorem mirror_involutive : Function.Involutive mirror := by
  intro c
  simp [mirror, exchange_comp_exchange]

theorem map_nearest (f : Bytes → Bytes) (marker : Bytes) (width : Nat) (tokens : Phrase) :
    (nearest marker width tokens).map f = nearest (f marker) width (tokens.map f) := by
  by_cases h : width = 0 ∨ tokens.length ≤ width
  · simp [nearest, h]
  · simp [nearest, h, List.map_take]

/-- What a window shows on one side of a place, it shows on the other side of the mirrored
place. -/
theorem window_reverse (width : Nat) (hl : startMarker ∉ l ∧ endMarker ∉ l)
    (hr : startMarker ∉ r ∧ endMarker ∉ r) :
    window width r.reverse l.reverse = (window width l r).mirror := by
  have hbefore : (nearest startMarker width l.reverse).map exchange =
      nearest endMarker width l.reverse := by
    rw [map_nearest, map_exchange (by simpa using hl), exchange, Equiv.swap_apply_left]
  have hafter : (nearest endMarker width r).map exchange = nearest startMarker width r := by
    rw [map_nearest, map_exchange hr, exchange, Equiv.swap_apply_right]
  simp [window, before, after, mirror, hbefore, hafter]

end Context

theorem contextAt_mirror (width : Nat) {tokens : Phrase}
    (hmarkers : startMarker ∉ tokens ∧ endMarker ∉ tokens) {span : Span}
    (hstart : span.start ≤ tokens.length) :
    contextAt width tokens.reverse (span.mirror tokens.length) =
      (contextAt width tokens span).mirror := by
  have hmirror : (span.mirror tokens.length).start ≤ tokens.reverse.length := by
    rw [List.length_reverse]
    exact Nat.sub_le _ _
  have hl : startMarker ∉ tokens.take span.start ∧ endMarker ∉ tokens.take span.start :=
    ⟨mt List.mem_of_mem_take hmarkers.1, mt List.mem_of_mem_take hmarkers.2⟩
  have hr : startMarker ∉ tokens.drop span.stop ∧ endMarker ∉ tokens.drop span.stop :=
    ⟨mt List.mem_of_mem_drop hmarkers.1, mt List.mem_of_mem_drop hmarkers.2⟩
  rw [contextAt_eq_window width hmirror, Span.take_mirror, Span.drop_mirror,
    Context.window_reverse width hl hr, ← contextAt_eq_window width hstart]

/-! ## Mirrored extractions -/

namespace Extractor

variable {extractor : Extractor} {sentences : List Sentence} {a b : Phrase} {c : Context}

theorem mirror_mem_spans {n : Nat} {span : Span} (h : span ∈ extractor.spans n) :
    span.mirror n ∈ extractor.spans n := by
  obtain ⟨hle, hstop, hlt, hallows⟩ := mem_spans.1 h
  have hlength : n - span.start - (n - span.stop) = span.stop - span.start := by omega
  apply mem_spans.2
  show n - span.stop ≤ n - span.start ∧ n - span.start ≤ n ∧
    n - span.start - (n - span.stop) < n ∧
      extractor.policy.Allows (n - span.start - (n - span.stop))
  rw [hlength]
  exact ⟨by omega, by omega, hlt, hallows⟩

theorem mirror_mirror_of_mem_spans {n : Nat} {span : Span} (h : span ∈ extractor.spans n) :
    (span.mirror n).mirror n = span :=
  Span.mirror_mirror (mem_spans.1 h).1 (mem_spans.1 h).2.1

theorem map_mirror_spans (extractor : Extractor) (n : Nat) :
    ((extractor.spans n).map (Span.mirror n)).Perm (extractor.spans n) := by
  have hnodup : ((extractor.spans n).map (Span.mirror n)).Nodup := by
    apply List.Nodup.map_on _ (nodup_spans extractor n)
    intro span hspan span' hspan' h
    rw [← mirror_mirror_of_mem_spans hspan, h, mirror_mirror_of_mem_spans hspan']
  apply (List.perm_ext_iff_of_nodup hnodup (nodup_spans extractor n)).2
  intro span
  rw [List.mem_map]
  constructor
  · intro h
    obtain ⟨original, horiginal, rfl⟩ := h
    exact mirror_mem_spans horiginal
  · intro h
    exact ⟨span.mirror n, mirror_mem_spans h, mirror_mirror_of_mem_spans h⟩

theorem phrases_reverse (extractor : Extractor) (tokens : Phrase) :
    (extractor.phrases tokens.reverse).Perm ((extractor.phrases tokens).map List.reverse) := by
  have hphrase : ∀ span ∈ extractor.spans tokens.length,
      (span.mirror tokens.length).phrase tokens.reverse = (span.phrase tokens).reverse :=
    fun span hspan => Span.phrase_mirror (mem_spans.1 hspan).1 (mem_spans.1 hspan).2.1
  have hmap : (extractor.phrases tokens).map List.reverse =
      ((extractor.spans tokens.length).map (Span.mirror tokens.length)).map
        fun span => span.phrase tokens.reverse := by
    rw [phrases, List.map_map, List.map_map]
    exact List.map_congr_left fun span hspan => (hphrase span hspan).symm
  rw [hmap, phrases, List.length_reverse]
  exact ((map_mirror_spans extractor tokens.length).map _).symm

theorem phrases_observations_reversed (extractor : Extractor) (sentences : List Sentence) :
    ((extractor.observations (sentences.map Sentence.reversed)).map Observation.phrase).Perm
      (((extractor.observations sentences).map Observation.phrase).map List.reverse) := by
  rw [phrases_observations, phrases_observations, List.map_map, List.map_flatMap,
    List.flatMap_map, List.flatMap_map]
  exact List.Perm.flatMap_left sentences fun sentence _ => phrases_reverse extractor sentence.tokens

theorem attests_reversed_of_attests (hmarkers : Unmarked sentences)
    (h : (extractor.extract sentences).Attests a c) :
    (extractor.extract (sentences.map Sentence.reversed)).Attests a.reverse c.mirror := by
  obtain ⟨sentence, hsentence, span, hspan, rfl, rfl⟩ := attests_extract.1 h
  obtain ⟨hle, hstop, -, -⟩ := mem_spans.1 hspan
  apply attests_extract.2
  refine ⟨sentence.reversed, List.mem_map_of_mem hsentence,
    span.mirror sentence.tokens.length, ?_, ?_, ?_⟩
  · show span.mirror _ ∈ extractor.spans sentence.tokens.reverse.length
    rw [List.length_reverse]
    exact mirror_mem_spans hspan
  · exact Span.phrase_mirror hle hstop
  · exact contextAt_mirror _ (hmarkers sentence hsentence) (hle.trans hstop)

/-- Exactly the mirrored contexts of a phrase are contexts of the reversed phrase. -/
theorem attests_reversed (hmarkers : Unmarked sentences) :
    (extractor.extract (sentences.map Sentence.reversed)).Attests a.reverse c.mirror ↔
      (extractor.extract sentences).Attests a c := by
  constructor
  · intro h
    have hback := attests_reversed_of_attests hmarkers.reversed h
    rwa [Sentence.map_reversed_reversed, List.reverse_reverse, Context.mirror_involutive] at hback
  · exact attests_reversed_of_attests hmarkers

end Extractor

/-! ## Mirrored graphs -/

namespace Graph

/-- To reverse its phrases takes the first graph to the second. -/
structure Mirrors (g h : Graph) : Prop where
  nodes : Set.BijOn List.reverse {a | a ∈ g.nodes} {a | a ∈ h.nodes}
  hasEdge : ∀ a b, h.hasEdge a.reverse b.reverse = g.hasEdge a b
  sameClass : ∀ a b, h.partition.sameClass a.reverse b.reverse = g.partition.sameClass a b

variable {g h : Graph}

theorem bijOn_reverse (hnodes : ∀ a, a.reverse ∈ h.nodes ↔ a ∈ g.nodes) :
    Set.BijOn List.reverse {a | a ∈ g.nodes} {a | a ∈ h.nodes} := by
  refine ⟨fun a => (hnodes a).2, List.reverse_injective.injOn, ?_⟩
  intro a ha
  have hback : a.reverse ∈ g.nodes := by
    rwa [← hnodes, List.reverse_reverse]
  exact ⟨a.reverse, hback, List.reverse_reverse a⟩

theorem sameClass_reverse (hnodes : ∀ a, a.reverse ∈ h.nodes ↔ a ∈ g.nodes)
    (hedges : ∀ a b, h.hasEdge a.reverse b.reverse = g.hasEdge a b) (a b : Phrase) :
    h.partition.sameClass a.reverse b.reverse = g.partition.sameClass a b := by
  rw [Bool.eq_iff_iff]
  constructor
  · intro hab
    have hnodes' : ∀ a ∈ h.nodes, a.reverse ∈ g.nodes := by
      intro a ha
      rwa [← hnodes, List.reverse_reverse]
    have hedges' : ∀ a b, h.hasEdge a b = true → g.hasEdge a.reverse b.reverse = true := by
      intro a b hab
      rwa [← hedges, List.reverse_reverse, List.reverse_reverse]
    have hback := sameClass_partition_lift List.reverse hnodes' hedges' hab
    rwa [List.reverse_reverse, List.reverse_reverse] at hback
  · exact sameClass_partition_lift List.reverse (fun a => (hnodes a).2)
      fun a b => (hedges a b).trans

theorem mirrors_of_attests {s t : ContextSet}
    (h : ∀ a c, t.Attests a.reverse c.mirror ↔ s.Attests a c) :
    (ofContexts s).Mirrors (ofContexts t) := by
  have hnodes : ∀ a, a.reverse ∈ (ofContexts t).nodes ↔ a ∈ (ofContexts s).nodes := by
    intro a
    rw [mem_nodes_ofContexts, mem_nodes_ofContexts, Context.mirror_involutive.surjective.exists]
    simp only [h]
  have hedges : ∀ a b,
      (ofContexts t).hasEdge a.reverse b.reverse = (ofContexts s).hasEdge a b := by
    intro a b
    rw [Bool.eq_iff_iff, hasEdge_ofContexts, hasEdge_ofContexts,
      Context.mirror_involutive.surjective.exists]
    simp only [h, Ne, List.reverse_inj]
  exact ⟨bijOn_reverse hnodes, hedges, sameClass_reverse hnodes hedges⟩

end Graph

theorem Extractor.graph_mirrors (extractor : Extractor) {corpus : Corpus}
    (hmarkers : Unmarked corpus.sentences) :
    (extractor.graph corpus.sentences).Mirrors (extractor.graph corpus.reversed.sentences) :=
  Graph.mirrors_of_attests fun _ _ => attests_reversed hmarkers

/-! ## Mirrored grammars -/

/-- The members of the second fragment are those of the first one reversed, and the two have
the same counts. -/
structure Fragment.Mirrors (f f' : Fragment) : Prop where
  members : ∀ a, a.reverse ∈ f'.members ↔ a ∈ f.members
  occurrences : f'.occurrences = f.occurrences
  patternCount : f'.patternCount = f.patternCount
  productive : f'.productive = f.productive

theorem Fragment.Mirrors.symm {f f' : Fragment} (h : f.Mirrors f') : f'.Mirrors f where
  members a := by rw [← h.members, List.reverse_reverse]
  occurrences := h.occurrences.symm
  patternCount := h.patternCount.symm
  productive := h.productive.symm

namespace Grammar

/-- Each fragment of the one grammar is mirrored by one of the other grammar: by the one that
has the reverse of some member. -/
structure Mirrors (g g' : Grammar) : Prop where
  left : ∀ f ∈ g.fragments, ∃ f' ∈ g'.fragments, f.Mirrors f'
  right : ∀ f' ∈ g'.fragments, ∃ f ∈ g.fragments, f.Mirrors f'
  of_member : ∀ f ∈ g.fragments, ∀ f' ∈ g'.fragments, ∀ a ∈ f.members,
    a.reverse ∈ f'.members → f.Mirrors f'

variable {extractor : Extractor} {least : Nat} {corpus : Corpus} {p q : Partition}
  {f f' : Fragment} {a : Phrase}

theorem occurrences_reversed (hf : f ∈ (induce extractor least corpus p).fragments)
    (hf' : f' ∈ (induce extractor least corpus.reversed q).fragments)
    (hmembers : ∀ a, a.reverse ∈ f'.members ↔ a ∈ f.members) :
    f'.occurrences = f.occurrences := by
  have hcontains : ∀ a : Phrase, f'.members.contains a.reverse = f.members.contains a := by
    intro a
    rw [Bool.eq_iff_iff, List.contains_iff_mem, List.contains_iff_mem, hmembers]
  have hperm := Extractor.phrases_observations_reversed extractor corpus.sentences
  calc f'.occurrences
      = ((extractor.observations corpus.reversed.sentences).map
          Extractor.Observation.phrase).countP f'.members.contains := by
        rw [occurrences_eq_countP hf', List.countP_map]
        rfl
    _ = (((extractor.observations corpus.sentences).map
          Extractor.Observation.phrase).map List.reverse).countP f'.members.contains :=
        hperm.countP_eq _
    _ = f.occurrences := by
        rw [occurrences_eq_countP hf, List.countP_map, List.countP_map]
        exact List.countP_congr fun o _ => Iff.of_eq (congrArg (· = true) (hcontains o.phrase))

theorem patternCount_le_reversed (hmarkers : Extractor.Unmarked corpus.sentences)
    (hf : f ∈ (induce extractor least corpus p).fragments)
    (hf' : f' ∈ (induce extractor least corpus.reversed q).fragments)
    (hmembers : ∀ a ∈ f.members, a.reverse ∈ f'.members) : f.patternCount ≤ f'.patternCount := by
  apply patternCount_le Context.mirror_involutive.injective hf hf'
  intro a context ha hattests
  have hmember := hmembers a ((mem_members hf).2 ha)
  exact ⟨a.reverse, (mem_members hf').1 hmember,
    Extractor.attests_reversed_of_attests hmarkers hattests⟩

theorem patternCount_reversed (hmarkers : Extractor.Unmarked corpus.sentences)
    (hf : f ∈ (induce extractor least corpus p).fragments)
    (hf' : f' ∈ (induce extractor least corpus.reversed q).fragments)
    (hmembers : ∀ a, a.reverse ∈ f'.members ↔ a ∈ f.members) :
    f'.patternCount = f.patternCount := by
  apply le_antisymm
  · have hback : f ∈ (induce extractor least corpus.reversed.reversed p).fragments := by
      rwa [Corpus.reversed_reversed]
    apply patternCount_le_reversed hmarkers.reversed hf' hback
    intro a ha
    rwa [← hmembers, List.reverse_reverse]
  · exact patternCount_le_reversed hmarkers hf hf' fun a => (hmembers a).2

theorem mirrors_of_mem_members (hmarkers : Extractor.Unmarked corpus.sentences)
    (hf : f ∈ (ofCorpus extractor least corpus).fragments)
    (hf' : f' ∈ (ofCorpus extractor least corpus.reversed).fragments) (ha : a ∈ f.members)
    (ha' : a.reverse ∈ f'.members) : f.Mirrors f' := by
  have hclass := (mem_members hf).1 ha
  have hclass' := (mem_members hf').1 ha'
  have hmembers : ∀ b, b.reverse ∈ f'.members ↔ b ∈ f.members := by
    intro b
    rw [mem_members hf', mem_members hf, ← Partition.sameClass_iff_of_classOf? hclass',
      ← Partition.sameClass_iff_of_classOf? hclass,
      (extractor.graph_mirrors hmarkers).sameClass]
  have hcount := patternCount_reversed hmarkers hf hf' hmembers
  refine ⟨hmembers, occurrences_reversed hf hf' hmembers, hcount, ?_⟩
  rw [Bool.eq_iff_iff, productive_iff hf, productive_iff hf', hcount]

theorem exists_mirrors (hmarkers : Extractor.Unmarked corpus.sentences)
    (hf : f ∈ (ofCorpus extractor least corpus).fragments) :
    ∃ f' ∈ (ofCorpus extractor least corpus.reversed).fragments, f.Mirrors f' := by
  obtain ⟨c, hc, rfl⟩ := mem_fragments.1 hf
  obtain ⟨a, ha, -⟩ := exists_attests_of_mem_members hc
  have hnode := (extractor.graph_mirrors hmarkers).nodes.mapsTo (mem_nodes_of_mem_members hf ha)
  obtain ⟨f', hf', ha'⟩ := exists_mem_fragments_of_mem_nodes extractor least _ hnode
  exact ⟨f', hf', mirrors_of_mem_members hmarkers hf hf' ha ha'⟩

theorem ofCorpus_mirrors (extractor : Extractor) (least : Nat)
    (hmarkers : Extractor.Unmarked corpus.sentences) :
    (ofCorpus extractor least corpus).Mirrors (ofCorpus extractor least corpus.reversed) where
  left _ := exists_mirrors hmarkers
  right f' hf' := by
    obtain ⟨f, hf, hmirrors⟩ := exists_mirrors hmarkers.reversed hf'
    rw [Corpus.reversed_reversed] at hf
    exact ⟨f, hf, hmirrors.symm⟩
  of_member _ hf _ hf' _ := mirrors_of_mem_members hmarkers hf hf'

end Grammar

/-- Where no token is a marker, the direction of reading makes no difference: the reversed
sentences have the reversed phrases as nodes, with the same edges and the same classes, and
for each class the same counts. -/
theorem learning_mirrors_reversal (extractor : Extractor) (least : Nat) {corpus : Corpus}
    (hmarkers : Extractor.Unmarked corpus.sentences) :
    (extractor.graph corpus.sentences).Mirrors (extractor.graph corpus.reversed.sentences) ∧
    (Grammar.ofCorpus extractor least corpus).Mirrors
      (Grammar.ofCorpus extractor least corpus.reversed) :=
  ⟨extractor.graph_mirrors hmarkers, Grammar.ofCorpus_mirrors extractor least hmarkers⟩

/-- The ways to walk are found from the other end too. -/
theorem walked_quickly_mirrored :
    Extractor.Unmarked Corpus.dogsAndCats.sentences ∧
    (Extractor.whole.graph Corpus.dogsAndCats.reversed.sentences).partition.sameClass
      [utf8 "walked", utf8 "quickly"] [utf8 "ran"] = true ∧
    ∃ f ∈ (Grammar.ofCorpus Extractor.whole 2 Corpus.dogsAndCats).fragments,
      ∃ f' ∈ (Grammar.ofCorpus Extractor.whole 2 Corpus.dogsAndCats.reversed).fragments,
        [utf8 "ran"] ∈ f.members ∧ f.Mirrors f' := by
  have hmarkers : Extractor.Unmarked Corpus.dogsAndCats.sentences := by
    unfold Extractor.Unmarked
    decide
  have hways : Interchangeable Extractor.whole.policy Corpus.dogsAndCats.sentences
      [utf8 "quickly", utf8 "walked"] [utf8 "ran"] :=
    ⟨Extractor.allows_whole Nat.two_pos, Extractor.allows_whole Nat.one_pos,
      [utf8 "the", utf8 "cat"], [], .inl (by decide), by decide, by decide⟩
  have hsame := Extractor.sameClass_of_interchangeable rfl hways
  obtain ⟨hgraph, hgrammar⟩ := learning_mirrors_reversal Extractor.whole 2 hmarkers
  obtain ⟨i, -, hran⟩ := Partition.sameClass_iff_classOf?.1 hsame
  obtain ⟨f, hf, rfl⟩ := Grammar.exists_fragment_of_classOf? Extractor.whole 2 _ hran
  obtain ⟨f', hf', hmirrors⟩ := hgrammar.left f hf
  refine ⟨hmarkers, ?_, f, hf, f', hf', (Grammar.mem_members hf).2 hran, hmirrors⟩
  exact (hgraph.sameClass _ _).trans hsame

end Substitutability
