import Substitutability.Proofs.Grammar.Agreement

/-!
# Wider windows

Where no token is a marker, two places that look the same in a window look the same in
every smaller one. So a wider window keeps fewer edges and splits classes, and the widest
window is the one without a width. A window that is as wide as the longest rest of a
sentence shows all that there is to see.
-/

set_option autoImplicit false

namespace Substitutability

/-- A window of some width cannot tell the distances apart: both are greater than the
width, or neither is and they are the same. -/
def AlikeWithin (width distance distance' : Nat) : Prop :=
  width < distance ∧ width < distance' ∨
    distance ≤ width ∧ distance' ≤ width ∧ distance = distance'

theorem AlikeWithin.narrow {k m d d' : Nat} (hkm : k ≤ m) (h : AlikeWithin m d d') :
    AlikeWithin k d d' := by
  unfold AlikeWithin at *
  omega

namespace Context

variable {k m : Nat} {marker : Bytes} {tokens others l l' r r' : Phrase}

theorem concat_ne_take {shown hidden : Phrase} (h : marker ∉ hidden) :
    shown ++ [marker] ≠ hidden.take m := by
  intro heq
  have hmem : marker ∈ hidden.take m := heq ▸ List.mem_concat_self
  exact h (List.mem_of_mem_take hmem)

/-- The marker tells whether the window reaches the edge. If it does, the tokens are all
there are, else they are as many as the window shows. -/
theorem nearest_eq_iff (hk : 1 ≤ k) (htokens : marker ∉ tokens) (hothers : marker ∉ others) :
    nearest marker k tokens = nearest marker k others ↔
      tokens.take k = others.take k ∧ AlikeWithin k tokens.length others.length := by
  have hwidth : k ≠ 0 := by omega
  by_cases hreach : tokens.length ≤ k <;> by_cases hreach' : others.length ≤ k
  · have hlength : tokens = others → tokens.length = others.length := congrArg List.length
    simpa [nearest, AlikeWithin, hwidth, hreach, hreach', List.take_of_length_le] using
      fun h => .inr (hlength h)
  · simp [nearest, AlikeWithin, hwidth, hreach, hreach', concat_ne_take hothers]
  · simp [nearest, AlikeWithin, hwidth, hreach, hreach', (concat_ne_take htokens).symm]
  · simp [nearest, AlikeWithin, hwidth, hreach, hreach', Nat.lt_of_not_le]

theorem nearest_narrow (hk : 1 ≤ k) (hkm : m = 0 ∨ k ≤ m) (htokens : marker ∉ tokens)
    (hothers : marker ∉ others) (h : nearest marker m tokens = nearest marker m others) :
    nearest marker k tokens = nearest marker k others := by
  by_cases hm : m = 0
  · have heq : tokens = others := by simpa [nearest, hm] using h
    rw [heq]
  · have hle : k ≤ m := by omega
    obtain ⟨htake, halike⟩ := (nearest_eq_iff (by omega) htokens hothers).1 h
    have hshorter : tokens.take k = others.take k := by
      rw [← Nat.min_eq_left hle, ← List.take_take, htake, List.take_take]
    exact (nearest_eq_iff hk htokens hothers).2 ⟨hshorter, halike.narrow hle⟩

theorem window_narrow (hk : 1 ≤ k) (hkm : m = 0 ∨ k ≤ m) (hl : startMarker ∉ l)
    (hl' : startMarker ∉ l') (hr : endMarker ∉ r) (hr' : endMarker ∉ r')
    (h : window m l r = window m l' r') : window k l r = window k l' r' := by
  obtain ⟨hbefore, hafter⟩ := Context.mk.inj h
  have hleft : nearest startMarker k l.reverse = nearest startMarker k l'.reverse :=
    nearest_narrow hk hkm (by simpa using hl) (by simpa using hl') (List.reverse_injective hbefore)
  have hright : nearest endMarker k r = nearest endMarker k r' :=
    nearest_narrow hk hkm hr hr' hafter
  rw [window, window, before, before, after, after, hleft, hright]

end Context

/-! ## Two windows over one corpus -/

namespace Extractor

variable {narrow wide : Extractor} {sentences : List Sentence} {a b : Phrase}

theorem mem_nodes_congr_policy (hpolicy : narrow.policy = wide.policy) :
    a ∈ (narrow.graph sentences).nodes ↔ a ∈ (wide.graph sentences).nodes := by
  rw [mem_nodes_iff_part, mem_nodes_iff_part, hpolicy]

theorem nodes_congr_policy (hpolicy : narrow.policy = wide.policy) (sentences : List Sentence) :
    (narrow.graph sentences).nodes = (wide.graph sentences).nodes := by
  apply eq_of_ascending
  · exact (Graph.ofContexts_isIntersectionGraph _).nodes_ascending
  · exact (Graph.ofContexts_isIntersectionGraph _).nodes_ascending
  · exact fun a => mem_nodes_congr_policy hpolicy

def Unmarked (sentences : List Sentence) : Prop :=
  ∀ sentence ∈ sentences, startMarker ∉ sentence.tokens ∧ endMarker ∉ sentence.tokens

theorem Unmarked.parts (h : Unmarked sentences) {l r : Phrase}
    (hmem : l ++ a ++ r ∈ sentences.map Sentence.tokens) : startMarker ∉ l ∧ endMarker ∉ r := by
  obtain ⟨sentence, hsentence, htokens⟩ := List.mem_map.1 hmem
  obtain ⟨hstart, hend⟩ := h sentence hsentence
  rw [htokens] at hstart hend
  simp only [List.mem_append, not_or] at hstart hend
  exact ⟨hstart.1.1, hend.2⟩

theorem exists_attests_narrow (hpolicy : narrow.policy = wide.policy)
    (hk : 1 ≤ narrow.window) (hkm : wide.window = 0 ∨ narrow.window ≤ wide.window)
    (hmarkers : Unmarked sentences)
    (h : ∃ c, (wide.extract sentences).Attests a c ∧ (wide.extract sentences).Attests b c) :
    ∃ c, (narrow.extract sentences).Attests a c ∧ (narrow.extract sentences).Attests b c := by
  simp only [attests_iff_part] at h ⊢
  obtain ⟨c, ⟨ha, l, r, hne, hmem, rfl⟩, ⟨hb, l', r', hne', hmem', hwindow⟩⟩ := h
  obtain ⟨hl, hr⟩ := hmarkers.parts hmem
  obtain ⟨hl', hr'⟩ := hmarkers.parts hmem'
  have hnarrow := Context.window_narrow hk hkm hl hl' hr hr' hwindow
  rw [← hpolicy] at ha hb
  exact ⟨_, ⟨ha, l, r, hne, hmem, rfl⟩, ⟨hb, l', r', hne', hmem', hnarrow⟩⟩

theorem hasEdge_narrow (hpolicy : narrow.policy = wide.policy) (hk : 1 ≤ narrow.window)
    (hkm : wide.window = 0 ∨ narrow.window ≤ wide.window) (hmarkers : Unmarked sentences)
    (h : (wide.graph sentences).hasEdge a b = true) :
    (narrow.graph sentences).hasEdge a b = true := by
  obtain ⟨hne, hcommon⟩ := Graph.hasEdge_ofContexts.1 h
  exact Graph.hasEdge_ofContexts.2
    ⟨hne, exists_attests_narrow hpolicy hk hkm hmarkers hcommon⟩

/-! ## Windows that show everything -/

theorem spans_congr_policy (hpolicy : narrow.policy = wide.policy) (n : Nat) :
    narrow.spans n = wide.spans n := by
  simp only [spans, lengths, hpolicy]

theorem contextAt_congr_window (hwide : wide.window = 0) {tokens : Phrase}
    (hlong : tokens.length ≤ narrow.window + 1) {span : Span}
    (hspan : span ∈ wide.spans tokens.length) :
    narrow.contextAt tokens span = wide.contextAt tokens span := by
  obtain ⟨hle, hstop, hlt, hallows⟩ := mem_spans.1 hspan
  have hpos := hallows.pos wide.policy_valid
  have hstart : span.start ≤ tokens.length := by omega
  have hbefore : (tokens.take span.start).length ≤ narrow.window := by
    rw [List.length_take]
    omega
  have hafter : (tokens.drop span.stop).length ≤ narrow.window := by
    rw [List.length_drop]
    omega
  show Substitutability.contextAt narrow.window tokens span =
    Substitutability.contextAt wide.window tokens span
  rw [contextAt_eq_window _ hstart, contextAt_eq_window _ hstart,
    Context.window_eq_around (.inr hbefore) (.inr hafter),
    Context.window_eq_around (.inl hwide) (.inl hwide)]

theorem observations_congr_window (hpolicy : narrow.policy = wide.policy)
    (hwide : wide.window = 0)
    (hlong : ∀ sentence ∈ sentences, sentence.tokens.length ≤ narrow.window + 1) :
    narrow.observations sentences = wide.observations sentences := by
  rw [observations, observations]
  apply List.flatMap_congr
  rintro ⟨sentence, index⟩ hentry
  have hsentence : sentence ∈ sentences :=
    List.mem_of_getElem? (List.mem_zipIdx_iff_getElem?.1 hentry)
  show narrow.observe index sentence.tokens = wide.observe index sentence.tokens
  rw [observe, observe, spans_congr_policy hpolicy]
  apply List.map_congr_left
  intro span hspan
  rw [contextAt_congr_window hwide (hlong _ hsentence) hspan]

theorem extract_congr (h : narrow.observations sentences = wide.observations sentences) :
    narrow.extract sentences = wide.extract sentences := by
  rw [extract, extract, h]

end Extractor

namespace Grammar

theorem induce_congr {narrow wide : Extractor} {corpus : Corpus}
    (h : narrow.observations corpus.sentences = wide.observations corpus.sentences)
    (least : Nat) (p : Partition) :
    induce narrow least corpus p = induce wide least corpus p := by
  simp only [induce, allSightings_eq, h]

end Grammar

namespace Extractor

/-- A wider window keeps the nodes, only takes edges away and only splits classes, and no
window is as wide as the one without a width. A window that is at most one token shorter
than the longest sentence is as good as that one. -/
theorem wider_windows_refine (narrow wide : Extractor) (hpolicy : narrow.policy = wide.policy)
    (corpus : Corpus) :
    (Unmarked corpus.sentences → 1 ≤ narrow.width.toInt →
      (wide.width = 0 ∨ narrow.width.toInt ≤ wide.width.toInt) →
      (narrow.graph corpus.sentences).nodes = (wide.graph corpus.sentences).nodes ∧
      (∀ a b, (wide.graph corpus.sentences).hasEdge a b = true →
        (narrow.graph corpus.sentences).hasEdge a b = true) ∧
      (∀ a b, (wide.graph corpus.sentences).partition.sameClass a b = true →
        (narrow.graph corpus.sentences).partition.sameClass a b = true)) ∧
    (wide.width = 0 →
      (∀ sentence ∈ corpus.sentences,
        (sentence.tokens.length : Int) ≤ narrow.width.toInt + 1) →
      narrow.extract corpus.sentences = wide.extract corpus.sentences ∧
      narrow.graph corpus.sentences = wide.graph corpus.sentences ∧
      (narrow.graph corpus.sentences).partition = (wide.graph corpus.sentences).partition ∧
      ∀ least, Grammar.ofCorpus narrow least corpus = Grammar.ofCorpus wide least corpus) := by
  constructor
  · intro hmarkers hpos hle
    have hk : 1 ≤ narrow.window := by
      rw [window]
      omega
    have hkm : wide.window = 0 ∨ narrow.window ≤ wide.window := by
      rw [window, window]
      exact hle.imp window_eq_zero Int.toNat_le_toNat
    have hedges : ∀ a b, (wide.graph corpus.sentences).hasEdge a b = true →
        (narrow.graph corpus.sentences).hasEdge a b = true :=
      fun a b => hasEdge_narrow hpolicy hk hkm hmarkers
    refine ⟨nodes_congr_policy hpolicy _, hedges, fun a b => ?_⟩
    exact Graph.sameClass_partition_mono (fun a => (mem_nodes_congr_policy hpolicy).2) hedges
  · intro hwide hlong
    have hlong' : ∀ sentence ∈ corpus.sentences, sentence.tokens.length ≤ narrow.window + 1 := by
      intro sentence hsentence
      have := hlong sentence hsentence
      rw [window]
      omega
    have hobservations := observations_congr_window hpolicy (window_eq_zero hwide) hlong'
    have hextract := extract_congr hobservations
    have hgraph : narrow.graph corpus.sentences = wide.graph corpus.sentences := by
      rw [graph, graph, hextract]
    refine ⟨hextract, hgraph, by rw [hgraph], fun least => ?_⟩
    rw [Grammar.ofCorpus, Grammar.ofCorpus, hgraph, Grammar.induce_congr hobservations]

def within (width : Int32) (h : 0 ≤ width.toInt) : Extractor :=
  ⟨{}, width, whole.policy_valid, h⟩

/-- A sentence of the corpus has at most four tokens, so three on each side are all. -/
theorem cat_and_dog_in_windows :
    ((within 1 (by decide)).graph Corpus.dogsAndCats.sentences).partition.sameClass
      [utf8 "cat"] [utf8 "dog"] = true ∧
    (within 3 (by decide)).graph Corpus.dogsAndCats.sentences =
      whole.graph Corpus.dogsAndCats.sentences := by
  have hmarkers : Unmarked Corpus.dogsAndCats.sentences := by
    unfold Unmarked
    decide
  have hlong : ∀ sentence ∈ Corpus.dogsAndCats.sentences,
      (sentence.tokens.length : Int) ≤ (within 3 (by decide)).width.toInt + 1 := by
    decide
  obtain ⟨hnarrow, -⟩ := wider_windows_refine (within 1 (by decide)) whole rfl Corpus.dogsAndCats
  obtain ⟨-, -, hclasses⟩ := hnarrow hmarkers (by decide) (.inl rfl)
  obtain ⟨-, hwhole⟩ := wider_windows_refine (within 3 (by decide)) whole rfl Corpus.dogsAndCats
  obtain ⟨-, hgraph, -, -⟩ := hwhole rfl hlong
  exact ⟨hclasses _ _ (sameClass_of_interchangeable rfl cat_interchangeable_dog), hgraph⟩

end Extractor

end Substitutability
