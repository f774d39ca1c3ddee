import Substitutability.Proofs.Grammar.Derivation

/-!
# The alphabet of a grammar

The accepted spans of a sentence cover it as soon as it is longer than the shortest phrase
that the policy allows. So the alphabet, which is collected from the members of the classes,
has all tokens of these sentences and no others. Each of its tokens is a rule of one class if
single tokens are long enough, and of no class if they are not.
-/

set_option autoImplicit false

namespace Substitutability

theorem Span.mem_phrase {span : Span} {tokens : Phrase} {token : Bytes} :
    token ∈ span.phrase tokens ↔
      ∃ i, span.start ≤ i ∧ i < span.stop ∧ tokens[i]? = some token := by
  rw [phrase, List.mem_iff_getElem?]
  constructor
  · intro h
    obtain ⟨k, hk⟩ := h
    rw [List.getElem?_drop, List.getElem?_take, Option.ite_none_right_eq_some] at hk
    exact ⟨span.start + k, Nat.le_add_right _ _, hk.1, hk.2⟩
  · intro h
    obtain ⟨i, hstart, hstop, hi⟩ := h
    refine ⟨i - span.start, ?_⟩
    rw [List.getElem?_drop, Nat.add_sub_cancel' hstart, List.getElem?_take_of_lt hstop, hi]

/-! ## Spans cover sentences -/

namespace Extractor

variable {extractor : Extractor} {sentences : List Sentence} {token : Bytes}

/-- A shortest allowed span over a place starts there, or as late as the sentence has room
for it. -/
theorem exists_span_over {n i : Nat} (hlong : extractor.policy.minimum.toInt < n) (hi : i < n) :
    ∃ span ∈ extractor.spans n, ((span.stop - span.start : Nat) : Int) =
      extractor.policy.minimum.toInt ∧ span.start ≤ i ∧ i < span.stop := by
  obtain ⟨hpos, hmax⟩ := LengthPolicy.bounds_of_valid extractor.policy_valid
  obtain ⟨least, hleast⟩ := Int.eq_ofNat_of_zero_le hpos.le
  have hallows : extractor.policy.Allows least := by
    refine ⟨hleast.le, fun maximum hmaximum => ?_⟩
    have := hmax maximum hmaximum
    omega
  have hlength : min i (n - least) + least - min i (n - least) = least := by omega
  refine ⟨⟨min i (n - least), min i (n - least) + least⟩, mem_spans.2 ?_, ?_, ?_, ?_⟩
  · simp only [hlength]
    exact ⟨by omega, by omega, by omega, hallows⟩
  · simp only [hlength]
    exact hleast.symm
  · show min i (n - least) ≤ i
    omega
  · show i < min i (n - least) + least
    omega

theorem exists_node_of_token {sentence : Sentence} (hsentence : sentence ∈ sentences)
    (hlong : extractor.policy.minimum.toInt < sentence.tokens.length)
    (htoken : token ∈ sentence.tokens) :
    ∃ a ∈ (extractor.graph sentences).nodes,
      (a.length : Int) = extractor.policy.minimum.toInt ∧ token ∈ a := by
  obtain ⟨i, hi, rfl⟩ := List.mem_iff_getElem.1 htoken
  obtain ⟨span, hspan, hlength, hstart, hstop⟩ := exists_span_over hlong hi
  refine ⟨span.phrase sentence.tokens, ?_, ?_, ?_⟩
  · apply Graph.mem_nodes_ofContexts.2
    exact ⟨_, attests_extract.2 ⟨sentence, hsentence, span, hspan, rfl, rfl⟩⟩
  · rw [Span.length_phrase (mem_spans.1 hspan).2.1, hlength]
  · exact Span.mem_phrase.2 ⟨i, hstart, hstop, List.getElem?_eq_getElem hi⟩

theorem exists_sentence_of_mem_nodes {a : Phrase} (ha : a ∈ (extractor.graph sentences).nodes)
    (htoken : token ∈ a) : ∃ sentence ∈ sentences,
      extractor.policy.minimum.toInt < sentence.tokens.length ∧ token ∈ sentence.tokens := by
  obtain ⟨c, hattests⟩ := Graph.mem_nodes_ofContexts.1 ha
  obtain ⟨sentence, hsentence, span, hspan, rfl, -⟩ := attests_extract.1 hattests
  obtain ⟨-, -, hlt, hallows⟩ := mem_spans.1 hspan
  obtain ⟨i, -, -, hi⟩ := Span.mem_phrase.1 htoken
  have hlong : extractor.policy.minimum.toInt < sentence.tokens.length := by
    have := hallows.1
    omega
  exact ⟨sentence, hsentence, hlong, List.mem_of_getElem? hi⟩

def atLeastTwo : Extractor :=
  ⟨{ minimum := 2 }, 0, by decide, whole.width_nonneg⟩

end Extractor

/-! ## The alphabet -/

namespace Grammar

variable {extractor : Extractor} {least : Nat} {corpus : Corpus} {f f' : Fragment}
  {token : Bytes}

theorem mem_alphabet : token ∈ (ofCorpus extractor least corpus).alphabet ↔
    ∃ a ∈ (extractor.graph corpus.sentences).nodes, token ∈ a := by
  show token ∈ SortedSet.ofList _ ↔ _
  simp only [SortedSet.mem_ofList, List.mem_flatMap, List.mem_flatten, Graph.mem_nodes_iff_class]
  constructor
  · intro h
    obtain ⟨c, hc, a, ha, htoken⟩ := h
    exact ⟨a, ⟨c, hc, ha⟩, htoken⟩
  · intro h
    obtain ⟨a, ⟨c, hc, ha⟩, htoken⟩ := h
    exact ⟨c, hc, a, ha, htoken⟩

theorem mem_alphabet_iff_sentence : token ∈ (ofCorpus extractor least corpus).alphabet ↔
    ∃ sentence ∈ corpus.sentences,
      extractor.policy.minimum.toInt < sentence.tokens.length ∧ token ∈ sentence.tokens := by
  rw [mem_alphabet]
  constructor
  · intro h
    obtain ⟨a, ha, htoken⟩ := h
    exact Extractor.exists_sentence_of_mem_nodes ha htoken
  · intro h
    obtain ⟨sentence, hsentence, hlong, htoken⟩ := h
    obtain ⟨a, ha, -, hmem⟩ := Extractor.exists_node_of_token hsentence hlong htoken
    exact ⟨a, ha, hmem⟩

/-! ## Rules of single tokens -/

theorem mem_tokens_iff_mem_members (hf : f ∈ (ofCorpus extractor least corpus).fragments) :
    token ∈ f.tokens ↔ [token] ∈ f.members := by
  rw [mem_members hf]
  exact mem_tokens hf

theorem mem_nodes_of_mem_tokens (hf : f ∈ (ofCorpus extractor least corpus).fragments)
    (htoken : token ∈ f.tokens) : [token] ∈ (extractor.graph corpus.sentences).nodes :=
  mem_nodes_of_mem_members hf ((mem_tokens_iff_mem_members hf).1 htoken)

theorem eq_of_mem_tokens (hf : f ∈ (ofCorpus extractor least corpus).fragments)
    (hf' : f' ∈ (ofCorpus extractor least corpus).fragments) (h : token ∈ f.tokens)
    (h' : token ∈ f'.tokens) : f = f' := by
  have hclass := (mem_tokens hf).1 h
  have hclass' := (mem_tokens hf').1 h'
  exact eq_of_index_eq hf hf' (Option.some.inj (hclass.symm.trans hclass'))

theorem existsUnique_fragment_of_token (hmin : extractor.policy.minimum = 1)
    (htoken : token ∈ (ofCorpus extractor least corpus).alphabet) :
    ∃! f, f ∈ (ofCorpus extractor least corpus).fragments ∧ token ∈ f.tokens := by
  obtain ⟨sentence, hsentence, hlong, hmem⟩ := mem_alphabet_iff_sentence.1 htoken
  obtain ⟨a, ha, hlength, hin⟩ := Extractor.exists_node_of_token hsentence hlong hmem
  have hsingle : a = [token] := by
    have hone : a.length = 1 := by
      rw [hmin] at hlength
      exact Int.ofNat.inj hlength
    obtain ⟨x, rfl⟩ := List.length_eq_one_iff.1 hone
    rw [List.mem_singleton.1 hin]
  rw [hsingle] at ha
  obtain ⟨f, hf, hmember⟩ := exists_mem_fragments_of_mem_nodes extractor least corpus ha
  have htokens := (mem_tokens_iff_mem_members hf).2 hmember
  exact ⟨f, ⟨hf, htokens⟩, fun f' hf' => eq_of_mem_tokens hf'.1 hf hf'.2 htokens⟩

theorem tokens_eq_nil (hmin : 1 < extractor.policy.minimum.toInt)
    (hf : f ∈ (ofCorpus extractor least corpus).fragments) : f.tokens.toList = [] := by
  apply List.eq_nil_iff_forall_not_mem.2
  intro token htoken
  have hnode := mem_nodes_of_mem_tokens hf htoken
  have hallows := (Extractor.mem_nodes_iff_part.1 hnode).1.1
  rw [List.length_singleton] at hallows
  omega

/-- The alphabet has the tokens of the sentences that are longer than the shortest allowed
phrase. If that is a single token, each token of the alphabet is a rule of exactly one
fragment, and there are no other rules of tokens. If it is longer, there are none at all. -/
theorem alphabet_covers_sentences (extractor : Extractor) (least : Nat) (corpus : Corpus) :
    (∀ token, token ∈ (ofCorpus extractor least corpus).alphabet ↔
      ∃ sentence ∈ corpus.sentences,
        extractor.policy.minimum.toInt < sentence.tokens.length ∧ token ∈ sentence.tokens) ∧
    (extractor.policy.minimum = 1 →
      (∀ token ∈ (ofCorpus extractor least corpus).alphabet,
        ∃! f, f ∈ (ofCorpus extractor least corpus).fragments ∧ token ∈ f.tokens) ∧
      ∀ f ∈ (ofCorpus extractor least corpus).fragments, ∀ token ∈ f.tokens,
        token ∈ (ofCorpus extractor least corpus).alphabet) ∧
    (1 < extractor.policy.minimum.toInt →
      ∀ f ∈ (ofCorpus extractor least corpus).fragments, f.tokens.toList = []) := by
  refine ⟨fun _ => mem_alphabet_iff_sentence, ?_, fun hmin _ => tokens_eq_nil hmin⟩
  intro hmin
  refine ⟨fun _ => existsUnique_fragment_of_token hmin, ?_⟩
  intro f hf token htoken
  exact mem_alphabet.2 ⟨[token], mem_nodes_of_mem_tokens hf htoken, List.mem_singleton_self _⟩

/-- A dog is a token of both alphabets, and a rule only where single tokens are phrases. -/
theorem dog_in_alphabets :
    utf8 "dog" ∈ (ofCorpus Extractor.atLeastTwo 1 Corpus.dogsAndCats).alphabet ∧
    (∀ f ∈ (ofCorpus Extractor.atLeastTwo 1 Corpus.dogsAndCats).fragments, f.tokens.toList = []) ∧
    ∃! f, f ∈ (ofCorpus Extractor.whole 1 Corpus.dogsAndCats).fragments ∧
      utf8 "dog" ∈ f.tokens := by
  obtain ⟨htwo, -, hnone⟩ := alphabet_covers_sentences Extractor.atLeastTwo 1 Corpus.dogsAndCats
  obtain ⟨hwhole, hrules, -⟩ := alphabet_covers_sentences Extractor.whole 1 Corpus.dogsAndCats
  refine ⟨(htwo _).2 ?_, hnone (by decide), (hrules rfl).1 _ ((hwhole _).2 ?_)⟩
  · decide
  · decide

end Grammar

end Substitutability
