import Substitutability.Proofs.Grammar.Induction
import Substitutability.Proofs.Grammar.Reading
import Substitutability.Proofs.Interchange
import Substitutability.Proofs.Language

/-!
# The induced grammar does not generalize too far

In a substitutable language that has all sentences of a corpus, the members of a
class are congruent, for a class is a chain of phrases with a common context. So
the class may stand for all words congruent to its members, and every rule of the
induced grammar holds: what the grammar generates is in the language.
-/

set_option autoImplicit false

namespace Substitutability.Grammar

variable {extractor : Extractor} {sentences : List Sentence} {L : Language Bytes}

/-! ## Classes of congruent phrases -/

theorem congruent_of_interchangeable (hL : Substitutable L)
    (hsentences : ∀ sentence ∈ sentences, sentence.tokens ∈ L) {p q : Phrase}
    (h : Interchangeable extractor.policy sentences p q) : Congruent L p q := by
  obtain ⟨hp, hq, l, r, -, hpmem, hqmem⟩ := h
  have hmem : ∀ w ∈ sentences.map Sentence.tokens, w ∈ L := by
    simpa using hsentences
  have hpne := List.ne_nil_of_length_pos (hp.pos extractor.policy_valid)
  have hqne := List.ne_nil_of_length_pos (hq.pos extractor.policy_valid)
  exact hL.congruent hpne hqne (hmem _ hpmem) (hmem _ hqmem)

def Coherent (L : Language Bytes) (p : Partition) : Prop :=
  ∀ a b, p.sameClass a b = true → Congruent L a b

theorem coherent_partition (hwidth : extractor.width = 0) (hL : Substitutable L)
    (hsentences : ∀ sentence ∈ sentences, sentence.tokens ∈ L) :
    Coherent L (extractor.graph sentences).partition := by
  intro a b hab
  obtain ⟨-, hchain⟩ := (Extractor.sameClass_graph hwidth).1 hab
  clear hab
  induction hchain with
  | refl => exact .refl a
  | tail _ hlast ih => exact ih.trans (congruent_of_interchangeable hL hsentences hlast)

/-! ## Rules -/

/-- The words that a symbol may stand for: words of the language, and words
congruent to the members of the class. -/
def meaning (L : Language Bytes) (p : Partition) : Nonterminal → Language Bytes
  | .start => L
  | .ofClass i => {w | ∃ a, p.classOf? a = some i ∧ Congruent L w a}

variable {p : Partition} {least : Nat} {corpus : Corpus} {f : Fragment}

theorem mem_meaning {i : Nat} {w : Phrase} :
    w ∈ meaning L p (.ofClass i) ↔ ∃ a, p.classOf? a = some i ∧ Congruent L w a :=
  Iff.rfl

theorem congruent_of_mem_meaning (hp : Coherent L p) {a w : Phrase} {i : Nat}
    (hw : w ∈ meaning L p (.ofClass i)) (ha : p.classOf? a = some i) : Congruent L w a := by
  obtain ⟨b, hb, hwb⟩ := mem_meaning.1 hw
  exact hwb.trans (hp b a (Partition.sameClass_iff_classOf?.2 ⟨i, hb, ha⟩))

theorem value_sentence (w : Phrase) : ContextFree.value (meaning L p) w.terminals = {w} :=
  ContextFree.value_terminals w

theorem exists_sentence_of_mem_patterns (hwidth : extractor.width = 0)
    (hf : f ∈ (induce extractor least corpus p).fragments) {pattern : Pattern}
    (hpattern : pattern ∈ f.patterns) :
    pattern.index = f.index ∧ ∃ l a r, pattern.inner? = some (l, r) ∧
      p.classOf? a = some f.index ∧
        ∃ sentence ∈ corpus.sentences, sentence.tokens = l ++ a ++ r := by
  obtain ⟨hindex, a, ha, hattests⟩ := (mem_patterns hf).1 hpattern
  rw [Extractor.attests_whole hwidth] at hattests
  obtain ⟨-, l, r, -, hmem, hcontext⟩ := hattests
  obtain ⟨hleft, hright⟩ := Context.mk.inj hcontext
  exact ⟨hindex, l, a, r, Pattern.inner?_eq_some.2 ⟨hleft, hright⟩, ha, List.mem_map.1 hmem⟩

theorem pattern_sound (hwidth : extractor.width = 0) (hp : Coherent L p)
    (hcorpus : ∀ sentence ∈ corpus.sentences, sentence.tokens ∈ L)
    (hf : f ∈ (induce extractor least corpus p).fragments) {pattern : Pattern}
    (hpattern : pattern ∈ f.patterns) {rule : Rule} (hrule : pattern.rule? = some rule) :
    ∀ w ∈ ContextFree.value (meaning L p) rule.output, w ∈ meaning L p rule.input := by
  obtain ⟨hindex, l, a, r, hinner, ha, sentence, hsentence, htokens⟩ :=
    exists_sentence_of_mem_patterns hwidth hf hpattern
  have hword : l ++ a ++ r ∈ L := htokens ▸ hcorpus sentence hsentence
  rw [Pattern.rule?, hinner, Option.map_some, Option.some.injEq] at hrule
  subst hrule
  simp only [ContextFree.value_append, ContextFree.value_nonterminal, value_sentence, hindex]
  rintro _ ⟨_, ⟨l, rfl, x, hx, rfl⟩, r, rfl, rfl⟩
  exact (congruent_of_mem_meaning hp hx ha l r).2 hword

theorem token_sound (hf : f ∈ (induce extractor least corpus p).fragments) {token : Bytes}
    (htoken : token ∈ f.tokens) :
    ∀ w ∈ ContextFree.value (meaning L p) [.terminal token],
      w ∈ meaning L p (.ofClass f.index) := by
  have hclass := (mem_tokens hf).1 htoken
  rw [show [Symbol.terminal token] = Phrase.terminals [token] from rfl, value_sentence]
  rintro _ rfl
  exact ⟨[token], hclass, .refl [token]⟩

theorem decomposition_sound (hp : Coherent L p)
    (hf : f ∈ (induce extractor least corpus p).fragments) {d : Decomposition}
    (hd : d ∈ f.decompositions) :
    ∀ w ∈ ContextFree.value (meaning L p) d.output, w ∈ meaning L p (.ofClass f.index) := by
  obtain ⟨u, v, -, -, huv, hu, hv⟩ := (mem_decompositions hf).1 hd
  have houtput : d.output =
      [.nonterminal (.ofClass d.left)] ++ [.nonterminal (.ofClass d.right)] := rfl
  rw [houtput, ContextFree.value_append, ContextFree.value_nonterminal,
    ContextFree.value_nonterminal]
  rintro _ ⟨x, hx, y, hy, rfl⟩
  have hxu := congruent_of_mem_meaning hp hx hu
  have hyv := congruent_of_mem_meaning hp hy hv
  exact ⟨u ++ v, huv, hxu.append hyv⟩

theorem isModel_induce (hwidth : extractor.width = 0) (hp : Coherent L p)
    (hcorpus : ∀ sentence ∈ corpus.sentences, sentence.tokens ∈ L) :
    ContextFree.IsModel (induce extractor least corpus p).toContextFree (meaning L p) := by
  intro rule hrule
  rcases mem_rules.1 (List.mem_toFinset.1 hrule) with
    ⟨w, hw, rfl⟩ | ⟨f, hf, ⟨pattern, hpattern, hrule⟩ | ⟨token, htoken, rfl⟩ | ⟨d, hd, rfl⟩⟩
  · obtain ⟨sentence, hsentence, rfl⟩ := mem_sentences.1 hw
    show ∀ w ∈ ContextFree.value (meaning L p) sentence.tokens.terminals, w ∈ L
    rw [value_sentence]
    rintro _ rfl
    exact hcorpus sentence hsentence
  · exact pattern_sound hwidth hp hcorpus hf hpattern hrule
  · exact token_sound hf htoken
  · exact decomposition_sound hp hf hd

/-! ## The language of a corpus -/

def ofCorpus (extractor : Extractor) (least : Nat) (corpus : Corpus) : Grammar :=
  induce extractor least corpus (extractor.graph corpus.sentences).partition

theorem mem_language_of_mem_sentences {sentence : Sentence}
    (h : sentence ∈ corpus.sentences) :
    sentence.tokens ∈ (ofCorpus extractor least corpus).toContextFree.language :=
  .single (produces_sentence (mem_sentences.2 ⟨sentence, h, rfl⟩))

/-- With whole contexts every pattern is a rule, and the grammar of a corpus generates
the sentences of the corpus and only words of each substitutable language that has them. -/
theorem language_sound_of_substitutable (extractor : Extractor) (hwidth : extractor.width = 0)
    (least : Nat) (corpus : Corpus) (L : Language Bytes) (hL : Substitutable L)
    (hcorpus : ∀ sentence ∈ corpus.sentences, sentence.tokens ∈ L) :
    (∀ f ∈ (ofCorpus extractor least corpus).fragments, ∀ pattern ∈ f.patterns,
      ∃ l r, pattern.left = startMarker :: l ∧ pattern.right = r ++ [endMarker]) ∧
    (∀ sentence ∈ corpus.sentences,
      sentence.tokens ∈ (ofCorpus extractor least corpus).toContextFree.language) ∧
    ∀ w ∈ (ofCorpus extractor least corpus).toContextFree.language, w ∈ L := by
  refine ⟨?_, fun _ => mem_language_of_mem_sentences, ?_⟩
  · intro f hf pattern hpattern
    obtain ⟨-, l, -, r, hinner, -⟩ := exists_sentence_of_mem_patterns hwidth hf hpattern
    exact ⟨l, r, Pattern.inner?_eq_some.1 hinner⟩
  · intro w hw
    exact (isModel_induce hwidth (coherent_partition hwidth hL hcorpus) hcorpus).mem_initial hw

def balanced : Language Bytes :=
  {w | w.count (utf8 "a") = w.count (utf8 "b")}

theorem mem_balanced {w : List Bytes} :
    w ∈ balanced ↔ w.count (utf8 "a") = w.count (utf8 "b") :=
  Iff.rfl

theorem substitutable_balanced : Substitutable balanced := by
  intro u v l r l' r' _ _ hu hv hu'
  simp only [mem_balanced, List.count_append] at *
  omega

def balancedCorpus : Corpus :=
  Corpus.ofPhrases (utf8 "balanced")
    [["a", "a", "b", "b"].map utf8, ["a", "b", "a", "b"].map utf8] []

theorem balancedCorpus_sentences :
    ∀ sentence ∈ balancedCorpus.sentences, sentence.tokens ∈ balanced := by
  simp only [mem_balanced]
  decide

theorem language_of_balancedCorpus :
    Extractor.whole.width = 0 ∧ Substitutable balanced ∧
      (∀ sentence ∈ balancedCorpus.sentences, sentence.tokens ∈ balanced) ∧
      (∀ sentence ∈ balancedCorpus.sentences,
        sentence.tokens ∈ (ofCorpus Extractor.whole 1 balancedCorpus).toContextFree.language) ∧
      ∀ w ∈ (ofCorpus Extractor.whole 1 balancedCorpus).toContextFree.language, w ∈ balanced :=
  ⟨rfl, substitutable_balanced, balancedCorpus_sentences,
    (language_sound_of_substitutable Extractor.whole rfl 1 balancedCorpus balanced
      substitutable_balanced balancedCorpus_sentences).2⟩

end Substitutability.Grammar
