import Mathlib
import Substitutability.Drawing.Page
import Substitutability.Learning.Learner
import Substitutability.Proofs.Corpus.TextFormat
import Substitutability.Proofs.Interchange
import Substitutability.Report.Basic

/-!
# Labels of phrases

The label of a phrase of a corpus that was read from a text is read as this phrase. So no two
phrases of the corpus look the same in a report or in a drawing of it. Sentences that were
read from lines, each written on a line again, are read as the same sentences.
-/

set_option autoImplicit false

namespace Substitutability

/-- The contiguous parts of the sentences, whole ones and the empty one included. -/
def Corpus.phrases (corpus : Corpus) : Set Phrase :=
  {p | ∃ s ∈ corpus.sentences, p <:+: s.tokens}

def Corpus.listing (corpus : Corpus) : Bytes :=
  Bytes.join [Bytes.newline] (corpus.sentences.map fun s => s.tokens.label corpus.separator)

/-! ## Bytes of labels -/

theorem Bytes.mem_join {separator : Bytes} {texts : List Bytes} {b : UInt8}
    (h : b ∈ join separator texts) : b ∈ separator ∨ ∃ text ∈ texts, b ∈ text := by
  induction texts with
  | nil => cases h
  | cons text rest ih =>
    cases rest with
    | nil => exact .inr ⟨text, List.mem_cons_self, h⟩
    | cons next rest =>
      rw [join, List.mem_append, List.mem_append] at h
      rcases h with (h | h) | h
      · exact .inr ⟨text, List.mem_cons_self, h⟩
      · exact .inl h
      · rcases ih h with h | ⟨other, hother, h⟩
        · exact .inl h
        · exact .inr ⟨other, List.mem_cons_of_mem _ hother, h⟩

theorem Granularity.newline_not_mem_label {granularity : Granularity} {phrase : Phrase}
    (h : ∀ token ∈ phrase, granularity.IsToken token) :
    Bytes.newline ∉ phrase.label granularity.separator := by
  intro hmem
  rcases Bytes.mem_join hmem with hseparator | ⟨token, htoken, hmem⟩
  · cases granularity with
    | word => exact absurd hseparator (by decide)
    | character => cases hseparator
  · have hblank := (h token htoken).unblank _ hmem
    exact absurd hblank (by decide)

namespace TextFormat

variable {format : TextFormat} {name source text : Bytes} {p : Phrase}

/-! ## Phrases of a corpus -/

theorem mem_plain (h : p ∈ format.plain text) :
    p ≠ [] ∧ ∀ token ∈ p, format.granularity.IsToken token := by
  obtain ⟨hmem, hne⟩ := List.mem_filter.1 h
  obtain ⟨piece, -, rfl⟩ := List.mem_map.1 hmem
  refine ⟨by simpa using hne, fun token htoken => ?_⟩
  rw [← Granularity.tokens_eq_plain] at htoken
  exact Granularity.isToken_of_mem_tokens htoken

theorem tokens_mem_plain {s : Sentence} (hs : s ∈ format.sentences source text) :
    s.tokens ∈ format.plain text := by
  rw [← map_tokens_sentences format source]
  exact List.mem_map_of_mem hs

theorem isToken_of_mem_phrases (hp : p ∈ (format.corpus name source text).phrases) :
    ∀ token ∈ p, format.granularity.IsToken token := by
  obtain ⟨s, hs, hpart⟩ := hp
  intro token htoken
  exact (mem_plain (tokens_mem_plain hs)).2 token (hpart.subset htoken)

theorem injOn_label (format : TextFormat) (name source text : Bytes) :
    Set.InjOn (Phrase.label format.granularity.separator)
      (format.corpus name source text).phrases := by
  intro p hp q hq hlabel
  rw [← Granularity.tokens_label (isToken_of_mem_phrases hp), hlabel,
    Granularity.tokens_label (isToken_of_mem_phrases hq)]

/-! ## Lines -/

theorem plain_line (granularity : Granularity) (text : Bytes) :
    (⟨.line, granularity⟩ : TextFormat).plain text =
      ((Bytes.splitOn Bytes.newline text).map granularity.tokens).filter (· ≠ []) := by
  have hkept := Segmentation.kept_eq_filter .line text
  have htokens : granularity.plain = granularity.tokens :=
    (funext granularity.tokens_eq_plain).symm
  rw [plain, ← hkept, htokens, Bytes.splitOn_eq]
  rfl

theorem plain_lines {granularity : Granularity} {phrases : List Phrase}
    (h : ∀ p ∈ phrases, p ≠ [] ∧ ∀ token ∈ p, granularity.IsToken token) :
    (⟨.line, granularity⟩ : TextFormat).plain
      (Bytes.join [Bytes.newline] (phrases.map (Phrase.label granularity.separator))) =
        phrases := by
  rw [plain_line]
  by_cases hnone : phrases = []
  · subst hnone
    simp [Bytes.join, Bytes.splitOn, Bytes.pieces, Granularity.tokens_nil]
  · have hcut : ∀ line ∈ phrases.map (Phrase.label granularity.separator),
        Bytes.newline ∉ line := by
      intro line hline
      obtain ⟨p, hp, rfl⟩ := List.mem_map.1 hline
      exact Granularity.newline_not_mem_label (h p hp).2
    have hread : (phrases.map (Phrase.label granularity.separator)).map granularity.tokens =
        phrases := by
      rw [List.map_map]
      exact (List.map_congr_left fun p hp => Granularity.tokens_label (h p hp).2).trans
        (List.map_id' phrases)
    rw [Bytes.splitOn_join (by simpa using hnone) hcut, hread, List.filter_eq_self.2]
    intro p hp
    simpa using (h p hp).1

theorem listing_corpus (format : TextFormat) (name source text : Bytes) :
    (format.corpus name source text).listing = Bytes.join [Bytes.newline]
      ((format.plain text).map (Phrase.label format.granularity.separator)) := by
  rw [← map_tokens_sentences format source, List.map_map]
  rfl

theorem plain_listing (granularity : Granularity) (name source text : Bytes) :
    (⟨.line, granularity⟩ : TextFormat).plain
      (corpus ⟨.line, granularity⟩ name source text).listing = plain ⟨.line, granularity⟩ text := by
  rw [listing_corpus]
  exact plain_lines fun p hp => mem_plain hp

/-- Every phrase of a corpus that was read from a text is read from its label, so labels in
reports and drawings tell phrases apart, and lines with the labels of all sentences give the
sentences again. -/
theorem labels_read_back (format : TextFormat) (name source text : Bytes) :
    (∀ p ∈ (format.corpus name source text).phrases,
      format.granularity.tokens (p.label (format.corpus name source text).separator) = p) ∧
    (∀ r : Learned, r.corpus = format.corpus name source text → ∀ settings,
      Set.InjOn (Phrase.label (Report.ofLearned settings r).separator) r.corpus.phrases ∧
      Set.InjOn (Phrase.label r.caption.separator) r.corpus.phrases) ∧
    (format.segmentation = .line → ∀ name' source',
      (format.corpus name' source'
          (format.corpus name source text).listing).sentences.map Sentence.tokens =
        (format.corpus name source text).sentences.map Sentence.tokens) := by
  refine ⟨?_, ?_, ?_⟩
  · intro p hp
    exact Granularity.tokens_label (isToken_of_mem_phrases hp)
  · intro r hr settings
    have hinj := injOn_label format name source text
    rw [← hr] at hinj
    have hseparator : r.corpus.separator = format.granularity.separator := by rw [hr]; rfl
    rw [← hseparator] at hinj
    exact ⟨hinj, hinj⟩
  · intro hline name' source'
    obtain ⟨segmentation, granularity⟩ := format
    obtain rfl : segmentation = .line := hline
    calc (corpus ⟨.line, granularity⟩ name' source'
          (corpus ⟨.line, granularity⟩ name source text).listing).sentences.map Sentence.tokens
        = plain ⟨.line, granularity⟩ (corpus ⟨.line, granularity⟩ name source text).listing :=
          map_tokens_sentences _ source' _
      _ = plain ⟨.line, granularity⟩ text := plain_listing granularity name source text
      _ = (corpus ⟨.line, granularity⟩ name source text).sentences.map Sentence.tokens :=
          (map_tokens_sentences _ source text).symm

/-- Two lines: one has a byte that starts no character, and one ends in a character that is
cut off after its first byte. -/
def brokenLines : Corpus :=
  corpus ⟨.line, .character⟩ (utf8 "broken") (utf8 "broken") [0x20, 0x61, 0xFF, 0x0A, 0x62, 0xC3]

theorem sentences_brokenLines :
    brokenLines.sentences =
      [⟨[utf8 "a", Utf8.replacement], utf8 "broken", 0⟩,
        ⟨[utf8 "b", Utf8.replacement], utf8 "broken", 1⟩] := by
  cbv

def characterLearner : Learner :=
  ⟨.whole, ⟨.line, .character⟩, 2, false⟩

theorem broken_lines_read_back :
    [utf8 "a", Utf8.replacement] ∈ brokenLines.phrases ∧
    Granularity.tokens .character
        (Phrase.label brokenLines.separator [utf8 "a", Utf8.replacement]) =
      [utf8 "a", Utf8.replacement] ∧
    Set.InjOn
      (Phrase.label (Report.ofLearned {} (characterLearner.learned brokenLines)).separator)
      brokenLines.phrases ∧
    (corpus ⟨.line, .character⟩ (utf8 "again") (utf8 "again")
        brokenLines.listing).sentences.map Sentence.tokens =
      [[utf8 "a", Utf8.replacement], [utf8 "b", Utf8.replacement]] := by
  have hmem : [utf8 "a", Utf8.replacement] ∈ brokenLines.phrases := by
    refine ⟨⟨[utf8 "a", Utf8.replacement], utf8 "broken", 0⟩, ?_, List.infix_rfl⟩
    rw [sentences_brokenLines]
    exact List.mem_cons_self
  obtain ⟨hread, hinj, hlines⟩ := labels_read_back ⟨.line, .character⟩ (utf8 "broken")
    (utf8 "broken") [0x20, 0x61, 0xFF, 0x0A, 0x62, 0xC3]
  have hsame := hlines rfl (utf8 "again") (utf8 "again")
  rw [← brokenLines, sentences_brokenLines] at hsame
  exact ⟨hmem, hread _ hmem, (hinj (characterLearner.learned brokenLines) rfl {}).1, hsame⟩

end TextFormat

end Substitutability
