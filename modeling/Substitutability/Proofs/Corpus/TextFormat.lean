import Substitutability.Proofs.Corpus.Tokens

/-!
# Reading texts

What a text format reads from a text, without the steps it is read in: the text is cut at
every separator, and each piece gives its words, or its characters other than blanks. Blanks
at the ends of a piece, empty pieces and pieces of blanks leave no trace. Two texts with a
separator between them are read one after the other.
-/

set_option autoImplicit false

namespace Substitutability

/-! ## Numbers of segments -/

namespace Corpus

theorem number_eq (source : Bytes) (segments : List Phrase) :
    number source segments = (segments.zipIdx.filter (·.1 ≠ [])).map fun (tokens, segment) =>
      ⟨tokens, source, segment⟩ := by
  rw [number, ← List.filterMap_eq_map, ← List.filterMap_eq_filter, List.filterMap_filterMap]
  congr 1
  funext entry
  by_cases hentry : entry.1 = [] <;> simp [Option.guard, hentry]

theorem map_tokens_number (source : Bytes) (segments : List Phrase) :
    (number source segments).map Sentence.tokens = segments.filter (· ≠ []) := by
  rw [number_eq, List.map_map]
  calc (segments.zipIdx.filter (·.1 ≠ [])).map Prod.fst
      = (segments.zipIdx.map Prod.fst).filter (· ≠ []) := by rw [List.filter_map]; rfl
    _ = segments.filter (· ≠ []) := by rw [List.zipIdx_map_fst]

theorem segments_number_ascending (source : Bytes) (segments : List Phrase) :
    ((number source segments).map Sentence.segment).Pairwise (· < ·) := by
  rw [number_eq, List.map_map]
  have hsub : ((segments.zipIdx.filter (·.1 ≠ [])).map Prod.snd).Sublist
      (segments.zipIdx.map Prod.snd) := List.filter_sublist.map _
  rw [List.zipIdx_map_snd] at hsub
  exact List.Pairwise.sublist hsub List.pairwise_lt_range'

end Corpus

/-! ## The plain reading -/

namespace Segmentation

def keeps : Segmentation → UInt8 → Bool
  | .line, _ => true
  | .period, b => (Char.ofUInt8 b).isAlpha || b = '.'.toUInt8 || b ∈ Bytes.blanks

theorem isLetter_eq_isAlpha (b : UInt8) : Bytes.isLetter b = (Char.ofUInt8 b).isAlpha := by
  have hcode : (Char.ofUInt8 b).isAlpha =
      (decide (65 ≤ b.toUInt32 ∧ b.toUInt32 ≤ 90) ||
        (decide (97 ≤ b.toUInt32) && decide (b.toUInt32 ≤ 122))) := rfl
  simp [hcode, Bytes.isLetter, Bytes.isUpper, Bytes.isLower, UInt8.le_iff_toNat_le,
    UInt32.le_iff_toNat_le]

theorem isProse_eq_keeps (b : UInt8) : isProse b = keeps .period b := by
  rw [Bool.eq_iff_iff]
  simp only [isProse, keeps, isLetter_eq_isAlpha, Bool.or_eq_true, beq_iff_eq, decide_eq_true_eq,
    Bytes.mem_blanks]
  exact or_right_comm

theorem kept_eq_filter (segmentation : Segmentation) (text : Bytes) :
    segmentation.kept text = text.filter segmentation.keeps := by
  cases segmentation with
  | line => exact (List.filter_eq_self.2 fun b _ => rfl).symm
  | period =>
    rw [kept]
    congr 1
    funext b
    exact isProse_eq_keeps b

theorem keeps_separator (segmentation : Segmentation) :
    segmentation.keeps segmentation.separator = true := by
  cases segmentation with
  | line => rfl
  | period => decide

end Segmentation

namespace Granularity

/-- The maximal runs of bytes that are not blank, or the characters that are not blank. -/
def plain : Granularity → Bytes → Phrase
  | .word, piece => Bytes.runs piece
  | .character, piece => (Utf8.characters piece).filter (· ∉ Bytes.blanks.map fun b => [b])

theorem isBlankToken_iff {part : Bytes} :
    isBlankToken part = true ↔ part ∈ Bytes.blanks.map fun b => [b] := by
  rw [List.mem_map]
  constructor
  · intro h
    match part with
    | [b] => exact ⟨b, Bytes.mem_blanks.2 h, rfl⟩
  · rintro ⟨b, hb, rfl⟩
    exact Bytes.mem_blanks.1 hb

theorem tokens_eq_plain (granularity : Granularity) (piece : Bytes) :
    granularity.tokens piece = granularity.plain piece := by
  cases granularity with
  | word => exact Bytes.words_eq_runs piece
  | character =>
    rw [tokens, plain]
    congr 1
    funext part
    rw [Bool.eq_iff_iff, Bool.not_eq_true', decide_eq_true_iff, ← isBlankToken_iff,
      Bool.not_eq_true]

end Granularity

namespace TextFormat

/-- The tokens of the pieces between separators, where there are any. -/
def plain (format : TextFormat) (text : Bytes) : List Phrase :=
  ((List.splitOn format.segmentation.separator (text.filter format.segmentation.keeps)).map
    format.granularity.plain).filter (· ≠ [])

theorem plain_append (format : TextFormat) (a b : Bytes) :
    format.plain (a ++ [format.segmentation.separator] ++ b) =
      format.plain a ++ format.plain b := by
  rw [plain, List.append_assoc, List.singleton_append, List.filter_append, List.filter_cons,
    if_pos (Segmentation.keeps_separator _), List.splitOn_append_cons_self, List.map_append,
    List.filter_append, plain, plain]

theorem filter_map_tokens_trim (granularity : Granularity) (texts : List Bytes) :
    (((texts.map Bytes.trim).filter (!·.isEmpty)).map granularity.tokens).filter (· ≠ []) =
      (texts.map granularity.tokens).filter (· ≠ []) := by
  induction texts with
  | nil => rfl
  | cons text rest ih =>
    have htrim := Granularity.tokens_trim granularity text
    rw [List.map_cons, List.map_cons, List.filter_cons, List.filter_cons, ← htrim]
    by_cases hempty : Bytes.trim text = []
    · rw [if_neg (by simp [hempty]), if_neg (by simp [hempty, Granularity.tokens_nil]), ih]
    · rw [if_pos (by simp [hempty]), List.map_cons, List.filter_cons, ih]

theorem map_tokens_sentences (format : TextFormat) (source text : Bytes) :
    (format.sentences source text).map Sentence.tokens = format.plain text := by
  have htokens : format.granularity.tokens = format.granularity.plain :=
    funext (Granularity.tokens_eq_plain format.granularity)
  rw [sentences, Corpus.map_tokens_number, Segmentation.segments, filter_map_tokens_trim,
    Bytes.splitOn_eq, Segmentation.kept_eq_filter, htokens, plain]

/-- Reading a text gives what the plain reading gives, part by part where a separator stands
between the parts, and the sentences of one text have ascending numbers. -/
theorem texts_read_plainly (format : TextFormat) (name source : Bytes) :
    (∀ text, (format.corpus name source text).sentences.map Sentence.tokens =
      format.plain text) ∧
    (∀ a b, (format.corpus name source
        (a ++ [format.segmentation.separator] ++ b)).sentences.map Sentence.tokens =
      (format.corpus name source a).sentences.map Sentence.tokens ++
        (format.corpus name source b).sentences.map Sentence.tokens) ∧
    ∀ text, ((format.corpus name source text).sentences.map Sentence.segment).Pairwise
      (· < ·) := by
  refine ⟨format.map_tokens_sentences source, ?_, ?_⟩
  · intro a b
    simp only [corpus, map_tokens_sentences, plain_append]
  · intro text
    exact Corpus.segments_number_ascending source _

end TextFormat

end Substitutability
