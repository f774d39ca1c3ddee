import Substitutability.Proofs.Corpus.Markers
import Substitutability.Proofs.Text.WellFormed

/-!
# Well-formed tokens

Prose keeps ASCII only, and characters that are malformed are replaced, so tokens are
well-formed whatever the text is. Only the words of lines are taken as they stand, and these
are well-formed exactly if the text is.
-/

set_option autoImplicit false

namespace Substitutability

theorem Bytes.words_join_of_blank {b : UInt8} (hb : isBlank b = true) (texts : List Bytes) :
    words (join [b] texts) = texts.flatMap words := by
  induction texts with
  | nil => rfl
  | cons text rest ih =>
    cases rest with
    | nil => simp [join]
    | cons next rest =>
      rw [join, List.append_assoc, List.singleton_append, words_append_cons hb, ih,
        ← List.flatMap_cons]

namespace TextFormat

variable {format : TextFormat} {text : Bytes} {p : Phrase}

/-- Every token that is read from the text is well-formed. -/
def ReadsWellFormed (format : TextFormat) (text : Bytes) : Prop :=
  ∀ p ∈ format.plain text, ∀ token ∈ p, Utf8.wellFormed token = true

theorem ascii_of_keeps {b : UInt8} (h : Segmentation.keeps .period b = true) : b < 0x80 := by
  rw [← Segmentation.isProse_eq_keeps] at h
  simp only [Segmentation.isProse, Bytes.isLetter, Bytes.isUpper, Bytes.isLower, Bytes.isBlank,
    Bool.or_eq_true, Bool.and_eq_true, decide_eq_true_eq, beq_iff_eq] at h
  grind

theorem readsWellFormed_of_ne (h : format ≠ ⟨.line, .word⟩) (text : Bytes) :
    format.ReadsWellFormed text := by
  intro p hp token htoken
  match format, h with
  | ⟨_, .character⟩, _ =>
    exact Utf8.wellFormed_of_isCharacter (((mem_plain hp).2 token htoken).character rfl)
  | ⟨.period, .word⟩, _ =>
    apply Utf8.wellFormed_of_ascii
    intro b hb
    exact ascii_of_keeps (keeps_of_mem_plain hp htoken b hb)

theorem mem_words_iff_plain {token : Bytes} :
    token ∈ Bytes.words text ↔ ∃ p ∈ plain ⟨.line, .word⟩ text, token ∈ p := by
  rw [← Bytes.join_splitOn Bytes.newline text, Bytes.words_join_of_blank rfl,
    Bytes.join_splitOn, List.mem_flatMap, plain_line]
  constructor
  · rintro ⟨line, hline, htoken⟩
    refine ⟨Bytes.words line, List.mem_filter.2 ⟨List.mem_map.2 ⟨line, hline, rfl⟩, ?_⟩, htoken⟩
    exact decide_eq_true (List.ne_nil_of_mem htoken)
  · rintro ⟨p, hp, htoken⟩
    obtain ⟨line, hline, rfl⟩ := List.mem_map.1 (List.mem_filter.1 hp).1
    exact ⟨line, hline, htoken⟩

theorem readsWellFormed_iff :
    format.ReadsWellFormed text ↔ (format = ⟨.line, .word⟩ → Utf8.wellFormed text = true) := by
  by_cases hformat : format = ⟨.line, .word⟩
  · subst hformat
    rw [Utf8.wellFormed_iff_words]
    simp only [mem_words_iff_plain, forall_true_left, ReadsWellFormed]
    constructor
    · rintro h token ⟨p, hp, htoken⟩
      exact h p hp token htoken
    · intro h p hp token htoken
      exact h token ⟨p, hp, htoken⟩
  · simp [hformat, readsWellFormed_of_ne hformat]

end TextFormat

end Substitutability
