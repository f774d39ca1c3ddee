import Substitutability.Corpus.Basic
import Substitutability.Proofs.Text.Characters
import Substitutability.Proofs.Text.Words

/-!
# Tokens

A segment may be cut at every blank: no token goes over one, and none is made of blanks. So
blanks at its ends do not matter, and a phrase of tokens is read again from its label.
-/

set_option autoImplicit false

namespace Substitutability

namespace Granularity

variable {granularity : Granularity} {b : UInt8} {text token : Bytes}

/-! ## Where a segment may be cut -/

theorem isCharacter_of_blank (hb : Bytes.isBlank b = true) : Utf8.isCharacter [b] = true := by
  have hascii : b < 0x80 := by
    simp only [Bytes.isBlank] at hb
    grind
  exact Utf8.isCharacter_iff.2 (.single [] hascii)

theorem tokens_nil (granularity : Granularity) : granularity.tokens [] = [] := by
  cases granularity with
  | word => rfl
  | character => simp [tokens, Utf8.characters]

theorem tokens_append_cons (granularity : Granularity) (hb : Bytes.isBlank b = true)
    (x y : Bytes) :
    granularity.tokens (x ++ b :: y) = granularity.tokens x ++ granularity.tokens y := by
  cases granularity with
  | word => exact Bytes.words_append_cons hb x y
  | character =>
    have hcharacter := isCharacter_of_blank hb
    have hcut : Utf8.Cuts (b :: y) := ((Utf8.isCharacter_iff.1 hcharacter).append y).cuts
    have hcons : Utf8.characters (b :: y) = [b] :: Utf8.characters y :=
      Utf8.characters_cons hcharacter y
    have hdrop : ¬(!isBlankToken [b]) = true := by simp [isBlankToken, hb]
    simp only [tokens]
    rw [Utf8.characters_append hcut, hcons, List.filter_append, List.filter_cons, if_neg hdrop]

theorem isBlank_of_isEdge (hb : Bytes.isEdge b = true) : Bytes.isBlank b = true := by
  simp only [Bytes.isEdge, Bool.or_eq_true, beq_iff_eq] at hb
  obtain ((rfl | rfl) | rfl) | rfl := hb <;> rfl

theorem tokens_dropWhile (granularity : Granularity) (text : Bytes) :
    granularity.tokens (text.dropWhile Bytes.isEdge) = granularity.tokens text := by
  induction text with
  | nil => rfl
  | cons b rest ih =>
    rw [List.dropWhile_cons]
    split
    · rename_i hb
      have hcons := tokens_append_cons granularity (isBlank_of_isEdge hb) [] rest
      rw [List.nil_append, tokens_nil, List.nil_append] at hcons
      rw [ih, hcons]
    · rfl

theorem tokens_dropEnd (granularity : Granularity) (text : Bytes) :
    granularity.tokens (Bytes.dropEnd Bytes.isEdge text) = granularity.tokens text := by
  induction text using List.reverseRecOn with
  | nil => rfl
  | append_singleton rest b ih =>
    rw [Bytes.dropEnd, List.reverse_append, List.reverse_singleton, List.singleton_append,
      List.dropWhile_cons]
    split
    · rename_i hb
      rw [tokens_append_cons granularity (isBlank_of_isEdge hb), tokens_nil, List.append_nil]
      exact ih
    · rw [List.reverse_cons, List.reverse_reverse]

theorem tokens_trim (granularity : Granularity) (text : Bytes) :
    granularity.tokens (Bytes.trim text) = granularity.tokens text := by
  rw [Bytes.trim, tokens_dropEnd, tokens_dropWhile]

/-! ## What a token is -/

/-- A token is not empty and has no blank in it; where characters are read it is one. -/
structure IsToken (granularity : Granularity) (token : Bytes) : Prop where
  nonempty : token ≠ []
  unblank : ∀ b ∈ token, Bytes.isBlank b = false
  character : granularity = .character → Utf8.isCharacter token = true

theorem isToken_character (hcharacter : Utf8.isCharacter token = true)
    (hblank : isBlankToken token = false) : IsToken .character token := by
  refine ⟨?_, ?_, fun _ => hcharacter⟩
  · rintro rfl
    cases hcharacter
  · rcases Utf8.eq_singleton_or_not_ascii hcharacter with ⟨b, rfl⟩ | hlarge
    · exact List.forall_mem_singleton.2 hblank
    · intro b hb
      have := hlarge b hb
      simp only [Bytes.isBlank]
      grind

theorem isToken_of_mem_tokens (h : token ∈ granularity.tokens text) :
    granularity.IsToken token := by
  cases granularity with
  | word =>
    obtain ⟨hne, hbytes⟩ := Bytes.mem_words h
    exact ⟨hne, fun b hb => (hbytes b hb).2, fun hword => by cases hword⟩
  | character =>
    obtain ⟨hmem, hblank⟩ := List.mem_filter.1 h
    exact isToken_character (Utf8.isCharacter_of_mem_characters hmem) (by simpa using hblank)

theorem IsToken.isBlankToken_eq_false (h : granularity.IsToken token) :
    isBlankToken token = false := by
  match token, h with
  | [], _ => rfl
  | [b], h => exact h.unblank b (List.mem_singleton_self b)
  | _ :: _ :: _, _ => rfl

theorem tokens_label {phrase : Phrase} (h : ∀ token ∈ phrase, granularity.IsToken token) :
    granularity.tokens (phrase.label granularity.separator) = phrase := by
  cases granularity with
  | word =>
    apply Bytes.words_join rfl
    intro token htoken
    exact ⟨(h token htoken).nonempty, (h token htoken).unblank⟩
  | character =>
    rw [tokens, Phrase.label, separator, Bytes.join_nil,
      Utf8.characters_flatten fun token htoken => (h token htoken).character rfl]
    apply List.filter_eq_self.2
    intro token htoken
    simp [(h token htoken).isBlankToken_eq_false]

end Granularity

end Substitutability
