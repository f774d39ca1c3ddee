import Substitutability.Proofs.Corpus.Labels
import Substitutability.Proofs.Windows

/-!
# Markers

A marker in a context tells that the window reaches the edge of the sentence, as long as no
token is a marker. Prose has no angle brackets and a marker is no character, so only words
of lines can be markers. Where one is, and it is the outermost token that a window shows, the
context looks like one at the edge.
-/

set_option autoImplicit false

namespace Substitutability

/-! ## Edges -/

namespace Span

def Inside (span : Span) (n : Nat) : Prop :=
  span.start ≤ span.stop ∧ span.stop ≤ n

/-- The window to the left of the span goes up to the start of the sentence. -/
def ReachesStart (span : Span) (width : Nat) : Prop :=
  width = 0 ∨ span.start ≤ width

def ReachesEnd (span : Span) (width n : Nat) : Prop :=
  width = 0 ∨ n ≤ span.stop + width

instance (span : Span) (n : Nat) : Decidable (span.Inside n) :=
  inferInstanceAs (Decidable (_ ∧ _))

instance (span : Span) (width : Nat) : Decidable (span.ReachesStart width) :=
  inferInstanceAs (Decidable (_ ∨ _))

instance (span : Span) (width n : Nat) : Decidable (span.ReachesEnd width n) :=
  inferInstanceAs (Decidable (_ ∨ _))

end Span

/-- Equal contexts of two parts of sentences reach the same edges. -/
def Corpus.EdgesTold (corpus : Corpus) (width : Nat) : Prop :=
  ∀ s ∈ corpus.sentences, ∀ s' ∈ corpus.sentences, ∀ span span' : Span,
    span.Inside s.tokens.length → span'.Inside s'.tokens.length →
    contextAt width s.tokens span = contextAt width s'.tokens span' →
      (span.ReachesStart width ↔ span'.ReachesStart width) ∧
      (span.ReachesEnd width s.tokens.length ↔ span'.ReachesEnd width s'.tokens.length)

namespace Context

variable {marker : Bytes} {width : Nat} {tokens others : Phrase}

/-- A window that stops short of the edge looks like one that reaches it only if the last
token that it shows is the marker. -/
theorem getElem?_of_nearest_eq (hreach : width = 0 ∨ tokens.length ≤ width)
    (hshort : ¬(width = 0 ∨ others.length ≤ width))
    (h : nearest marker width tokens = nearest marker width others) :
    others[width - 1]? = some marker := by
  rw [nearest, nearest, if_pos hreach, if_neg hshort] at h
  have hlength : width - 1 = tokens.length := by
    have := congrArg List.length h
    rw [List.length_append, List.length_take, List.length_singleton] at this
    omega
  have hlast : (others.take width)[width - 1]? = some marker := by
    rw [← h, hlength, List.getElem?_concat_length]
  rwa [List.getElem?_take_of_lt (by omega)] at hlast

end Context

section Edges

variable {width : Nat} {tokens tokens' : Phrase} {span span' : Span}

theorem startMarker_of_contextAt_eq (hspan : span.Inside tokens.length)
    (hspan' : span'.Inside tokens'.length)
    (h : contextAt width tokens span = contextAt width tokens' span')
    (hreach : span.ReachesStart width) (hshort : ¬span'.ReachesStart width) :
    tokens'[span'.start - width]? = some startMarker := by
  have hstart : span.start ≤ tokens.length := hspan.1.trans hspan.2
  have hstart' : span'.start ≤ tokens'.length := hspan'.1.trans hspan'.2
  rw [contextAt_eq_window _ hstart, contextAt_eq_window _ hstart'] at h
  have hnearest := List.reverse_injective (Context.mk.inj h).1
  have hlength : (tokens.take span.start).length = span.start := List.length_take_of_le hstart
  have hlength' : (tokens'.take span'.start).length = span'.start :=
    List.length_take_of_le hstart'
  have hlast := Context.getElem?_of_nearest_eq (by rwa [List.length_reverse, hlength])
    (by rwa [List.length_reverse, hlength']) hnearest
  rw [Span.ReachesStart, not_or] at hshort
  have hindex : span'.start - 1 - (width - 1) = span'.start - width := by omega
  rwa [List.getElem?_reverse (by omega), hlength', hindex,
    List.getElem?_take_of_lt (by omega)] at hlast

theorem endMarker_of_contextAt_eq (hspan : span.Inside tokens.length)
    (hspan' : span'.Inside tokens'.length)
    (h : contextAt width tokens span = contextAt width tokens' span')
    (hreach : span.ReachesEnd width tokens.length)
    (hshort : ¬span'.ReachesEnd width tokens'.length) :
    tokens'[span'.stop + width - 1]? = some endMarker := by
  rw [contextAt_eq_window _ (hspan.1.trans hspan.2),
    contextAt_eq_window _ (hspan'.1.trans hspan'.2)] at h
  have hnearest := (Context.mk.inj h).2
  rw [Span.ReachesEnd] at hreach hshort
  have hlast := Context.getElem?_of_nearest_eq
    (by rwa [List.length_drop, Nat.sub_le_iff_le_add'])
    (by rwa [List.length_drop, Nat.sub_le_iff_le_add']) hnearest
  have hindex : span'.stop + (width - 1) = span'.stop + width - 1 := by omega
  rwa [List.getElem?_drop, hindex] at hlast

theorem reaches_of_contextAt_eq (hstart : startMarker ∉ tokens') (hend : endMarker ∉ tokens')
    (hspan : span.Inside tokens.length) (hspan' : span'.Inside tokens'.length)
    (h : contextAt width tokens span = contextAt width tokens' span') :
    (span.ReachesStart width → span'.ReachesStart width) ∧
    (span.ReachesEnd width tokens.length → span'.ReachesEnd width tokens'.length) := by
  constructor
  · intro hreach
    by_contra hshort
    have hmarker := startMarker_of_contextAt_eq hspan hspan' h hreach hshort
    exact hstart (List.mem_of_getElem? hmarker)
  · intro hreach
    by_contra hshort
    have hmarker := endMarker_of_contextAt_eq hspan hspan' h hreach hshort
    exact hend (List.mem_of_getElem? hmarker)

end Edges

theorem Corpus.edgesTold_of_unmarked {corpus : Corpus}
    (hmarkers : Extractor.Unmarked corpus.sentences) (width : Nat) : corpus.EdgesTold width := by
  intro s hs s' hs' span span' hspan hspan' h
  obtain ⟨hstart, hend⟩ := hmarkers s hs
  obtain ⟨hstart', hend'⟩ := hmarkers s' hs'
  have hthere := reaches_of_contextAt_eq hstart' hend' hspan hspan' h
  have hback := reaches_of_contextAt_eq hstart hend hspan' hspan h.symm
  exact ⟨⟨hthere.1, hback.1⟩, ⟨hthere.2, hback.2⟩⟩

/-! ## Markers as tokens -/

namespace TextFormat

variable {format : TextFormat} {name source text : Bytes} {p : Phrase}

theorem keeps_of_mem_plain (h : p ∈ plain ⟨.period, .word⟩ text) {token : Bytes}
    (htoken : token ∈ p) : ∀ b ∈ token, Segmentation.keeps .period b = true := by
  obtain ⟨hmem, -⟩ := List.mem_filter.1 h
  obtain ⟨piece, hpiece, rfl⟩ := List.mem_map.1 hmem
  rw [← Granularity.tokens_eq_plain] at htoken
  rw [← Bytes.splitOn_eq] at hpiece
  intro b hb
  have hbytes := (Bytes.mem_words htoken).2 b hb
  exact (List.mem_filter.1 (Bytes.mem_pieces hpiece b hbytes.1).1).2

theorem marker_not_mem {marker : Bytes} (hmarker : marker = startMarker ∨ marker = endMarker)
    (hformat : format ≠ ⟨.line, .word⟩) (h : p ∈ format.plain text) : marker ∉ p := by
  intro hmem
  match format, hformat with
  | ⟨_, .character⟩, _ =>
    have hcharacter := ((mem_plain h).2 marker hmem).character rfl
    obtain rfl | rfl := hmarker
    · exact absurd hcharacter (by decide)
    · exact absurd hcharacter (by decide)
  | ⟨.period, .word⟩, _ =>
    have hbracket : (60 : UInt8) ∈ marker := by
      obtain rfl | rfl := hmarker
      · decide
      · decide
    exact absurd (keeps_of_mem_plain h hmem 60 hbracket) (by decide)

theorem unmarked_of_ne (hformat : format ≠ ⟨.line, .word⟩) (source text : Bytes) :
    Extractor.Unmarked (format.sentences source text) := by
  intro s hs
  have hplain := tokens_mem_plain hs
  exact ⟨marker_not_mem (.inl rfl) hformat hplain, marker_not_mem (.inr rfl) hformat hplain⟩

/-- In prose and among characters, equal contexts reach the same edges. Among words of lines
they do so too, unless the outermost token that the shorter window shows is the marker. -/
theorem markers_tell_edges (format : TextFormat) (name source text : Bytes) (width : Nat) :
    (format ≠ ⟨.line, .word⟩ → (format.corpus name source text).EdgesTold width) ∧
    ∀ s ∈ (format.corpus name source text).sentences,
      ∀ s' ∈ (format.corpus name source text).sentences, ∀ span span' : Span,
        span.Inside s.tokens.length → span'.Inside s'.tokens.length →
        contextAt width s.tokens span = contextAt width s'.tokens span' →
          (span.ReachesStart width → ¬span'.ReachesStart width →
            s'.tokens[span'.start - width]? = some startMarker) ∧
          (span.ReachesEnd width s.tokens.length →
            ¬span'.ReachesEnd width s'.tokens.length →
            s'.tokens[span'.stop + width - 1]? = some endMarker) := by
  constructor
  · intro hformat
    exact Corpus.edgesTold_of_unmarked (unmarked_of_ne hformat source text) width
  · intro s _ s' _ span span' hspan hspan' h
    exact ⟨startMarker_of_contextAt_eq hspan hspan' h, endMarker_of_contextAt_eq hspan hspan' h⟩

def bracketedLine : Sentence :=
  ⟨["x", "<s>", "a", "y", "z"].map utf8, utf8 "brackets", 0⟩

def bracketlessLine : Sentence :=
  ⟨["b", "y", "w", "v"].map utf8, utf8 "brackets", 1⟩

def bracketedText : Bytes :=
  utf8 "x <s> a y z\nb y w v\n"

/-- As prose the text has no brackets. Its first line shows the word in the window of `a`. -/
theorem bracketedText_told_in_prose :
    (corpus ⟨.period, .word⟩ (utf8 "brackets") (utf8 "brackets") bracketedText).EdgesTold 1 ∧
    contextAt 1 bracketlessLine.tokens ⟨0, 1⟩ = contextAt 1 bracketedLine.tokens ⟨2, 3⟩ ∧
    (⟨0, 1⟩ : Span).ReachesStart 1 ∧ ¬(⟨2, 3⟩ : Span).ReachesStart 1 ∧
    bracketedLine.tokens[2 - 1]? = some startMarker := by
  obtain ⟨hprose, -⟩ := markers_tell_edges ⟨.period, .word⟩ (utf8 "brackets") (utf8 "brackets")
    bracketedText 1
  obtain ⟨-, hlines⟩ := markers_tell_edges ⟨.line, .word⟩ (utf8 "brackets") (utf8 "brackets")
    bracketedText 1
  have hcontexts : contextAt 1 bracketlessLine.tokens ⟨0, 1⟩ =
      contextAt 1 bracketedLine.tokens ⟨2, 3⟩ := by
    decide
  obtain ⟨hmarker, -⟩ := hlines bracketlessLine (by decide) bracketedLine (by decide) ⟨0, 1⟩
    ⟨2, 3⟩ (by decide) (by decide) hcontexts
  exact ⟨hprose (by decide), hcontexts, by decide, by decide, hmarker (by decide) (by decide)⟩

/-- As lines of words the text has `a` between `<s>` and `y` in the middle of its first line,
and `b` between the start and `y` in the second. -/
theorem bracketedText_not_told_in_lines :
    ¬∀ (format : TextFormat) (name source text : Bytes) (width : Nat),
      (format.corpus name source text).EdgesTold width := by
  intro h
  have htold := h ⟨.line, .word⟩ (utf8 "brackets") (utf8 "brackets") bracketedText 1
    bracketedLine (by decide) bracketlessLine (by decide) ⟨2, 3⟩ ⟨0, 1⟩ (by decide) (by decide)
    (by decide)
  exact absurd htold.1 (by decide)

end TextFormat

end Substitutability
