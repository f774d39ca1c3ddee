import Substitutability.Proofs.Corpus.Markers

/-!
# What a context says

Without a width a context is the rest of the sentence, so the sentence is there again when
the phrase is put between the two sides. With a width it says on each side what the nearest
tokens are, and at which distance the edge of the sentence is. If the edge is farther away
than the window is wide, it says no more of it. This is all, where no token is a marker.
-/

set_option autoImplicit false

namespace Substitutability

namespace Span

def before (span : Span) (count : Nat) (tokens : Phrase) : Phrase :=
  (tokens.take span.start).drop (span.start - count)

def after (span : Span) (count : Nat) (tokens : Phrase) : Phrase :=
  (tokens.drop span.stop).take count

end Span

namespace Context

variable {k : Nat} {l l' r r' : Phrase}

theorem before_eq_iff (hk : 1 ≤ k) (hl : startMarker ∉ l) (hl' : startMarker ∉ l') :
    before k l = before k l' ↔
      l.drop (l.length - k) = l'.drop (l'.length - k) ∧ AlikeWithin k l.length l'.length := by
  rw [before, before, List.reverse_inj, nearest_eq_iff hk (by simpa using hl) (by simpa using hl'),
    List.take_reverse, List.take_reverse, List.reverse_inj, List.length_reverse,
    List.length_reverse]

theorem after_eq_iff (hk : 1 ≤ k) (hr : endMarker ∉ r) (hr' : endMarker ∉ r') :
    after k r = after k r' ↔ r.take k = r'.take k ∧ AlikeWithin k r.length r'.length :=
  nearest_eq_iff hk hr hr'

end Context

section Windows

variable {k : Nat} {tokens tokens' : Phrase} {span span' : Span}

theorem Span.before_min (hstart : span.start ≤ tokens.length) :
    span.before (min k span.start) tokens =
      (tokens.take span.start).drop ((tokens.take span.start).length - k) := by
  rw [Span.before, List.length_take_of_le hstart]
  congr 1
  omega

theorem Span.after_min : span.after (min k (tokens.length - span.stop)) tokens =
    (tokens.drop span.stop).take k := by
  rw [Span.after, ← List.length_drop]
  exact List.take_eq_take_min.symm

/-- Two spans look alike through a window of width `k`: as many tokens as it shows, and as
there are, are the same on each side, and so are the distances to the edges as far as it
tells them. -/
structure LookAlike (k : Nat) (tokens tokens' : Phrase) (span span' : Span) : Prop where
  before : span.before (min k span.start) tokens = span'.before (min k span'.start) tokens'
  start : AlikeWithin k span.start span'.start
  after : span.after (min k (tokens.length - span.stop)) tokens =
    span'.after (min k (tokens'.length - span'.stop)) tokens'
  stop : AlikeWithin k (tokens.length - span.stop) (tokens'.length - span'.stop)

theorem contextAt_eq_iff (hk : 1 ≤ k) (hstart : span.start ≤ tokens.length)
    (hstart' : span'.start ≤ tokens'.length)
    (hmarkers : startMarker ∉ tokens ∧ endMarker ∉ tokens)
    (hmarkers' : startMarker ∉ tokens' ∧ endMarker ∉ tokens') :
    contextAt k tokens span = contextAt k tokens' span' ↔
      LookAlike k tokens tokens' span span' := by
  have hleft : startMarker ∉ tokens.take span.start := mt List.mem_of_mem_take hmarkers.1
  have hleft' : startMarker ∉ tokens'.take span'.start := mt List.mem_of_mem_take hmarkers'.1
  have hright : endMarker ∉ tokens.drop span.stop := mt List.mem_of_mem_drop hmarkers.2
  have hright' : endMarker ∉ tokens'.drop span'.stop := mt List.mem_of_mem_drop hmarkers'.2
  have hbefore := Context.before_eq_iff hk hleft hleft'
  have hafter := Context.after_eq_iff hk hright hright'
  rw [← Span.before_min hstart, ← Span.before_min hstart', List.length_take_of_le hstart,
    List.length_take_of_le hstart'] at hbefore
  rw [← Span.after_min, ← Span.after_min, List.length_drop, List.length_drop] at hafter
  rw [contextAt_eq_window k hstart, contextAt_eq_window k hstart', Context.window, Context.window,
    Context.mk.injEq, hbefore, hafter]
  constructor
  · exact fun h => ⟨h.1.1, h.1.2, h.2.1, h.2.2⟩
  · exact fun h => ⟨⟨h.before, h.start⟩, h.after, h.stop⟩

end Windows

namespace Extractor

/-- Without a width the two sides of a context are all that stands before and after the span,
with a marker at each end. With a width, two parts of sentences without markers have the
same context exactly if they look alike through the window. -/
theorem contexts_tell_surroundings (extractor : Extractor) :
    (extractor.width = 0 → ∀ (tokens : Phrase) (span : Span), span.Inside tokens.length →
      (extractor.contextAt tokens span).left = startMarker :: tokens.take span.start ∧
      (extractor.contextAt tokens span).right = tokens.drop span.stop ++ [endMarker] ∧
      (extractor.contextAt tokens span).left.tail ++ span.phrase tokens ++
        (extractor.contextAt tokens span).right.dropLast = tokens) ∧
    (1 ≤ extractor.width.toInt → ∀ s s' : Sentence, Unmarked [s, s'] → ∀ span span' : Span,
      span.Inside s.tokens.length → span'.Inside s'.tokens.length →
      (extractor.contextAt s.tokens span = extractor.contextAt s'.tokens span' ↔
        LookAlike extractor.window s.tokens s'.tokens span span')) := by
  constructor
  · intro hwidth tokens span hspan
    have hcontext : extractor.contextAt tokens span =
        Context.around (tokens.take span.start) (tokens.drop span.stop) := by
      show Substitutability.contextAt extractor.window tokens span = _
      rw [contextAt_eq_window _ (hspan.1.trans hspan.2), window_eq_zero hwidth,
        Context.window_eq_around (.inl rfl) (.inl rfl)]
    rw [hcontext]
    refine ⟨rfl, rfl, ?_⟩
    simp [Context.around, Span.take_phrase_drop hspan.1]
  · intro hwidth s s' hmarkers span span' hspan hspan'
    have hk : 1 ≤ extractor.window := by
      rw [window]
      omega
    exact contextAt_eq_iff hk (hspan.1.trans hspan.2) (hspan'.1.trans hspan'.2)
      (hmarkers s (by simp)) (hmarkers s' (by simp))

def quickCat : Sentence :=
  ⟨["the", "cat", "quickly", "walked"].map utf8, utf8 "cats", 0⟩

def slowCat : Sentence :=
  ⟨["a", "fat", "cat", "slowly", "walked"].map utf8, utf8 "cats", 1⟩

/-- Each adverb has the noun before it, with the start of the sentence farther away, and the
verb and the end after it. -/
theorem adverbs_look_alike :
    Unmarked [quickCat, slowCat] ∧
    (within 1 (by decide)).contextAt quickCat.tokens ⟨2, 3⟩ =
      (within 1 (by decide)).contextAt slowCat.tokens ⟨3, 4⟩ ∧
    (whole.contextAt quickCat.tokens ⟨2, 3⟩).left = ["<s>", "the", "cat"].map utf8 := by
  have hmarkers : Unmarked [quickCat, slowCat] := by
    unfold Unmarked
    decide
  have halike : LookAlike 1 quickCat.tokens slowCat.tokens ⟨2, 3⟩ ⟨3, 4⟩ :=
    ⟨by decide, .inl (by decide), by decide, .inr (by decide)⟩
  obtain ⟨-, hwindow⟩ := contexts_tell_surroundings (within 1 (by decide))
  obtain ⟨hwhole, -⟩ := contexts_tell_surroundings whole
  obtain ⟨hleft, -⟩ := hwhole rfl quickCat.tokens ⟨2, 3⟩ (by decide)
  have hcontexts := hwindow (by decide) quickCat slowCat hmarkers ⟨2, 3⟩ ⟨3, 4⟩ (by decide)
    (by decide)
  exact ⟨hmarkers, hcontexts.2 halike, hleft⟩

end Extractor

end Substitutability
