import Substitutability.Extraction
import Substitutability.Proofs.ContextSet

/-!
# What an extraction attests

An accepted span is a proper part of its sentence whose length the policy allows.
The extraction attests a phrase in a context exactly when some accepted span of
some sentence has that phrase and that context. The context is what a window shows of
the rest of the sentence; with whole contexts it is all of it, so the phrase, put between
what the context has on its sides, is a sentence.
-/

set_option autoImplicit false

namespace Substitutability

namespace LengthPolicy

def Allows (policy : LengthPolicy) (length : Nat) : Prop :=
  policy.minimum.toInt ≤ length ∧ ∀ maximum ∈ policy.maximum, (length : Int) ≤ maximum.toInt

instance (policy : LengthPolicy) (length : Nat) : Decidable (policy.Allows length) :=
  decidable_of_iff (policy.minimum.toInt ≤ length ∧
    policy.maximum.all (fun maximum => decide ((length : Int) ≤ maximum.toInt)) = true)
    (by simp [Allows, Option.all_eq_true])

theorem bounds_of_valid {policy : LengthPolicy} (h : policy.fault? = none) :
    0 < policy.minimum.toInt ∧
      ∀ maximum ∈ policy.maximum, policy.minimum.toInt ≤ maximum.toInt := by
  rw [fault?] at h
  split at h
  · cases h
  · rename_i hmin
    refine ⟨by omega, ?_⟩
    intro maximum hmaximum
    rw [hmaximum] at h
    simp only at h
    split at h
    · cases h
    · by_cases hlt : maximum.toInt < policy.minimum.toInt
      · rw [if_pos hlt] at h
        cases h
      · omega

theorem bound_of_pos {n : Int32} (h : 0 < n.toInt) : (bound n : Int) = n.toInt := by
  have hlt := n.toInt_lt
  unfold bound unsignedWord
  omega

theorem accepts_iff {policy : LengthPolicy} (h : policy.fault? = none) (length n : Nat) :
    policy.accepts length n = true ↔ length < n ∧ policy.Allows length := by
  obtain ⟨hmin, hmax⟩ := bounds_of_valid h
  have hbound := bound_of_pos hmin
  simp only [accepts, Bool.and_eq_true, decide_eq_true_eq, Allows]
  cases hmaximum : policy.maximum with
  | none =>
    simp
    omega
  | some maximum =>
    have horder := hmax maximum hmaximum
    have hupper := bound_of_pos (n := maximum) (by omega)
    simp
    omega

theorem Allows.pos {policy : LengthPolicy} (h : policy.fault? = none) {length : Nat}
    (hlength : policy.Allows length) : 0 < length := by
  have := (bounds_of_valid h).1
  have := hlength.1
  omega

theorem Allows.of_le {policy : LengthPolicy} {length n : Nat} (h : policy.Allows n)
    (hle : length ≤ n) (hmin : policy.minimum.toInt ≤ length) : policy.Allows length := by
  refine ⟨hmin, fun maximum hmaximum => ?_⟩
  have := h.2 maximum hmaximum
  omega

end LengthPolicy

/-! ## Spans -/

theorem Span.take_phrase_drop {span : Span} (h : span.start ≤ span.stop) (tokens : Phrase) :
    tokens.take span.start ++ span.phrase tokens ++ tokens.drop span.stop = tokens := by
  have htake : tokens.take span.start = (tokens.take span.stop).take span.start := by
    rw [List.take_take, Nat.min_eq_left h]
  rw [phrase, htake, List.take_append_drop, List.take_append_drop]

theorem Span.length_phrase {span : Span} {tokens : Phrase} (h : span.stop ≤ tokens.length) :
    (span.phrase tokens).length = span.stop - span.start := by
  simp [phrase, Nat.min_eq_left h]

def Span.middle (l p : Phrase) : Span :=
  ⟨l.length, l.length + p.length⟩

theorem Span.phrase_middle (l p r : Phrase) : (middle l p).phrase (l ++ p ++ r) = p := by
  have htake : (l ++ p ++ r).take (l.length + p.length) = l ++ p := by
    rw [← List.length_append, List.take_left]
  rw [phrase, middle, htake, List.drop_left]

theorem Span.take_middle (l p r : Phrase) : (l ++ p ++ r).take (middle l p).start = l := by
  rw [List.append_assoc]
  exact List.take_left

theorem Span.drop_middle (l p r : Phrase) : (l ++ p ++ r).drop (middle l p).stop = r := by
  rw [show (middle l p).stop = (l ++ p).length from List.length_append.symm, List.drop_left]

namespace Extractor

variable {extractor : Extractor}

theorem mem_spans {n : Nat} {span : Span} :
    span ∈ extractor.spans n ↔ span.start ≤ span.stop ∧ span.stop ≤ n ∧
      span.stop - span.start < n ∧ extractor.policy.Allows (span.stop - span.start) := by
  simp only [spans, lengths, List.mem_flatMap, List.mem_filter, List.mem_map, List.mem_range,
    List.mem_range'_1, LengthPolicy.accepts_iff extractor.policy_valid]
  constructor
  · rintro ⟨length, ⟨-, hlt, hallows⟩, start, hstart, rfl⟩
    show start ≤ start + length ∧ start + length ≤ n ∧ start + length - start < n ∧ _
    rw [Nat.add_sub_cancel_left]
    exact ⟨by omega, by omega, hlt, hallows⟩
  · rintro ⟨hle, hstop, hlt, hallows⟩
    have hpos := hallows.pos extractor.policy_valid
    refine ⟨span.stop - span.start, ⟨by omega, hlt, hallows⟩, span.start, by omega, ?_⟩
    rw [Nat.add_sub_cancel' hle]

theorem middle_mem_spans {l p r : Phrase} (hallows : extractor.policy.Allows p.length)
    (hne : l ≠ [] ∨ r ≠ []) : Span.middle l p ∈ extractor.spans (l ++ p ++ r).length := by
  have houter : 0 < l.length ∨ 0 < r.length :=
    hne.imp List.length_pos_iff.2 List.length_pos_iff.2
  apply mem_spans.2
  show l.length ≤ l.length + p.length ∧ l.length + p.length ≤ _ ∧
    l.length + p.length - l.length < _ ∧
      extractor.policy.Allows (l.length + p.length - l.length)
  rw [List.length_append, List.length_append, Nat.add_sub_cancel_left]
  exact ⟨by omega, by omega, by omega, hallows⟩

/-! ## Attested contexts -/

theorem attests_foldl_record {observations : List Observation} {s : ContextSet} {p : Phrase}
    {c : Context} :
    (observations.foldl record s).Attests p c ↔
      s.Attests p c ∨ ∃ o ∈ observations, o.phrase = p ∧ o.context = c := by
  induction observations generalizing s with
  | nil => simp
  | cons o rest ih =>
    rw [List.foldl_cons, ih, record, ContextSet.attests_add]
    constructor
    · rintro ((⟨rfl, rfl⟩ | h) | ⟨o', ho', h⟩)
      · exact .inr ⟨o, List.mem_cons_self, rfl, rfl⟩
      · exact .inl h
      · exact .inr ⟨o', List.mem_cons_of_mem _ ho', h⟩
    · rintro (h | ⟨o', ho', hp, hc⟩)
      · exact .inl (.inr h)
      · rcases List.mem_cons.1 ho' with rfl | ho'
        · exact .inl (.inl ⟨hp.symm, hc.symm⟩)
        · exact .inr ⟨o', ho', hp, hc⟩

theorem attests_extract {sentences : List Sentence} {p : Phrase} {c : Context} :
    (extractor.extract sentences).Attests p c ↔
      ∃ sentence ∈ sentences, ∃ span ∈ extractor.spans sentence.tokens.length,
        span.phrase sentence.tokens = p ∧ extractor.contextAt sentence.tokens span = c := by
  rw [extract, attests_foldl_record, or_iff_right (ContextSet.attests_empty p c)]
  simp only [observations, observe, List.mem_flatMap, List.mem_map]
  constructor
  · rintro ⟨-, ⟨⟨sentence, i⟩, hmem, span, hspan, rfl⟩, hp, hc⟩
    exact ⟨sentence, List.mem_of_getElem? (List.mem_zipIdx_iff_getElem?.1 hmem), span, hspan,
      hp, hc⟩
  · rintro ⟨sentence, hsentence, span, hspan, hp, hc⟩
    obtain ⟨i, hi⟩ := List.mem_iff_getElem?.1 hsentence
    exact ⟨_, ⟨(sentence, i), List.mem_zipIdx_iff_getElem?.2 hi, span, hspan, rfl⟩, hp, hc⟩

theorem attests_mono {sentences more : List Sentence}
    (h : ∀ tokens ∈ sentences.map Sentence.tokens, tokens ∈ more.map Sentence.tokens)
    {p : Phrase} {c : Context} (hattests : (extractor.extract sentences).Attests p c) :
    (extractor.extract more).Attests p c := by
  obtain ⟨sentence, hsentence, span, hspan, hp, hc⟩ := attests_extract.1 hattests
  obtain ⟨other, hother, htokens⟩ := List.mem_map.1 (h _ (List.mem_map_of_mem hsentence))
  rw [← htokens] at hspan hp hc
  exact attests_extract.2 ⟨other, hother, span, hspan, hp, hc⟩

theorem attests_congr {sentences others : List Sentence}
    (h : ∀ tokens, tokens ∈ sentences.map Sentence.tokens ↔ tokens ∈ others.map Sentence.tokens)
    (p : Phrase) (c : Context) :
    (extractor.extract sentences).Attests p c ↔ (extractor.extract others).Attests p c :=
  ⟨attests_mono fun tokens => (h tokens).1, attests_mono fun tokens => (h tokens).2⟩

end Extractor

/-! ## Windows -/

namespace Context

/-- What a window shows of the tokens on one side, the nearest one first. Without a width,
or where it reaches the edge, it shows all of them and the marker. -/
def nearest (marker : Bytes) (width : Nat) (tokens : Phrase) : Phrase :=
  if width = 0 ∨ tokens.length ≤ width then tokens ++ [marker] else tokens.take width

def before (width : Nat) (l : Phrase) : Phrase :=
  (nearest startMarker width l.reverse).reverse

def after (width : Nat) (r : Phrase) : Phrase :=
  nearest endMarker width r

theorem before_eq (width : Nat) (l : Phrase) :
    before width l =
      if width = 0 ∨ l.length ≤ width then startMarker :: l else l.drop (l.length - width) := by
  rw [before, nearest, List.length_reverse]
  split
  · simp
  · rw [List.reverse_take, List.reverse_reverse, List.length_reverse]

def window (width : Nat) (l r : Phrase) : Context :=
  ⟨before width l, after width r⟩

def around (l r : Phrase) : Context :=
  ⟨startMarker :: l, r ++ [endMarker]⟩

theorem around_inj {l r l' r' : Phrase} : around l r = around l' r' ↔ l = l' ∧ r = r' := by
  simp [around]

theorem window_eq_around {width : Nat} {l r : Phrase}
    (hl : width = 0 ∨ l.length ≤ width) (hr : width = 0 ∨ r.length ≤ width) :
    window width l r = around l r := by
  simp [window, before, after, around, nearest, hl, hr]

end Context

theorem contextAt_eq_window (width : Nat) {tokens : Phrase} {span : Span}
    (hstart : span.start ≤ tokens.length) :
    contextAt width tokens span =
      Context.window width (tokens.take span.start) (tokens.drop span.stop) := by
  have hlength : (tokens.take span.start).length = span.start := by simp [hstart]
  by_cases hwidth : width = 0
  · simp [contextAt, Context.window, Context.before, Context.after, Context.nearest, hwidth]
  · have hleft : (contextAt width tokens span).left =
        Context.before width (tokens.take span.start) := by
      simp only [contextAt, Context.before_eq, hwidth, false_or, if_false, hlength]
      by_cases hreach : span.start ≤ width
      · simp [hreach]
      · have hfirst : span.start - width ≠ 0 := by omega
        simp [hreach, hfirst]
    have hright : (contextAt width tokens span).right =
        Context.after width (tokens.drop span.stop) := by
      simp only [contextAt, Context.after, Context.nearest, hwidth, false_or, if_false,
        List.length_drop]
      by_cases hreach : tokens.length - span.stop ≤ width
      · have hlast : min tokens.length (span.stop + width) = tokens.length := by omega
        simp [hreach, hlast]
      · have hlast : min tokens.length (span.stop + width) = span.stop + width := by omega
        have hshort : span.stop + width ≠ tokens.length := by omega
        simp [hreach, hlast, hshort, List.drop_take]
    rw [Context.window, ← hleft, ← hright]

namespace Extractor

variable {extractor : Extractor} {sentences : List Sentence} {p : Phrase} {c : Context}

/-- The largest number of tokens that a context has on each side; 0 for no bound. -/
def window (extractor : Extractor) : Nat :=
  extractor.width.toInt.toNat

theorem window_eq_zero (h : extractor.width = 0) : extractor.window = 0 := by
  rw [window, h]
  rfl

/-- A phrase is attested by the sentences that it is a part of, in the windows that these
have around it. -/
theorem attests_iff_part :
    (extractor.extract sentences).Attests p c ↔
      extractor.policy.Allows p.length ∧ ∃ l r, (l ≠ [] ∨ r ≠ []) ∧
        l ++ p ++ r ∈ sentences.map Sentence.tokens ∧
          c = Context.window extractor.window l r := by
  rw [attests_extract]
  constructor
  · rintro ⟨sentence, hsentence, span, hspan, rfl, rfl⟩
    obtain ⟨hle, hstop, hlt, hallows⟩ := mem_spans.1 hspan
    rw [Span.length_phrase hstop]
    refine ⟨hallows, sentence.tokens.take span.start, sentence.tokens.drop span.stop, ?_, ?_, ?_⟩
    · rw [Ne, Ne, List.take_eq_nil_iff, List.drop_eq_nil_iff, ← List.length_eq_zero_iff]
      omega
    · rw [Span.take_phrase_drop hle]
      exact List.mem_map.2 ⟨sentence, hsentence, rfl⟩
    · exact contextAt_eq_window _ (Nat.le_trans hle hstop)
  · rintro ⟨hallows, l, r, hne, hmem, rfl⟩
    obtain ⟨sentence, hsentence, htokens⟩ := List.mem_map.1 hmem
    have hstart : (Span.middle l p).start ≤ (l ++ p ++ r).length := by
      simp [Span.middle]
    refine ⟨sentence, hsentence, Span.middle l p, ?_, ?_, ?_⟩
    · rw [htokens]
      exact middle_mem_spans hallows hne
    · rw [htokens, Span.phrase_middle]
    · rw [htokens, contextAt, contextAt_eq_window _ hstart, Span.take_middle, Span.drop_middle]
      rfl

theorem attests_whole (h : extractor.width = 0) :
    (extractor.extract sentences).Attests p c ↔
      extractor.policy.Allows p.length ∧ ∃ l r, (l ≠ [] ∨ r ≠ []) ∧
        l ++ p ++ r ∈ sentences.map Sentence.tokens ∧ c = Context.around l r := by
  simp only [attests_iff_part, window_eq_zero h, Context.window_eq_around (.inl rfl) (.inl rfl)]

end Extractor

end Substitutability
