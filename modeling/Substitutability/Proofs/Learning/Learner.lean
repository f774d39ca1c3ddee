import Substitutability.Learning.Learner
import Substitutability.Proofs.Action

/-!
# What a learner returns

A configuration without a reason to reject it makes a learner. The learner refuses a
corpus without sentences, and on every other corpus it returns the results of its four
stages, whatever it meets in its surroundings.
-/

set_option autoImplicit false

namespace Substitutability

/-! ## Valid configurations -/

namespace Configuration

variable {c : Configuration}

theorem rejection?_eq_none (h : c.rejection? = none) :
    c.lengthRejection? = none ∧ 0 ≤ c.contextWidth.toInt ∧ c.nameRejection? = none ∧
      c.outputRejection? = none := by
  rw [rejection?, Option.or_eq_none_iff, Option.or_eq_none_iff, Option.or_eq_none_iff] at h
  obtain ⟨⟨hlength, hwidth⟩, hname, houtput⟩ := h
  refine ⟨hlength, ?_, hname, houtput⟩
  by_cases hneg : c.contextWidth.toInt < 0
  · simp [hneg] at hwidth
  · omega

theorem policy_valid (h : c.lengthRejection? = none) : c.policy.fault? = none := by
  unfold lengthRejection? at h
  unfold LengthPolicy.fault? policy
  by_cases hmin : c.minLength.toInt ≤ 0
  · simp [hmin] at h
  · rw [if_neg hmin] at h ⊢
    cases hmax : c.maxLength with
    | none => rfl
    | some maximum =>
      rw [hmax] at h
      by_cases hpos : maximum.toInt ≤ 0
      · simp [hpos] at h
      · by_cases hcross : maximum.toInt < c.minLength.toInt
        · simp [hpos, hcross] at h
        · simp [hpos, hcross]

theorem exists_format (h : c.nameRejection? = none) :
    ∃ format, TextFormat.ofNames c.segmentation c.granularity = .ok format := by
  unfold nameRejection? at h
  cases hg : Granularity.ofName c.granularity with
  | error fault => simp [hg] at h
  | ok granularity =>
    have hsegmentation : ∃ s, Segmentation.ofName c.segmentation = .ok s := by
      unfold Segmentation.ofName
      by_cases hline : c.segmentation = utf8 "line"
      · exact ⟨.line, if_pos hline⟩
      · by_cases hperiod : c.segmentation = utf8 "period"
        · exact ⟨.period, by rw [if_neg hline, if_pos hperiod]⟩
        · simp [hg, hline, hperiod] at h
    obtain ⟨segmentation, hs⟩ := hsegmentation
    exact ⟨⟨segmentation, granularity⟩, by rw [TextFormat.ofNames, hs, hg]; rfl⟩

end Configuration

theorem Extractor.make_eq_ok {policy : LengthPolicy} {width : Int32} (hp : policy.fault? = none)
    (hw : 0 ≤ width.toInt) : Extractor.make policy width = .ok ⟨policy, width, hp, hw⟩ := by
  unfold Extractor.make
  split
  · rename_i fault hfault
    rw [hp] at hfault
    cases hfault
  · rw [dif_pos hw]

theorem Configuration.exists_learner {c : Configuration} (h : c.rejection? = none) :
    ∃ l, c.learner? = .ok l ∧ l.extractor.policy = c.policy ∧
      l.extractor.width = c.contextWidth ∧ l.least = c.minObservations.toNat := by
  obtain ⟨hlength, hwidth, hname, -⟩ := rejection?_eq_none h
  obtain ⟨format, hformat⟩ := exists_format hname
  have hmake := Extractor.make_eq_ok (policy_valid hlength) hwidth
  refine ⟨⟨⟨c.policy, c.contextWidth, policy_valid hlength, hwidth⟩, format,
    c.minObservations.toNat, c.verbose⟩, ?_, rfl, rfl, rfl⟩
  rw [learner?, h, hmake, hformat]
  rfl

theorem Configuration.rejection?_of_learner? {c : Configuration} {l : Learner}
    (h : c.learner? = .ok l) : c.rejection? = none := by
  cases hreason : c.rejection? with
  | none => rfl
  | some reason =>
    rw [learner?, hreason] at h
    cases h

theorem Configuration.learner?_eq_ok {c : Configuration} {l : Learner} (h : c.learner? = .ok l) :
    l.extractor.policy = c.policy ∧ l.extractor.width = c.contextWidth ∧
      l.least = c.minObservations.toNat := by
  obtain ⟨l', hl', hvalues⟩ := exists_learner (rejection?_of_learner? h)
  cases h.symm.trans hl'
  exact hvalues

/-! ## Runs -/

namespace Warning

def line (warning : Warning) : Bytes :=
  utf8 "Warning: " ++ warning.message ++ [Bytes.newline]

def lines (warnings : List Warning) : Bytes :=
  warnings.flatMap line

end Warning

namespace Learner

variable {l : Learner} {corpus : Corpus}

theorem tells_report (l : Learner) (p : Progress) : (l.report p).Tells (fun _ => True) [] := by
  apply (Job.tells_progress p).andThen
  by_cases hverbose : l.verbose = true
  · rw [if_pos hverbose]
    exact Job.tells_print _
  · rw [if_neg hverbose]
    exact Job.tells_pure trivial

theorem tells_announce (l : Learner) (stage : String) (number count : Nat) (unit : String) :
    (l.announce stage number count unit).Tells (fun _ => True) [] :=
  l.tells_report _

theorem tells_warnIf (condition : Bool) (warning : Warning) :
    (warnIf condition warning).Tells (fun _ => True)
      (Warning.lines (if condition then [warning] else [])) := by
  cases condition with
  | false => exact Job.tells_pure trivial
  | true =>
    have hline : Warning.lines [warning] = warning.line := List.flatMap_singleton _ _
    rw [if_pos rfl, hline]
    exact Job.tells_warn _

/-- A corpus with sentences is learned from; only the durations depend on the clock. The
warnings of the result are printed, and no others. -/
theorem tells_learn (l : Learner) (h : corpus.sentences ≠ []) :
    (l.learn corpus).Tells
      (fun r => ∃ durations, r = { l.learned corpus with durations := durations })
      (Warning.lines (l.learned corpus).warnings) := by
  have hlines : Warning.lines (l.learned corpus).warnings =
      Warning.lines (if (l.contexts corpus).isEmpty then [.noPhrases] else []) ++
        (Warning.lines
          (if (Graph.ofContexts (l.contexts corpus)).edgeCount == 0 then [.noEdges] else []) ++
            []) := by
    simp only [beq_iff_eq, List.append_nil]
    exact List.flatMap_append
  rw [hlines, learn, if_neg h]
  apply Job.tells_clock.bind
  intro start _
  apply (l.tells_announce _ _ _ _).andThen
  apply Job.tells_timed_bind
  intro extraction
  apply (tells_warnIf _ _).bind
  intro _ _
  apply (l.tells_announce _ _ _ _).andThen
  apply Job.tells_timed_bind
  intro building
  apply (tells_warnIf _ _).bind
  intro _ _
  apply (l.tells_announce _ _ _ _).andThen
  apply Job.tells_timed_bind
  intro resolution
  apply (l.tells_announce _ _ _ _).andThen
  apply Job.tells_timed_bind
  intro induction
  apply Job.tells_clock.bind
  intro stop _
  exact Job.tells_pure ⟨_, rfl⟩

theorem returns_learn (l : Learner) (h : corpus.sentences ≠ []) :
    (l.learn corpus).Returns fun r =>
      ∃ durations, r = { l.learned corpus with durations := durations } :=
  (l.tells_learn h).returns

theorem returns_learn_both {other : Corpus} {R : Learned → Learned → Prop}
    (h : corpus.sentences ≠ []) (hother : other.sentences ≠ [])
    (hR : ∀ durations durations', R { l.learned corpus with durations := durations }
      { l.learned other with durations := durations' }) :
    (l.learn corpus).Returns fun r => (l.learn other).Returns fun r' => R r r' := by
  apply (l.returns_learn h).imp
  intro r hr
  apply (l.returns_learn hother).imp
  intro r' hr'
  obtain ⟨durations, rfl⟩ := hr
  obtain ⟨durations', rfl⟩ := hr'
  exact hR durations durations'

theorem fails_learn (l : Learner) (h : corpus.sentences = []) :
    (l.learn corpus).Fails (.input (.corpusEmpty corpus.name)) := by
  rw [learn, if_pos h]
  exact (Job.fails_failInput _).bind

end Learner

end Substitutability
