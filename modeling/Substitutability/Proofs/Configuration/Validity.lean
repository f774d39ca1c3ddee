import Substitutability.Drawing.Dot
import Substitutability.Proofs.Extraction
import Substitutability.Proofs.Learning.Learner
import Substitutability.Report.Basic

/-!
# Valid configurations

Every part that is made of the values of a configuration has its own rules for them. A
configuration is valid exactly if no part refuses its values and its report format is one
of the names that are written in full; the rules for the lengths are those of the policy.
-/

set_option autoImplicit false

namespace Substitutability.Configuration

variable {c : Configuration}

/-- No part that is made of the values refuses them. -/
structure Usable (c : Configuration) : Prop where
  extractor : ∃ extractor, Extractor.make c.policy c.contextWidth = .ok extractor
  granularity : ∃ granularity, Granularity.ofName c.granularity = .ok granularity
  segmentation : ∃ segmentation, Segmentation.ofName c.segmentation = .ok segmentation
  inducer : ∀ extractor corpus p,
    ∃ grammar, Grammar.induceChecked extractor c.minObservations corpus p = .ok grammar
  reportFormat : ∀ path, ∃ format, Report.Format.resolve c.reportFormat path = .ok format
  renderFormat : ∃ format, Drawing.Format.ofName c.renderFormat = .ok format

/-! ## Lengths and width -/

theorem lengthRejection?_of_policy (h : c.policy.fault? = none) : c.lengthRejection? = none := by
  obtain ⟨hmin, hmax⟩ := LengthPolicy.bounds_of_valid h
  have hpos : ¬c.minLength.toInt ≤ 0 := Int.not_le.2 hmin
  rw [lengthRejection?, if_neg hpos]
  cases hmaximum : c.maxLength with
  | none => rfl
  | some maximum =>
    have horder : c.minLength.toInt ≤ maximum.toInt := hmax maximum hmaximum
    simp only
    rw [if_neg (by omega), if_neg (by omega)]

theorem lengthRejection?_eq_none_iff : c.lengthRejection? = none ↔ c.policy.fault? = none :=
  ⟨policy_valid, lengthRejection?_of_policy⟩

theorem rejection?_eq_none_iff :
    c.rejection? = none ↔ c.policy.fault? = none ∧ 0 ≤ c.contextWidth.toInt ∧
      c.nameRejection? = none ∧ c.outputRejection? = none := by
  constructor
  · intro h
    obtain ⟨hlength, hrest⟩ := rejection?_eq_none h
    exact ⟨policy_valid hlength, hrest⟩
  · rintro ⟨hpolicy, hwidth, hname, houtput⟩
    rw [rejection?, lengthRejection?_of_policy hpolicy, if_neg (Int.not_lt.2 hwidth), hname,
      houtput]
    rfl

theorem exists_extractor_iff :
    (∃ extractor, Extractor.make c.policy c.contextWidth = .ok extractor) ↔
      c.policy.fault? = none ∧ 0 ≤ c.contextWidth.toInt := by
  constructor
  · rintro ⟨extractor, h⟩
    unfold Extractor.make at h
    split at h
    · cases h
    · rename_i hpolicy
      by_cases hwidth : 0 ≤ c.contextWidth.toInt
      · exact ⟨hpolicy, hwidth⟩
      · rw [dif_neg hwidth] at h
        cases h
  · rintro ⟨hpolicy, hwidth⟩
    exact ⟨_, Extractor.make_eq_ok hpolicy hwidth⟩

/-! ## Names -/

theorem exists_segmentation_iff {name : Bytes} :
    (∃ segmentation, Segmentation.ofName name = .ok segmentation) ↔
      name = utf8 "period" ∨ name = utf8 "line" := by
  unfold Segmentation.ofName
  by_cases hline : name = utf8 "line"
  · simp [hline]
  · by_cases hperiod : name = utf8 "period"
    · rw [if_neg hline, if_pos hperiod]
      exact ⟨fun _ => .inl hperiod, fun _ => ⟨.period, rfl⟩⟩
    · simp [hline, hperiod]

theorem nameRejection?_eq_none_iff :
    c.nameRejection? = none ↔
      (∃ granularity, Granularity.ofName c.granularity = .ok granularity) ∧
      ∃ segmentation, Segmentation.ofName c.segmentation = .ok segmentation := by
  rw [exists_segmentation_iff, nameRejection?]
  cases hgranularity : Granularity.ofName c.granularity with
  | error fault => simp
  | ok granularity =>
    by_cases hname : c.segmentation = utf8 "period" ∨ c.segmentation = utf8 "line"
    · simp [hname, ← not_or]
    · simp [not_or.1 hname]

theorem exists_drawing_iff {name : Bytes} :
    (∃ format, Drawing.Format.ofName name = .ok format) ↔ name ∈ renderFormats := by
  have hmem : name ∈ renderFormats ↔ name = utf8 "dot" ∨ name = utf8 "html" := by
    simp [renderFormats]
  rw [hmem]
  unfold Drawing.Format.ofName
  by_cases hdot : name = utf8 "dot"
  · simp [hdot]
  · by_cases hhtml : name = utf8 "html"
    · rw [if_neg hdot, if_pos hhtml]
      exact ⟨fun _ => .inr hhtml, fun _ => ⟨.html, rfl⟩⟩
    · simp [hdot, hhtml]

/-- The names in full are formats, or leave the format to the path. -/
theorem exists_reportFormat {name : Bytes} (h : name ∈ reportFormats) (path : Bytes) :
    ∃ format, Report.Format.resolve name path = .ok format := by
  have hmem : name = utf8 "auto" ∨ name = utf8 "text" ∨ name = utf8 "markdown" ∨
      name = utf8 "json" := by
    simpa [reportFormats] using h
  rcases hmem with rfl | rfl | rfl | rfl
  · exact ⟨Report.Format.ofExtension path, rfl⟩
  · exact ⟨.text, rfl⟩
  · exact ⟨.markdown, rfl⟩
  · exact ⟨.json, rfl⟩

theorem outputRejection?_eq_none_iff :
    c.outputRejection? = none ↔ c.minObservations ≠ 0 ∧ c.reportFormat ∈ reportFormats ∧
      c.renderFormat ∈ renderFormats := by
  unfold outputRejection?
  by_cases hcount : c.minObservations = 0
  · simp [hcount]
  · by_cases hreport : c.reportFormat ∈ reportFormats
    · simp [hcount, hreport]
    · simp [hcount, hreport]

theorem exists_grammar (h : c.minObservations ≠ 0) (extractor : Extractor) (corpus : Corpus)
    (p : Partition) :
    ∃ grammar, Grammar.induceChecked extractor c.minObservations corpus p = .ok grammar :=
  ⟨_, if_neg h⟩

/-! ## Valid means usable -/

theorem usable_of_valid (h : c.rejection? = none) : c.Usable := by
  obtain ⟨hpolicy, hwidth, hname, houtput⟩ := rejection?_eq_none_iff.1 h
  obtain ⟨hgranularity, hsegmentation⟩ := nameRejection?_eq_none_iff.1 hname
  obtain ⟨hcount, hreport, hrender⟩ := outputRejection?_eq_none_iff.1 houtput
  exact
    { extractor := exists_extractor_iff.2 ⟨hpolicy, hwidth⟩
      granularity := hgranularity
      segmentation := hsegmentation
      inducer := exists_grammar hcount
      reportFormat := exists_reportFormat hreport
      renderFormat := exists_drawing_iff.2 hrender }

theorem Usable.minObservations_ne_zero (h : c.Usable) : c.minObservations ≠ 0 := by
  intro hzero
  obtain ⟨extractor, -⟩ := h.extractor
  obtain ⟨grammar, hgrammar⟩ := h.inducer extractor ⟨[], [], []⟩ Partition.empty
  rw [Grammar.induceChecked, if_pos hzero] at hgrammar
  cases hgrammar

theorem valid_of_usable (h : c.Usable) (hreport : c.reportFormat ∈ reportFormats) :
    c.rejection? = none := by
  obtain ⟨hpolicy, hwidth⟩ := exists_extractor_iff.1 h.extractor
  have hname := nameRejection?_eq_none_iff.2 ⟨h.granularity, h.segmentation⟩
  have houtput := outputRejection?_eq_none_iff.2
    ⟨h.minObservations_ne_zero, hreport, exists_drawing_iff.1 h.renderFormat⟩
  exact rejection?_eq_none_iff.2 ⟨hpolicy, hwidth, hname, houtput⟩

/-- The check refuses what some part would refuse, and beyond that only other spellings of
the report formats. Its rules for the lengths are the rules of the policy: it accepts a
configuration if the policy is valid and everything besides the lengths is. -/
theorem validity_is_usability (c : Configuration) :
    (c.rejection? = none ↔ c.Usable ∧ c.reportFormat ∈ reportFormats) ∧
    (c.lengthRejection? = none ↔ c.policy.fault? = none) ∧
    (c.rejection? = none ↔ c.policy.fault? = none ∧
      ({ c with minLength := 1, maxLength := none } : Configuration).rejection? = none) := by
  refine ⟨?_, lengthRejection?_eq_none_iff, ?_⟩
  · constructor
    · intro h
      obtain ⟨-, -, -, houtput⟩ := rejection?_eq_none_iff.1 h
      exact ⟨usable_of_valid h, (outputRejection?_eq_none_iff.1 houtput).2.1⟩
    · rintro ⟨husable, hreport⟩
      exact valid_of_usable husable hreport
  · have hdefault : (⟨1, none⟩ : LengthPolicy).fault? = none := rfl
    rw [rejection?_eq_none_iff, rejection?_eq_none_iff]
    exact and_congr_right fun _ => (and_iff_right hdefault).symm

end Substitutability.Configuration
