import Substitutability.Proofs.Commands.Publication

/-!
# Runs of the program that learn

What words that start with `learn` leave behind. A report that is saved is found in its file
after the run unless a drawing was written over it. A report that is printed stands alone
unless a drawing was made. A run that fails and makes no drawing leaves all files as they were.
-/

set_option autoImplicit false

namespace Substitutability.Commands.Learn

variable {name version : Bytes} {words : List Bytes} {args : Arguments} {w w' : World}
  {code : Int32}

theorem find?_program (name version : Bytes) :
    (program name version).commands.find? (utf8 "learn") = some command := rfl

theorem ends_of_reaches_run
    (h : ((program name version).run (utf8 "learn" :: words)).Reaches w code w') :
    (program name version).Ends command words w code w' :=
  Program.ends_of_reaches (find?_program name version) (by decide) (by decide) h

theorem of_reaches_run_zero
    (h : ((program name version).run (utf8 "learn" :: words)).Reaches w 0 w') :
    (words.any Program.asksForHelp = true ∧ w' = { w with out := w.out ++ command.usage name }) ∨
    ∃ args, Arguments.parse options words = .ok args ∧ ∃ (e : Edition args w) (u : World),
      w.Kept e.configuration.verbose u ∧
      (publish args e.configuration e.path e.report e.learned).Reaches u (.ok ()) w' := by
  cases ends_of_reaches_run h with
  | informed hhelp => exact .inl ⟨hhelp, rfl⟩
  | returned hhelp hparse hact =>
    rcases of_reaches_act hact with ⟨hne, -⟩ | ⟨e, u, published, hkept, hpublish, hresult⟩
    · exact absurd rfl hne
    · cases published with
      | error failure => cases hresult
      | ok => exact .inr ⟨_, hparse, e, u, hkept, hpublish⟩

theorem of_parse (P : Arguments → Prop) [DecidablePred P]
    (hparse : Arguments.parse options words = .ok args)
    (h : (Arguments.parse options words).toOption.all P = true) : P args := by
  rw [hparse] at h
  exact of_decide_eq_true h

def learning (words : List String) : Action Int32 :=
  (program (utf8 "slg") (utf8 "1.0.0")).run (utf8 "learn" :: words.map utf8)

def shortText : World where
  files := ⟨SortedMap.ofList [([utf8 "t.txt"], utf8 "The dog. The cat.")], SortedSet.empty⟩
  environment := []
  clock := ⟨⟨2024, 1, 31, 8, 5, 0⟩, ⟨2024, 1, 31, 9, 5, 0⟩, 0⟩
  reports := []
  out := []
  err := []

/-! ## Reports in files -/

/-- A report that was saved is found in its file, apart from the drawing, unless the drawing went
to the same file. Then the drawing is found there and no report. That happens exactly if the
report has the extension of the drawing. -/
theorem saved_report_kept_or_drawn_over
    (h : ((program name version).run (utf8 "learn" :: words)).Reaches w 0 w') :
    (words.any Program.asksForHelp = true ∧ w'.files = w.files) ∨
    ∃ args, Arguments.parse options words = .ok args ∧ (args.flag print = false →
      ∃ e : Edition args w,
        (¬e.DrawsOver → e.Survives w') ∧
        (e.DrawsOver → w'.files.read e.path ≠ .text e.report) ∧
        (∀ format, e.DrawsAs format → ∃ drawing, e.drawing format = .ok drawing ∧
          w'.files.read (e.drawingPath format) = .text drawing) ∧
        (0 ∉ e.path → (e.DrawsOver ↔
          ∃ format, e.DrawsAs format ∧ Path.extension e.path = format.extension))) := by
  rcases of_reaches_run_zero h with ⟨hhelp, rfl⟩ | ⟨args, hparse, e, u, -, hpublish⟩
  · exact .inl ⟨hhelp, rfl⟩
  · refine .inr ⟨args, hparse, fun hprint => ⟨e, ?_⟩⟩
    obtain ⟨hkept, hlost, hdrawn⟩ := e.of_reaches_publish_saved hprint hpublish
    exact ⟨hkept, hlost, hdrawn, e.drawsOver_iff_extension⟩

theorem report_survives_its_drawing :
    ∃ w', (learning ["-i", "t.txt", "-o", "r.txt", "-v"]).Reaches shortText 0 w' ∧
      ∃ args, Arguments.parse options (["-i", "t.txt", "-o", "r.txt", "-v"].map utf8) = .ok args ∧
        args.flag print = false ∧ ∃ e : Edition args shortText,
          e.path = utf8 "r.txt" ∧ e.DrawsAs .dot ∧ e.drawingPath .dot = utf8 "r.dot" ∧
            e.Survives w' := by
  have hcode : ((learning ["-i", "t.txt", "-o", "r.txt", "-v"]).run shortText).1 = 0 := by
    decide +kernel
  have hreaches := Action.reaches_of_run hcode
  refine ⟨_, hreaches, ?_⟩
  rcases saved_report_kept_or_drawn_over hreaches with ⟨hhelp, -⟩ | ⟨args, hparse, hsaved⟩
  · exact absurd hhelp (by decide)
  · obtain ⟨hprint, hpath, hconfig, hrender⟩ := of_parse (fun args =>
        args.flag print = false ∧ args.value? output.name = some (utf8 "r.txt") ∧
        args.value? config.name = none ∧ AsksFor args .dot) hparse (by decide +kernel)
    obtain ⟨e, hkept, -, -, hover⟩ := hsaved hprint
    have hpath : e.path = utf8 "r.txt" := e.path_eq hpath
    refine ⟨args, hparse, hprint, e, hpath, (e.drawsAs_iff hconfig).2 hrender, ?_, hkept ?_⟩
    · rw [Edition.drawingPath, hpath]
      decide
    · rw [hover (by rw [hpath]; decide), hpath]
      rintro ⟨format, -, hextension⟩
      revert hextension
      cases format <;> decide

/-- Where the report has the extension of the drawing, its file holds no report. -/
theorem drawing_replaces_report :
    ∃ w', (learning ["-i", "t.txt", "-o", "r.dot", "-v"]).Reaches shortText 0 w' ∧
      ∃ args, Arguments.parse options (["-i", "t.txt", "-o", "r.dot", "-v"].map utf8) = .ok args ∧
        args.flag print = false ∧ Nonempty (Edition args shortText) ∧
        ∀ e : Edition args shortText,
          e.path = utf8 "r.dot" ∧ w'.files.read e.path ≠ .text e.report := by
  have hcode : ((learning ["-i", "t.txt", "-o", "r.dot", "-v"]).run shortText).1 = 0 := by
    decide +kernel
  have hreaches := Action.reaches_of_run hcode
  refine ⟨_, hreaches, ?_⟩
  rcases of_reaches_run_zero hreaches with ⟨hhelp, -⟩ | ⟨args, hparse, e, u, -, hpublish⟩
  · exact absurd hhelp (by decide)
  · obtain ⟨hprint, hpath, hconfig, hrender⟩ := of_parse (fun args =>
        args.flag print = false ∧ args.value? output.name = some (utf8 "r.dot") ∧
        args.value? config.name = none ∧ AsksFor args .dot) hparse (by decide +kernel)
    obtain ⟨-, -, hdrawn⟩ := e.of_reaches_publish_saved hprint hpublish
    obtain ⟨drawing, hdrawing, hread⟩ := hdrawn .dot ((e.drawsAs_iff hconfig).2 hrender)
    have hplace : e.drawingPath .dot = utf8 "r.dot" := by
      rw [Edition.drawingPath, e.path_eq hpath]
      decide
    rw [hplace] at hread
    refine ⟨args, hparse, hprint, ⟨e⟩, fun e' => ⟨e'.path_eq hpath, ?_⟩⟩
    rw [e'.path_eq hpath, hread]
    exact fun heq => e'.report_ne_drawing hdrawing (Reading.text.inj heq).symm

/-! ## Reports that are printed -/

/-- A report that was printed is all that was printed, unless a drawing was made. Then the line
that tells of the drawing comes behind it. A report in JSON is one document. -/
theorem printed_report_alone_or_drawing_told
    (h : ((program name version).run (utf8 "learn" :: words)).Reaches w 0 w') :
    (words.any Program.asksForHelp = true ∧ w'.out = w.out ++ command.usage name) ∨
    ∃ args, Arguments.parse options words = .ok args ∧ (args.flag print = true →
      ∃ e : Edition args w,
        (w'.out = w.out ++ e.report ↔ e.configuration.shouldRender = false) ∧
        (∀ format, e.DrawsAs format → w'.out = w.out ++ e.report ++ e.drawingLine format) ∧
        (args.value? Options.format.name = some (utf8 "json") →
          (Report.document (settings e.corpus e.time) e.learned).dump .indented =
            .ok e.report)) := by
  rcases of_reaches_run_zero h with ⟨hhelp, rfl⟩ | ⟨args, hparse, e, u, hkept, hpublish⟩
  · exact .inl ⟨hhelp, rfl⟩
  · refine .inr ⟨args, hparse, fun hprint => ⟨e, ?_⟩⟩
    obtain ⟨halone, htold⟩ := e.of_reaches_publish_printed hprint hkept hpublish
    refine ⟨halone, htold, fun hformat => ?_⟩
    have hwritten : Report.write .json (settings e.corpus e.time) e.learned = .ok e.report := by
      obtain ⟨_, hconfigured⟩ := e.configured
      apply e.written_of_printed hprint
      rw [reportFormat_of_effective hformat hconfigured]
      rfl
    exact hwritten

theorem report_printed_alone :
    ∃ w', (learning ["-i", "t.txt", "-p"]).Reaches shortText 0 w' ∧
      ∃ args, Arguments.parse options (["-i", "t.txt", "-p"].map utf8) = .ok args ∧
        args.flag print = true ∧
        ∃ e : Edition args shortText, w'.out = shortText.out ++ e.report := by
  have hcode : ((learning ["-i", "t.txt", "-p"]).run shortText).1 = 0 := by
    decide +kernel
  have hreaches := Action.reaches_of_run hcode
  refine ⟨_, hreaches, ?_⟩
  rcases printed_report_alone_or_drawing_told hreaches with ⟨hhelp, -⟩ | ⟨args, hparse, hprinted⟩
  · exact absurd hhelp (by decide)
  · obtain ⟨hprint, hconfig, hrender⟩ := of_parse (fun args =>
        args.flag print = true ∧ args.value? config.name = none ∧
        (args.flag Options.visualize && !args.flag Options.lite) = false)
      hparse (by decide +kernel)
    obtain ⟨e, halone, -⟩ := hprinted hprint
    obtain ⟨_, hconfigured⟩ := e.configured
    have hquiet := (of_effective_options hconfig hconfigured).2.2.trans hrender
    exact ⟨args, hparse, hprint, e, halone.2 hquiet⟩

/-- With a drawing, what is printed is no report but a report and a line. -/
theorem drawing_told_behind_report :
    ∃ w', (learning ["-i", "t.txt", "-p", "-v"]).Reaches shortText 0 w' ∧
      ∃ args, Arguments.parse options (["-i", "t.txt", "-p", "-v"].map utf8) = .ok args ∧
        args.flag print = true ∧
        (∃ e : Edition args shortText,
          w'.out = shortText.out ++ e.report ++ e.drawingLine .dot) ∧
        ∀ e : Edition args shortText, w'.out ≠ shortText.out ++ e.report := by
  have hcode : ((learning ["-i", "t.txt", "-p", "-v"]).run shortText).1 = 0 := by
    decide +kernel
  have hreaches := Action.reaches_of_run hcode
  refine ⟨_, hreaches, ?_⟩
  rcases of_reaches_run_zero hreaches with ⟨hhelp, -⟩ | ⟨args, hparse, e, u, hkept, hpublish⟩
  · exact absurd hhelp (by decide)
  · obtain ⟨hprint, hformat, hconfig, hrender⟩ := of_parse (fun args =>
        args.flag print = true ∧ args.textOr Options.format (utf8 "auto") = utf8 "auto" ∧
        args.value? config.name = none ∧ AsksFor args .dot) hparse (by decide +kernel)
    have htold := (e.of_reaches_publish_printed hprint hkept hpublish).2 .dot
      ((e.drawsAs_iff hconfig).2 hrender)
    refine ⟨args, hparse, hprint, ⟨e, htold⟩, fun e' halone => ?_⟩
    have htext : Report.write .text (settings e'.corpus e'.time) e'.learned = .ok e'.report := by
      obtain ⟨_, hconfigured⟩ := e'.configured
      apply e'.written_of_printed hprint
      rw [(of_effective_options hconfig hconfigured).1, hformat]
      rfl
    obtain ⟨front, hfront⟩ := Report.exists_text .plain
      (Report.ofLearned (settings e'.corpus e'.time) e'.learned)
    obtain ⟨front', last, hline, hne⟩ := e.exists_drawingLine .dot
    have hout : (shortText.out ++ e.report ++ front') ++ [last, 10] =
        (shortText.out ++ front) ++ [10, 10] := by
      rw [List.append_assoc _ front', ← hline, ← htold, halone, List.append_assoc, ← hfront]
      exact congrArg _ (Except.ok.inj htext).symm
    exact hne (List.cons.inj (List.append_inj_right' hout rfl)).1

/-! ## Runs that fail -/

theorem files_of_reaches_act {result : Except Failure Int32}
    (hrender : ∀ c u, (effective args).Reaches w (.ok c) u → c.shouldRender = false)
    (h : (act args).Reaches w result w') (hcause : result ≠ .ok 0 ∨ args.flag print = true) :
    w'.files = w.files := by
  rcases of_reaches_act h with ⟨-, hkept⟩ | ⟨e, u, published, hkept, hpublish, rfl⟩
  · exact hkept.files
  · obtain ⟨v, hconfigured⟩ := e.configured
    rw [files_of_reaches_publish (hrender _ v hconfigured) hpublish, hkept.files]
    refine hcause.imp_left fun hne => ?_
    cases published with
    | error failure => exact ⟨failure, rfl⟩
    | ok => exact absurd rfl hne

/-- Without a drawing, a run that fails changes no file, and neither does one that prints. -/
theorem failed_run_keeps_files
    (h : ((program name version).run (utf8 "learn" :: words)).Reaches w code w')
    (hrender : ∀ args c u, Arguments.parse options words = .ok args →
      (effective args).Reaches w (.ok c) u → c.shouldRender = false) :
    (code ≠ 0 → w'.files = w.files) ∧
    ((∀ args, Arguments.parse options words = .ok args → args.flag print = true) →
      w'.files = w.files) := by
  cases ends_of_reaches_run h with
  | informed hhelp => exact ⟨fun _ => rfl, fun _ => rfl⟩
  | rejected hhelp hparse hkept => exact ⟨fun _ => hkept.files, fun _ => hkept.files⟩
  | returned hhelp hparse hact =>
    have hfiles := files_of_reaches_act (fun c u => hrender _ c u hparse) hact
    refine ⟨fun hne => hfiles (.inl ?_), fun hprint => hfiles (.inr (hprint _ hparse))⟩
    rintro ⟨⟩
    exact hne rfl
  | failed hhelp hparse hact hkept =>
    have hfiles := files_of_reaches_act (fun c u => hrender _ c u hparse) hact (.inl nofun)
    exact ⟨fun _ => hkept.files.trans hfiles, fun _ => hkept.files.trans hfiles⟩

/-- The file of the report lies in a folder that is not there. -/
theorem failed_run_without_folder :
    ∃ w', (learning ["-i", "t.txt", "-o", "d/r.txt"]).Reaches shortText 1 w' ∧
      w'.files = shortText.files := by
  have hcode : ((learning ["-i", "t.txt", "-o", "d/r.txt"]).run shortText).1 = 1 := by
    decide +kernel
  have hreaches := Action.reaches_of_run hcode
  refine ⟨_, hreaches, (failed_run_keeps_files hreaches ?_).1 (by decide)⟩
  intro args c u hparse heffective
  obtain ⟨hconfig, hrender⟩ := of_parse (fun args =>
      args.value? config.name = none ∧
      (args.flag Options.visualize && !args.flag Options.lite) = false)
    hparse (by decide +kernel)
  exact (of_effective_options hconfig heffective).2.2.trans hrender

end Substitutability.Commands.Learn
