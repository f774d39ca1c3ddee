import Substitutability.Proofs.Commands.Learn
import Substitutability.Proofs.Files.Siblings

/-!
# Where reports and drawings go

What becomes of an edition once it is published. A report in a file survives exactly if no
drawing is written to the same path, and a printed report stands alone exactly if nothing is
drawn. A run that fails and does not draw has changed no file.
-/

set_option autoImplicit false

namespace Substitutability

/-! ## Reports are no drawings -/

theorem Json.head?_print_object (layout : Json.Layout) (depth : Nat)
    (members : List (Bytes × Json)) :
    (Json.print layout depth (.object members)).head? = some 123 := by
  cases members with
  | nil =>
    rw [Json.print]
    rfl
  | cons member rest =>
    rw [Json.print]
    rfl

theorem Drawing.head?_of_text {format : Drawing.Format} {caption : Drawing.Caption} {g : Graph}
    {p : Partition} {drawing : Bytes} (h : Drawing.text format caption g p = .ok drawing) :
    drawing.head? = some 103 ∨ drawing.head? = some 60 := by
  cases format with
  | dot =>
    obtain rfl := Except.ok.inj h
    exact .inl rfl
  | html =>
    cases hpayload : Drawing.Page.payload (Drawing.Page.view caption g p) with
    | error fault =>
      rw [Drawing.text, Drawing.Page.text, hpayload] at h
      cases h
    | ok payload =>
      rw [Drawing.text, Drawing.Page.text, hpayload] at h
      obtain rfl := Except.ok.inj h
      exact .inr rfl

theorem Report.head?_of_write {format : Report.Format} {settings : Report.Settings} {l : Learned}
    {report : Bytes} (h : Report.write format settings l = .ok report)
    (htitle : settings.title.head? = some 83) :
    report.head? = some 83 ∨ report.head? = some 35 ∨ report.head? = some 123 := by
  cases format with
  | text =>
    obtain rfl := Except.ok.inj h
    obtain ⟨rest, hrest⟩ := List.head?_eq_some_iff.1 htitle
    have hreport : (Report.ofLearned settings l).title = 83 :: rest := hrest
    left
    rw [Report.text, Report.lines, Report.headerLines, hreport]
    rfl
  | markdown =>
    obtain rfl := Except.ok.inj h
    exact .inr (.inl rfl)
  | json =>
    have hdump : (Report.document settings l).dump .indented = .ok report := h
    rw [Json.dump] at hdump
    split at hdump
    · cases hdump
    · obtain rfl := Except.ok.inj hdump
      exact .inr (.inr (Json.head?_print_object _ _ _))

theorem Report.exists_lines (m : Report.Markup) (r : Report) :
    ∃ rows, rows ≠ [] ∧ r.lines m = rows ++ [[]] := by
  rw [Report.lines, Report.grammarLines, Report.unproductiveLines]
  cases r.grammar.unproductive with
  | nil =>
    simp only [List.append_nil, ← List.append_assoc]
    exact ⟨_, by simp, rfl⟩
  | cons f rest =>
    simp only [← List.append_assoc]
    exact ⟨_, by simp, rfl⟩

theorem Report.exists_text (m : Report.Markup) (r : Report) :
    ∃ front, r.text m = front ++ [10, 10] := by
  obtain ⟨rows, hsome, hrows⟩ := Report.exists_lines m r
  obtain ⟨front, row, rfl⟩ := (List.eq_nil_or_concat' rows).resolve_left hsome
  refine ⟨Bytes.lines front ++ row, ?_⟩
  rw [Report.text, hrows]
  simp [Bytes.lines, Bytes.newline]

/-! ## One step of a publication -/

theorem Learned.of_reaches_draw {l : Learned} {format : Drawing.Format} {path : Bytes}
    {result : Except Failure Unit} {w w' : World}
    (h : (l.draw format path).Reaches w result w') :
    (∃ drawing files, Drawing.text format l.caption l.graph l.partition = .ok drawing ∧
      w.files.write path drawing = some files ∧ result = .ok () ∧
      w' = { w with
        files := files
        out := w.out ++ (utf8 "Graph written to: " ++ path ++ [Bytes.newline]) }) ∨
    ((∃ failure, result = .error failure) ∧ w' = w) := by
  rw [Learned.draw, Drawing.save] at h
  cases hdrawing : Drawing.text format l.caption l.graph l.partition with
  | error fault =>
    rw [hdrawing] at h
    exact .inr ⟨⟨_, h.1⟩, h.2⟩
  | ok drawing =>
    rw [hdrawing] at h
    rcases Job.of_reaches_write_printLine h with ⟨files, hfiles, hresult, hworld⟩ | hfailed
    · exact .inl ⟨drawing, files, rfl, hfiles, hresult, hworld⟩
    · exact .inr hfailed

namespace Commands.Learn

open Job (reaches_bind reaches_bind_ok reaches_bind_ofConfiguration reaches_print
  of_reaches_write_printLine of_reaches_printIf_last)

variable {args : Arguments} {c : Configuration} {path report : Bytes} {l : Learned}
  {w w' u : World}

/-! ## Editions and their drawings -/

namespace Edition

def DrawsAs (e : Edition args w) (format : Drawing.Format) : Prop :=
  e.configuration.shouldRender = true ∧
    Drawing.Format.ofName e.configuration.renderFormat = .ok format

def drawingPath (e : Edition args w) (format : Drawing.Format) : Bytes :=
  Path.withExtension format.extension e.path

def drawing (e : Edition args w) (format : Drawing.Format) : Except Json.Fault Bytes :=
  Drawing.text format e.learned.caption e.learned.graph e.learned.partition

def drawingLine (e : Edition args w) (format : Drawing.Format) : Bytes :=
  utf8 "Graph written to: " ++ e.drawingPath format ++ [Bytes.newline]

/-- The report is what its file holds, and no drawing is in that file. -/
def Survives (e : Edition args w) (w' : World) : Prop :=
  w'.files.read e.path = .text e.report ∧
    ∀ format, e.DrawsAs format →
      w'.files.resolve e.path ≠ w'.files.resolve (e.drawingPath format)

/-- The system takes the path of the drawing for that of the report. -/
def DrawsOver (e : Edition args w) : Prop :=
  ∃ format, e.DrawsAs format ∧ Path.visible e.path = Path.visible (e.drawingPath format)

variable {e : Edition args w} {format format' : Drawing.Format}

theorem DrawsAs.eq (h : e.DrawsAs format) (h' : e.DrawsAs format') : format = format' :=
  Except.ok.inj (h.2.symm.trans h'.2)

theorem DrawsAs.drawsOver_iff (h : e.DrawsAs format) :
    e.DrawsOver ↔ Path.visible e.path = Path.visible (e.drawingPath format) := by
  constructor
  · rintro ⟨format', h', hvisible⟩
    rwa [h.eq h']
  · exact fun hvisible => ⟨format, h, hvisible⟩

theorem not_drawsAs_of_shouldRender (h : e.configuration.shouldRender = false) :
    ¬e.DrawsAs format := by
  rintro ⟨hrender, -⟩
  rw [h] at hrender
  cases hrender

/-- A drawing goes over the report exactly if the report has the extension of the drawing. -/
theorem drawsOver_iff_extension (e : Edition args w) (hpath : 0 ∉ e.path) :
    e.DrawsOver ↔ ∃ format, e.DrawsAs format ∧ Path.extension e.path = format.extension := by
  have hextension : ∀ format : Drawing.Format, 0 ∉ format.extension := by
    intro format
    cases format <;> decide
  simp only [DrawsOver, drawingPath, Path.visible_withExtension_iff hpath (hextension _)]

theorem report_ne_drawing (e : Edition args w) {caption : Drawing.Caption} {g : Graph}
    {p : Partition} {drawing : Bytes} (h : Drawing.text format caption g p = .ok drawing) :
    e.report ≠ drawing := by
  intro heq
  have hreport := Report.head?_of_write e.written rfl
  rw [heq] at hreport
  rcases Drawing.head?_of_text h with hdrawing | hdrawing <;>
  · rw [hdrawing] at hreport
    revert hreport
    decide

end Edition

/-! ## The steps of a publication -/

theorem of_reaches_deliver_printed {result : Except Failure Unit}
    (hprint : args.flag print = true) (h : (deliver args path report).Reaches w result w') :
    result = .ok () ∧ w' = { w with out := w.out ++ report } := by
  rw [deliver, if_pos hprint] at h
  exact reaches_print.1 h

theorem of_reaches_deliver_saved {result : Except Failure Unit}
    (hprint : args.flag print = false) (h : (deliver args path report).Reaches w result w') :
    (∃ files, w.files.write path report = some files ∧ result = .ok () ∧ w'.files = files) ∨
    ((∃ failure, result = .error failure) ∧ w' = w) := by
  rw [deliver, if_neg (by simp [hprint])] at h
  rcases of_reaches_write_printLine h with ⟨files, hfiles, hresult, rfl⟩ | hfailed
  · exact .inl ⟨files, hfiles, hresult, rfl⟩
  · exact .inr hfailed

theorem Edition.of_reaches_drawNextTo (e : Edition args w)
    (h : (drawNextTo e.configuration e.path e.learned).Reaches u (.ok ()) w') :
    (e.configuration.shouldRender = false ∧ w' = u) ∨
    ∃ format drawing files, e.DrawsAs format ∧ e.drawing format = .ok drawing ∧
      u.files.write (e.drawingPath format) drawing = some files ∧
      w' = { u with files := files, out := u.out ++ e.drawingLine format } := by
  rw [drawNextTo] at h
  split at h
  · rename_i hrender
    rcases reaches_bind_ofConfiguration.1 h with ⟨_, -, hresult, -⟩ | ⟨format, hformat, hdraw⟩
    · cases hresult
    rcases Learned.of_reaches_draw hdraw with ⟨drawing, files, hdrawing, hfiles, -, hworld⟩ |
      ⟨⟨failure, hresult⟩, -⟩
    · exact .inr ⟨format, drawing, files, ⟨hrender, hformat⟩, hdrawing, hfiles, hworld⟩
    · cases hresult
  · rename_i hrender
    exact .inl ⟨by simpa using hrender, h.2⟩

theorem of_reaches_publish_ok (h : (publish args c path report l).Reaches w (.ok ()) w') :
    ∃ u v, (deliver args path report).Reaches w (.ok ()) u ∧
      (drawNextTo c path l).Reaches u (.ok ()) v ∧ v.Kept c.verbose w' := by
  obtain ⟨_, u, hdeliver, h⟩ := reaches_bind_ok.1 h
  obtain ⟨_, v, hdraw, h⟩ := reaches_bind_ok.1 h
  exact ⟨u, v, hdeliver, hdraw, (of_reaches_printIf_last h).2⟩

theorem drawNextTo_of_shouldRender (h : c.shouldRender = false) (path : Bytes) (l : Learned) :
    drawNextTo c path l = pure () := by
  rw [drawNextTo, if_neg (by simp [h])]

theorem files_of_reaches_publish_undrawn {result : Except Failure Unit}
    (hrender : c.shouldRender = false)
    (h : (publish args c path report l).Reaches w result w') :
    w'.files = w.files ∨ (args.flag print = false ∧ result = .ok () ∧
      w.files.write path report = some w'.files) := by
  rw [publish, drawNextTo_of_shouldRender hrender, reaches_bind] at h
  cases hprint : args.flag print with
  | true =>
    left
    rcases h with ⟨_, hdeliver, -⟩ | ⟨_, u, hdeliver, h⟩
    · rw [(of_reaches_deliver_printed hprint hdeliver).2]
    · rw [(of_reaches_printIf_last h).2.files, (of_reaches_deliver_printed hprint hdeliver).2]
  | false =>
    rcases h with ⟨_, hdeliver, -⟩ | ⟨_, u, hdeliver, h⟩
    · rcases of_reaches_deliver_saved hprint hdeliver with ⟨_, -, hresult, -⟩ | ⟨-, rfl⟩
      · cases hresult
      · exact .inl rfl
    · obtain ⟨hresult, hkept⟩ := of_reaches_printIf_last h
      rw [hkept.files]
      rcases of_reaches_deliver_saved hprint hdeliver with ⟨files, hwrite, -, rfl⟩ | ⟨-, rfl⟩
      · exact .inr ⟨rfl, hresult, hwrite⟩
      · exact .inl rfl

theorem files_of_reaches_publish {result : Except Failure Unit} (hrender : c.shouldRender = false)
    (h : (publish args c path report l).Reaches w result w')
    (hcause : (∃ failure, result = .error failure) ∨ args.flag print = true) :
    w'.files = w.files := by
  rcases files_of_reaches_publish_undrawn hrender h with hfiles | ⟨hprint, rfl, -⟩
  · exact hfiles
  · rcases hcause with ⟨failure, hresult⟩ | hprinted
    · cases hresult
    · rw [hprint] at hprinted
      cases hprinted

/-! ## Saved reports -/

/-- A saved report survives if no drawing goes over it, and is lost otherwise. -/
theorem Edition.of_reaches_publish_saved (e : Edition args w) (hprint : args.flag print = false)
    (h : (publish args e.configuration e.path e.report e.learned).Reaches u (.ok ()) w') :
    (¬e.DrawsOver → e.Survives w') ∧
    (e.DrawsOver → w'.files.read e.path ≠ .text e.report) ∧
    ∀ format, e.DrawsAs format → ∃ drawing, e.drawing format = .ok drawing ∧
      w'.files.read (e.drawingPath format) = .text drawing := by
  obtain ⟨v, x, hdeliver, hdraw, hkept⟩ := of_reaches_publish_ok h
  rcases of_reaches_deliver_saved hprint hdeliver with ⟨files, hfiles, -, hv⟩ | ⟨⟨_, hresult⟩, -⟩
  swap
  · cases hresult
  rcases e.of_reaches_drawNextTo hdraw with ⟨hrender, rfl⟩ |
    ⟨format, drawing, files', hdraws, hdrawing, hfiles', rfl⟩
  · have hnone : ∀ format, ¬e.DrawsAs format := fun _ => not_drawsAs_of_shouldRender hrender
    refine ⟨fun _ => ⟨?_, fun format hformat => absurd hformat (hnone format)⟩, ?_, ?_⟩
    · rw [hkept.files, hv]
      exact FileTree.read_of_write hfiles
    · rintro ⟨format, hformat, -⟩
      exact absurd hformat (hnone format)
    · exact fun format hformat => absurd hformat (hnone format)
  · have hextension : Path.slash ∉ format.extension ∧ 0 ∉ format.extension ∧
        3 ≤ format.extension.length := by
      cases format <;> decide
    rw [hv] at hfiles'
    obtain ⟨hbeside, hapart, hover⟩ :=
      FileTree.read_of_writes hextension.1 hextension.2.1 hextension.2.2 hfiles hfiles'
    have hw' : w'.files = files' := hkept.files
    rw [Survives, hw', hdraws.drawsOver_iff]
    refine ⟨fun hne => ⟨(hapart hne).1, fun format' hformat' => ?_⟩, fun heq => ?_, ?_⟩
    · rw [hformat'.eq hdraws]
      exact (hapart hne).2
    · rw [hover heq]
      exact fun hread => e.report_ne_drawing hdrawing (Reading.text.inj hread).symm
    · intro format' hformat'
      rw [hformat'.eq hdraws]
      exact ⟨drawing, hdrawing, hbeside⟩

/-! ## Printed reports -/

theorem Edition.exists_drawingLine (e : Edition args w) (format : Drawing.Format) :
    ∃ front last, e.drawingLine format = front ++ [last, 10] ∧ last ≠ 10 := by
  have hextension : ∃ start last, format.extension = start ++ [last] ∧ last ≠ 10 := by
    cases format with
    | dot => exact ⟨utf8 ".do", 116, by decide, by decide⟩
    | html => exact ⟨utf8 ".htm", 108, by decide, by decide⟩
  obtain ⟨start, last, hlast, hne⟩ := hextension
  refine ⟨utf8 "Graph written to: " ++ (Path.stem e.path ++ start), last, ?_, hne⟩
  rw [drawingLine, drawingPath, Path.withExtension_eq, hlast]
  simp [Bytes.newline]

/-- Behind a printed report stands nothing but the line of its drawing. -/
theorem Edition.of_reaches_publish_printed (e : Edition args w) (hprint : args.flag print = true)
    (hkept : w.Kept e.configuration.verbose u)
    (h : (publish args e.configuration e.path e.report e.learned).Reaches u (.ok ()) w') :
    (w'.out = w.out ++ e.report ↔ e.configuration.shouldRender = false) ∧
    ∀ format, e.DrawsAs format → w'.out = w.out ++ e.report ++ e.drawingLine format := by
  obtain ⟨v, x, hdeliver, hdraw, hkept'⟩ := of_reaches_publish_ok h
  obtain ⟨_, hconfigured⟩ := e.configured
  have hsilent := verbose_of_effective hprint hconfigured
  obtain ⟨-, rfl⟩ := of_reaches_deliver_printed hprint hdeliver
  rw [hkept'.out hsilent, ← hkept.out hsilent]
  rcases e.of_reaches_drawNextTo hdraw with ⟨hrender, rfl⟩ |
    ⟨format, drawing, files, hdraws, -, -, rfl⟩
  · exact ⟨iff_of_true rfl hrender, fun format hformat =>
      absurd hformat (not_drawsAs_of_shouldRender hrender)⟩
  · refine ⟨iff_of_false ?_ ?_, fun format' hformat' => by rw [hformat'.eq hdraws]⟩
    · intro hout
      obtain ⟨front, last, hline, -⟩ := e.exists_drawingLine format
      rw [List.append_right_eq_self.1 hout] at hline
      simp at hline
    · exact fun hrender => not_drawsAs_of_shouldRender hrender hdraws

theorem Edition.written_of_printed (e : Edition args w) (hprint : args.flag print = true)
    {format : Report.Format}
    (hformat : Report.Format.resolve e.configuration.reportFormat [] = .ok format) :
    Report.write format (settings e.corpus e.time) e.learned = .ok e.report := by
  have hresolved := e.formatted
  rw [reportFormat, if_pos hprint, hformat] at hresolved
  rw [Except.ok.inj hresolved]
  exact e.written

/-! ## Editions whose settings come from options -/

/-- What the options ask for where no file of settings does. -/
abbrev AsksFor (args : Arguments) (format : Drawing.Format) : Prop :=
  (args.flag Options.visualize && !args.flag Options.lite) = true ∧
    Drawing.Format.ofName (args.textOr Options.renderFormat (utf8 "dot")) = .ok format

namespace Edition

theorem path_eq (e : Edition args w) (hpath : args.value? output.name = some path) :
    e.path = path := by
  obtain ⟨_, hplaced⟩ := e.placed
  rw [outputPath, hpath] at hplaced
  exact Except.ok.inj hplaced.1

theorem drawsAs_iff (e : Edition args w) (hconfig : args.value? config.name = none)
    {format : Drawing.Format} : e.DrawsAs format ↔ AsksFor args format := by
  obtain ⟨_, hconfigured⟩ := e.configured
  obtain ⟨-, hname, hrender⟩ := of_effective_options hconfig hconfigured
  rw [DrawsAs, hname, hrender]

end Edition

end Commands.Learn

end Substitutability
