import Substitutability.Commands.Registry
import Substitutability.Proofs.CommandLine.Program
import Substitutability.Proofs.Learning.Loading

/-!
# Runs of the command that learns

Before it puts anything anywhere the command works out an edition: a configuration, a corpus,
what is learned from it, a path and the text of a report. Until then it writes no file, and
prints nothing if it is not verbose. A run that succeeds has put an edition where it belongs.
-/

set_option autoImplicit false

namespace Substitutability.Commands.Learn

open Job (reaches_bind reaches_bind_ok reaches_bind_ofConfiguration reaches_bind_pure reaches_pure
   reaches_ofDocument_ok reaches_print of_reaches_write keeps_pure keeps_throw keeps_failInput
  keeps_ofConfiguration keeps_ofDocument keeps_lookup keeps_read keeps_clock keeps_warn)

variable {args : Arguments} {c : Configuration} {path report : Bytes} {l : Learned}
  {w w' : World} {talks : Bool}

def settings (corpus : Corpus) (time : Moment) : Report.Settings where
  title := utf8 "Substitutable Language Grammar: " ++ corpus.name
  generated := some time

/-- What the command makes of its arguments and of the files and variables of a world. Only the
times in the report, and in its path if none is given, are those of the clock. -/
structure Edition (args : Arguments) (w : World) where
  input : Bytes
  configuration : Configuration
  learner : Learner
  corpus : Corpus
  durations : Durations
  path : Bytes
  format : Report.Format
  time : Moment
  report : Bytes
  given : args.require Learn.input.name = .ok input
  configured : ∃ w', (effective args).Reaches w (.ok configuration) w'
  learns : configuration.learner? = .ok learner
  loaded : ∃ w', (learner.loader.load input).Reaches w (.ok corpus) w'
  placed : ∃ w', (outputPath args).Reaches w (.ok path) w'
  formatted : reportFormat args configuration path = .ok format
  written : Report.write format (settings corpus time)
    { learner.learned corpus with durations := durations } = .ok report

def Edition.learned (e : Edition args w) : Learned :=
  { e.learner.learned e.corpus with durations := e.durations }

/-! ## The configuration -/

theorem keeps_base (args : Arguments) : (base args).Keeps talks := by
  have hvariable : ∀ name, (Configuration.variableInt? name).Keeps talks := by
    intro name
    apply (keeps_lookup _).bind
    intro value
    cases value with
    | none => exact keeps_pure none
    | some value =>
      simp only
      split
      · exact keeps_pure _
      · exact keeps_throw _
  rw [base]
  split
  · apply (keeps_read _).bind
    intro reading
    cases reading with
    | nothing => exact keeps_failInput _
    | folder => exact keeps_throw _
    | text text =>
      simp only
      split
      · exact keeps_failInput _
      · exact keeps_throw _
      · exact keeps_ofConfiguration _
  · apply (hvariable _).bind
    intro _
    apply (hvariable _).bind
    intro _
    apply (hvariable _).bind
    intro _
    apply (keeps_lookup _).bind
    exact fun _ => keeps_pure _

theorem keeps_effective (args : Arguments) : (effective args).Keeps talks := by
  apply (keeps_base args).bind
  intro c
  apply (keeps_ofConfiguration _).bind
  exact fun _ => keeps_pure _

theorem exists_of_bind_eq_ok {ε α β : Type} {found : Except ε α} {k : α → Except ε β} {b : β}
    (h : found >>= k = .ok b) : ∃ a, found = .ok a ∧ k a = .ok b := by
  cases found with
  | error fault => cases h
  | ok a => exact ⟨a, rfl, h⟩

theorem of_override {b : Configuration} (h : b.override args = .ok c) :
    c.reportFormat = args.textOr Options.format b.reportFormat ∧
    c.renderFormat = args.textOr Options.renderFormat b.renderFormat ∧
    c.visualize = (b.visualize || args.flag Options.visualize) ∧
    c.lite = (b.lite || args.flag Options.lite) := by
  rw [Configuration.override] at h
  obtain ⟨minimum, -, h⟩ := exists_of_bind_eq_ok h
  obtain ⟨maximum, -, h⟩ := exists_of_bind_eq_ok h
  obtain ⟨width, -, h⟩ := exists_of_bind_eq_ok h
  obtain rfl := Except.ok.inj h
  exact ⟨rfl, rfl, rfl, rfl⟩

theorem of_reaches_effective (h : (effective args).Reaches w (.ok c) w') :
    ∃ b u c', (base args).Reaches w (.ok b) u ∧ b.override args = .ok c' ∧
      c = { c' with verbose := c'.verbose && !args.flag print } := by
  obtain ⟨b, u, hbase, h⟩ := reaches_bind_ok.1 h
  rcases reaches_bind_ofConfiguration.1 h with ⟨_, -, hresult, -⟩ | ⟨c', hoverride, h⟩
  · cases hresult
  · obtain ⟨hresult, -⟩ := reaches_pure.1 h
    exact ⟨b, u, c', hbase, hoverride, Except.ok.inj hresult⟩

theorem verbose_of_effective (hprint : args.flag print = true)
    (h : (effective args).Reaches w (.ok c) w') : c.verbose = false := by
  obtain ⟨b, u, c', -, -, rfl⟩ := of_reaches_effective h
  simp [hprint]

theorem reportFormat_of_effective {name : Bytes} (hname : args.value? Options.format.name = some name)
    (h : (effective args).Reaches w (.ok c) w') : c.reportFormat = name := by
  obtain ⟨b, u, c', -, hoverride, rfl⟩ := of_reaches_effective h
  obtain ⟨hformat, -⟩ := of_override hoverride
  simp [hformat, Arguments.textOr, hname]

theorem of_reaches_base (hconfig : args.value? config.name = none)
    (h : (base args).Reaches w (.ok c) w') :
    c.reportFormat = utf8 "auto" ∧ c.renderFormat = utf8 "dot" ∧ c.visualize = false ∧
      c.lite = false := by
  rw [base, hconfig] at h
  obtain ⟨_, _, -, h⟩ := reaches_bind_ok.1 h
  obtain ⟨_, _, -, h⟩ := reaches_bind_ok.1 h
  obtain ⟨_, _, -, h⟩ := reaches_bind_ok.1 h
  obtain ⟨_, _, -, h⟩ := reaches_bind_ok.1 h
  obtain rfl := Except.ok.inj (reaches_pure.1 h).1
  exact ⟨rfl, rfl, rfl, rfl⟩

theorem of_effective_options (hconfig : args.value? config.name = none)
    (h : (effective args).Reaches w (.ok c) w') :
    c.reportFormat = args.textOr Options.format (utf8 "auto") ∧
    c.renderFormat = args.textOr Options.renderFormat (utf8 "dot") ∧
    c.shouldRender = (args.flag Options.visualize && !args.flag Options.lite) := by
  obtain ⟨b, u, c', hbase, hoverride, rfl⟩ := of_reaches_effective h
  obtain ⟨hreport, hrender, hvisualize, hlite⟩ := of_reaches_base hconfig hbase
  obtain ⟨hreport', hrender', hvisualize', hlite'⟩ := of_override hoverride
  rw [hreport] at hreport'
  rw [hrender] at hrender'
  refine ⟨hreport', hrender', ?_⟩
  simp [Configuration.shouldRender, hvisualize', hlite', hvisualize, hlite]

/-! ## The way to an edition -/

def publish (args : Arguments) (c : Configuration) (path report : Bytes) (l : Learned) :
    Job Unit := do
  deliver args path report
  drawNextTo c path l
  if c.verbose then Job.print l.summary.text

theorem finish_eq (args : Arguments) (c : Configuration) (l : Learned) :
    finish args c l = (do
      let path ← outputPath args
      let format ← Job.ofConfiguration (reportFormat args c path)
      publish args c path (← reportText format l) l) := rfl

def conclude (args : Arguments) (c : Configuration) (path : Bytes) (l : Learned) : Job Int32 := do
  if l.contexts.isEmpty then
    Job.warn (nothingLearned path)
    return 1
  else
    finish args c l
    return 0

theorem act_eq (args : Arguments) :
    act args = (do
      let path ← Job.ofConfiguration (args.require input.name)
      let c ← effective args
      let learner ← Job.ofConfiguration c.learner?
      if c.verbose then Job.printLine (utf8 "Learning from: " ++ path)
      conclude args c path (← learner.learnPath path)) := rfl

theorem keeps_outputPath (args : Arguments) : (outputPath args).Keeps talks := by
  rw [outputPath]
  split
  · exact keeps_pure _
  · exact keeps_clock.bind fun _ => keeps_pure _

theorem keeps_reportText (format : Report.Format) (l : Learned) :
    (reportText format l).Keeps talks := by
  apply keeps_clock.bind
  exact fun _ => keeps_ofDocument _

theorem written_of_reportText {format : Report.Format}
    (h : (reportText format l).Reaches w (.ok report) w') :
    ∃ time, Report.write format (settings l.corpus time) l = .ok report := by
  obtain ⟨clock, u, -, h⟩ := reaches_bind_ok.1 h
  exact ⟨clock.universal, (reaches_ofDocument_ok.1 h).1⟩

theorem verbose_of_learner {learner : Learner} (h : c.learner? = .ok learner) :
    learner.verbose = c.verbose := by
  rw [Configuration.learner?, Configuration.rejection?_of_learner? h] at h
  obtain ⟨extractor, -, h⟩ := exists_of_bind_eq_ok h
  obtain ⟨format, -, h⟩ := exists_of_bind_eq_ok h
  obtain rfl := Except.ok.inj h
  rfl

theorem of_reaches_finish {result : Except Failure Unit}
    (h : (finish args c l).Reaches w result w') :
    ((∃ failure, result = .error failure) ∧ w.Kept talks w') ∨
      ∃ path format time report u, w.Kept talks u ∧
        (∃ v, (outputPath args).Reaches w (.ok path) v) ∧ reportFormat args c path = .ok format ∧
        Report.write format (settings l.corpus time) l = .ok report ∧
        (publish args c path report l).Reaches u result w' := by
  rw [finish_eq, reaches_bind] at h
  rcases h with ⟨failure, hfail, rfl⟩ | ⟨path, u, hpath, h⟩
  · exact .inl ⟨⟨failure, rfl⟩, keeps_outputPath args hfail⟩
  have hkept : w.Kept talks u := keeps_outputPath args hpath
  rw [reaches_bind_ofConfiguration] at h
  rcases h with ⟨fault, -, rfl, rfl⟩ | ⟨format, hformat, h⟩
  · exact .inl ⟨⟨_, rfl⟩, hkept⟩
  rw [reaches_bind] at h
  rcases h with ⟨failure, hfail, rfl⟩ | ⟨report, v, hreport, h⟩
  · exact .inl ⟨⟨failure, rfl⟩, hkept.trans (keeps_reportText format l hfail)⟩
  obtain ⟨time, hwritten⟩ := written_of_reportText hreport
  exact .inr ⟨path, format, time, report, v, hkept.trans (keeps_reportText format l hreport),
    ⟨u, hpath⟩, hformat, hwritten, h⟩

theorem of_reaches_conclude {input : Bytes} {result : Except Failure Int32}
    (h : (conclude args c input l).Reaches w result w') :
    (result ≠ .ok 0 ∧ w.Kept talks w') ∨
      ∃ path format time report u published, w.Kept talks u ∧
        (∃ v, (outputPath args).Reaches w (.ok path) v) ∧ reportFormat args c path = .ok format ∧
        Report.write format (settings l.corpus time) l = .ok report ∧
        (publish args c path report l).Reaches u published w' ∧
        result = published.map fun _ => 0 := by
  rw [conclude] at h
  split at h
  · obtain ⟨outcome, hwarned, rfl⟩ := reaches_bind_pure.1 h
    have hkept : w.Kept talks w' := keeps_warn _ hwarned
    obtain ⟨rfl, -⟩ := hwarned
    exact .inl ⟨nofun, hkept⟩
  · obtain ⟨published, hfinish, rfl⟩ := reaches_bind_pure.1 h
    rcases of_reaches_finish hfinish with ⟨⟨failure, rfl⟩, hkept⟩ |
      ⟨path, format, time, report, u, hkept, hpath, hformat, hreport, hpublish⟩
    · exact .inl ⟨nofun, hkept⟩
    · exact .inr ⟨path, format, time, report, u, published, hkept, hpath, hformat, hreport,
        hpublish, rfl⟩

/-- A run of the command either ends before anything is put anywhere, and then does not
succeed, or it publishes an edition and ends as the publication does. -/
theorem of_reaches_act {result : Except Failure Int32} (h : (act args).Reaches w result w') :
    (result ≠ .ok 0 ∧ w.Kept true w') ∨
      ∃ (e : Edition args w) (u : World) (published : Except Failure Unit),
        w.Kept e.configuration.verbose u ∧
        (publish args e.configuration e.path e.report e.learned).Reaches u published w' ∧
        result = published.map fun _ => 0 := by
  rw [act_eq, reaches_bind_ofConfiguration] at h
  rcases h with ⟨fault, -, rfl, rfl⟩ | ⟨input, hinput, h⟩
  · exact .inl ⟨nofun, .refl _⟩
  rw [reaches_bind] at h
  rcases h with ⟨failure, hfail, rfl⟩ | ⟨c, u₁, hconfigured, h⟩
  · exact .inl ⟨nofun, keeps_effective args hfail⟩
  have hkept : w.Kept c.verbose u₁ := keeps_effective args hconfigured
  rw [reaches_bind_ofConfiguration] at h
  rcases h with ⟨fault, -, rfl, rfl⟩ | ⟨learner, hlearner, h⟩
  · exact .inl ⟨nofun, hkept.talking⟩
  have hverbose := verbose_of_learner hlearner
  obtain ⟨u₂, hannounced, h⟩ := Job.of_reaches_printIf h
  have hkept := hkept.trans hannounced
  rw [reaches_bind] at h
  rcases h with ⟨failure, hfail, rfl⟩ | ⟨l, u₃, hlearned, h⟩
  · exact .inl ⟨nofun, hkept.talking.trans (learner.keeps_learnPath _ hfail).talking⟩
  obtain ⟨corpus, durations, ⟨_, hloaded⟩, rfl⟩ := Learner.learned_of_learnPath hlearned
  have hlearning := learner.keeps_learnPath _ hlearned
  rw [hverbose] at hlearning
  have hloaded := hloaded.congr hkept.symm
  have hkept := hkept.trans hlearning
  rcases of_reaches_conclude h with ⟨hne, hended⟩ |
    ⟨path, format, time, report, u, published, hended, ⟨_, hpath⟩, hformat, hreport, hpublish, rfl⟩
  · exact .inl ⟨hne, (hkept.trans hended).talking⟩
  · let e : Edition args w :=
      { input, configuration := c, learner, corpus, durations, path, format, time, report
        given := hinput, configured := ⟨_, hconfigured⟩, learns := hlearner, loaded := hloaded
        placed := hpath.congr hkept.symm, formatted := hformat, written := hreport }
    exact .inr ⟨e, u, published, hkept.trans hended, hpublish, rfl⟩

end Substitutability.Commands.Learn
