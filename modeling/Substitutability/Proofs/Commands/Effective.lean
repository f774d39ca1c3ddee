import Substitutability.Proofs.CommandLine.Arguments
import Substitutability.Proofs.Commands.Runs
import Substitutability.Proofs.Configuration.Loading
import Substitutability.Proofs.Configuration.Variables

/-!
# Options over settings

The settings of a run are those of a file, or else of the variables, with what the options say
in their place. An option that is not among the words leaves its setting as it was. Where the
settings forbid drawings, a run writes a report and nothing else.
-/

set_option autoImplicit false

namespace Substitutability.Commands.Learn

open Arguments (Grouped Answers given? default?)
open Job (reaches_bind)

variable {groups : List Group} {words : List Bytes} {args : Arguments} {o : OptionSpec}
  {b c : Configuration} {found result : Except Failure Configuration} {w w' u : World}

/-! ## What the words say -/

def Mentioned (groups : List Group) (o : OptionSpec) : Prop :=
  ∃ g ∈ groups, g.option = o

def lastInt? (groups : List Group) (o : OptionSpec) : Option Int32 :=
  (given? groups o.name).bind Integer.ofBytes

def integerOptions : List OptionSpec :=
  [Options.minLength, Options.maxLength, Options.contextWidth]

/-- Where an integer is wanted, the last value that is given is one. -/
def GivesIntegers (groups : List Group) : Prop :=
  ∀ o ∈ integerOptions, ∀ value, given? groups o.name = some value →
    ∃ n, Integer.ofBytes value = some n

/-- The second configuration is the first one with what the words say in its place. -/
structure Overrides (groups : List Group) (b c : Configuration) : Prop where
  minLength : c.minLength = (lastInt? groups Options.minLength).getD b.minLength
  maxLength : c.maxLength = (lastInt? groups Options.maxLength).or b.maxLength
  contextWidth : c.contextWidth = (lastInt? groups Options.contextWidth).getD b.contextWidth
  granularity : c.granularity = (given? groups Options.granularity.name).getD b.granularity
  segmentation : c.segmentation = (given? groups Options.segmentation.name).getD b.segmentation
  reportFormat : c.reportFormat = (given? groups Options.format.name).getD b.reportFormat
  renderFormat : c.renderFormat = (given? groups Options.renderFormat.name).getD b.renderFormat
  visualize : c.visualize = true ↔ Mentioned groups Options.visualize ∨ b.visualize = true
  lite : c.lite = true ↔ Mentioned groups Options.lite ∨ b.lite = true
  verbose : c.verbose = true ↔
    b.verbose = true ∧ ¬Mentioned groups Options.quiet ∧ ¬Mentioned groups print
  minObservations : c.minObservations = b.minObservations

/-- The settings that the options go over: those of the last file that the words name, and those
of the variables if they name none. -/
def BasedOn (groups : List Group) (w : World) (found : Except Failure Configuration) : Prop :=
  match given? groups config.name with
  | some path => Configuration.Loads path (w.files.read path) found
  | none => Configuration.Gathers w.environment found

/-- Worlds with the same files, and with the same variables unless a file is named. -/
structure SameSources (groups : List Group) (w u : World) : Prop where
  files : u.files = w.files
  environment : given? groups config.name = none → u.environment = w.environment

def WritesReport (args : Arguments) (w w' : World) : Prop :=
  w'.files = w.files ∨ ∃ e : Edition args w, w.files.write e.path e.report = some w'.files

theorem Overrides.unique {c' : Configuration} (h : Overrides groups b c)
    (h' : Overrides groups b c') : c' = c := by
  have hvisualize : c'.visualize = c.visualize := by
    rw [Bool.eq_iff_iff, h.visualize, h'.visualize]
  have hlite : c'.lite = c.lite := by
    rw [Bool.eq_iff_iff, h.lite, h'.lite]
  have hverbose : c'.verbose = c.verbose := by
    rw [Bool.eq_iff_iff, h.verbose, h'.verbose]
  cases c
  cases c'
  rw [Configuration.mk.injEq]
  exact ⟨h'.minLength.trans h.minLength.symm, h'.maxLength.trans h.maxLength.symm,
    h'.contextWidth.trans h.contextWidth.symm, h'.granularity.trans h.granularity.symm,
    h'.segmentation.trans h.segmentation.symm, h'.minObservations.trans h.minObservations.symm,
    h'.reportFormat.trans h.reportFormat.symm, hvisualize, hlite,
    h'.renderFormat.trans h.renderFormat.symm, hverbose⟩

theorem BasedOn.eq_of_ok (h : BasedOn groups w (.ok b)) (h' : BasedOn groups w found) :
    found = .ok b := by
  rw [BasedOn] at h h'
  cases hpath : given? groups config.name with
  | some path =>
    rw [hpath] at h h'
    exact h.eq_of_ok h'
  | none =>
    rw [hpath] at h h'
    exact h.eq_of_ok h'

theorem SameSources.basedOn (h : SameSources groups w u) (hfound : BasedOn groups w found) :
    BasedOn groups u found := by
  rw [BasedOn] at hfound ⊢
  cases hpath : given? groups config.name with
  | some path =>
    rw [hpath] at hfound
    rwa [h.files]
  | none =>
    rw [hpath] at hfound
    rwa [h.environment hpath]

/-! ## Arguments -/

theorem wellNamed_options : WellNamed options :=
  ⟨by decide, by decide, by decide, by decide⟩

theorem default?_options (name : Bytes) : default? options name = none := by
  have hnone : ∀ o ∈ options, o.default = [] := by decide
  cases hfind : options.find? (·.name == name) with
  | none => rw [default?, hfind, Option.bind_none]
  | some o =>
    rw [default?, hfind, Option.bind_some, OptionSpec.default?,
      if_pos (hnone o (List.mem_of_find?_eq_some hfind))]

section Words

variable (hgrouped : Grouped options groups words)
  (hparse : Arguments.parse options words = .ok args)

include hgrouped hparse

theorem value?_of_parse (name : Bytes) : args.value? name = given? groups name := by
  obtain ⟨args', hargs', hanswers⟩ := Arguments.exists_parse wellNamed_options hgrouped
  obtain rfl := Except.ok.inj (hparse.symm.trans hargs')
  rw [hanswers, default?_options, Option.or_none]

theorem flag_iff_mentioned (ho : o ∈ options) : args.flag o = true ↔ Mentioned groups o := by
  rw [Arguments.flag, Arguments.has_iff, value?_of_parse hgrouped hparse,
    Arguments.isSome_given?]
  constructor
  · rintro ⟨g, hg, hname⟩
    exact ⟨g, hg,
      wellNamed_options.eq_of_name_eq (hgrouped.allowed g hg).option_mem ho hname⟩
  · rintro ⟨g, hg, rfl⟩
    exact ⟨g, hg, rfl⟩

theorem int?_of_parse (hints : GivesIntegers groups) (ho : o ∈ integerOptions) :
    args.int? o.name = .ok (lastInt? groups o) := by
  rw [Arguments.int?, value?_of_parse hgrouped hparse, lastInt?]
  cases hgiven : given? groups o.name with
  | none => rfl
  | some value =>
    obtain ⟨n, hn⟩ := hints o ho value hgiven
    simp only [Arguments.readInt, hn, Option.bind_some]
    rfl

theorem exists_override (hints : GivesIntegers groups) (b : Configuration) :
    ∃ c, b.override args = .ok c ∧
      Overrides groups b { c with verbose := c.verbose && !args.flag print } := by
  have hint : ∀ o ∈ integerOptions, args.int? o.name = .ok (lastInt? groups o) :=
    fun o ho => int?_of_parse hgrouped hparse hints ho
  have htext : ∀ o old, args.textOr o old = (given? groups o.name).getD old := by
    intro o old
    rw [Arguments.textOr, value?_of_parse hgrouped hparse]
  have hflag : ∀ o ∈ options, (args.flag o = true ↔ Mentioned groups o) :=
    fun o ho => flag_iff_mentioned hgrouped hparse ho
  rw [Configuration.override, Arguments.intOr, Arguments.intOr, hint _ (by decide),
    hint _ (by decide), hint _ (by decide)]
  refine ⟨_, rfl, rfl, rfl, rfl, htext _ _, htext _ _, htext _ _, htext _ _, ?_, ?_, ?_, rfl⟩
  · simp [hflag _ (by decide : Options.visualize ∈ options), or_comm]
  · simp [hflag _ (by decide : Options.lite ∈ options), or_comm]
  · simp [← hflag _ (by decide : Options.quiet ∈ options),
      ← hflag _ (by decide : print ∈ options), and_assoc]

/-! ## Settings -/

theorem of_reaches_base_basedOn (h : (base args).Reaches w found w') :
    BasedOn groups w found ∧ w' = w := by
  have hvalue := value?_of_parse hgrouped hparse config.name
  rw [base, hvalue] at h
  rw [BasedOn]
  cases hpath : given? groups config.name with
  | some path =>
    rw [hpath] at h
    exact Configuration.of_reaches_ofFile h
  | none =>
    rw [hpath] at h
    exact Configuration.of_reaches_ofEnvironment h

theorem of_reaches_effective_basedOn (hints : GivesIntegers groups)
    (h : (effective args).Reaches w result w') :
    ((∃ failure, BasedOn groups w (.error failure) ∧ result = .error failure) ∨
      ∃ b c, BasedOn groups w (.ok b) ∧ Overrides groups b c ∧ result = .ok c) ∧ w' = w := by
  rcases reaches_bind.1 h with ⟨failure, hbase, rfl⟩ | ⟨b, u, hbase, happlied⟩
  · obtain ⟨hfound, rfl⟩ := of_reaches_base_basedOn hgrouped hparse hbase
    exact ⟨.inl ⟨failure, hfound, rfl⟩, rfl⟩
  · obtain ⟨hfound, rfl⟩ := of_reaches_base_basedOn hgrouped hparse hbase
    obtain ⟨c, hc, hoverrides⟩ := exists_override hgrouped hparse hints b
    rw [hc] at happlied
    obtain ⟨rfl, rfl⟩ := happlied
    exact ⟨.inr ⟨b, _, hfound, hoverrides, rfl⟩, rfl⟩

/-- With settings to go over, each run ends with the same settings and changes nothing. -/
theorem reaches_effective_iff (hints : GivesIntegers groups) (hb : BasedOn groups w (.ok b))
    (hc : Overrides groups b c) :
    (effective args).Reaches w result w' ↔ result = .ok c ∧ w' = w := by
  have honly : ∀ {result w'}, (effective args).Reaches w result w' → result = .ok c ∧ w' = w := by
    intro result w' h
    obtain ⟨⟨failure, hfailure, -⟩ | ⟨b', c', hb', hc', rfl⟩, rfl⟩ :=
      of_reaches_effective_basedOn hgrouped hparse hints h
    · cases hb.eq_of_ok hfailure
    · obtain rfl := Except.ok.inj (hb.eq_of_ok hb')
      rw [hc.unique hc']
      exact ⟨rfl, rfl⟩
  refine ⟨honly, ?_⟩
  rintro ⟨rfl, rfl⟩
  have hrun := Action.reaches_run (ExceptT.run (effective args)) w'
  obtain ⟨hresult, hworld⟩ := honly hrun
  rwa [hresult, hworld] at hrun

end Words

/-! ## Runs that must not draw -/

theorem shouldRender_of_lite (h : c.lite = true) : c.shouldRender = false := by
  simp [Configuration.shouldRender, h]

theorem writesReport_of_reaches_act {code : Except Failure Int32}
    (hrender : ∀ c u, (effective args).Reaches w (.ok c) u → c.shouldRender = false)
    (h : (act args).Reaches w code w') : WritesReport args w w' := by
  rcases of_reaches_act h with ⟨-, hkept⟩ | ⟨e, u, published, hkept, hpublish, -⟩
  · exact .inl hkept.files
  · obtain ⟨v, hconfigured⟩ := e.configured
    rcases files_of_reaches_publish_undrawn (hrender _ v hconfigured) hpublish with
      hfiles | ⟨-, -, hwrite⟩
    · exact .inl (hfiles.trans hkept.files)
    · rw [hkept.files] at hwrite
      exact .inr ⟨e, hwrite⟩

theorem writesReport_of_reaches_run {name version : Bytes} {code : Int32}
    (hparse : Arguments.parse options words = .ok args)
    (hrender : ∀ c u, (effective args).Reaches w (.ok c) u → c.shouldRender = false)
    (h : ((program name version).run (utf8 "learn" :: words)).Reaches w code w') :
    WritesReport args w w' := by
  cases ends_of_reaches_run h with
  | informed hhelp => exact .inl rfl
  | rejected hhelp hparse' hkept => exact .inl hkept.files
  | returned hhelp hparse' hact =>
    obtain rfl := Except.ok.inj (hparse.symm.trans hparse')
    exact writesReport_of_reaches_act hrender hact
  | failed hhelp hparse' hact hkept =>
    obtain rfl := Except.ok.inj (hparse.symm.trans hparse')
    rw [WritesReport, hkept.files]
    exact writesReport_of_reaches_act hrender hact

/-! ## Options over settings -/

/-- Words that are read are groups of options. Where each integer that they give is one, a run
has the settings of its file or else of its variables, with the last value of each option in
their place, and no others. Nothing but that file, or those variables, has a say. Where the
settings are lite, no drawing is made and the only file that is written is the report. -/
theorem options_override_settings (hparse : Arguments.parse options words = .ok args) :
    (∃ groups, Grouped options groups words) ∧
    ∀ groups, Grouped options groups words → GivesIntegers groups → ∀ w,
      (∀ b, BasedOn groups w (.ok b) → ∃ c, Overrides groups b c ∧
        (∀ u, SameSources groups w u → ∀ result w',
          (effective args).Reaches u result w' ↔ result = .ok c ∧ w' = u) ∧
        (c.lite = true → c.shouldRender = false ∧ (∀ path l, drawNextTo c path l = pure ()) ∧
          ∀ name version code w',
            ((program name version).run (utf8 "learn" :: words)).Reaches w code w' →
              WritesReport args w w')) ∧
      ((∀ b, ¬BasedOn groups w (.ok b)) →
        ∀ c w', ¬(effective args).Reaches w (.ok c) w') := by
  refine ⟨Arguments.exists_grouped wellNamed_options hparse, ?_⟩
  intro groups hgrouped hints w
  constructor
  · intro b hb
    obtain ⟨_, -, hoverrides⟩ := exists_override hgrouped hparse hints b
    refine ⟨_, hoverrides, fun u hsame result w' =>
      reaches_effective_iff hgrouped hparse hints (hsame.basedOn hb) hoverrides, fun hlite => ?_⟩
    have hrender := shouldRender_of_lite hlite
    refine ⟨hrender, drawNextTo_of_shouldRender hrender, fun name version code w' h => ?_⟩
    apply writesReport_of_reaches_run hparse _ h
    intro c' u hreaches
    obtain ⟨hc', -⟩ := (reaches_effective_iff hgrouped hparse hints hb hoverrides).1 hreaches
    rwa [Except.ok.inj hc']
  · intro hnone c w' h
    obtain ⟨⟨failure, -, hresult⟩ | ⟨b, c', hb, -, -⟩, -⟩ :=
      of_reaches_effective_basedOn hgrouped hparse hints h
    · cases hresult
    · exact hnone b hb

def settingsAndVariable : World where
  files := ⟨SortedMap.ofList [([utf8 "c.json"],
      utf8 "\x7b\"min_length\": 5, \"max_length\": 9, \"visualize\": true\x7d")],
    SortedSet.empty⟩
  environment := [(utf8 "SLG_MIN_LENGTH", utf8 "7")]
  clock := shortText.clock
  reports := []
  out := []
  err := []

/-- A length that is given twice, one that only the file has, and a drawing that is forbidden. -/
theorem last_length_over_file :
    ∃ args c,
      Arguments.parse options
          (["-i", "t.txt", "-m", "2", "--min-length=3", "-l", "-c", "c.json"].map utf8) = .ok args ∧
        (effective args).Reaches settingsAndVariable (.ok c) settingsAndVariable ∧
        c.minLength = 3 ∧ c.maxLength = some 9 ∧ c.visualize = true ∧ c.shouldRender = false := by
  let groups : List Group :=
    [.apart input .short (utf8 "t.txt"), .apart Options.minLength .short (utf8 "2"),
      .joined Options.minLength (utf8 "3"), .flag Options.lite .short,
      .apart config .short (utf8 "c.json")]
  have hgrouped : Grouped options groups
      (["-i", "t.txt", "-m", "2", "--min-length=3", "-l", "-c", "c.json"].map utf8) :=
    ⟨by decide, by decide, by decide⟩
  obtain ⟨args, hparse, -⟩ := Arguments.exists_parse wellNamed_options hgrouped
  have hints : GivesIntegers groups := by
    have hlengths : given? groups Options.minLength.name = some (utf8 "3") ∧
        given? groups Options.maxLength.name = none ∧
        given? groups Options.contextWidth.name = none := by
      decide
    have hinteger : Integer.ofBytes (utf8 "3") = some 3 := by decide
    simp [GivesIntegers, integerOptions, hlengths, hinteger]
  have hfile : BasedOn groups settingsAndVariable
      (.ok { minLength := 5, maxLength := some 9, visualize := true }) := by
    have hloaded : ((Configuration.ofFile (utf8 "c.json")).run settingsAndVariable).1 =
        .ok { minLength := 5, maxLength := some 9, visualize := true } := by
      decide +kernel
    exact (Configuration.of_reaches_ofFile (Action.reaches_of_run hloaded)).1
  obtain ⟨-, hread⟩ := options_override_settings hparse
  obtain ⟨c, hoverrides, hreaches, hlite⟩ :=
    (hread groups hgrouped hints settingsAndVariable).1 _ hfile
  have hc : c.lite = true := hoverrides.lite.2 (.inl ⟨.flag Options.lite .short, by decide, rfl⟩)
  refine ⟨args, c, hparse, (hreaches _ ⟨rfl, fun _ => rfl⟩ _ _).2 ⟨rfl, rfl⟩, ?_, ?_, ?_,
    (hlite hc).1⟩
  · exact hoverrides.minLength.trans (by decide)
  · exact hoverrides.maxLength.trans (by decide)
  · exact hoverrides.visualize.2 (.inr rfl)

end Substitutability.Commands.Learn
