import Substitutability.Commands.Learn
import Substitutability.Proofs.CommandLine.Groups
import Substitutability.Proofs.Sorted

/-!
# Which words are arguments

Words are arguments of a command exactly if they are allowed groups in which no required
option is missing. An option then has the value of its last group, or else its default. So
groups of different options may change places, and a choice of values is read from the
words that it is written in.
-/

set_option autoImplicit false

namespace Substitutability

def OptionSpec.default? (o : OptionSpec) : Option Bytes :=
  if o.default = [] then none else some o.default

namespace Arguments

variable {options : List OptionSpec} {o : OptionSpec} {groups groups' : List Group}
  {name : Bytes}

def default? (options : List OptionSpec) (name : Bytes) : Option Bytes :=
  (options.find? (·.name == name)).bind OptionSpec.default?

def given? (groups : List Group) (name : Bytes) : Option Bytes :=
  (groups.filter (·.option.name == name)).getLast?.map Group.value

/-- The words are the groups one after the other. Each is allowed, and no required option is
missing. -/
structure Grouped (options : List OptionSpec) (groups : List Group) (words : List Bytes) :
    Prop where
  allowed : ∀ g ∈ groups, g.Allowed options
  words_eq : words = groups.flatMap Group.words
  complete : ∀ o ∈ options, o.required = true → ∃ g ∈ groups, g.option = o

/-- Each name has the value of its last group, or else its default, and no others have one. -/
def Answers (options : List OptionSpec) (groups : List Group) (args : Arguments) : Prop :=
  ∀ name, args.value? name = (given? groups name).or (default? options name)

theorem value?_insert (args : Arguments) (key value name : Bytes) :
    (⟨args.values.insert key value⟩ : Arguments).value? name =
      if key = name then some value else args.value? name := by
  rw [value?, value?, SortedMap.insert]
  by_cases hname : key = name
  · rw [if_pos hname, hname, SortedMap.find?_alter_self]
  · rw [if_neg hname, SortedMap.find?_alter_ne (Ne.symm hname)]

/-! ## Values of groups -/

theorem value?_ofAssignments (assigned : List Assignment) (name : Bytes) :
    (ofAssignments assigned).value? name =
      (assigned.filter (·.name == name)).getLast?.map Assignment.value := by
  induction assigned using List.reverseRecOn with
  | nil => rfl
  | append_singleton assigned a ih =>
    have hlast : ofAssignments (assigned ++ [a]) =
        ⟨(ofAssignments assigned).values.insert a.name a.value⟩ := by
      rw [ofAssignments, List.map_append]
      exact congrArg Arguments.mk (SortedMap.ofList_append_singleton _ _ _)
    rw [hlast, value?_insert, List.filter_append, ih]
    by_cases hname : a.name = name
    · simp [hname]
    · simp [hname, beq_false_of_ne hname]

theorem value?_groups (groups : List Group) (name : Bytes) :
    (ofAssignments (groups.map Group.assignment)).value? name = given? groups name := by
  rw [value?_ofAssignments, given?, List.filter_map, List.getLast?_map, Option.map_map]
  rfl

theorem isSome_given? : (given? groups name).isSome = true ↔ ∃ g ∈ groups, g.option.name = name := by
  rw [given?, Option.isSome_map, List.getLast?_isSome, ne_eq, List.filter_eq_nil_iff]
  simp

theorem given?_congr (h : groups.filter (·.option.name == name) =
    groups'.filter (·.option.name == name)) : given? groups name = given? groups' name := by
  rw [given?, given?, h]

theorem ext_value? {args args' : Arguments} (h : ∀ name, args.value? name = args'.value? name) :
    args = args' := by
  have hvalues : args.values = args'.values := SortedMap.ext_find? h
  cases args
  cases args'
  congr 1

/-! ## Defaults -/

theorem default?_cons (o : OptionSpec) (rest : List OptionSpec) (name : Bytes) :
    default? (o :: rest) name = if o.name = name then o.default? else default? rest name := by
  rw [default?, List.find?_cons]
  by_cases hname : o.name = name
  · simp [hname]
  · have hother : (o.name == name) = false := beq_false_of_ne hname
    rw [hother, if_neg hname, default?]

theorem default?_of_not_mem (h : name ∉ options.map OptionSpec.name) :
    default? options name = none := by
  have hnone : options.find? (·.name == name) = none := by
    apply List.find?_eq_none.2
    intro o ho hname
    exact h (List.mem_map.2 ⟨o, ho, by simpa using hname⟩)
  rw [default?, hnone]
  rfl

theorem has_iff {args : Arguments} : args.has name = true ↔ (args.value? name).isSome = true :=
  Iff.rfl

theorem exists_complete (hnames : (options.map OptionSpec.name).Nodup) {args : Arguments}
    (h : ∀ o ∈ options, o.required = true → args.has o.name = true) :
    ∃ args', complete options args = .ok args' ∧
      ∀ name, args'.value? name = (args.value? name).or (default? options name) := by
  induction options generalizing args with
  | nil => exact ⟨args, rfl, fun name => by simp [default?]⟩
  | cons o rest ih =>
    rw [List.map_cons, List.nodup_cons] at hnames
    obtain ⟨hfresh, hnodup⟩ := hnames
    obtain ⟨ho, hrest⟩ := List.forall_mem_cons.1 h
    have hdefault : default? rest o.name = none := default?_of_not_mem hfresh
    rw [complete]
    by_cases hhas : args.has o.name = true
    · rw [if_pos hhas]
      obtain ⟨args', hargs', hvalues⟩ := ih hnodup hrest
      refine ⟨args', hargs', fun name => ?_⟩
      rw [hvalues, default?_cons]
      by_cases hname : o.name = name
      · obtain ⟨value, hvalue⟩ := Option.isSome_iff_exists.1 (has_iff.1 hhas)
        rw [hname] at hvalue
        rw [hvalue, Option.some_or, Option.some_or]
      · rw [if_neg hname]
    · have hnone : args.value? o.name = none := by
        simpa [has_iff] using hhas
      rw [if_neg hhas, if_neg fun hrequired => hhas (ho hrequired)]
      by_cases hempty : o.default = []
      · rw [if_pos hempty]
        obtain ⟨args', hargs', hvalues⟩ := ih hnodup hrest
        refine ⟨args', hargs', fun name => ?_⟩
        rw [hvalues, default?_cons]
        by_cases hname : o.name = name
        · rw [if_pos hname, ← hname, hnone, hdefault, OptionSpec.default?, if_pos hempty]
        · rw [if_neg hname]
      · rw [if_neg hempty]
        have hkept : ∀ o' ∈ rest, o'.required = true →
            (⟨args.values.insert o.name o.default⟩ : Arguments).has o'.name = true := by
          intro o' ho' hrequired
          have hne : o'.name ≠ o.name := fun he => hfresh (List.mem_map.2 ⟨o', ho', he⟩)
          rw [has_iff, value?_insert, if_neg hne.symm]
          exact has_iff.1 (hrest o' ho' hrequired)
        obtain ⟨args', hargs', hvalues⟩ := ih hnodup hkept
        refine ⟨args', hargs', fun name => ?_⟩
        rw [hvalues, default?_cons, value?_insert]
        by_cases hname : o.name = name
        · rw [if_pos hname, if_pos hname, ← hname, hnone, OptionSpec.default?, if_neg hempty,
            Option.some_or, Option.none_or]
        · rw [if_neg hname, if_neg hname]

theorem has_of_complete (hnames : (options.map OptionSpec.name).Nodup) {args args' : Arguments}
    (h : complete options args = .ok args') (ho : o ∈ options) (hrequired : o.required = true) :
    args.has o.name = true := by
  induction options generalizing args with
  | nil => cases ho
  | cons o' rest ih =>
    rw [List.map_cons, List.nodup_cons] at hnames
    obtain ⟨hfresh, hnodup⟩ := hnames
    rw [complete] at h
    by_cases hhas : args.has o'.name = true
    · rw [if_pos hhas] at h
      rcases List.mem_cons.1 ho with rfl | ho
      · exact hhas
      · exact ih hnodup h ho
    · rw [if_neg hhas] at h
      by_cases hrequired' : o'.required = true
      · rw [if_pos hrequired'] at h
        cases h
      · rw [if_neg hrequired'] at h
        rcases List.mem_cons.1 ho with rfl | ho
        · exact absurd hrequired hrequired'
        · by_cases hempty : o'.default = []
          · rw [if_pos hempty] at h
            exact ih hnodup h ho
          · rw [if_neg hempty] at h
            have hkept := ih hnodup h ho
            have hne : o.name ≠ o'.name := fun he => hfresh (List.mem_map.2 ⟨o, ho, he⟩)
            rwa [has_iff, value?_insert, if_neg hne.symm] at hkept

/-! ## Parsing -/

section Parsing

variable {words : List Bytes}

theorem parse_groups (h : WellNamed options) (hgroups : ∀ g ∈ groups, g.Allowed options) :
    parse options (groups.flatMap Group.words) =
      complete options (ofAssignments (groups.map Group.assignment)) := by
  rw [parse, assignments_words h hgroups]
  rfl

theorem has_iff_exists_group (h : WellNamed options) (hgroups : ∀ g ∈ groups, g.Allowed options)
    (ho : o ∈ options) :
    (ofAssignments (groups.map Group.assignment)).has o.name = true ↔
      ∃ g ∈ groups, g.option = o := by
  rw [has_iff, value?_groups, isSome_given?]
  constructor
  · rintro ⟨g, hg, hname⟩
    exact ⟨g, hg, h.eq_of_name_eq (hgroups g hg).option_mem ho hname⟩
  · rintro ⟨g, hg, rfl⟩
    exact ⟨g, hg, rfl⟩

theorem exists_parse (h : WellNamed options) (hgrouped : Grouped options groups words) :
    ∃ args, parse options words = .ok args ∧ Answers options groups args := by
  have hrequired : ∀ o ∈ options, o.required = true →
      (ofAssignments (groups.map Group.assignment)).has o.name = true := by
    intro o ho hrequired
    exact (has_iff_exists_group h hgrouped.allowed ho).2 (hgrouped.complete o ho hrequired)
  obtain ⟨args, hargs, hvalues⟩ := exists_complete h.names hrequired
  refine ⟨args, ?_, fun name => ?_⟩
  · rw [hgrouped.words_eq, parse_groups h hgrouped.allowed, hargs]
  · rw [hvalues, value?_groups]

theorem exists_grouped (h : WellNamed options) {args : Arguments}
    (hparse : parse options words = .ok args) : ∃ groups, Grouped options groups words := by
  cases hassigned : assignments options words with
  | error fault =>
    rw [parse, hassigned] at hparse
    cases hparse
  | ok assigned =>
    obtain ⟨groups, hgroups, rfl⟩ := exists_groups h hassigned
    rw [parse_groups h hgroups] at hparse
    refine ⟨groups, hgroups, rfl, fun o ho hrequired => ?_⟩
    have hhas := has_of_complete h.names hparse ho hrequired
    exact (has_iff_exists_group h hgroups ho).1 hhas

theorem exists_fault_iff :
    (∃ fault, parse options words = .error fault) ↔ ¬∃ args, parse options words = .ok args := by
  cases parse options words with
  | error fault => simp
  | ok args => simp

theorem given?_eq_of_filter_eq (h : WellNamed options) (hgroups : ∀ g ∈ groups, g.Allowed options)
    (hgroups' : ∀ g ∈ groups', g.Allowed options)
    (hsame : ∀ o, groups.filter (·.option = o) = groups'.filter (·.option = o)) (name : Bytes) :
    given? groups name = given? groups' name := by
  by_cases hname : ∃ o ∈ options, o.name = name
  · obtain ⟨o, ho, rfl⟩ := hname
    have hfilter : ∀ {gs : List Group}, (∀ g ∈ gs, g.Allowed options) →
        gs.filter (·.option.name == o.name) = gs.filter (·.option = o) := by
      intro gs hgs
      apply List.filter_congr
      intro g hg
      rw [Bool.eq_iff_iff, beq_iff_eq, decide_eq_true_iff]
      exact ⟨h.eq_of_name_eq (hgs g hg).option_mem ho, fun he => by rw [he]⟩
    apply given?_congr
    rw [hfilter hgroups, hfilter hgroups', hsame]
  · have hnone : ∀ {gs : List Group}, (∀ g ∈ gs, g.Allowed options) → given? gs name = none := by
      intro gs hgs
      rw [← Option.not_isSome_iff_eq_none, isSome_given?]
      rintro ⟨g, hg, rfl⟩
      exact hname ⟨g.option, (hgs g hg).option_mem, rfl⟩
    rw [hnone hgroups, hnone hgroups']

theorem parse_congr (h : WellNamed options) (hgroups : ∀ g ∈ groups, g.Allowed options)
    (hgroups' : ∀ g ∈ groups', g.Allowed options)
    (hsame : ∀ o, groups.filter (·.option = o) = groups'.filter (·.option = o)) :
    parse options (groups.flatMap Group.words) = parse options (groups'.flatMap Group.words) := by
  have hassigned : ofAssignments (groups.map Group.assignment) =
      ofAssignments (groups'.map Group.assignment) := by
    apply ext_value?
    intro name
    rw [value?_groups, value?_groups, given?_eq_of_filter_eq h hgroups hgroups' hsame]
  rw [parse_groups h hgroups, parse_groups h hgroups', hassigned]

end Parsing

/-! ## Writing values -/

/-- Values for some options, every required one among them. A flag has its one value, and
any other option has a value that it admits. -/
structure Fits (options : List OptionSpec) (args : Arguments) : Prop where
  known : ∀ name value, args.value? name = some value → ∃ o ∈ options, o.name = name
  allowed : ∀ o ∈ options, ∀ value, args.value? o.name = some value →
    if o.isFlag = true then value = flagValue else o.Admits value
  complete : ∀ o ∈ options, o.required = true → args.has o.name = true

def groupOf (o : OptionSpec) (value : Bytes) : Group :=
  if o.isFlag = true then .flag o .long else .joined o value

def written (options : List OptionSpec) (args : Arguments) : List Group :=
  options.filterMap fun o => (args.value? o.name).map (groupOf o)

theorem option_groupOf (o : OptionSpec) (value : Bytes) : (groupOf o value).option = o := by
  rw [groupOf]
  split <;> rfl

theorem mem_written {args : Arguments} {g : Group} :
    g ∈ written options args ↔
      ∃ o ∈ options, ∃ value, args.value? o.name = some value ∧ groupOf o value = g := by
  simp only [written, List.mem_filterMap, Option.map_eq_some_iff]

theorem allowed_groupOf {value : Bytes} (ho : o ∈ options)
    (hvalue : if o.isFlag = true then value = flagValue else o.Admits value) :
    (groupOf o value).Allowed options ∧ (groupOf o value).value = value := by
  rw [groupOf]
  by_cases hflag : o.isFlag = true
  · rw [if_pos hflag] at hvalue ⊢
    exact ⟨⟨ho, by simp [Spelling.Names], hflag⟩, hvalue.symm⟩
  · rw [if_neg hflag] at hvalue ⊢
    exact ⟨⟨ho, by simpa using hflag, hvalue⟩, rfl⟩

theorem grouped_written {args : Arguments} (hfits : Fits options args) :
    Grouped options (written options args) ((written options args).flatMap Group.words) where
  allowed := by
    intro g hg
    obtain ⟨o, ho, value, hvalue, rfl⟩ := mem_written.1 hg
    exact (allowed_groupOf ho (hfits.allowed o ho value hvalue)).1
  words_eq := rfl
  complete := by
    intro o ho hrequired
    obtain ⟨value, hvalue⟩ := Option.isSome_iff_exists.1 (has_iff.1 (hfits.complete o ho hrequired))
    exact ⟨groupOf o value, mem_written.2 ⟨o, ho, value, hvalue, rfl⟩, option_groupOf o value⟩

theorem given?_written {args : Arguments} (hfits : Fits options args)
    (name : Bytes) : given? (written options args) name = args.value? name := by
  cases hgiven : given? (written options args) name with
  | none =>
    cases hvalue : args.value? name with
    | none => rfl
    | some value =>
      obtain ⟨o, ho, rfl⟩ := hfits.known name value hvalue
      have hsome : (given? (written options args) o.name).isSome = true := by
        apply isSome_given?.2
        refine ⟨groupOf o value, mem_written.2 ⟨o, ho, value, hvalue, rfl⟩, ?_⟩
        rw [option_groupOf]
      rw [hgiven] at hsome
      cases hsome
  | some value =>
    obtain ⟨g, hlast, rfl⟩ := Option.map_eq_some_iff.1 hgiven
    obtain ⟨hg, hname⟩ := List.mem_filter.1 (List.mem_of_getLast? hlast)
    obtain ⟨o, ho, value, hvalue, rfl⟩ := mem_written.1 hg
    have hname : o.name = name := by simpa [option_groupOf] using hname
    rw [← hname, hvalue, (allowed_groupOf ho (hfits.allowed o ho value hvalue)).2]

/-! ## Arguments and groups -/

/-- Words are read exactly if they are groups, and every name then has the value of its last
group or its default. Groups may change places as long as those of one option keep their
order. Values that fit are read from the words that they are written in. -/
theorem parse_reads_groups (options : List OptionSpec) (h : WellNamed options) :
    (∀ words, (∃ args, parse options words = .ok args) ↔
      ∃ groups, Grouped options groups words) ∧
    (∀ words, (∃ fault, parse options words = .error fault) ↔
      ¬∃ groups, Grouped options groups words) ∧
    (∀ words groups, Grouped options groups words →
      ∃ args, parse options words = .ok args ∧ Answers options groups args) ∧
    (∀ groups groups' : List Group, (∀ g ∈ groups, g.Allowed options) →
      (∀ g ∈ groups', g.Allowed options) →
      (∀ o, groups.filter (·.option = o) = groups'.filter (·.option = o)) →
      parse options (groups.flatMap Group.words) =
        parse options (groups'.flatMap Group.words)) ∧
    ∀ args, Fits options args →
      ∃ args', parse options ((written options args).flatMap Group.words) = .ok args' ∧
        ∀ name, args'.value? name = (args.value? name).or (default? options name) := by
  have haccepts : ∀ words, (∃ args, parse options words = .ok args) ↔
      ∃ groups, Grouped options groups words := by
    intro words
    constructor
    · rintro ⟨args, hargs⟩
      exact exists_grouped h hargs
    · rintro ⟨groups, hgrouped⟩
      obtain ⟨args, hargs, -⟩ := exists_parse h hgrouped
      exact ⟨args, hargs⟩
  refine ⟨haccepts, ?_, fun words groups => exists_parse h,
    fun groups groups' => parse_congr h, ?_⟩
  · intro words
    rw [exists_fault_iff, haccepts]
  · intro args hfits
    obtain ⟨args', hargs', hanswers⟩ := exists_parse h (grouped_written hfits)
    refine ⟨args', hargs', fun name => ?_⟩
    rw [hanswers, given?_written hfits]

/-- Words of the command that learns: an option that is given twice, one that is not given,
a value that looks like an option. -/
theorem learn_options_read :
    WellNamed Commands.Learn.options ∧
      ∃ args, parse Commands.Learn.options
          [utf8 "--min-length=2", utf8 "-i", utf8 "--print", utf8 "--visualize", utf8 "-m",
            utf8 "-7"] = .ok args ∧
        args.value? (utf8 "input") = some (utf8 "--print") ∧
        args.value? (utf8 "min-length") = some (utf8 "-7") ∧
        args.value? (utf8 "visualize") = some (utf8 "true") ∧
        args.value? (utf8 "print") = none := by
  have hnamed : WellNamed Commands.Learn.options :=
    ⟨by decide, by decide, by decide, by decide⟩
  have hgrouped : Grouped Commands.Learn.options
      [.joined Commands.Options.minLength (utf8 "2"),
        .apart Commands.Learn.input .short (utf8 "--print"),
        .flag Commands.Options.visualize .long,
        .apart Commands.Options.minLength .short (utf8 "-7")]
      [utf8 "--min-length=2", utf8 "-i", utf8 "--print", utf8 "--visualize", utf8 "-m",
        utf8 "-7"] :=
    ⟨by decide, by decide, by decide⟩
  obtain ⟨-, -, hreads, -, -⟩ := parse_reads_groups Commands.Learn.options hnamed
  obtain ⟨args, hargs, hanswers⟩ := hreads _ _ hgrouped
  refine ⟨hnamed, args, hargs, ?_, ?_, ?_, ?_⟩
  · exact (hanswers _).trans (by decide)
  · exact (hanswers _).trans (by decide)
  · exact (hanswers _).trans (by decide)
  · exact (hanswers _).trans (by decide)

end Arguments

end Substitutability
