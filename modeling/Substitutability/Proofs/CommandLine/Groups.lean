import Mathlib.Data.List.Nodup
import Mathlib.Data.List.TakeWhile
import Substitutability.CommandLine.Arguments

/-!
# Words as groups

A list of words is read group by group. A group is one word, a flag or an option with its
value behind an equals sign, or two words, an option and its value, whatever the value looks
like. Where the names of the options are distinct and have no equals sign, the words are
read exactly if they are allowed groups one after the other.
-/

set_option autoImplicit false

namespace Substitutability

/-- The value is one of the choices, if there are any. -/
def OptionSpec.Admits (o : OptionSpec) (value : Bytes) : Prop :=
  o.choices = [] ∨ value ∈ o.choices

instance (o : OptionSpec) (value : Bytes) : Decidable (o.Admits value) :=
  inferInstanceAs (Decidable (_ ∨ _))

/-- A word that names an option names no other one: the names are distinct and without an
equals sign, the short names are distinct letters, or missing. -/
structure WellNamed (options : List OptionSpec) : Prop where
  names : (options.map OptionSpec.name).Nodup
  plain : ∀ o ∈ options, Arguments.equals ∉ o.name
  shorts : ((options.map OptionSpec.short).filter (· ≠ [])).Nodup
  letters : ∀ o ∈ options, o.short.length ≤ 1 ∧ o.short ≠ [Arguments.dash]

inductive Spelling
  | long
  | short
  deriving DecidableEq, Repr

namespace Spelling

def word (o : OptionSpec) : Spelling → Bytes
  | .long => Arguments.dash :: Arguments.dash :: o.name
  | .short => Arguments.dash :: o.short

/-- Only an option that has a short name can be named by it. -/
def Names (spelling : Spelling) (o : OptionSpec) : Prop :=
  spelling = .short → o.short ≠ []

instance (spelling : Spelling) (o : OptionSpec) : Decidable (spelling.Names o) :=
  inferInstanceAs (Decidable (_ → _))

end Spelling

/-- The words that give an option a value. -/
inductive Group
  | flag (option : OptionSpec) (spelling : Spelling)
  | joined (option : OptionSpec) (value : Bytes)
  | apart (option : OptionSpec) (spelling : Spelling) (value : Bytes)
  deriving DecidableEq, Repr

namespace Group

def option : Group → OptionSpec
  | .flag o _ => o
  | .joined o _ => o
  | .apart o _ _ => o

def value : Group → Bytes
  | .flag _ _ => Arguments.flagValue
  | .joined _ value => value
  | .apart _ _ value => value

def words : Group → List Bytes
  | .flag o spelling => [spelling.word o]
  | .joined o value => [Spelling.long.word o ++ Arguments.equals :: value]
  | .apart o spelling value => [spelling.word o, value]

def Allowed (options : List OptionSpec) : Group → Prop
  | .flag o spelling => o ∈ options ∧ spelling.Names o ∧ o.isFlag = true
  | .joined o value => o ∈ options ∧ o.isFlag = false ∧ o.Admits value
  | .apart o spelling value =>
    o ∈ options ∧ spelling.Names o ∧ o.isFlag = false ∧ o.Admits value

instance (options : List OptionSpec) (g : Group) : Decidable (g.Allowed options) :=
  match g with
  | .flag _ _ => inferInstanceAs (Decidable (_ ∧ _))
  | .joined _ _ => inferInstanceAs (Decidable (_ ∧ _))
  | .apart _ _ _ => inferInstanceAs (Decidable (_ ∧ _))

def assignment (g : Group) : Assignment :=
  ⟨g.option.name, g.value⟩

theorem Allowed.option_mem {options : List OptionSpec} {g : Group} (h : g.Allowed options) :
    g.option ∈ options := by
  cases g with
  | flag o spelling => exact h.1
  | joined o value => exact h.1
  | apart o spelling value => exact h.1

end Group

namespace WellNamed

variable {options : List OptionSpec} {o o' : OptionSpec}

theorem eq_of_name_eq (h : WellNamed options) (ho : o ∈ options) (ho' : o' ∈ options)
    (hname : o.name = o'.name) : o = o' :=
  List.inj_on_of_nodup_map h.names ho ho' hname

theorem eq_of_short_eq (h : WellNamed options) (ho : o ∈ options) (ho' : o' ∈ options)
    (hshort : o.short = o'.short) (hne : o.short ≠ []) : o = o' := by
  have hshorts := h.shorts
  rw [List.filter_map] at hshorts
  apply List.inj_on_of_nodup_map hshorts _ _ hshort
  · exact List.mem_filter.2 ⟨ho, by simpa using hne⟩
  · exact List.mem_filter.2 ⟨ho', by simpa [← hshort] using hne⟩

end WellNamed

namespace Arguments

variable {options : List OptionSpec} {o : OptionSpec} {word : Bytes} {given : Option Bytes}

/-! ## Words that name an option -/

theorem findLast?_mem {p : OptionSpec → Bool} (h : findLast? p options = some o) :
    o ∈ options ∧ p o = true :=
  ⟨List.mem_reverse.1 (List.mem_of_find?_eq_some h), List.find?_some h⟩

theorem findLast?_eq_some {p : OptionSpec → Bool} (ho : o ∈ options) (hp : p o = true)
    (honly : ∀ o' ∈ options, p o' = true → o' = o) : findLast? p options = some o := by
  cases hfound : findLast? p options with
  | none => exact absurd hp (List.find?_eq_none.1 hfound o (List.mem_reverse.2 ho))
  | some o' =>
    obtain ⟨ho', hp'⟩ := findLast?_mem hfound
    rw [honly o' ho' hp']

/-- What a word means: it names an option, and it may have the value in it. -/
def Means (word : Bytes) (o : OptionSpec) : Option Bytes → Prop
  | none => ∃ spelling : Spelling, spelling.Names o ∧ word = spelling.word o
  | some value => word = Spelling.long.word o ++ equals :: value

theorem findLast?_name (h : WellNamed options) (ho : o ∈ options) :
    findLast? (·.name == o.name) options = some o := by
  apply findLast?_eq_some ho
  · exact beq_self_eq_true o.name
  intro o' ho' hname
  exact h.eq_of_name_eq ho' ho (by simpa using hname)

theorem findLast?_short (h : WellNamed options) (ho : o ∈ options) (hne : o.short ≠ []) :
    findLast? (·.short == o.short) options = some o := by
  apply findLast?_eq_some ho
  · exact beq_self_eq_true o.short
  intro o' ho' hshort
  have hsame : o'.short = o.short := by simpa using hshort
  exact h.eq_of_short_eq ho' ho hsame (hsame ▸ hne)

theorem bne_equals {name : Bytes} (h : equals ∉ name) : ∀ b ∈ name, (b != equals) = true :=
  fun _ hb => bne_iff_ne.2 fun he => h (he ▸ hb)

theorem takeWhile_name {name : Bytes} (h : equals ∉ name) (rest : Bytes) :
    (name ++ equals :: rest).takeWhile (· != equals) = name := by
  rw [List.takeWhile_append_of_pos (bne_equals h), List.takeWhile_cons_of_neg (by simp),
    List.append_nil]

theorem dropWhile_name {name : Bytes} (h : equals ∉ name) (rest : Bytes) :
    (name ++ equals :: rest).dropWhile (· != equals) = equals :: rest := by
  rw [List.dropWhile_append_of_pos (bne_equals h), List.dropWhile_cons_of_neg (by simp)]

theorem named_long (h : WellNamed options) (ho : o ∈ options) :
    named options (Spelling.long.word o) = (some o, none) := by
  have hplain := bne_equals (h.plain o ho)
  have htake : o.name.takeWhile (· != equals) = o.name := List.takeWhile_eq_self_iff.2 hplain
  have hdrop : o.name.dropWhile (· != equals) = [] := List.dropWhile_eq_nil_iff.2 hplain
  rw [Spelling.word, named, if_pos rfl, htake, hdrop]
  simp only
  rw [findLast?_name h ho, List.tail?]

theorem named_joined (h : WellNamed options) (ho : o ∈ options) (value : Bytes) :
    named options (Spelling.long.word o ++ equals :: value) = (some o, some value) := by
  have hplain := h.plain o ho
  rw [Spelling.word, List.cons_append, List.cons_append, named, if_pos rfl,
    takeWhile_name hplain, dropWhile_name hplain]
  simp only
  rw [findLast?_name h ho, List.tail?]

theorem named_short (h : WellNamed options) (ho : o ∈ options) (hne : o.short ≠ []) :
    named options (Spelling.short.word o) = (some o, none) := by
  obtain ⟨hlength, hdash⟩ := h.letters o ho
  obtain ⟨b, hshort⟩ : ∃ b, o.short = [b] := by
    have hpos := List.length_pos_iff.2 hne
    exact List.length_eq_one_iff.1 (by omega)
  have hb : b ≠ dash := fun hb => hdash (by rw [hshort, hb])
  have hfound := findLast?_short h ho hne
  rw [hshort] at hfound
  rw [Spelling.word, hshort, named, if_neg hb, if_pos rfl, hfound]

theorem means_of_long {rest : Bytes} (hname : o.name = rest.takeWhile (· != equals)) :
    Means (dash :: dash :: rest) o (rest.dropWhile (· != equals)).tail? := by
  have hrest := List.takeWhile_append_dropWhile (p := (· != equals)) (l := rest)
  cases hdrop : rest.dropWhile (· != equals) with
  | nil =>
    rw [hdrop, List.append_nil] at hrest
    refine ⟨.long, (by simp [Spelling.Names]), ?_⟩
    rw [Spelling.word, hname, hrest]
  | cons b value =>
    have hb : b = equals := by
      have hstop := List.head?_dropWhile_not (· != equals) rest
      rw [hdrop] at hstop
      simpa using hstop
    rw [hdrop, hb] at hrest
    show dash :: dash :: rest = Spelling.long.word o ++ equals :: value
    rw [Spelling.word, List.cons_append, List.cons_append, hname, hrest]

theorem means_of_named (h : named options word = (some o, given)) (hdash : word.head? = some dash) :
    o ∈ options ∧ Means word o given := by
  match word, hdash with
  | [_], _ => cases h
  | first :: second :: rest, hdash =>
    obtain rfl : first = dash := by simpa using hdash
    rw [named] at h
    split at h
    · rename_i hsecond
      subst hsecond
      obtain ⟨hfound, rfl⟩ := Prod.mk.inj h
      obtain ⟨ho, hname⟩ := findLast?_mem hfound
      exact ⟨ho, means_of_long (by simpa using hname)⟩
    · split at h
      · rename_i hrest
        subst hrest
        obtain ⟨hfound, rfl⟩ := Prod.mk.inj h
        obtain ⟨ho, hshort⟩ := findLast?_mem hfound
        have hshort : o.short = [second] := by simpa using hshort
        refine ⟨ho, .short, fun _ => by simp [hshort], ?_⟩
        rw [Spelling.word, hshort]
      · cases h

theorem mention_of_named (hdash : word.head? = some dash) (hlong : word ≠ [dash])
    (h : named options word = (some o, given)) : mention options word = .ok (o, given) := by
  have hstart : ¬(word.head? ≠ some dash ∨ word = [dash]) := by simp [hdash, hlong]
  rw [mention, if_neg hstart, h]

theorem mention_of_means (h : WellNamed options) (ho : o ∈ options) (hmeans : Means word o given) :
    mention options word = .ok (o, given) := by
  cases given with
  | none =>
    obtain ⟨spelling, hnames, rfl⟩ := hmeans
    cases spelling with
    | long =>
      exact mention_of_named rfl (by simp [Spelling.word]) (named_long h ho)
    | short =>
      have hne := hnames rfl
      exact mention_of_named rfl (by simp [Spelling.word, hne]) (named_short h ho hne)
  | some value =>
    subst hmeans
    exact mention_of_named rfl (by simp [Spelling.word]) (named_joined h ho value)

theorem means_of_mention (h : mention options word = .ok (o, given)) :
    o ∈ options ∧ Means word o given := by
  rw [mention] at h
  split at h
  · cases h
  · rename_i hstart
    have hdash : word.head? = some dash := by
      by_contra hhead
      exact hstart (.inl hhead)
    split at h
    · rename_i hnamed
      cases h
      exact means_of_named hnamed hdash
    · cases h

/-! ## Groups -/

theorem check_eq_ok {value : Bytes} : o.check value = .ok () ↔ o.Admits value := by
  rw [OptionSpec.check, OptionSpec.Admits]
  split
  · simp [*]
  · simp [*]

theorem assign_eq_ok {value : Bytes} (h : o.Admits value) :
    assign o value = .ok ⟨o.name, value⟩ := by
  rw [assign, check_eq_ok.2 h]
  rfl

theorem admits_of_assign {value : Bytes} {a : Assignment} (h : assign o value = .ok a) :
    o.Admits value := by
  rw [assign] at h
  cases hcheck : o.check value with
  | error fault =>
    rw [hcheck] at h
    cases h
  | ok result => exact check_eq_ok.1 hcheck

theorem assignments_words_append (h : WellNamed options) {g : Group} (hg : g.Allowed options)
    (rest : List Bytes) :
    assignments options (g.words ++ rest) =
      (assignments options rest).map (g.assignment :: ·) := by
  cases g with
  | flag o spelling =>
    obtain ⟨ho, hnames, hflag⟩ := hg
    have hmeans : Means (spelling.word o) o none := ⟨spelling, hnames, rfl⟩
    have hmention := mention_of_means h ho hmeans
    rw [Group.words, List.singleton_append, assignments, hmention]
    simp only [bind, Except.bind, hflag]
    cases assignments options rest <;> rfl
  | joined o value =>
    obtain ⟨ho, hvalue, hadmits⟩ := hg
    have hmeans : Means (Spelling.long.word o ++ equals :: value) o (some value) := rfl
    have hmention := mention_of_means h ho hmeans
    rw [Group.words, List.singleton_append, assignments, hmention]
    simp only [bind, Except.bind, hvalue, assign_eq_ok hadmits]
    cases assignments options rest <;> rfl
  | apart o spelling value =>
    obtain ⟨ho, hnames, hvalue, hadmits⟩ := hg
    have hmeans : Means (spelling.word o) o none := ⟨spelling, hnames, rfl⟩
    have hmention := mention_of_means h ho hmeans
    rw [Group.words, List.cons_append, List.singleton_append, assignments, hmention]
    simp only [bind, Except.bind, hvalue, assign_eq_ok hadmits]
    cases assignments options rest <;> rfl

theorem assignments_words (h : WellNamed options) {groups : List Group}
    (hgroups : ∀ g ∈ groups, g.Allowed options) :
    assignments options (groups.flatMap Group.words) = .ok (groups.map Group.assignment) := by
  induction groups with
  | nil => rfl
  | cons g rest ih =>
    obtain ⟨hg, hrest⟩ := List.forall_mem_cons.1 hgroups
    rw [List.flatMap_cons, assignments_words_append h hg, ih hrest]
    rfl

theorem exists_group {rest : List Bytes} {assigned : List Assignment}
    (h : assignments options (word :: rest) = .ok assigned) :
    ∃ g : Group, ∃ after, g.Allowed options ∧ word :: rest = g.words ++ after := by
  rw [assignments] at h
  cases hmention : mention options word with
  | error fault =>
    rw [hmention] at h
    cases h
  | ok mentioned =>
    obtain ⟨o, given⟩ := mentioned
    rw [hmention] at h
    obtain ⟨ho, hmeans⟩ := means_of_mention hmention
    cases hflag : o.isFlag with
    | true =>
      cases given with
      | none =>
        obtain ⟨spelling, hnames, rfl⟩ := hmeans
        exact ⟨.flag o spelling, rest, ⟨ho, hnames, hflag⟩, rfl⟩
      | some value =>
        simp only [bind, Except.bind, hflag] at h
        cases h
    | false =>
      cases given with
      | some value =>
        subst hmeans
        simp only [bind, Except.bind, hflag] at h
        cases hassign : assign o value with
        | error fault => simp [hassign] at h
        | ok a => exact ⟨.joined o value, rest, ⟨ho, hflag, admits_of_assign hassign⟩, rfl⟩
      | none =>
        obtain ⟨spelling, hnames, rfl⟩ := hmeans
        cases rest with
        | nil =>
          simp only [bind, Except.bind, hflag] at h
          cases h
        | cons value rest =>
          simp only [bind, Except.bind, hflag] at h
          cases hassign : assign o value with
          | error fault => simp [hassign] at h
          | ok a =>
            exact ⟨.apart o spelling value, rest,
              ⟨ho, hnames, hflag, admits_of_assign hassign⟩, rfl⟩

/-- By induction on the number of words: an allowed group comes first, and the words behind
it are read in the same way. -/
theorem exists_groups (h : WellNamed options) {words : List Bytes} {assigned : List Assignment}
    (hassigned : assignments options words = .ok assigned) :
    ∃ groups : List Group, (∀ g ∈ groups, g.Allowed options) ∧
      words = groups.flatMap Group.words := by
  induction hlength : words.length using Nat.strong_induction_on generalizing words assigned with
  | _ n ih =>
    cases words with
    | nil => exact ⟨[], by simp, rfl⟩
    | cons word rest =>
      obtain ⟨g, after, hg, hwords⟩ := exists_group hassigned
      rw [hwords, assignments_words_append h hg] at hassigned
      cases hafter : assignments options after with
      | error fault =>
        rw [hafter] at hassigned
        cases hassigned
      | ok assigned' =>
        have hshort : after.length < n := by
          have := congrArg List.length hwords
          have hpos : 0 < g.words.length := by cases g <;> simp [Group.words]
          rw [List.length_append] at this
          omega
        obtain ⟨groups, hgroups, hrest⟩ := ih after.length hshort hafter rfl
        refine ⟨g :: groups, List.forall_mem_cons.2 ⟨hg, hgroups⟩, ?_⟩
        rw [hwords, List.flatMap_cons, ← hrest]

end Arguments

end Substitutability
