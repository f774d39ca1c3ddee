import Substitutability.Proofs.Files.Tree
import Substitutability.Proofs.Text.Words

/-!
# Files beside each other

A path and the same path with another extension lead through the same folders and part only
at their last step. They name one place exactly if the system sees one path, that is if they
are equal up to the first NUL byte. Otherwise a file can be written under each of them
without any change to the other.
-/

set_option autoImplicit false

namespace Substitutability

/-! ## Paths and their extensions -/

namespace Path

variable {path x y : Bytes}

def stem (path : Bytes) : Bytes :=
  path.take (path.length - (extension path).length)

theorem fileName_suffix (path : Bytes) : fileName path <:+ path := by
  have hprefix := List.takeWhile_prefix (l := path.reverse) (· != slash)
  rw [fileName, ← List.reverse_prefix, List.reverse_reverse]
  exact hprefix

theorem slash_not_mem_fileName (path : Bytes) : slash ∉ fileName path := by
  rw [fileName, List.mem_reverse]
  intro h
  have hne := List.mem_takeWhile_imp h
  simp at hne

theorem extension_suffix_fileName (path : Bytes) : extension path <:+ fileName path := by
  rw [extension]
  generalize fileName path = name
  have hsplit := List.takeWhile_append_dropWhile (p := (· != period)) (l := name.reverse)
  have hrest := List.head?_dropWhile_not (· != period) name.reverse
  simp only
  generalize name.reverse.takeWhile (· != period) = tail at hsplit ⊢
  generalize name.reverse.dropWhile (· != period) = rest at hsplit hrest
  have hname : name = rest.reverse ++ tail.reverse := by
    rw [← List.reverse_append, hsplit, List.reverse_reverse]
  split_ifs with hdots hlength
  · exact List.nil_suffix
  · exact List.nil_suffix
  · cases rest with
    | nil =>
      rw [hname] at hlength
      simp at hlength
    | cons b rest =>
      obtain rfl : b = period := by simpa using hrest
      exact ⟨rest.reverse, by rw [hname, List.reverse_cons, List.append_assoc]; rfl⟩

theorem stem_append_extension (path : Bytes) : stem path ++ extension path = path := by
  obtain ⟨front, hfront⟩ := (extension_suffix_fileName path).trans (fileName_suffix path)
  have hlength := congrArg List.length hfront
  rw [List.length_append] at hlength
  have hcut : path.length - (extension path).length = front.length := by omega
  have hstem : stem path = front := by
    rw [stem, hcut]
    conv_lhs => rw [← hfront]
    exact List.take_left
  rw [hstem, hfront]

theorem slash_not_mem_extension (path : Bytes) : slash ∉ extension path := by
  intro h
  exact slash_not_mem_fileName path ((extension_suffix_fileName path).subset h)

theorem visible_append_of_mem (h : 0 ∈ x) (y : Bytes) : visible (x ++ y) = visible x := by
  induction x with
  | nil => cases h
  | cons b rest ih =>
    rw [visible, Bytes.untilNul] at ih ⊢
    rw [visible, Bytes.untilNul, List.cons_append, List.takeWhile_cons, List.takeWhile_cons]
    by_cases hb : b = 0
    · simp [hb]
    · have hrest : 0 ∈ rest := (List.mem_cons.1 h).resolve_left (Ne.symm hb)
      rw [ih hrest]
      rfl

theorem visible_append_of_not_mem (h : 0 ∉ x) (y : Bytes) :
    visible (x ++ y) = x ++ visible y := by
  rw [visible, Bytes.untilNul, List.takeWhile_append_of_pos]
  · rfl
  · intro b hb
    simpa using fun hzero : b = 0 => h (hzero ▸ hb)

theorem visible_of_not_mem (h : 0 ∉ x) : visible x = x := by
  have hvisible := visible_append_of_not_mem h []
  have hnil : visible [] = [] := rfl
  rwa [hnil, List.append_nil] at hvisible

theorem slash_not_mem_visible (h : slash ∉ x) : slash ∉ visible x :=
  fun hmem => h (List.takeWhile_subset _ hmem)

theorem withExtension_eq (extension' path : Bytes) :
    withExtension extension' path = stem path ++ extension' := rfl

theorem visible_withExtension_iff {extension' : Bytes} (hpath : 0 ∉ path)
    (hextension : 0 ∉ extension') :
    visible path = visible (withExtension extension' path) ↔ extension path = extension' := by
  have hstem : 0 ∉ stem path := fun h => hpath (List.mem_of_mem_take h)
  rw [withExtension_eq, visible_append_of_not_mem hstem, visible_of_not_mem hextension,
    visible_of_not_mem hpath]
  constructor
  · intro h
    exact List.append_cancel_left ((stem_append_extension path).trans h)
  · rintro rfl
    exact (stem_append_extension path).symm

theorem parts_of_not_mem (h : slash ∉ x) : parts x = [x] := by
  have hjoin : Bytes.splitOn slash (Bytes.join [slash] [x]) = [x] :=
    Bytes.splitOn_join (List.cons_ne_nil x []) (List.forall_mem_singleton.2 h)
  rwa [Bytes.join] at hjoin

theorem exists_parts_append (front : Bytes) : ∃ folders name, ∀ x, slash ∉ x →
    parts (front ++ x) = folders ++ [name ++ x] := by
  induction front with
  | nil => exact ⟨[], [], fun x h => parts_of_not_mem h⟩
  | cons b rest ih =>
    obtain ⟨folders, name, hparts⟩ := ih
    by_cases hb : b = slash
    · refine ⟨[] :: folders, name, fun x hx => ?_⟩
      have hrest := hparts x hx
      rw [parts, Bytes.splitOn] at hrest
      rw [List.cons_append, parts, Bytes.splitOn, Bytes.pieces, if_pos (by simpa using hb), hrest]
      rfl
    · cases folders with
      | nil =>
        refine ⟨[], b :: name, fun x hx => ?_⟩
        have hrest := hparts x hx
        rw [parts, Bytes.splitOn] at hrest
        rw [List.cons_append, parts, Bytes.splitOn, Bytes.pieces, if_neg (by simpa using hb), hrest]
        rfl
      | cons folder folders =>
        refine ⟨(b :: folder) :: folders, name, fun x hx => ?_⟩
        have hrest := hparts x hx
        rw [parts, Bytes.splitOn] at hrest
        rw [List.cons_append, parts, Bytes.splitOn, Bytes.pieces, if_neg (by simpa using hb), hrest]
        rfl

/-- The part leads one step down, and neither up nor nowhere. -/
def LeadsDown (part : Bytes) : Prop :=
  part ≠ [] ∧ part ≠ utf8 "." ∧ part ≠ utf8 ".."

theorem leadsDown_of_length {part : Bytes} (h : 3 ≤ part.length) : LeadsDown part := by
  refine ⟨?_, ?_, ?_⟩ <;>
  · rintro rfl
    revert h
    decide

end Path

/-! ## Places -/

namespace FileTree

variable {t t' : FileTree} {place next goal p : Place} {part path other content : Bytes}
  {parts : List Bytes}

theorem enter_cases (h : t.enter place part = .ok next) :
    (Path.LeadsDown part ∧ next = place ++ [part]) ∨
      (¬Path.LeadsDown part ∧ next.length ≤ place.length) := by
  have hstatus : t.statusAt place = .folder := by rw [statusAt, if_pos (isFolder_of_enter h)]
  rw [enter, hstatus] at h
  simp only at h
  split_ifs at h with hlength hhere hup
  · obtain rfl := Except.ok.inj h
    refine .inr ⟨fun hdown => ?_, Nat.le_refl _⟩
    exact hhere.elim hdown.1 hdown.2.1
  · obtain rfl := Except.ok.inj h
    exact .inr ⟨fun hdown => hdown.2.2 hup, by simp⟩
  · obtain rfl := Except.ok.inj h
    exact .inl ⟨⟨fun h => hhere (.inl h), fun h => hhere (.inr h), hup⟩, rfl⟩

theorem walk_append (t : FileTree) (place : Place) (xs ys : List Bytes) :
    t.walk place (xs ++ ys) = (t.walk place xs).bind fun goal => t.walk goal ys := by
  induction xs generalizing place with
  | nil => rfl
  | cons part rest ih =>
    rw [List.cons_append, walk, walk]
    cases t.enter place part with
    | error fault => rfl
    | ok next => exact ih next

theorem walk_snoc (h : t.walk place (parts ++ [part]) = .ok goal) :
    ∃ folder, t.walk place parts = .ok folder ∧ t.enter folder part = .ok goal := by
  rw [walk_append] at h
  cases hfolder : t.walk place parts with
  | error fault =>
    rw [hfolder] at h
    cases h
  | ok folder =>
    rw [hfolder] at h
    refine ⟨folder, rfl, ?_⟩
    have hwalk : t.walk folder [part] = .ok goal := h
    rw [walk] at hwalk
    cases henter : t.enter folder part with
    | error fault =>
      rw [henter] at hwalk
      cases hwalk
    | ok next =>
      rw [henter] at hwalk
      exact hwalk

/-- Two endings of one path lead to one place only if they are equal; the second of them is
long enough to lead down. -/
theorem eq_of_walk_append {front x y : Bytes} (hx : Path.slash ∉ x) (hy : Path.slash ∉ y)
    (hlong : 3 ≤ y.length) (hp : t.walk [] (Path.parts (front ++ x)) = .ok p)
    (hq : t.walk [] (Path.parts (front ++ y)) = .ok p) : x = y := by
  obtain ⟨folders, name, hparts⟩ := Path.exists_parts_append front
  rw [hparts x hx] at hp
  rw [hparts y hy] at hq
  obtain ⟨folder, hfolder, hp⟩ := walk_snoc hp
  obtain ⟨folder', hfolder', hq⟩ := walk_snoc hq
  obtain rfl : folder = folder' := Except.ok.inj (hfolder.symm.trans hfolder')
  have hdown : Path.LeadsDown (name ++ y) :=
    Path.leadsDown_of_length (by rw [List.length_append]; omega)
  obtain ⟨-, rfl⟩ := (enter_cases hq).resolve_right fun h => h.1 hdown
  rcases enter_cases hp with ⟨-, hplace⟩ | ⟨-, hlength⟩
  · have hlast := List.append_cancel_left hplace
    exact (List.append_cancel_left (List.cons.inj hlast).1).symm
  · rw [List.length_append, List.length_singleton] at hlength
    omega

theorem walk_of_resolve (h : t.resolve path = .ok place) :
    t.walk [] (Path.parts (Path.visible path)) = .ok place := by
  rw [resolve] at h
  split at h
  · cases h
  · split at h
    · cases h
    · exact h

theorem resolve_congr (h : Path.visible path = Path.visible other) :
    t.resolve path = t.resolve other := by
  rw [resolve, resolve, h]

theorem visible_eq_of_resolve {extension' : Bytes} (hslash : Path.slash ∉ extension')
    (hnul : 0 ∉ extension') (hlong : 3 ≤ extension'.length) (hp : t.resolve path = .ok place)
    (hq : t.resolve (Path.withExtension extension' path) = .ok place) :
    Path.visible path = Path.visible (Path.withExtension extension' path) := by
  have hpath := walk_of_resolve hp
  have hbeside := walk_of_resolve hq
  rw [Path.withExtension_eq] at hbeside ⊢
  rw [← Path.stem_append_extension path] at hpath
  conv_lhs => rw [← Path.stem_append_extension path]
  by_cases hstem : 0 ∈ Path.stem path
  · rw [Path.visible_append_of_mem hstem, Path.visible_append_of_mem hstem]
  · rw [Path.visible_append_of_not_mem hstem] at hpath hbeside ⊢
    rw [Path.visible_append_of_not_mem hstem]
    rw [Path.visible_of_not_mem hnul] at hbeside ⊢
    have hextension := Path.slash_not_mem_visible (Path.slash_not_mem_extension path)
    rw [eq_of_walk_append hextension hslash hlong hpath hbeside]

/-! ## Two writes -/

theorem resolve_of_write_iff (h : t.write path content = some t') :
    t'.resolve other = .ok place ↔ t.resolve other = .ok place := by
  obtain ⟨-, -, -, rfl⟩ := write_eq_some_iff.1 h
  exact ⟨resolve_of_folders rfl, resolve_of_folders rfl⟩

theorem read_of_write_other (h : t.write path content = some t') (hother : t.resolve other = .ok p)
    (hne : t.resolve path ≠ .ok p) : t'.read other = t.read other := by
  have hother' := (resolve_of_write_iff h).2 hother
  obtain ⟨place, hresolve, -, rfl⟩ := write_eq_some_iff.1 h
  have hplace : p ≠ place := fun heq => hne (heq ▸ hresolve)
  rw [read, read, hother, hother']
  simp only [SortedMap.insert, SortedMap.find?_alter_ne hplace]
  rfl

/-- Under a path and the path with another extension, two files are written if the system
tells the paths apart, and otherwise one file twice. -/
theorem read_of_writes {extension' first second : Bytes} {t'' : FileTree}
    (hslash : Path.slash ∉ extension') (hnul : 0 ∉ extension') (hlong : 3 ≤ extension'.length)
    (h : t.write path first = some t')
    (h' : t'.write (Path.withExtension extension' path) second = some t'') :
    t''.read (Path.withExtension extension' path) = .text second ∧
    (Path.visible path ≠ Path.visible (Path.withExtension extension' path) →
      t''.read path = .text first ∧
        t''.resolve path ≠ t''.resolve (Path.withExtension extension' path)) ∧
    (Path.visible path = Path.visible (Path.withExtension extension' path) →
      t''.read path = .text second) := by
  obtain ⟨place, hplace, -, -⟩ := resolve_of_write h
  refine ⟨read_of_write h', fun hne => ?_, fun heq => ?_⟩
  · have hresolve : t'.resolve (Path.withExtension extension' path) ≠ .ok place :=
      fun hbeside => hne (visible_eq_of_resolve hslash hnul hlong hplace hbeside)
    constructor
    · rw [read_of_write_other h' hplace hresolve, read_of_write h]
    · rw [(resolve_of_write_iff h').2 hplace]
      exact fun heq => hresolve ((resolve_of_write_iff h').1 heq.symm)
  · rw [read, resolve_congr heq, ← read]
    exact read_of_write h'

end FileTree

end Substitutability
