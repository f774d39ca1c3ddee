import Substitutability.Files.Tree
import Substitutability.Proofs.Sorted

/-!
# Files after a write

A write changes what one file contains, and no folder. The way to a place leads through
folders only, so a path that could be written leads to the same place afterwards, where the
new content is found and another one can be written.
-/

set_option autoImplicit false

namespace Substitutability.FileTree

variable {t t' : FileTree} {path content : Bytes} {place : Place}

theorem write_eq_some_iff :
    t.write path content = some t' ↔ ∃ place, t.resolve path = .ok place ∧
      t.isFolder place = false ∧ t' = { t with contents := t.contents.insert place content } := by
  rw [write]
  cases t.resolve path with
  | error fault => simp
  | ok place =>
    simp only [Except.ok.injEq, exists_eq_left']
    cases t.isFolder place with
    | true => simp
    | false =>
      simp only [Bool.false_eq_true, if_false, Option.some.injEq, true_and]
      exact eq_comm

theorem isFolder_of_enter {part : Bytes} {next : Place} (h : t.enter place part = .ok next) :
    t.isFolder place = true := by
  by_contra hfolder
  rw [enter, statusAt, if_neg hfolder] at h
  cases hcontent : t.contents.contains place with
  | true =>
    rw [hcontent] at h
    cases h
  | false =>
    rw [hcontent] at h
    cases h

theorem enter_of_folders {part : Bytes} {next : Place} (hfolders : t'.folders = t.folders)
    (h : t.enter place part = .ok next) : t'.enter place part = .ok next := by
  have hfolder := isFolder_of_enter h
  have hfolder' : t'.isFolder place = true := by
    rwa [isFolder, hfolders]
  have hstatus : t.statusAt place = .folder := by rw [statusAt, if_pos hfolder]
  have hstatus' : t'.statusAt place = .folder := by rw [statusAt, if_pos hfolder']
  rw [enter, hstatus] at h
  rw [enter, hstatus']
  exact h

theorem walk_of_folders {parts : List Bytes} {goal : Place} (hfolders : t'.folders = t.folders)
    (h : t.walk place parts = .ok goal) : t'.walk place parts = .ok goal := by
  induction parts generalizing place with
  | nil => exact h
  | cons part rest ih =>
    rw [walk] at h ⊢
    cases henter : t.enter place part with
    | error fault =>
      rw [henter] at h
      cases h
    | ok next =>
      rw [henter] at h
      rw [enter_of_folders hfolders henter]
      exact ih h

theorem resolve_of_folders (hfolders : t'.folders = t.folders) (h : t.resolve path = .ok place) :
    t'.resolve path = .ok place := by
  rw [resolve] at h ⊢
  split at h
  · cases h
  · split at h
    · cases h
    · rename_i hlength
      rw [if_neg hlength]
      exact walk_of_folders hfolders h

theorem resolve_of_write (h : t.write path content = some t') :
    ∃ place, t'.resolve path = .ok place ∧ t'.isFolder place = false ∧
      t'.contents.find? place = some content := by
  obtain ⟨place, hresolve, hfolder, rfl⟩ := write_eq_some_iff.1 h
  refine ⟨place, resolve_of_folders (t := t) rfl hresolve, hfolder, ?_⟩
  exact SortedMap.find?_alter_self place _ t.contents

theorem read_of_write (h : t.write path content = some t') : t'.read path = .text content := by
  obtain ⟨place, hresolve, hfolder, hcontent⟩ := resolve_of_write h
  rw [read, hresolve]
  simp only [hfolder, hcontent, Bool.false_eq_true, if_false]

theorem exists_write_of_write (h : t.write path content = some t') (content' : Bytes) :
    ∃ t'', t'.write path content' = some t'' := by
  obtain ⟨place, hresolve, hfolder, -⟩ := resolve_of_write h
  exact ⟨_, write_eq_some_iff.2 ⟨place, hresolve, hfolder, rfl⟩⟩

end Substitutability.FileTree
