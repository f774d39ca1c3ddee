import Substitutability.Configuration.Document
import Substitutability.Proofs.Action.Reaching
import Substitutability.Proofs.Json.Calls

/-!
# How a file of settings is loaded

A loading fails as documented where no file can be opened, where a text is malformed and where
a value is refused. It fails otherwise on a folder, and on a number in the text that is too
large for a double.
-/

set_option autoImplicit false

namespace Substitutability.Configuration

variable {path text : Bytes} {reading : Reading} {result : Except Failure Configuration}
  {w w' : World}

/-- What comes of a file of settings, whatever was found at its path. -/
inductive Loads (path : Bytes) : Reading → Except Failure Configuration → Prop
  | unopened : Loads path .nothing (.error (.input (.configurationUnopened path)))
  | folder : Loads path .folder (.error .documentIsFolder)
  /-- However many calls are left to the reader, it finds no value. -/
  | malformed {text : Bytes}
      (h : ∀ fuel, 2 * text.length + 2 ≤ fuel →
        (Json.value fuel (Json.skipMark text)).map Prod.fst = .error .malformed) :
    Loads path (.text text) (.error (.input (.configurationMalformed path .malformed)))
  | overflow {text literal : Bytes} (hread : Json.read text = .error (.overflow literal))
      (h : Json.Overflows text literal) :
    Loads path (.text text) (.error (.document (.overflow literal)))
  | refused {text : Bytes} {json : Json} {fault : ConfigurationFault}
      (hread : Json.read text = .ok json) (h : merge? json {} = .error fault) :
    Loads path (.text text) (.error (.configuration fault))
  | loaded {text : Bytes} {json : Json} {c : Configuration}
      (hread : Json.read text = .ok json) (h : merge? json {} = .ok c) :
    Loads path (.text text) (.ok c)

/-- The ends that are promised: settings, a fault of the input, a fault of the settings. -/
def Documented : Except Failure Configuration → Prop
  | .ok _ => True
  | .error (.input _) => True
  | .error (.configuration _) => True
  | .error (.partition _) => False
  | .error (.document _) => False
  | .error .documentIsFolder => False

/-- The reader stops at a number of the text, for which there is no double. -/
def HoldsOverflow (text : Bytes) : Prop :=
  ∃ literal, Json.read text = .error (.overflow literal)

theorem Loads.read_of_malformed
    (h : ∀ fuel, 2 * text.length + 2 ≤ fuel →
      (Json.value fuel (Json.skipMark text)).map Prod.fst = .error .malformed) :
    Json.read text = .error .malformed := by
  rw [← Json.map_value_eq_read le_rfl]
  exact h _ le_rfl

theorem loads_of_read (h : Json.read text = .error .malformed) :
    Loads path (.text text) (.error (.input (.configurationMalformed path .malformed))) :=
  .malformed fun _ hfuel => (Json.map_value_eq_read hfuel).trans h

/-- A file is asked for once, and nothing else is asked for or changed. -/
theorem of_reaches_ofFile (h : (ofFile path).Reaches w result w') :
    Loads path (w.files.read path) result ∧ w' = w := by
  rw [ofFile, Job.reaches_bind_read] at h
  cases hreading : w.files.read path with
  | nothing =>
    rw [hreading] at h
    obtain ⟨rfl, rfl⟩ := h
    exact ⟨.unopened, rfl⟩
  | folder =>
    rw [hreading] at h
    obtain ⟨rfl, rfl⟩ := h
    exact ⟨.folder, rfl⟩
  | text text =>
    rw [hreading] at h
    cases hjson : Json.read text with
    | error fault =>
      simp only [hjson] at h
      rcases Json.fault_of_read hjson with rfl | ⟨literal, rfl, hliteral⟩
      · obtain ⟨rfl, rfl⟩ := h
        exact ⟨loads_of_read hjson, rfl⟩
      · obtain ⟨rfl, rfl⟩ := h
        exact ⟨.overflow hjson hliteral, rfl⟩
    | ok json =>
      simp only [hjson] at h
      obtain ⟨rfl, rfl⟩ := Job.reaches_ofConfiguration.1 h
      cases hmerge : merge? json {} with
      | error fault => exact ⟨.refused hjson hmerge, rfl⟩
      | ok c => exact ⟨.loaded hjson hmerge, rfl⟩

theorem Loads.eq_of_ok {c : Configuration} (h : Loads path reading (.ok c))
    (h' : Loads path reading result) : result = .ok c := by
  cases h with
  | loaded hread hmerge =>
    cases h' with
    | malformed hcalls =>
      rw [read_of_malformed hcalls] at hread
      cases hread
    | overflow hread' =>
      rw [hread'] at hread
      cases hread
    | refused hread' hmerge' =>
      obtain rfl := Except.ok.inj (hread.symm.trans hread')
      rw [hmerge'] at hmerge
      cases hmerge
    | loaded hread' hmerge' =>
      obtain rfl := Except.ok.inj (hread.symm.trans hread')
      exact congrArg Except.ok (Except.ok.inj (hmerge'.symm.trans hmerge))

theorem not_holdsOverflow_of_read {found : Except Json.Fault Json} (hread : Json.read text = found)
    (h : ∀ literal, found ≠ .error (.overflow literal)) : ¬HoldsOverflow text := by
  rintro ⟨literal, hoverflow⟩
  exact h literal (hread.symm.trans hoverflow)

theorem Loads.documented_iff (h : Loads path reading result) :
    Documented result ↔
      reading ≠ .folder ∧ ∀ text, reading = .text text → ¬HoldsOverflow text := by
  cases h with
  | unopened => exact iff_of_true trivial ⟨nofun, nofun⟩
  | folder => exact iff_of_false id fun h => h.1 rfl
  | malformed hcalls =>
    refine iff_of_true trivial ⟨nofun, ?_⟩
    rintro _ ⟨⟩
    exact not_holdsOverflow_of_read (read_of_malformed hcalls) nofun
  | overflow hread => exact iff_of_false id fun h => h.2 _ rfl ⟨_, hread⟩
  | refused hread =>
    refine iff_of_true trivial ⟨nofun, ?_⟩
    rintro _ ⟨⟩
    exact not_holdsOverflow_of_read hread nofun
  | loaded hread =>
    refine iff_of_true trivial ⟨nofun, ?_⟩
    rintro _ ⟨⟩
    exact not_holdsOverflow_of_read hread nofun

/-! ## Runs of a loading -/

/-- A loading changes nothing, and it ends as documented exactly if its path leads to no folder
and to no text in which a number is too large for a double. In these two cases the failure of the
stream or of the reader is handed on as it is. -/
theorem loading_ends_as_documented (path : Bytes) (w : World) :
    ∃ result, (ofFile path).run w = (result, w) ∧ Loads path (w.files.read path) result ∧
      (Documented result ↔ w.files.read path ≠ .folder ∧
        ∀ text, w.files.read path = .text text → ¬HoldsOverflow text) := by
  obtain ⟨hloads, hworld⟩ := of_reaches_ofFile (Action.reaches_run (ofFile path) w)
  exact ⟨((ofFile path).run w).1, Prod.ext rfl hworld, hloads, hloads.documented_iff⟩

def largeNumber : World where
  files := ⟨SortedMap.ofList [([utf8 "c.json"], utf8 "\x7b\"min_length\": 1e999\x7d")],
    SortedSet.empty⟩
  environment := []
  clock := ⟨⟨2024, 1, 31, 8, 5, 0⟩, ⟨2024, 1, 31, 9, 5, 0⟩, 0⟩
  reports := []
  out := []
  err := []

/-- The failure of the reader is neither one of the input nor one of the settings. -/
theorem large_number_escapes :
    ((ofFile (utf8 "c.json")).run largeNumber).1 =
        .error (.document (.overflow (utf8 "1e999"))) ∧
      ¬Documented ((ofFile (utf8 "c.json")).run largeNumber).1 := by
  have hresult : ((ofFile (utf8 "c.json")).run largeNumber).1 =
      .error (.document (.overflow (utf8 "1e999"))) := by
    decide +kernel
  rw [hresult]
  exact ⟨rfl, id⟩

end Substitutability.Configuration
