import Substitutability.Configuration.Document
import Substitutability.Proofs.Action.Reaching

/-!
# Settings from variables

Without a file the settings are the defaults, with the values of the variables that are set. A
variable that has to be an integer, and is set to something else, ends the loading.
-/

set_option autoImplicit false

namespace Substitutability.Configuration

variable {result : Except Failure Configuration} {w w' : World}

def integerVariables : List String :=
  ["SLG_MIN_LENGTH", "SLG_MAX_LENGTH", "SLG_CONTEXT_WIDTH"]

def intOf? (environment : List (Bytes × Bytes)) (name : String) : Option Int32 :=
  (environment.lookup (utf8 name)).bind Integer.ofBytes

def ofVariables (environment : List (Bytes × Bytes)) : Configuration :=
  let c : Configuration := {}
  { c with
    minLength := (intOf? environment "SLG_MIN_LENGTH").getD c.minLength
    maxLength := intOf? environment "SLG_MAX_LENGTH"
    contextWidth := (intOf? environment "SLG_CONTEXT_WIDTH").getD c.contextWidth
    granularity := (environment.lookup (utf8 "SLG_GRANULARITY")).getD c.granularity }

def NoInteger (environment : List (Bytes × Bytes)) (name : String) (value : Bytes) : Prop :=
  environment.lookup (utf8 name) = some value ∧ Integer.ofBytes value = none

/-- What comes of the variables. -/
inductive Gathers (environment : List (Bytes × Bytes)) : Except Failure Configuration → Prop
  | refused {name : String} {value : Bytes} (hname : name ∈ integerVariables)
      (h : NoInteger environment name value) :
    Gathers environment (.error (.configuration (.variableNotInteger (utf8 name) value)))
  | gathered (h : ∀ name ∈ integerVariables, ∀ value, ¬NoInteger environment name value) :
    Gathers environment (.ok (ofVariables environment))

theorem of_reaches_variableInt? {name : String} {n : Except Failure (Option Int32)}
    (h : (variableInt? name).Reaches w n w') :
    w' = w ∧ ((∃ value, NoInteger w.environment name value ∧
        n = .error (.configuration (.variableNotInteger (utf8 name) value))) ∨
      (∀ value, ¬NoInteger w.environment name value) ∧ n = .ok (intOf? w.environment name)) := by
  rw [variableInt?, Job.reaches_bind_lookup] at h
  cases hvalue : w.environment.lookup (utf8 name) with
  | none =>
    rw [hvalue] at h
    obtain ⟨rfl, rfl⟩ := h
    simp [NoInteger, intOf?, hvalue]
  | some value =>
    simp only [hvalue] at h
    cases hn : Integer.ofBytes value with
    | none =>
      simp only [hn] at h
      obtain ⟨rfl, rfl⟩ := h
      exact ⟨rfl, .inl ⟨value, ⟨hvalue, hn⟩, rfl⟩⟩
    | some k =>
      simp only [hn] at h
      obtain ⟨rfl, rfl⟩ := h
      simp [NoInteger, intOf?, hvalue, hn]

theorem of_reaches_ofEnvironment (h : ofEnvironment.Reaches w result w') :
    Gathers w.environment result ∧ w' = w := by
  have hstep : ∀ {name : String} {k : Option Int32 → Job Configuration},
      name ∈ integerVariables → (variableInt? name >>= k).Reaches w result w' →
      (Gathers w.environment result ∧ w' = w) ∨
        (∀ value, ¬NoInteger w.environment name value) ∧
          (k (intOf? w.environment name)).Reaches w result w' := by
    intro name k hname h
    rcases Job.reaches_bind.1 h with ⟨failure, hfirst, rfl⟩ | ⟨n, u, hfirst, hrest⟩
    · obtain ⟨rfl, ⟨value, hvalue, hfault⟩ | ⟨-, hn⟩⟩ := of_reaches_variableInt? hfirst
      · cases hfault
        exact .inl ⟨.refused hname hvalue, rfl⟩
      · cases hn
    · obtain ⟨rfl, ⟨value, -, hfault⟩ | ⟨hall, hn⟩⟩ := of_reaches_variableInt? hfirst
      · cases hfault
      · cases hn
        exact .inr ⟨hall, hrest⟩
  rcases hstep (by decide) h with h | ⟨hminimum, h⟩
  · exact h
  rcases hstep (by decide) h with h | ⟨hmaximum, h⟩
  · exact h
  rcases hstep (by decide) h with h | ⟨hwidth, h⟩
  · exact h
  obtain ⟨rfl, rfl⟩ := h
  refine ⟨.gathered ?_, rfl⟩
  simpa [integerVariables] using ⟨hminimum, hmaximum, hwidth⟩

theorem Gathers.eq_of_ok {environment : List (Bytes × Bytes)} {c : Configuration}
    (h : Gathers environment (.ok c)) (h' : Gathers environment result) : result = .ok c := by
  cases h with
  | gathered hall =>
    cases h' with
    | refused hname h => exact absurd h (hall _ hname _)
    | gathered => rfl

end Substitutability.Configuration
