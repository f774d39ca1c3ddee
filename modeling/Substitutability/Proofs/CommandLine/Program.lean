import Substitutability.CommandLine.Program
import Substitutability.Proofs.Action.Reaching

/-!
# What comes of words that name a command

The command is called only if no word asks for help and its arguments can be read. Its
result is then the exit code, and where it fails the exit code is 1.
-/

set_option autoImplicit false

namespace Substitutability.Program

variable {p : Program} {c : Command} {name : Bytes} {words : List Bytes} {w w' : World}
  {code : Int32}

/-- The ways in which words after the name of a command can end. -/
inductive Ends (p : Program) (c : Command) (words : List Bytes) (w : World) :
    Int32 → World → Prop
  | informed (hhelp : words.any asksForHelp = true) :
    Ends p c words w 0 { w with out := w.out ++ c.usage p.name }
  | rejected {fault : ConfigurationFault} {w' : World} (hhelp : words.any asksForHelp = false)
      (hparse : Arguments.parse c.options words = .error fault) (hkept : w.Kept false w') :
    Ends p c words w 1 w'
  | returned {args : Arguments} {code : Int32} {w' : World}
      (hhelp : words.any asksForHelp = false)
      (hparse : Arguments.parse c.options words = .ok args)
      (hact : (c.act args).Reaches w (.ok code) w') : Ends p c words w code w'
  | failed {args : Arguments} {failure : Failure} {u w' : World}
      (hhelp : words.any asksForHelp = false)
      (hparse : Arguments.parse c.options words = .ok args)
      (hact : (c.act args).Reaches w (.error failure) u) (hkept : u.Kept false w') :
    Ends p c words w 1 w'

theorem of_reaches_fail {failure : Failure} (h : (p.fail c failure).Reaches w code w') :
    code = 1 ∧ w.Kept false w' := by
  obtain ⟨rfl, rfl⟩ := h
  exact ⟨rfl, rfl, rfl, fun _ => rfl⟩

theorem ends_of_reaches_call {args : Arguments} (hhelp : words.any asksForHelp = false)
    (hparse : Arguments.parse c.options words = .ok args)
    (h : (p.carryOut (.call c args)).Reaches w code w') : p.Ends c words w code w' := by
  obtain ⟨result, u, hact, hresult⟩ := Action.reaches_bind.1 h
  cases result with
  | error failure =>
    obtain ⟨rfl, hkept⟩ := of_reaches_fail hresult
    exact .failed hhelp hparse hact hkept
  | ok code' =>
    obtain ⟨rfl, rfl⟩ := hresult
    exact .returned hhelp hparse hact

theorem plan_command (hfind : p.commands.find? name = some c) (hhelp : asksForHelp name = false)
    (hversion : name ≠ utf8 "--version") : p.plan (name :: words) = p.planCommand c words := by
  rw [plan, if_neg (by simp [hhelp]), if_neg hversion, hfind]

/-- Every run of the program on such words ends in one of these ways. -/
theorem ends_of_reaches (hfind : p.commands.find? name = some c)
    (hhelp : asksForHelp name = false) (hversion : name ≠ utf8 "--version")
    (h : (p.run (name :: words)).Reaches w code w') : p.Ends c words w code w' := by
  rw [run, plan_command hfind hhelp hversion, planCommand] at h
  by_cases hwords : words.any asksForHelp = true
  · rw [if_pos hwords] at h
    obtain ⟨rfl, rfl⟩ := h
    exact .informed hwords
  · rw [if_neg hwords] at h
    rw [Bool.not_eq_true] at hwords
    cases hparse : Arguments.parse c.options words with
    | error fault =>
      rw [hparse] at h
      obtain ⟨rfl, hkept⟩ := of_reaches_fail h
      exact .rejected hwords hparse hkept
    | ok args =>
      rw [hparse] at h
      exact ends_of_reaches_call hwords hparse h

end Substitutability.Program
