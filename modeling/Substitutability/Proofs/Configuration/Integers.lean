import Substitutability.Commands.Options
import Substitutability.Configuration.Document
import Substitutability.Proofs.Action.Reaching
import Substitutability.Proofs.Text.Integer

/-!
# Integers on the command line and in the environment

The value of an option and the value of a variable are read as integers in the same way.
Both are the number that all of the text spells, if 32 bits hold it, and what is said
against any other text names it.
-/

set_option autoImplicit false

namespace Substitutability

/-- All that reads a text as an integer gives this result, or fails if there is none. -/
structure ReadsAlike (text : Bytes) (result : Option Int32) : Prop where
  value : Arguments.readInt text = result.elim (.error (.notInteger text)) .ok
  option : ∀ (args : Arguments) (name : Bytes), args.value? name = some text →
    args.int? name = result.elim (.error (.notInteger text)) fun n => .ok (some n)
  /-- An option with a value has no use for the number that stands in for it. -/
  optionOr : ∀ (args : Arguments) (o : OptionSpec) (old : Int32), args.value? o.name = some text →
    args.intOr o old = result.elim (.error (.notInteger text)) .ok
  environment : ∀ (name : String) (w w' : World) (outcome : Except Failure (Option Int32)),
    w.environment.lookup (utf8 name) = some text →
      ((Configuration.variableInt? name).Reaches w outcome w' ↔
        outcome = result.elim (.error (.configuration (.variableNotInteger (utf8 name) text)))
          (fun n => .ok (some n)) ∧ w' = w)

theorem Arguments.readInt_eq (text : Bytes) :
    Arguments.readInt text = (Integer.ofBytes text).elim (.error (.notInteger text)) .ok := by
  rw [Arguments.readInt]
  cases Integer.ofBytes text <;> rfl

theorem Arguments.int?_of_value? {args : Arguments} {name text : Bytes}
    (h : args.value? name = some text) :
    args.int? name =
      (Integer.ofBytes text).elim (.error (.notInteger text)) fun n => .ok (some n) := by
  rw [Arguments.int?, h]
  simp only [Arguments.readInt_eq]
  cases Integer.ofBytes text <;> rfl

theorem Configuration.reaches_variableInt? {name : String} {text : Bytes} {w w' : World}
    {outcome : Except Failure (Option Int32)}
    (h : w.environment.lookup (utf8 name) = some text) :
    (variableInt? name).Reaches w outcome w' ↔
      outcome = (Integer.ofBytes text).elim
        (.error (.configuration (.variableNotInteger (utf8 name) text))) (fun n => .ok (some n)) ∧
      w' = w := by
  rw [variableInt?, Job.reaches_bind_lookup, h]
  cases hn : Integer.ofBytes text with
  | none =>
    simp only [hn]
    exact Iff.rfl
  | some n =>
    simp only [hn]
    exact Iff.rfl

theorem readsAlike_ofBytes (text : Bytes) : ReadsAlike text (Integer.ofBytes text) where
  value := Arguments.readInt_eq text
  option args name h := Arguments.int?_of_value? h
  optionOr args o old h := by
    rw [Arguments.intOr, Arguments.int?_of_value? h]
    cases Integer.ofBytes text <;> rfl
  environment name w w' outcome h := Configuration.reaches_variableInt? h

/-- Options and variables read one kind of integers: the whole text spells a number that
32 bits hold. What is refused has no number in front, or one that is too wide, or more
behind it. -/
theorem integers_read_alike (text : Bytes) :
    ∃ result : Option Int32,
      (∀ n, result.map Int32.toInt = some n ↔
        Integer.Numeral text n ∧ -2147483648 ≤ n ∧ n ≤ 2147483647) ∧
      (result = none ↔ Integer.Refused text) ∧ ReadsAlike text result :=
  ⟨Integer.ofBytes text, fun _ => Integer.toInt_ofBytes_eq_some,
    Integer.ofBytes_eq_none_iff_refused, readsAlike_ofBytes text⟩

example : Arguments.readInt (utf8 " \t+007") = .ok 7 ∧
    Arguments.readInt (utf8 "-2147483648") = .ok (-2147483648) ∧
    Arguments.readInt (utf8 "2147483648") = .error (.notInteger (utf8 "2147483648")) ∧
    Arguments.readInt (utf8 "7 ") = .error (.notInteger (utf8 "7 ")) := by decide

end Substitutability
