import Substitutability.CommandLine.Program
import Substitutability.Proofs.Files.Siblings

/-!
# Which command is called

Words call a command exactly if the first one names it, none of the others asks for help and
they can be read as its arguments. The command is then called once, and what comes of it
decides the exit code. All other words call nothing: they are answered with a text.

What is asked of the commands is told by putting other actions behind them. An answer that
is the same whatever the commands do asks nothing of them.
-/

set_option autoImplicit false

namespace Substitutability.Program

abbrev Acts := Command → Arguments → Job Int32

def withAct (acts : Acts) (c : Command) : Command :=
  { c with act := acts c }

def acting (name version : Bytes) (commands : List Command) (acts : Acts) : Program :=
  ofCommands name version (commands.map (withAct acts))

/-- How words are answered where the commands act so. -/
def answer (name version : Bytes) (commands : List Command) (words : List Bytes) (acts : Acts) :
    Action Int32 :=
  (acting name version commands acts).run words

def IsLast (commands : List Command) (name : Bytes) (c : Command) : Prop :=
  ∃ before after, commands = before ++ c :: after ∧ c.name = name ∧ ∀ d ∈ after, d.name ≠ name

def IsHelp (word : Bytes) : Prop :=
  word = utf8 "--help" ∨ word = utf8 "-h"

/-- The words name a command and can be read as its arguments. -/
inductive Calls (commands : List Command) : List Bytes → Command → Arguments → Prop
  | call {word : Bytes} {rest : List Bytes} {c : Command} {args : Arguments}
      (hhelp : ¬IsHelp word) (hversion : word ≠ utf8 "--version") (hlast : IsLast commands word c)
      (hrest : ∀ other ∈ rest, ¬IsHelp other)
      (hparse : Arguments.parse c.options rest = .ok args) : Calls commands (word :: rest) c args

/-- The words ask for help, of the program or of one of its commands, or for the version. -/
def Inquires (commands : List Command) : List Bytes → Prop
  | [] => False
  | word :: rest => IsHelp word ∨ word = utf8 "--version" ∨
    (∃ c ∈ commands, c.name = word) ∧ ∃ other ∈ rest, IsHelp other

/-- One command is asked to act, once and with these arguments. Its result is the exit code,
which is 1 after a complaint if it fails. -/
def CallsOnce (ask : Acts → Action Int32) (c : Command) (args : Arguments) : Prop :=
  ∃ complaint : Failure → Bytes, ∀ acts, ask acts = do
    match ← ExceptT.run (acts c args) with
    | .ok code => .done code
    | .error failure => .warn (complaint failure) (.done 1)

/-- Nothing is asked of any command; the answer is a text and the exit code. -/
def Says (ask : Acts → Action Int32) (code : Int32) : Prop :=
  ∃ text, (∀ acts, ask acts = .print text (.done code)) ∨
    ∀ acts, ask acts = .warn text (.done code)

variable {name version word : Bytes} {commands : List Command} {words : List Bytes}
  {c : Command} {args : Arguments} {acts : Acts}

/-! ## Which command a word names -/

theorem asksForHelp_iff : asksForHelp word = true ↔ IsHelp word := by
  rw [asksForHelp, Bool.or_eq_true, beq_iff_eq, beq_iff_eq, IsHelp]

theorem any_asksForHelp_iff : words.any asksForHelp = true ↔ ∃ other ∈ words, IsHelp other := by
  rw [List.any_eq_true]
  exact exists_congr fun other => and_congr_right fun _ => asksForHelp_iff

theorem isLast_append_singleton {d : Command} :
    IsLast (commands ++ [d]) word c ↔ if d.name = word then c = d else IsLast commands word c := by
  constructor
  · rintro ⟨before, after, hsplit, hname, hafter⟩
    induction after using List.reverseRecOn with
    | nil =>
      obtain ⟨-, hd⟩ := List.append_inj' hsplit rfl
      obtain rfl : d = c := (List.cons.inj hd).1
      rw [if_pos hname]
    | append_singleton after e =>
      rw [← List.cons_append, ← List.append_assoc] at hsplit
      obtain ⟨hcommands, hd⟩ := List.append_inj' hsplit rfl
      obtain rfl : d = e := (List.cons.inj hd).1
      rw [if_neg (hafter d (by simp))]
      exact ⟨before, after, hcommands, hname, fun e he => hafter e (by simp [he])⟩
  · intro h
    by_cases hd : d.name = word
    · rw [if_pos hd] at h
      subst h
      exact ⟨commands, [], rfl, hd, nofun⟩
    · rw [if_neg hd] at h
      obtain ⟨before, after, rfl, hname, hafter⟩ := h
      refine ⟨before, after ++ [d], by simp, hname, ?_⟩
      intro e he
      rcases List.mem_append.1 he with he | he
      · exact hafter e he
      · rwa [List.mem_singleton.1 he]

theorem find?_ofCommands :
    (ofCommands name version commands).commands.find? word = some c ↔ IsLast commands word c := by
  induction commands using List.reverseRecOn with
  | nil => exact iff_of_false nofun (fun ⟨before, after, h, _⟩ => by simp at h)
  | append_singleton commands d ih =>
    have hmap : (ofCommands name version (commands ++ [d])).commands =
        (ofCommands name version commands).commands.insert d.name d := by
      rw [ofCommands, List.map_append]
      exact SortedMap.ofList_append_singleton _ _ _
    rw [isLast_append_singleton, hmap, SortedMap.insert]
    by_cases hd : d.name = word
    · rw [if_pos hd, ← hd, SortedMap.find?_alter_self, Option.some_inj, eq_comm]
    · rw [if_neg hd, SortedMap.find?_alter_ne (Ne.symm hd), ih]

theorem exists_isLast_iff : (∃ c, IsLast commands word c) ↔ ∃ c ∈ commands, c.name = word := by
  constructor
  · rintro ⟨c, before, after, rfl, hname, -⟩
    exact ⟨c, by simp, hname⟩
  · rintro ⟨c, hc, hname⟩
    induction commands using List.reverseRecOn with
    | nil => cases hc
    | append_singleton commands d ih =>
      by_cases hd : d.name = word
      · exact ⟨d, isLast_append_singleton.2 (by rw [if_pos hd])⟩
      · have hcommands : c ∈ commands := by
          rcases List.mem_append.1 hc with hc | hc
          · exact hc
          · rw [List.mem_singleton.1 hc] at hname
            exact absurd hname hd
        obtain ⟨e, he⟩ := ih hcommands
        exact ⟨e, isLast_append_singleton.2 (by rwa [if_neg hd])⟩

/-! ## Other actions behind the same commands -/

theorem commands_acting (acts : Acts) :
    (acting name version commands acts).commands.toList =
      (ofCommands name version commands).commands.toList.map (Prod.map id (withAct acts)) := by
  rw [acting, ofCommands, ofCommands, ← SortedMap.toList_ofList_map, List.map_map, List.map_map]
  rfl

theorem usage_acting (acts : Acts) :
    (acting name version commands acts).usage = (ofCommands name version commands).usage := by
  rw [usage, usage, commands_acting, List.map_map]
  rfl

theorem find?_acting (acts : Acts) (word : Bytes) :
    (acting name version commands acts).commands.find? word =
      ((ofCommands name version commands).commands.find? word).map (withAct acts) := by
  rw [SortedMap.find?, SortedMap.find?, commands_acting, SortedMap.findList_map]

/-! ## Answers -/

theorem answer_act : answer name version commands words Command.act =
    (ofCommands name version commands).run words := by
  have hsame : commands.map (withAct Command.act) = commands := List.map_id commands
  rw [answer, acting, hsame]

theorem says_of_nil : Says (answer name version commands []) 1 := by
  refine ⟨(ofCommands name version commands).usage, .inr fun acts => ?_⟩
  rw [← usage_acting acts]
  rfl

theorem says_of_help (hhelp : IsHelp word) :
    Says (answer name version commands (word :: words)) 0 := by
  refine ⟨(ofCommands name version commands).usage, .inl fun acts => ?_⟩
  rw [answer, run, plan, if_pos (asksForHelp_iff.2 hhelp), usage_acting]
  rfl

theorem says_of_version (hhelp : ¬IsHelp word) (hversion : word = utf8 "--version") :
    Says (answer name version commands (word :: words)) 0 := by
  refine ⟨name ++ utf8 " " ++ version ++ [Bytes.newline], .inl fun acts => ?_⟩
  rw [answer, run, plan, if_neg (mt asksForHelp_iff.1 hhelp), if_pos hversion]
  rfl

theorem answer_of_word (hhelp : ¬IsHelp word) (hversion : word ≠ utf8 "--version") (acts : Acts) :
    answer name version commands (word :: words) acts =
      match (ofCommands name version commands).commands.find? word with
      | some c => (acting name version commands acts).carryOut
          ((acting name version commands acts).planCommand (withAct acts c) words)
      | none => .warn ((acting name version commands acts).unknownCommand word) (.done 1) := by
  rw [answer, run, plan, if_neg (mt asksForHelp_iff.1 hhelp), if_neg hversion, find?_acting]
  cases (ofCommands name version commands).commands.find? word <;> rfl

theorem says_of_unknown (hhelp : ¬IsHelp word) (hversion : word ≠ utf8 "--version")
    (hunknown : ¬∃ c ∈ commands, c.name = word) :
    Says (answer name version commands (word :: words)) 1 := by
  refine ⟨(ofCommands name version commands).unknownCommand word, .inr fun acts => ?_⟩
  cases hfind : (ofCommands name version commands).commands.find? word with
  | some c => exact absurd (exists_isLast_iff.1 ⟨c, find?_ofCommands.1 hfind⟩) hunknown
  | none =>
    rw [answer_of_word hhelp hversion, hfind]
    rfl

theorem answer_of_isLast (hhelp : ¬IsHelp word) (hversion : word ≠ utf8 "--version")
    (hlast : IsLast commands word c) (acts : Acts) :
    answer name version commands (word :: words) acts =
      (acting name version commands acts).carryOut
        ((acting name version commands acts).planCommand (withAct acts c) words) := by
  rw [answer_of_word hhelp hversion, find?_ofCommands.2 hlast]

theorem says_of_command_help (hhelp : ¬IsHelp word) (hversion : word ≠ utf8 "--version")
    (hlast : IsLast commands word c) (hwords : ∃ other ∈ words, IsHelp other) :
    Says (answer name version commands (word :: words)) 0 := by
  refine ⟨c.usage name, .inl fun acts => ?_⟩
  rw [answer_of_isLast hhelp hversion hlast]
  simp only [planCommand]
  rw [if_pos (any_asksForHelp_iff.2 hwords)]
  rfl

theorem says_of_unreadable {fault : ConfigurationFault} (hhelp : ¬IsHelp word)
    (hversion : word ≠ utf8 "--version") (hlast : IsLast commands word c)
    (hwords : ¬∃ other ∈ words, IsHelp other)
    (hparse : Arguments.parse c.options words = .error fault) :
    Says (answer name version commands (word :: words)) 1 := by
  let p := ofCommands name version commands
  refine ⟨Bytes.lines ((utf8 "Error: " ++ (Failure.configuration fault).message) ::
    p.helpHint c (.configuration fault)), .inr fun acts => ?_⟩
  have hparse' : Arguments.parse (withAct acts c).options words = .error fault := hparse
  rw [answer_of_isLast hhelp hversion hlast]
  simp only [planCommand]
  rw [if_neg (mt any_asksForHelp_iff.1 hwords), hparse']
  rfl

theorem callsOnce_of_calls (h : Calls commands words c args) :
    CallsOnce (answer name version commands words) c args := by
  obtain ⟨hhelp, hversion, hlast, hrest, hparse⟩ := h
  let p := ofCommands name version commands
  refine ⟨fun failure => Bytes.lines ((utf8 "Error: " ++ failure.message) :: p.helpHint c failure),
    fun acts => ?_⟩
  have hparse' : Arguments.parse (withAct acts c).options _ = .ok args := hparse
  rw [answer_of_isLast hhelp hversion hlast]
  simp only [planCommand]
  rw [if_neg (mt any_asksForHelp_iff.1 (by simpa using hrest)), hparse']
  rfl

/-! ## The answer tells whether a command was called -/

theorem Says.not_callsOnce {ask : Acts → Action Int32} {code : Int32} (h : Says ask code) :
    ¬CallsOnce ask c args := by
  rintro ⟨complaint, hcalls⟩
  have hdone : ask (fun _ _ => pure 0) = .done 0 := hcalls _
  obtain ⟨text, htold | htold⟩ := h
  · rw [htold] at hdone
    cases hdone
  · rw [htold] at hdone
    cases hdone

/-- By actions that tell one call from all others. -/
theorem CallsOnce.unique {ask : Acts → Action Int32} {c' : Command} {args' : Arguments}
    (h : CallsOnce ask c args) (h' : CallsOnce ask c' args') : c' = c ∧ args' = args := by
  classical
  obtain ⟨complaint, hcalls⟩ := h
  obtain ⟨complaint', hcalls'⟩ := h'
  let acts : Acts := fun d given => if d = c ∧ given = args then pure 1 else pure 0
  have hself : acts c args = pure 1 := if_pos ⟨rfl, rfl⟩
  by_contra hne
  have hother : acts c' args' = pure 0 := if_neg hne
  have hone := hcalls acts
  have hzero := hcalls' acts
  rw [hself] at hone
  rw [hother, hone] at hzero
  have hcode : (1 : Int32) = 0 := Action.done.inj hzero
  exact absurd hcode (by decide)

theorem says_or_calls : (∃ c args, Calls commands words c args) ∨
    (Inquires commands words ∧ Says (answer name version commands words) 0) ∨
    (¬Inquires commands words ∧ Says (answer name version commands words) 1) := by
  cases words with
  | nil => exact .inr (.inr ⟨id, says_of_nil⟩)
  | cons word rest =>
    by_cases hhelp : IsHelp word
    · exact .inr (.inl ⟨.inl hhelp, says_of_help hhelp⟩)
    by_cases hversion : word = utf8 "--version"
    · exact .inr (.inl ⟨.inr (.inl hversion), says_of_version hhelp hversion⟩)
    by_cases hknown : ∃ c ∈ commands, c.name = word
    case neg =>
      refine .inr (.inr ⟨?_, says_of_unknown hhelp hversion hknown⟩)
      rintro (h | h | ⟨h, -⟩)
      exacts [hhelp h, hversion h, hknown h]
    obtain ⟨c, hlast⟩ := exists_isLast_iff.2 hknown
    by_cases hwords : ∃ other ∈ rest, IsHelp other
    · exact .inr (.inl ⟨.inr (.inr ⟨hknown, hwords⟩),
        says_of_command_help hhelp hversion hlast hwords⟩)
    cases hparse : Arguments.parse c.options rest with
    | ok args => exact .inl ⟨c, args, .call hhelp hversion hlast (by simpa using hwords) hparse⟩
    | error fault =>
      refine .inr (.inr ⟨?_, says_of_unreadable hhelp hversion hlast hwords hparse⟩)
      rintro (h | h | ⟨-, h⟩)
      exacts [hhelp h, hversion h, hwords h]

/-! ## Words from the system -/

theorem wordsOf_started (first : Bytes) (more : List Bytes) (h : ∀ word ∈ words, 0 ∉ word) :
    wordsOf (words.length + 1) (first :: words ++ more) = words := by
  rw [wordsOf, if_pos (Nat.succ_pos _), List.cons_append, List.take_succ_cons, List.take_left,
    List.drop_one, List.tail_cons]
  conv_rhs => rw [← List.map_id words]
  exact List.map_congr_left fun word hword => Path.visible_of_not_mem (h word hword)

/-- Exactly the words that name a command and can be read as its arguments call it, and they
call it once. All other words are answered with a text, and the exit code is 0 if they ask for
help or for the version and 1 if not. The first text that a system starts the program with does
not count. -/
theorem commands_called_once_or_told (name version : Bytes) (commands : List Command)
    (words : List Bytes) :
    answer name version commands words Command.act =
      (ofCommands name version commands).run words ∧
    (∀ c args, CallsOnce (answer name version commands words) c args ↔
      Calls commands words c args) ∧
    ((∃ c args, Calls commands words c args) ∨
      (Inquires commands words ∧ Says (answer name version commands words) 0) ∨
      (¬Inquires commands words ∧ Says (answer name version commands words) 1)) ∧
    (ofCommands name version commands).runStarted 0 [] =
      (ofCommands name version commands).run [] ∧
    ∀ first more, (∀ word ∈ words, 0 ∉ word) →
      (ofCommands name version commands).runStarted (words.length + 1) (first :: words ++ more) =
        (ofCommands name version commands).run words := by
  refine ⟨answer_act, fun c args => ⟨fun honce => ?_, callsOnce_of_calls⟩, says_or_calls, rfl, ?_⟩
  · rcases @says_or_calls name version commands words with
      ⟨c', args', hcalls⟩ | ⟨-, htold⟩ | ⟨-, htold⟩
    · obtain ⟨rfl, rfl⟩ := honce.unique (callsOnce_of_calls hcalls)
      exact hcalls
    · exact absurd honce htold.not_callsOnce
    · exact absurd honce htold.not_callsOnce
  · intro first more hwords
    rw [runStarted, wordsOf_started first more hwords]

end Substitutability.Program
