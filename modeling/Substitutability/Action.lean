import Substitutability.Files.Tree
import Substitutability.Number.Basic

/-!
# Actions

A command is an action: a tree of requests to its surroundings, each with what
to do for every answer. `run` answers the requests from a world of files, an
environment and a clock, and collects what was printed; this is the meaning of a
command.
-/

set_option autoImplicit false

namespace Substitutability

structure Moment where
  year : Nat
  month : Nat
  day : Nat
  hour : Nat
  minute : Nat
  second : Nat
  deriving DecidableEq, Repr

namespace Moment

def padded (width n : Nat) : Bytes :=
  let digits := Bytes.ofNat n
  List.replicate (width - digits.length) 48 ++ digits

def date (m : Moment) : Bytes :=
  Bytes.join (utf8 "-") [padded 4 m.year, padded 2 m.month, padded 2 m.day]

def time (m : Moment) (separator : String) : Bytes :=
  Bytes.join (utf8 separator) [padded 2 m.hour, padded 2 m.minute, padded 2 m.second]

/-- As in `2024-01-31 08:05:00 UTC`. -/
def timestamp (m : Moment) : Bytes :=
  m.date ++ utf8 " " ++ m.time ":" ++ utf8 " UTC"

end Moment

/-- One reading of the clock: the time in two zones and a count of nanoseconds. -/
structure Clock where
  universal : Moment
  here : Moment
  nanoseconds : Nat
  deriving DecidableEq, Repr

def Clock.secondsTo (start stop : Clock) : Double :=
  Double.ofRatio false (stop.nanoseconds - start.nanoseconds) 1000000000

structure Progress where
  stage : Bytes
  current : Nat
  total : Nat
  message : Bytes
  deriving DecidableEq, Repr

inductive Action (α : Type) : Type
  | done (result : α)
  | status (path : Bytes) (next : Status → Action α)
  | names (folder : Bytes) (next : Except PathFault (List Bytes) → Action α)
  | read (path : Bytes) (next : Reading → Action α)
  | write (path content : Bytes) (next : Bool → Action α)
  | lookup (name : Bytes) (next : Option Bytes → Action α)
  | clock (next : Clock → Action α)
  | progress (report : Progress) (next : Action α)
  | print (text : Bytes) (next : Action α)
  | warn (text : Bytes) (next : Action α)

structure World where
  files : FileTree
  environment : List (Bytes × Bytes)
  clock : Clock
  reports : List Progress
  out : Bytes
  err : Bytes

namespace Action

variable {α β : Type}

def bind : Action α → (α → Action β) → Action β
  | .done a, k => k a
  | .status path next, k => .status path fun s => (next s).bind k
  | .names folder next, k => .names folder fun ns => (next ns).bind k
  | .read path next, k => .read path fun found => (next found).bind k
  | .write path content next, k => .write path content fun ok => (next ok).bind k
  | .lookup name next, k => .lookup name fun value => (next value).bind k
  | .clock next, k => .clock fun c => (next c).bind k
  | .progress report next, k => .progress report (next.bind k)
  | .print text next, k => .print text (next.bind k)
  | .warn text next, k => .warn text (next.bind k)

instance : Monad Action where
  pure := .done
  bind := bind

def run : Action α → World → α × World
  | .done a, w => (a, w)
  | .status path next, w => (next (w.files.status path)).run w
  | .names folder next, w => (next (w.files.names folder)).run w
  | .read path next, w => (next (w.files.read path)).run w
  | .write path content next, w =>
    match w.files.write path content with
    | some files => (next true).run { w with files := files }
    | none => (next false).run w
  | .lookup name next, w => (next (w.environment.lookup name)).run w
  | .clock next, w => (next w.clock).run w
  | .progress report next, w => next.run { w with reports := w.reports ++ [report] }
  | .print text next, w => next.run { w with out := w.out ++ text }
  | .warn text next, w => next.run { w with err := w.err ++ text }

theorem run_bind (a : Action α) (k : α → Action β) (w : World) :
    (a.bind k).run w = (k (a.run w).1).run (a.run w).2 := by
  induction a generalizing w with
  | done a => rfl
  | write path content next ih =>
    simp only [bind, run]
    split <;> exact ih _ _
  | status path next ih => exact ih _ _
  | names folder next ih => exact ih _ _
  | read path next ih => exact ih _ _
  | lookup name next ih => exact ih _ _
  | clock next ih => exact ih _ _
  | progress report next ih => exact ih _
  | print text next ih => exact ih _
  | warn text next ih => exact ih _

end Action

abbrev Job (α : Type) := ExceptT Failure Action α

namespace Job

variable {α : Type}

def ofAction (a : Action α) : Job α :=
  ExceptT.lift a

def failInput (fault : InputFault) : Job α :=
  throw (.input fault)

def ofConfiguration : Except ConfigurationFault α → Job α
  | .ok a => pure a
  | .error fault => throw (.configuration fault)

def ofDocument : Except Json.Fault α → Job α
  | .ok a => pure a
  | .error fault => throw (.document fault)

def print (text : Bytes) : Job Unit :=
  ofAction (.print text (.done ()))

def printLine (text : Bytes) : Job Unit :=
  print (text ++ [Bytes.newline])

def warn (text : Bytes) : Job Unit :=
  ofAction (.warn text (.done ()))

def progress (report : Progress) : Job Unit :=
  ofAction (.progress report (.done ()))

def clock : Job Clock :=
  ofAction (.clock .done)

def timed {β : Type} (compute : Unit → β) : Job (β × Double) := do
  let start ← clock
  let value := compute ()
  let stop ← clock
  return (value, start.secondsTo stop)

def read (path : Bytes) : Job Reading :=
  ofAction (.read path .done)

def status (path : Bytes) : Job Status :=
  ofAction (.status path .done)

def names (folder : Bytes) : Job (Except PathFault (List Bytes)) :=
  ofAction (.names folder .done)

def lookup (name : Bytes) : Job (Option Bytes) :=
  ofAction (.lookup name .done)

def write (path content : Bytes) (fault : InputFault) : Job Unit := do
  if ← ofAction (.write path content .done) then pure () else failInput fault

def run (job : Job α) (w : World) : Except Failure α × World :=
  Action.run (ExceptT.run job) w

end Job

end Substitutability
