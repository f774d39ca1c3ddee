import Substitutability.Action

/-!
# Results that do not depend on the surroundings

An action always ends in some way if it does so for every answer of its surroundings.
This is said of the tree of requests, so it holds in every world, and also where the
clock moves on between two readings. What an action warns of is kept track of.
-/

set_option autoImplicit false

namespace Substitutability

namespace Action

variable {α β : Type}

/-- The result has the property, whatever the answers are. -/
def Always (P : α → Prop) : Action α → Prop
  | .done a => P a
  | .status _ next => ∀ s, (next s).Always P
  | .names _ next => ∀ ns, (next ns).Always P
  | .read _ next => ∀ found, (next found).Always P
  | .write _ _ next => ∀ ok, (next ok).Always P
  | .lookup _ next => ∀ value, (next value).Always P
  | .clock next => ∀ c, (next c).Always P
  | .progress _ next => next.Always P
  | .print _ next => next.Always P
  | .warn _ next => next.Always P

/-- The warnings and the result after them have the property, whatever the answers are. -/
def Ends (P : Bytes → α → Prop) : Action α → Bytes → Prop
  | .done a, told => P told a
  | .status _ next, told => ∀ s, (next s).Ends P told
  | .names _ next, told => ∀ ns, (next ns).Ends P told
  | .read _ next, told => ∀ found, (next found).Ends P told
  | .write _ _ next, told => ∀ ok, (next ok).Ends P told
  | .lookup _ next, told => ∀ value, (next value).Ends P told
  | .clock next, told => ∀ c, (next c).Ends P told
  | .progress _ next, told => next.Ends P told
  | .print _ next, told => next.Ends P told
  | .warn text next, told => next.Ends P (told ++ text)

theorem Ends.imp {P Q : Bytes → α → Prop} (h : ∀ after a, P after a → Q after a)
    {action : Action α} {told : Bytes} (ha : action.Ends P told) : action.Ends Q told := by
  induction action generalizing told with
  | done a => exact h told a ha
  | status path next ih => exact fun s => ih s (ha s)
  | names folder next ih => exact fun ns => ih ns (ha ns)
  | read path next ih => exact fun found => ih found (ha found)
  | write path content next ih => exact fun ok => ih ok (ha ok)
  | lookup name next ih => exact fun value => ih value (ha value)
  | clock next ih => exact fun c => ih c (ha c)
  | progress report next ih => exact ih ha
  | print text next ih => exact ih ha
  | warn text next ih => exact ih ha

theorem Ends.bind {P : Bytes → β → Prop} {action : Action α} {k : α → Action β} {told : Bytes}
    (ha : action.Ends (fun after a => (k a).Ends P after) told) : (action.bind k).Ends P told := by
  induction action generalizing told with
  | done a => exact ha
  | status path next ih => exact fun s => ih s (ha s)
  | names folder next ih => exact fun ns => ih ns (ha ns)
  | read path next ih => exact fun found => ih found (ha found)
  | write path content next ih => exact fun ok => ih ok (ha ok)
  | lookup name next ih => exact fun value => ih value (ha value)
  | clock next ih => exact fun c => ih c (ha c)
  | progress report next ih => exact ih ha
  | print text next ih => exact ih ha
  | warn text next ih => exact ih ha

theorem Ends.run {P : Bytes → α → Prop} {action : Action α} {told : Bytes}
    (ha : action.Ends P told) (w : World) :
    ∃ text, (action.run w).2.err = w.err ++ text ∧ P (told ++ text) (action.run w).1 := by
  induction action generalizing told w with
  | done a => exact ⟨[], (List.append_nil _).symm, (List.append_nil told).symm ▸ ha⟩
  | status path next ih => exact ih _ (ha _) w
  | names folder next ih => exact ih _ (ha _) w
  | read path next ih => exact ih _ (ha _) w
  | write path content next ih =>
    rw [Action.run]
    split
    · exact ih true (ha true) _
    · exact ih false (ha false) w
  | lookup name next ih => exact ih _ (ha _) w
  | clock next ih => exact ih _ (ha _) w
  | progress report next ih => exact ih ha _
  | print text next ih => exact ih ha _
  | warn text next ih =>
    obtain ⟨rest, herr, hP⟩ := ih ha { w with err := w.err ++ text }
    rw [List.append_assoc] at herr hP
    exact ⟨text ++ rest, herr, hP⟩

theorem always_iff_ends {P : α → Prop} {action : Action α} {told : Bytes} :
    action.Always P ↔ action.Ends (fun _ => P) told := by
  induction action generalizing told with
  | done a => exact Iff.rfl
  | status path next ih => exact forall_congr' fun s => ih s
  | names folder next ih => exact forall_congr' fun ns => ih ns
  | read path next ih => exact forall_congr' fun found => ih found
  | write path content next ih => exact forall_congr' fun ok => ih ok
  | lookup name next ih => exact forall_congr' fun value => ih value
  | clock next ih => exact forall_congr' fun c => ih c
  | progress report next ih => exact ih
  | print text next ih => exact ih
  | warn text next ih => exact ih

theorem Always.imp {P Q : α → Prop} (h : ∀ a, P a → Q a) {action : Action α}
    (ha : action.Always P) : action.Always Q :=
  always_iff_ends.2 (Ends.imp (fun _ => h) (always_iff_ends.1 ha : action.Ends _ []))

theorem Always.bind {P : β → Prop} {action : Action α} {k : α → Action β}
    (ha : action.Always fun a => (k a).Always P) : (action.bind k).Always P := by
  apply always_iff_ends.2
  apply Ends.bind
  exact Ends.imp (fun _ _ => always_iff_ends.1) (always_iff_ends.1 ha : action.Ends _ [])

theorem Always.run {P : α → Prop} {action : Action α} (ha : action.Always P) (w : World) :
    P (action.run w).1 := by
  have hends : action.Ends (fun _ => P) [] := always_iff_ends.1 ha
  obtain ⟨-, -, hP⟩ := hends.run w
  exact hP

end Action

namespace Job

variable {α β : Type} {P : α → Prop} {Q : β → Prop}

def Returns (job : Job α) (P : α → Prop) : Prop :=
  Action.Always (fun result => ∃ a, result = .ok a ∧ P a) (ExceptT.run job)

def Fails (job : Job α) (failure : Failure) : Prop :=
  Action.Always (fun result => result = .error failure) (ExceptT.run job)

theorem Returns.imp {P Q : α → Prop} {job : Job α} (h : job.Returns P) (hPQ : ∀ a, P a → Q a) :
    job.Returns Q := by
  apply Action.Always.imp _ h
  intro result hresult
  obtain ⟨a, ha, hP⟩ := hresult
  exact ⟨a, ha, hPQ a hP⟩

theorem Returns.run {job : Job α} (h : job.Returns P) (w : World) :
    ∃ a, (job.run w).1 = .ok a ∧ P a :=
  Action.Always.run h w

theorem Fails.bind {job : Job α} {k : α → Job β} {failure : Failure} (h : job.Fails failure) :
    (job >>= k).Fails failure := by
  show Action.Always _ (Action.bind _ _)
  apply Action.Always.bind
  apply Action.Always.imp _ h
  intro result hresult
  subst hresult
  rfl

theorem fails_failInput (fault : InputFault) :
    (failInput fault : Job α).Fails (.input fault) := rfl

/-! ## Runs in one world -/

theorem run_bind_of_ok {job : Job α} {w w' : World} {a : α} (h : job.run w = (.ok a, w'))
    (k : α → Job β) : (job >>= k).run w = (k a).run w' := by
  show Action.run (Action.bind _ _) w = _
  rw [Action.run_bind]
  have hrun : Action.run (job : Action (Except Failure α)) w = (.ok a, w') := h
  rw [hrun]
  rfl

theorem run_write {path content : Bytes} {fault : InputFault} {w : World} {files : FileTree}
    (h : w.files.write path content = some files) :
    (Job.write path content fault).run w = (.ok (), { w with files := files }) := by
  have hrun : Job.run (ofAction (.write path content .done)) w =
      (.ok true, { w with files := files }) := by
    show Action.run (.write path content _) w = _
    rw [Action.run, h]
    rfl
  exact run_bind_of_ok hrun _

theorem run_read (path : Bytes) (w : World) :
    (Job.read path).run w = (.ok (w.files.read path), w) := rfl

theorem run_ofConfiguration (result : Except ConfigurationFault α) (w : World) :
    (ofConfiguration result).run w = (result.mapError .configuration, w) := by
  cases result <;> rfl

/-! ## Warnings -/

def Tells (job : Job α) (P : α → Prop) (text : Bytes) : Prop :=
  ∀ told, (ExceptT.run job).Ends
    (fun after result => after = told ++ text ∧ ∃ a, result = .ok a ∧ P a) told

theorem Tells.returns {job : Job α} {text : Bytes} (h : job.Tells P text) : job.Returns P :=
  Action.always_iff_ends.2 (Action.Ends.imp (fun _ _ => And.right) (h []))

theorem Tells.run {job : Job α} {text : Bytes} (h : job.Tells P text) (w : World) :
    ∃ a, (job.run w).1 = .ok a ∧ P a ∧ (job.run w).2.err = w.err ++ text := by
  obtain ⟨said, herr, hsaid, a, hok, ha⟩ := (h []).run w
  rw [List.nil_append, List.nil_append] at hsaid
  exact ⟨a, hok, ha, hsaid ▸ herr⟩

theorem Tells.imp {P Q : α → Prop} {job : Job α} {text : Bytes} (h : job.Tells P text)
    (hPQ : ∀ a, P a → Q a) : job.Tells Q text := by
  intro told
  apply Action.Ends.imp _ (h told)
  intro after result hresult
  obtain ⟨hafter, a, ha, hP⟩ := hresult
  exact ⟨hafter, a, ha, hPQ a hP⟩

theorem Tells.bind {job : Job α} {k : α → Job β} {text rest : Bytes} (h : job.Tells P text)
    (hk : ∀ a, P a → (k a).Tells Q rest) : (job >>= k).Tells Q (text ++ rest) := by
  intro told
  apply Action.Ends.bind
  apply Action.Ends.imp _ (h told)
  intro after result hresult
  obtain ⟨rfl, a, rfl, ha⟩ := hresult
  rw [← List.append_assoc]
  exact hk a ha (told ++ text)

theorem Tells.andThen {job : Job Unit} {k : Unit → Job β} {text : Bytes}
    (h : job.Tells (fun _ => True) []) (hk : (k ()).Tells Q text) : (job >>= k).Tells Q text :=
  h.bind fun _ _ => hk

theorem tells_pure {a : α} (h : P a) : (pure a : Job α).Tells P [] :=
  fun told => ⟨(List.append_nil told).symm, a, rfl, h⟩

theorem tells_progress (report : Progress) : (progress report).Tells (fun _ => True) [] :=
  tells_pure trivial

theorem tells_print (text : Bytes) : (print text).Tells (fun _ => True) [] :=
  tells_pure trivial

theorem tells_warn (text : Bytes) : (warn text).Tells (fun _ => True) text :=
  fun _ => ⟨rfl, (), rfl, trivial⟩

theorem tells_clock : clock.Tells (fun _ => True) [] :=
  fun told _ => tells_pure trivial told

theorem tells_timed_bind {compute : Unit → α} {k : α × Double → Job β} {text : Bytes}
    (hk : ∀ seconds, (k (compute (), seconds)).Tells Q text) :
    (timed compute >>= k).Tells Q text := by
  have htimed : (timed compute).Tells (fun result => result.1 = compute ()) [] := by
    apply tells_clock.bind
    intro start _
    apply tells_clock.bind
    intro stop _
    exact tells_pure rfl
  apply htimed.bind
  intro result hresult
  obtain ⟨value, seconds⟩ := result
  subst hresult
  exact hk seconds

end Job

end Substitutability
