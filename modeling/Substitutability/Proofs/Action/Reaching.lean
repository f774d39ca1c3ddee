import Substitutability.Proofs.Action

/-!
# Worlds that an action can reach

The clock moves on between two readings, so an action has more than one run in a world. It
reaches a world if one of its runs ends there. A job that asks, but neither writes a file
nor prints, keeps what was there before it.
-/

set_option autoImplicit false

namespace Substitutability

/-! ## Actions -/

namespace Action

variable {α β : Type} {w w' u : World}

/-- A run from the first world ends with the result in the second one, where the clock may
show anything each time it is read. -/
def Reaches : Action α → World → α → World → Prop
  | .done a, w, b, w' => b = a ∧ w' = w
  | .status path next, w, b, w' => (next (w.files.status path)).Reaches w b w'
  | .names folder next, w, b, w' => (next (w.files.names folder)).Reaches w b w'
  | .read path next, w, b, w' => (next (w.files.read path)).Reaches w b w'
  | .write path content next, w, b, w' =>
    match w.files.write path content with
    | some files => (next true).Reaches { w with files := files } b w'
    | none => (next false).Reaches w b w'
  | .lookup name next, w, b, w' => (next (w.environment.lookup name)).Reaches w b w'
  | .clock next, w, b, w' => ∃ c, (next c).Reaches w b w'
  | .progress report next, w, b, w' =>
    next.Reaches { w with reports := w.reports ++ [report] } b w'
  | .print text next, w, b, w' => next.Reaches { w with out := w.out ++ text } b w'
  | .warn text next, w, b, w' => next.Reaches { w with err := w.err ++ text } b w'

theorem reaches_run (action : Action α) (w : World) :
    action.Reaches w (action.run w).1 (action.run w).2 := by
  induction action generalizing w with
  | done a => exact ⟨rfl, rfl⟩
  | write path content next ih =>
    simp only [Reaches, run]
    cases w.files.write path content with
    | some files => exact ih true _
    | none => exact ih false w
  | status path next ih => exact ih _ w
  | names folder next ih => exact ih _ w
  | read path next ih => exact ih _ w
  | lookup name next ih => exact ih _ w
  | clock next ih => exact ⟨w.clock, ih _ w⟩
  | progress report next ih => exact ih _
  | print text next ih => exact ih _
  | warn text next ih => exact ih _

theorem reaches_of_run {action : Action α} {a : α} (h : (action.run w).1 = a) :
    action.Reaches w a (action.run w).2 :=
  h ▸ action.reaches_run w

theorem reaches_bind {action : Action α} {k : α → Action β} {b : β} :
    (action.bind k).Reaches w b w' ↔ ∃ a u, action.Reaches w a u ∧ (k a).Reaches u b w' := by
  induction action generalizing w with
  | done a =>
    constructor
    · exact fun h => ⟨a, w, ⟨rfl, rfl⟩, h⟩
    · rintro ⟨a, u, ⟨rfl, rfl⟩, h⟩
      exact h
  | write path content next ih =>
    simp only [Reaches, bind]
    cases w.files.write path content with
    | some files => exact ih true
    | none => exact ih false
  | status path next ih => exact ih _
  | names folder next ih => exact ih _
  | read path next ih => exact ih _
  | lookup name next ih => exact ih _
  | clock next ih =>
    simp only [Reaches, bind, ih]
    constructor
    · rintro ⟨c, a, u, h, hk⟩
      exact ⟨a, u, ⟨c, h⟩, hk⟩
    · rintro ⟨a, u, ⟨c, h⟩, hk⟩
      exact ⟨c, a, u, h, hk⟩
  | progress report next ih => exact ih
  | print text next ih => exact ih
  | warn text next ih => exact ih

theorem Always.of_reaches {P : α → Prop} {action : Action α} {a : α} (h : action.Always P)
    (hreaches : action.Reaches w a w') : P a := by
  induction action generalizing w with
  | done b =>
    obtain ⟨rfl, rfl⟩ := hreaches
    exact h
  | write path content next ih =>
    rw [Reaches] at hreaches
    split at hreaches
    · exact ih true (h true) hreaches
    · exact ih false (h false) hreaches
  | status path next ih => exact ih _ (h _) hreaches
  | names folder next ih => exact ih _ (h _) hreaches
  | read path next ih => exact ih _ (h _) hreaches
  | lookup name next ih => exact ih _ (h _) hreaches
  | clock next ih =>
    obtain ⟨c, hreaches⟩ := hreaches
    exact ih c (h c) hreaches
  | progress report next ih => exact ih h hreaches
  | print text next ih => exact ih h hreaches
  | warn text next ih => exact ih h hreaches

theorem Reaches.congr {action : Action α} {a : α} (h : action.Reaches w a w')
    (hfiles : u.files = w.files) (henvironment : u.environment = w.environment) :
    ∃ u', action.Reaches u a u' := by
  induction action generalizing w u with
  | done b => exact ⟨u, h.1, rfl⟩
  | write path content next ih =>
    simp only [Reaches, hfiles] at h ⊢
    cases hwrite : w.files.write path content with
    | some files =>
      rw [hwrite] at h
      exact ih true h rfl henvironment
    | none =>
      rw [hwrite] at h
      exact ih false h hfiles henvironment
  | status path next ih =>
    simp only [Reaches, hfiles]
    exact ih _ h hfiles henvironment
  | names folder next ih =>
    simp only [Reaches, hfiles]
    exact ih _ h hfiles henvironment
  | read path next ih =>
    simp only [Reaches, hfiles]
    exact ih _ h hfiles henvironment
  | lookup name next ih =>
    simp only [Reaches, henvironment]
    exact ih _ h hfiles henvironment
  | clock next ih =>
    obtain ⟨c, h⟩ := h
    obtain ⟨u', h'⟩ := ih c h hfiles henvironment
    exact ⟨u', c, h'⟩
  | progress report next ih => exact ih h hfiles henvironment
  | print text next ih => exact ih h hfiles henvironment
  | warn text next ih => exact ih h hfiles henvironment

end Action

/-! ## What is kept -/

/-- No file and no variable has changed, and nothing was printed if nothing may be. -/
structure World.Kept (talks : Bool) (w w' : World) : Prop where
  files : w'.files = w.files
  environment : w'.environment = w.environment
  out : talks = false → w'.out = w.out

namespace World.Kept

variable {talks : Bool} {w w' u : World}

theorem talking (h : Kept talks w w') : Kept true w w' :=
  ⟨h.files, h.environment, fun ht => nomatch ht⟩

theorem refl (w : World) : Kept talks w w :=
  ⟨rfl, rfl, fun _ => rfl⟩

theorem symm (h : Kept talks w u) : Kept talks u w :=
  ⟨h.files.symm, h.environment.symm, fun ht => (h.out ht).symm⟩

theorem trans (h : Kept talks w u) (h' : Kept talks u w') : Kept talks w w' :=
  ⟨h'.files.trans h.files, h'.environment.trans h.environment,
    fun ht => (h'.out ht).trans (h.out ht)⟩

end World.Kept

/-! ## Jobs -/

namespace Job

variable {α β : Type} {w w' : World} {talks : Bool}

def Reaches (job : Job α) (w : World) (result : Except Failure α) (w' : World) : Prop :=
  Action.Reaches (ExceptT.run job) w result w'

theorem reaches_bind {job : Job α} {k : α → Job β} {result : Except Failure β} :
    (job >>= k).Reaches w result w' ↔
      (∃ failure, job.Reaches w (.error failure) w' ∧ result = .error failure) ∨
        ∃ a u, job.Reaches w (.ok a) u ∧ (k a).Reaches u result w' := by
  show Action.Reaches (Action.bind _ _) _ _ _ ↔ _
  rw [Action.reaches_bind]
  constructor
  · rintro ⟨_ | a, u, h, hk⟩
    · obtain ⟨rfl, rfl⟩ := hk
      exact .inl ⟨_, h, rfl⟩
    · exact .inr ⟨a, u, h, hk⟩
  · rintro (⟨failure, h, rfl⟩ | ⟨a, u, h, hk⟩)
    · exact ⟨.error failure, w', h, rfl, rfl⟩
    · exact ⟨.ok a, u, h, hk⟩

theorem reaches_bind_ok {job : Job α} {k : α → Job β} {b : β} :
    (job >>= k).Reaches w (.ok b) w' ↔
      ∃ a u, job.Reaches w (.ok a) u ∧ (k a).Reaches u (.ok b) w' := by
  rw [reaches_bind]
  constructor
  · rintro (⟨failure, -, hresult⟩ | h)
    · cases hresult
    · exact h
  · exact .inr

theorem reaches_pure {a : α} {result : Except Failure α} :
    (pure a : Job α).Reaches w result w' ↔ result = .ok a ∧ w' = w :=
  Iff.rfl

theorem reaches_bind_pure {job : Job α} {b : β} {result : Except Failure β} :
    (job >>= fun _ => pure b).Reaches w result w' ↔
      ∃ outcome, job.Reaches w outcome w' ∧ result = outcome.map fun _ => b := by
  rw [reaches_bind]
  constructor
  · rintro (⟨failure, h, rfl⟩ | ⟨a, u, h, hpure⟩)
    · exact ⟨.error failure, h, rfl⟩
    · obtain ⟨rfl, rfl⟩ := reaches_pure.1 hpure
      exact ⟨.ok a, h, rfl⟩
  · rintro ⟨_ | a, h, rfl⟩
    · exact .inl ⟨_, h, rfl⟩
    · exact .inr ⟨a, w', h, rfl, rfl⟩

theorem reaches_bind_read {path : Bytes} {k : Reading → Job β} {result : Except Failure β} :
    (read path >>= k).Reaches w result w' ↔ (k (w.files.read path)).Reaches w result w' :=
  Iff.rfl

theorem reaches_bind_lookup {name : Bytes} {k : Option Bytes → Job β}
    {result : Except Failure β} :
    (lookup name >>= k).Reaches w result w' ↔
      (k (w.environment.lookup name)).Reaches w result w' :=
  Iff.rfl

theorem reaches_ofConfiguration {found : Except ConfigurationFault α}
    {result : Except Failure α} : (ofConfiguration found).Reaches w result w' ↔
      result = found.mapError .configuration ∧ w' = w := by
  cases found <;> rfl

theorem reaches_bind_ofConfiguration {found : Except ConfigurationFault α} {k : α → Job β}
    {result : Except Failure β} : (ofConfiguration found >>= k).Reaches w result w' ↔
      (∃ fault, found = .error fault ∧ result = .error (.configuration fault) ∧ w' = w) ∨
        ∃ a, found = .ok a ∧ (k a).Reaches w result w' := by
  cases found with
  | error fault =>
    show result = .error (.configuration fault) ∧ w' = w ↔ _
    simp
  | ok a =>
    show (k a).Reaches w result w' ↔ _
    simp

theorem reaches_ofDocument {found : Except Json.Fault α} {result : Except Failure α} :
    (ofDocument found).Reaches w result w' ↔ result = found.mapError .document ∧ w' = w := by
  cases found <;> rfl

theorem reaches_ofDocument_ok {found : Except Json.Fault α} {a : α} :
    (ofDocument found).Reaches w (.ok a) w' ↔ found = .ok a ∧ w' = w := by
  rw [reaches_ofDocument]
  apply and_congr_left
  intro _
  cases found with
  | error fault => exact iff_of_false nofun nofun
  | ok b =>
    constructor
    · rintro ⟨⟩
      rfl
    · rintro ⟨⟩
      rfl

theorem reaches_clock {result : Except Failure Clock} :
    clock.Reaches w result w' ↔ ∃ c, result = .ok c ∧ w' = w :=
  Iff.rfl

theorem reaches_print {text : Bytes} {result : Except Failure Unit} :
    (print text).Reaches w result w' ↔ result = .ok () ∧ w' = { w with out := w.out ++ text } :=
  Iff.rfl

theorem of_reaches_write {path content : Bytes} {fault : InputFault} {result : Except Failure Unit}
    (h : (write path content fault).Reaches w result w') :
    (∃ files, w.files.write path content = some files ∧ result = .ok () ∧
      w' = { w with files := files }) ∨
    (result = .error (.input fault) ∧ w' = w) := by
  have hwrite : Action.Reaches (.write path content _) w result w' := h
  rw [Action.Reaches] at hwrite
  split at hwrite
  · rename_i files hfiles
    exact .inl ⟨files, hfiles, hwrite⟩
  · exact .inr hwrite

theorem of_reaches_write_printLine {path content text : Bytes} {fault : InputFault}
    {result : Except Failure Unit}
    (h : (do write path content fault; printLine text).Reaches w result w') :
    (∃ files, w.files.write path content = some files ∧ result = .ok () ∧
      w' = { w with files := files, out := w.out ++ (text ++ [Bytes.newline]) }) ∨
    ((∃ failure, result = .error failure) ∧ w' = w) := by
  rw [reaches_bind] at h
  rcases h with ⟨failure, hwrite, rfl⟩ | ⟨_, u, hwrite, hprint⟩
  · rcases of_reaches_write hwrite with ⟨_, -, hresult, -⟩ | ⟨-, rfl⟩
    · cases hresult
    · exact .inr ⟨⟨failure, rfl⟩, rfl⟩
  · rcases of_reaches_write hwrite with ⟨files, hfiles, -, rfl⟩ | ⟨hresult, -⟩
    · obtain ⟨rfl, rfl⟩ := reaches_print.1 hprint
      exact .inl ⟨files, hfiles, rfl, rfl⟩
    · cases hresult

theorem Returns.of_reaches {P : α → Prop} {job : Job α} {result : Except Failure α}
    (h : job.Returns P) (hreaches : job.Reaches w result w') : ∃ a, result = .ok a ∧ P a := by
  have halways : Action.Always (fun result => ∃ a, result = .ok a ∧ P a) (ExceptT.run job) := h
  exact halways.of_reaches hreaches

theorem Fails.of_reaches {job : Job α} {failure : Failure} {result : Except Failure α}
    (h : job.Fails failure) (hreaches : job.Reaches w result w') : result = .error failure := by
  have halways : Action.Always (fun result => result = .error failure) (ExceptT.run job) := h
  exact halways.of_reaches hreaches

theorem Reaches.congr {job : Job α} {result : Except Failure α} {u : World}
    (h : job.Reaches w result w') (hkept : w.Kept talks u) :
    ∃ u', job.Reaches u result u' :=
  Action.Reaches.congr h hkept.files hkept.environment

/-! ## Jobs that keep what was there -/

/-- Wherever the job is done and however it ends, it leaves the files as they are, and says
nothing unless it may talk. -/
def Keeps (job : Job α) (talks : Bool) : Prop :=
  ∀ ⦃w result w'⦄, job.Reaches w result w' → World.Kept talks w w'

theorem Keeps.bind {job : Job α} {k : α → Job β} (h : job.Keeps talks)
    (hk : ∀ a, (k a).Keeps talks) : (job >>= k).Keeps talks := by
  intro w result w' hreaches
  rcases reaches_bind.1 hreaches with ⟨failure, hfirst, -⟩ | ⟨a, u, hfirst, hrest⟩
  · exact h hfirst
  · exact (h hfirst).trans (hk a hrest)

theorem keeps_of_same {job : Job α} (h : ∀ ⦃w result w'⦄, job.Reaches w result w' → w' = w) :
    job.Keeps talks := by
  intro w result w' hreaches
  rw [h hreaches]
  exact .refl w

theorem keeps_pure (a : α) : (pure a : Job α).Keeps talks :=
  keeps_of_same fun _ _ _ h => h.2

theorem keeps_throw (failure : Failure) : (throw failure : Job α).Keeps talks :=
  keeps_of_same fun _ _ _ h => h.2

theorem keeps_failInput (fault : InputFault) : (failInput fault : Job α).Keeps talks :=
  keeps_throw _

theorem keeps_ofConfiguration (found : Except ConfigurationFault α) :
    (ofConfiguration found).Keeps talks :=
  keeps_of_same fun _ _ _ h => (reaches_ofConfiguration.1 h).2

theorem keeps_ofDocument (found : Except Json.Fault α) : (ofDocument found).Keeps talks :=
  keeps_of_same fun _ _ _ h => (reaches_ofDocument.1 h).2

theorem keeps_read (path : Bytes) : (Job.read path).Keeps talks :=
  keeps_of_same fun _ _ _ h => h.2

theorem keeps_status (path : Bytes) : (status path).Keeps talks :=
  keeps_of_same fun _ _ _ h => h.2

theorem keeps_names (folder : Bytes) : (names folder).Keeps talks :=
  keeps_of_same fun _ _ _ h => h.2

theorem keeps_lookup (name : Bytes) : (lookup name).Keeps talks :=
  keeps_of_same fun _ _ _ h => h.2

theorem keeps_clock : clock.Keeps talks :=
  keeps_of_same fun _ _ _ h => (reaches_clock.1 h).choose_spec.2

theorem keeps_warn (text : Bytes) : (warn text).Keeps talks := by
  rintro w result w' ⟨-, rfl⟩
  exact ⟨rfl, rfl, fun _ => rfl⟩

theorem keeps_progress (report : Progress) : (progress report).Keeps talks := by
  rintro w result w' ⟨-, rfl⟩
  exact ⟨rfl, rfl, fun _ => rfl⟩

theorem keeps_print (text : Bytes) : (print text).Keeps true := by
  rintro w result w' ⟨-, rfl⟩
  exact ⟨rfl, rfl, fun h => nomatch h⟩

theorem of_reaches_printIf {text : Bytes} {k : Unit → Job α} {result : Except Failure α}
    (h : (if talks = true then print text >>= k else k ()).Reaches w result w') :
    ∃ u, w.Kept talks u ∧ (k ()).Reaches u result w' := by
  cases talks with
  | false => exact ⟨w, .refl w, h⟩
  | true =>
    rw [if_pos rfl] at h
    rcases reaches_bind.1 h with ⟨failure, hprint, -⟩ | ⟨_, u, hprint, hrest⟩
    · cases (reaches_print.1 hprint).1
    · exact ⟨u, keeps_print text hprint, hrest⟩

theorem of_reaches_printIf_last {text : Bytes} {result : Except Failure Unit}
    (h : (if talks = true then print text else pure ()).Reaches w result w') :
    result = .ok () ∧ w.Kept talks w' := by
  cases talks with
  | false =>
    obtain ⟨rfl, rfl⟩ := reaches_pure.1 h
    exact ⟨rfl, .refl w'⟩
  | true => exact ⟨(reaches_print.1 h).1, keeps_print text h⟩

theorem keeps_printIf (text : Bytes) :
    (if talks = true then print text else pure ()).Keeps talks :=
  fun _ _ _ h => (of_reaches_printIf_last h).2

end Job

end Substitutability
