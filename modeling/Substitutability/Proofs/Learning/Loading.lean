import Substitutability.Proofs.Action.Reaching
import Substitutability.Proofs.Learning.Learner

/-!
# What learning leaves behind

Loading a corpus and learning from it read files and the clock, warn and report progress.
They write no file, and print nothing unless they are to be verbose.
-/

set_option autoImplicit false

namespace Substitutability

open Job (keeps_pure keeps_failInput keeps_read keeps_status keeps_names keeps_clock keeps_warn
  keeps_progress keeps_printIf)

/-! ## Loading -/

namespace Loader

theorem keeps_readText (path : Bytes) {talks : Bool} : (readText path).Keeps talks := by
  apply (keeps_read path).bind
  intro reading
  cases reading with
  | text content => exact keeps_pure content
  | folder => exact keeps_pure []
  | nothing => exact keeps_failInput _

theorem keeps_announce (l : Loader) (text : Bytes) : (l.announce text).Keeps l.verbose :=
  keeps_printIf _

theorem keeps_loadFile (l : Loader) (path : Bytes) : (l.loadFile path).Keeps l.verbose := by
  apply (l.keeps_announce _).bind
  intro _
  apply (keeps_readText path).bind
  intro text
  apply (l.keeps_announce _).bind
  exact fun _ => keeps_pure _

theorem keeps_readAll (l : Loader) (paths : List Bytes) : (l.readAll paths).Keeps l.verbose := by
  induction paths with
  | nil => exact keeps_pure []
  | cons path rest ih =>
    apply (l.keeps_announce _).bind
    intro _
    apply (keeps_readText path).bind
    intro text
    apply ih.bind
    exact fun _ => keeps_pure _

theorem keeps_loadFolder (l : Loader) (folder : Bytes) :
    (l.loadFolder folder).Keeps l.verbose := by
  apply (keeps_names folder).bind
  intro found
  cases found with
  | error fault => exact keeps_failInput _
  | ok names =>
    apply (l.keeps_readAll _).bind
    intro sentences
    apply (l.keeps_announce _).bind
    exact fun _ => keeps_pure _

theorem keeps_load (l : Loader) (path : Bytes) : (l.load path).Keeps l.verbose := by
  have hchecked : ∀ corpus : Corpus, (if corpus.sentences = [] then
      Job.failInput (.noSentences path) else pure corpus : Job Corpus).Keeps l.verbose := by
    intro corpus
    split
    · exact keeps_failInput _
    · exact keeps_pure corpus
  apply (keeps_status path).bind
  intro status
  cases status with
  | folder => exact (l.keeps_loadFolder path).bind hchecked
  | file => exact (l.keeps_loadFile path).bind hchecked
  | absent => exact (keeps_failInput _).bind hchecked

end Loader

/-! ## Learning -/

theorem Job.keeps_timed {α : Type} (compute : Unit → α) {talks : Bool} :
    (Job.timed compute).Keeps talks := by
  apply keeps_clock.bind
  intro start
  apply keeps_clock.bind
  exact fun _ => keeps_pure _

namespace Learner

theorem keeps_report (l : Learner) (p : Progress) : (l.report p).Keeps l.verbose := by
  apply (keeps_progress p).bind
  exact fun _ => keeps_printIf _

theorem keeps_announce (l : Learner) (stage : String) (number count : Nat) (unit : String) :
    (l.announce stage number count unit).Keeps l.verbose :=
  l.keeps_report _

theorem keeps_warnIf (condition : Bool) (warning : Warning) {talks : Bool} :
    (warnIf condition warning).Keeps talks := by
  cases condition with
  | false => exact keeps_pure ()
  | true => exact keeps_warn _

theorem keeps_learn (l : Learner) (corpus : Corpus) : (l.learn corpus).Keeps l.verbose := by
  by_cases h : corpus.sentences = []
  · rw [learn, if_pos h]
    exact keeps_failInput (.corpusEmpty corpus.name)
  · rw [learn, if_neg h]
    apply keeps_clock.bind
    intro start
    apply (l.keeps_announce _ _ _ _).bind
    intro _
    apply (Job.keeps_timed _).bind
    rintro ⟨contexts, extraction⟩
    apply (keeps_warnIf _ _).bind
    intro _
    apply (l.keeps_announce _ _ _ _).bind
    intro _
    apply (Job.keeps_timed _).bind
    rintro ⟨graph, building⟩
    apply (keeps_warnIf _ _).bind
    intro _
    apply (l.keeps_announce _ _ _ _).bind
    intro _
    apply (Job.keeps_timed _).bind
    rintro ⟨partition, resolution⟩
    apply (l.keeps_announce _ _ _ _).bind
    intro _
    apply (Job.keeps_timed _).bind
    rintro ⟨grammar, induction⟩
    apply keeps_clock.bind
    exact fun _ => keeps_pure _

theorem keeps_learnPath (l : Learner) (path : Bytes) : (l.learnPath path).Keeps l.verbose := by
  apply (l.keeps_report _).bind
  intro _
  apply (l.loader.keeps_load path).bind
  exact fun corpus => l.keeps_learn corpus

/-- What is learned from a path is learned from the corpus that is found there; only the
durations depend on the clock. -/
theorem learned_of_learnPath {l : Learner} {path : Bytes} {learned : Learned} {w w' : World}
    (h : (l.learnPath path).Reaches w (.ok learned) w') :
    ∃ corpus durations, (∃ u, (l.loader.load path).Reaches w (.ok corpus) u) ∧
      learned = { l.learned corpus with durations := durations } := by
  obtain ⟨_, u, hreport, h⟩ := Job.reaches_bind_ok.1 h
  obtain ⟨corpus, v, hload, hlearn⟩ := Job.reaches_bind_ok.1 h
  have hloaded : ∃ u', (l.loader.load path).Reaches w (.ok corpus) u' :=
    hload.congr (l.keeps_report _ hreport).symm
  have hsome : corpus.sentences ≠ [] := by
    intro hempty
    cases (l.fails_learn hempty).of_reaches hlearn
  obtain ⟨_, hresult, durations, rfl⟩ := (l.returns_learn hsome).of_reaches hlearn
  cases hresult
  exact ⟨corpus, durations, hloaded, rfl⟩

end Learner

end Substitutability
