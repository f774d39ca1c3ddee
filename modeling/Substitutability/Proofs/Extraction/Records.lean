import Substitutability.Proofs.Occurrences

/-!
# Context sets kept in two maps

The contexts of the phrases, the places where they occur and the number of all places can be kept
apart, in two maps and a counter that every recorded occurrence brings up to date. They tell the
same of phrases as the context set.
-/

set_option autoImplicit false

namespace Substitutability

structure Records where
  contexts : SortedMap Phrase (SortedSet Context)
  /-- The phrases that were recorded have a list here. -/
  occurrences : SortedMap Phrase (List Occurrence)
  occurrenceCount : Nat

namespace Records

def empty : Records :=
  ⟨SortedMap.empty, SortedMap.empty, 0⟩

def ofContexts (contexts : SortedMap Phrase (SortedSet Context)) : Records :=
  ⟨contexts, SortedMap.empty, 0⟩

def add (r : Records) (phrase : Phrase) (context : Context) (occurrence : Occurrence) : Records where
  contexts := r.contexts.alter phrase fun old => (old.getD SortedSet.empty).insert context
  occurrences := r.occurrences.alter phrase fun old => old.getD [] ++ [occurrence]
  occurrenceCount := r.occurrenceCount + 1

def occurrencesOf (r : Records) (phrase : Phrase) : List Occurrence :=
  (r.occurrences.find? phrase).getD []

/-- The maps and the counter tell what the context set tells. -/
structure Represents (r : Records) (s : ContextSet) : Prop where
  contexts : ∀ p, r.contexts.find? p = s.contextsOf? p
  occurrences : ∀ p, r.occurrencesOf p = s.occurrencesOf p
  occurrenceCount : r.occurrenceCount = s.occurrenceCount

variable {r : Records} {s : ContextSet}

theorem represents_empty : empty.Represents ContextSet.empty where
  contexts _ := rfl
  occurrences _ := rfl
  occurrenceCount := rfl

/-! ## One occurrence -/

theorem total_alterList {key : Phrase} {f : Option Attestation → Attestation}
    (hnone : (f none).occurrences.length = 1)
    (hsome : ∀ a, (f (some a)).occurrences.length = a.occurrences.length + 1)
    (entries : List (Phrase × Attestation)) :
    total ((SortedMap.alterList key f entries).map fun entry => entry.2.occurrences.length) =
      total (entries.map fun entry => entry.2.occurrences.length) + 1 := by
  induction entries with
  | nil => rw [SortedMap.alterList, List.map_singleton, total, total, List.map_nil, total, hnone]
  | cons entry rest ih =>
    obtain ⟨k, a⟩ := entry
    rw [SortedMap.alterList]
    cases compare key k with
    | lt =>
      simp only [List.map_cons, total, hnone]
      omega
    | eq =>
      simp only [List.map_cons, total, hsome]
      omega
    | gt =>
      simp only [List.map_cons, total, ih]
      omega

theorem occurrenceCount_add (s : ContextSet) (phrase : Phrase) (context : Context)
    (occurrence : Occurrence) :
    (s.add phrase context occurrence).occurrenceCount = s.occurrenceCount + 1 := by
  rw [ContextSet.occurrenceCount, ContextSet.occurrenceCount, SortedMap.values, SortedMap.values,
    List.map_map, List.map_map]
  exact total_alterList rfl (fun a => List.length_append) _

theorem Represents.add (h : r.Represents s) (phrase : Phrase) (context : Context)
    (occurrence : Occurrence) :
    (r.add phrase context occurrence).Represents (s.add phrase context occurrence) where
  contexts p := by
    have hbefore := h.contexts p
    simp only [ContextSet.contextsOf?, Records.add, ContextSet.add] at hbefore ⊢
    by_cases hp : p = phrase
    · subst hp
      rw [SortedMap.find?_alter_self, SortedMap.find?_alter_self, hbefore]
      cases s.entries.find? p <;> rfl
    · rw [SortedMap.find?_alter_ne hp, SortedMap.find?_alter_ne hp, hbefore]
  occurrences p := by
    rw [ContextSet.occurrencesOf_add, ← h.occurrences p, occurrencesOf, occurrencesOf, Records.add]
    by_cases hp : p = phrase
    · subst hp
      rw [SortedMap.find?_alter_self, if_pos rfl]
      rfl
    · rw [SortedMap.find?_alter_ne hp, if_neg (Ne.symm hp), List.append_nil]
  occurrenceCount := by
    rw [occurrenceCount_add, ← h.occurrenceCount]
    rfl

/-! ## Contexts without occurrences -/

theorem entries_ofContexts_append (entries : List (Phrase × List Context)) (p : Phrase)
    (contexts : List Context) :
    (ContextSet.ofContexts (entries ++ [(p, contexts)])).entries =
      (ContextSet.ofContexts entries).entries.alter p fun old =>
        ContextSet.addList old contexts [] := by
  rw [ContextSet.ofContexts, List.foldl_append]
  rfl

theorem find?_ofContexts {entries : List (Phrase × List Context)}
    (h : (entries.map Prod.fst).Nodup) {p : Phrase} {a : Attestation} :
    (ContextSet.ofContexts entries).entries.find? p = some a ↔
      ∃ contexts, (p, contexts) ∈ entries ∧ ⟨SortedSet.ofList contexts, []⟩ = a := by
  induction entries using List.reverseRecOn generalizing a with
  | nil => simp [ContextSet.ofContexts, SortedMap.find?_empty]
  | append_singleton entries entry ih =>
    obtain ⟨last, contexts⟩ := entry
    rw [List.map_append, List.nodup_append] at h
    rw [entries_ofContexts_append]
    by_cases hp : p = last
    · subst hp
      have hfresh : ∀ contexts, (p, contexts) ∉ entries := fun contexts hmem =>
        h.2.2 p (List.mem_map_of_mem hmem) p (List.mem_singleton.2 rfl) rfl
      have hnone : (ContextSet.ofContexts entries).entries.find? p = none := by
        rw [Option.eq_none_iff_forall_ne_some]
        intro a ha
        obtain ⟨contexts, hmem, -⟩ := (ih h.1).1 ha
        exact hfresh contexts hmem
      rw [SortedMap.find?_alter_self, hnone]
      simp only [List.mem_append, hfresh, false_or, List.mem_singleton, Prod.mk.injEq, true_and,
        exists_eq_left, Option.some.injEq]
      rfl
    · rw [SortedMap.find?_alter_ne hp, ih h.1]
      simp [hp]

theorem ofList_toList (cs : SortedSet Context) : SortedSet.ofList cs.toList = cs :=
  SortedSet.ext fun _ => SortedSet.mem_ofList

theorem occurrencesOf_ofContexts {entries : List (Phrase × List Context)}
    (h : (entries.map Prod.fst).Nodup) (p : Phrase) :
    (ContextSet.ofContexts entries).occurrencesOf p = [] := by
  rw [ContextSet.occurrencesOf]
  split
  · rename_i a ha
    obtain ⟨contexts, -, rfl⟩ := (find?_ofContexts h).1 ha
    rfl
  · rfl

theorem occurrenceCount_ofContexts {entries : List (Phrase × List Context)}
    (h : (entries.map Prod.fst).Nodup) : (ContextSet.ofContexts entries).occurrenceCount = 0 := by
  have hzero : ∀ phrases : List Phrase, total (phrases.map fun _ => 0) = 0 := by
    intro phrases
    induction phrases with
    | nil => rfl
    | cons p rest ih => rw [List.map_cons, total, ih]
  rw [ContextSet.occurrenceCount_eq]
  simp only [occurrencesOf_ofContexts h, List.length_nil, hzero]

theorem represents_ofContexts (contexts : SortedMap Phrase (SortedSet Context)) :
    (ofContexts contexts).Represents
      (ContextSet.ofContexts (contexts.toList.map fun (p, cs) => (p, cs.toList))) := by
  have hnodup : ((contexts.toList.map fun (p, cs) => (p, cs.toList)).map Prod.fst).Nodup := by
    rw [List.map_map]
    exact contexts.ascending.nodup
  refine ⟨fun p => ?_, fun p => (occurrencesOf_ofContexts hnodup p).symm,
    (occurrenceCount_ofContexts hnodup).symm⟩
  ext cs
  rw [ofContexts, SortedMap.find?_eq_some, ContextSet.contextsOf?, Option.map_eq_some_iff]
  simp only [find?_ofContexts hnodup]
  constructor
  · intro hcs
    exact ⟨_, ⟨_, List.mem_map.2 ⟨_, hcs, rfl⟩, rfl⟩, ofList_toList cs⟩
  · rintro ⟨_, ⟨_, hmem, rfl⟩, rfl⟩
    obtain ⟨entry, hentry, heq⟩ := List.mem_map.1 hmem
    cases heq
    rwa [ofList_toList]

/-! ## Extraction -/

def record (r : Records) (o : Extractor.Observation) : Records :=
  r.add o.phrase o.context o.occurrence

theorem Represents.foldl_record (h : r.Represents s) (observations : List Extractor.Observation) :
    (observations.foldl record r).Represents (observations.foldl Extractor.record s) := by
  induction observations generalizing r s with
  | nil => exact h
  | cons o rest ih => exact ih (h.add o.phrase o.context o.occurrence)

theorem represents_extract (extractor : Extractor) (sentences : List Sentence) :
    ((extractor.observations sentences).foldl record empty).Represents
      (extractor.extract sentences) :=
  represents_empty.foldl_record _

end Records

end Substitutability
