import Substitutability.ContextSet
import Substitutability.Proofs.Sorted

/-!
# What a context set attests

A context set attests a phrase in a context when the context is in the set of the
phrase. Recording an occurrence adds one such pair and takes none away.
-/

set_option autoImplicit false

namespace Substitutability.ContextSet

/-- The phrase has an entry, and the context is in its set. -/
def Attests (s : ContextSet) (phrase : Phrase) (context : Context) : Prop :=
  ∃ contexts, s.contextsOf? phrase = some contexts ∧ context ∈ contexts

theorem attests_empty (phrase : Phrase) (context : Context) : ¬ empty.Attests phrase context := by
  rintro ⟨contexts, h, -⟩
  cases h

theorem mem_addList {old : Option Attestation} {contexts : List Context}
    {occurrences : List Occurrence} {c : Context} :
    c ∈ (addList old contexts occurrences).contexts ↔
      c ∈ contexts ∨ ∃ attestation, old = some attestation ∧ c ∈ attestation.contexts := by
  rw [addList, SortedSet.mem_insertAll]
  cases old with
  | none =>
    have : c ∉ (default : Attestation).contexts := SortedSet.not_mem_empty c
    simp [this]
  | some attestation => simp

theorem attests_add {s : ContextSet} {phrase p : Phrase} {context c : Context}
    {occurrence : Occurrence} :
    (s.add phrase context occurrence).Attests p c ↔
      (p = phrase ∧ c = context) ∨ s.Attests p c := by
  simp only [Attests, contextsOf?, Option.map_eq_some_iff, add]
  by_cases hp : p = phrase
  · subst hp
    rw [SortedMap.find?_alter_self]
    constructor
    · rintro ⟨contexts, ⟨attestation, ⟨⟩, rfl⟩, hc⟩
      rcases mem_addList.1 hc with hc | ⟨attestation, hold, hc⟩
      · exact .inl ⟨rfl, List.mem_singleton.1 hc⟩
      · exact .inr ⟨_, ⟨attestation, hold, rfl⟩, hc⟩
    · intro h
      refine ⟨_, ⟨_, rfl, rfl⟩, mem_addList.2 ?_⟩
      rcases h with ⟨-, rfl⟩ | ⟨contexts, ⟨attestation, hold, rfl⟩, hc⟩
      · exact .inl (List.mem_singleton.2 rfl)
      · exact .inr ⟨attestation, hold, hc⟩
  · rw [SortedMap.find?_alter_ne hp]
    simp [hp]

theorem mem_distinctContexts {s : ContextSet} {context : Context} :
    context ∈ s.distinctContexts ↔ ∃ phrase, s.Attests phrase context := by
  rw [distinctContexts, SortedSet.mem_ofList, List.mem_flatMap]
  simp only [SortedMap.mem_values, Attests, contextsOf?, Option.map_eq_some_iff]
  constructor
  · intro h
    obtain ⟨attestation, ⟨phrase, hfind⟩, hmem⟩ := h
    exact ⟨phrase, _, ⟨attestation, hfind, rfl⟩, hmem⟩
  · intro h
    obtain ⟨phrase, -, ⟨attestation, hfind, rfl⟩, hmem⟩ := h
    exact ⟨attestation, ⟨phrase, hfind⟩, hmem⟩

/-! ## Described phrases -/

theorem mem_described {s : ContextSet} {phrase : Phrase} {contexts : List Context} :
    (phrase, contexts) ∈ s.described ↔
      ∃ set, s.contextsOf? phrase = some set ∧ set.toList = contexts ∧ contexts ≠ [] := by
  simp only [described, List.mem_filter, List.mem_map, contextsOf?, Option.map_eq_some_iff,
    SortedMap.find?_eq_some]
  constructor
  · rintro ⟨⟨⟨p, attestation⟩, hmem, heq⟩, hne⟩
    cases heq
    exact ⟨_, ⟨attestation, hmem, rfl⟩, rfl, by simpa using hne⟩
  · rintro ⟨set, ⟨attestation, hmem, rfl⟩, rfl, hne⟩
    exact ⟨⟨(phrase, attestation), hmem, rfl⟩, by simpa using hne⟩

theorem attests_iff_described {s : ContextSet} {phrase : Phrase} {context : Context} :
    s.Attests phrase context ↔
      ∃ contexts, (phrase, contexts) ∈ s.described ∧ context ∈ contexts := by
  simp only [mem_described]
  constructor
  · rintro ⟨set, hset, hmem⟩
    exact ⟨set.toList, ⟨set, hset, rfl, List.ne_nil_of_mem hmem⟩, hmem⟩
  · rintro ⟨contexts, ⟨set, hset, rfl, -⟩, hmem⟩
    exact ⟨set, hset, hmem⟩

theorem ascending_described (s : ContextSet) : Ascending (s.described.map Prod.fst) := by
  have hkeys := List.pairwise_map.1 s.entries.ascending
  apply List.pairwise_map.2
  apply List.Pairwise.filter
  exact List.pairwise_map.2 hkeys

theorem ascending_contexts {s : ContextSet} {phrase : Phrase} {contexts : List Context}
    (h : (phrase, contexts) ∈ s.described) : Ascending contexts := by
  obtain ⟨set, -, rfl, -⟩ := mem_described.1 h
  exact set.ascending

theorem mem_described_phrases {s : ContextSet} {phrase : Phrase} :
    phrase ∈ s.described.map Prod.fst ↔ ∃ context, s.Attests phrase context := by
  simp only [List.mem_map, attests_iff_described]
  constructor
  · rintro ⟨⟨p, contexts⟩, hmem, rfl⟩
    obtain ⟨-, -, -, hne⟩ := mem_described.1 hmem
    obtain ⟨context, hcontext⟩ := List.exists_mem_of_ne_nil _ hne
    exact ⟨context, contexts, hmem, hcontext⟩
  · rintro ⟨context, contexts, hmem, -⟩
    exact ⟨(phrase, contexts), hmem, rfl⟩

theorem mem_described_iff_attests {s : ContextSet} {phrase : Phrase} {contexts : List Context} :
    (phrase, contexts) ∈ s.described ↔
      contexts ≠ [] ∧ Ascending contexts ∧ ∀ c, c ∈ contexts ↔ s.Attests phrase c := by
  constructor
  · intro h
    obtain ⟨set, hset, hcontexts, hne⟩ := mem_described.1 h
    refine ⟨hne, ascending_contexts h, fun c => ?_⟩
    subst hcontexts
    constructor
    · exact fun hc => ⟨set, hset, hc⟩
    · intro hattests
      obtain ⟨set', hset', hc⟩ := hattests
      rw [hset, Option.some.injEq] at hset'
      exact hset' ▸ hc
  · intro h
    obtain ⟨hne, hascending, hcontexts⟩ := h
    obtain ⟨c, hc⟩ := List.exists_mem_of_ne_nil _ hne
    obtain ⟨set, hset, -⟩ := (hcontexts c).1 hc
    have hlist : set.toList = contexts := by
      apply eq_of_ascending set.ascending hascending
      intro d
      rw [hcontexts, Attests, hset]
      simp [Membership.mem]
    exact mem_described.2 ⟨set, hset, hlist, hne⟩

theorem described_congr {s t : ContextSet}
    (h : ∀ phrase context, s.Attests phrase context ↔ t.Attests phrase context) :
    s.described = t.described := by
  apply eq_of_ascending_map (ascending_described s) (ascending_described t)
  intro entry
  obtain ⟨phrase, contexts⟩ := entry
  simp only [mem_described_iff_attests, h]

end Substitutability.ContextSet
