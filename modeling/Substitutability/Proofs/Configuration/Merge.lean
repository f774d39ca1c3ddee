import Mathlib.Data.List.Nodup
import Substitutability.Proofs.Configuration.Settings
import Substitutability.Proofs.Sorted

/-!
# Merging a document into a configuration

A merge goes through the settings in order. Each one that the document states takes the value
that is stated, the others keep what they have, and the first one that cannot be read ends the
merge. So a merge only depends on what is stated of each setting, one document after another
is one document over another, and a second merge of the same document changes nothing.
-/

set_option autoImplicit false

namespace Substitutability

namespace Setting

/-- What a document states of the setting: nothing, a value, or one that cannot be read. -/
def stated? (s : Setting) (json : Json) : Option (Except ConfigurationFault s.Value) :=
  (json.member? s.key).map s.read

def Refused (s : Setting) (json : Json) : Prop :=
  ∃ fault, s.stated? json = some (.error fault)

/-- The setting has the value that is stated, or its old one if none is. -/
structure Taken (s : Setting) (json : Json) (c c' : Configuration) : Prop where
  of_stated : ∀ {value}, s.stated? json = some (.ok value) → s.get c' = value
  of_unstated : s.stated? json = none → s.get c' = s.get c

variable {s t : Setting} {json json' : Json} {c c' : Configuration}

theorem stated?_cases (s : Setting) (json : Json) :
    s.stated? json = none ∨ (∃ value, s.stated? json = some (.ok value)) ∨ s.Refused json := by
  cases h : s.stated? json with
  | none => exact .inl rfl
  | some found =>
    cases found with
    | ok value => exact .inr (.inl ⟨value, rfl⟩)
    | error fault => exact .inr (.inr ⟨fault, h⟩)

theorem refused_iff :
    s.Refused json ↔ ∃ value, json.member? s.key = some value ∧ ¬s.Admits value := by
  simp only [Refused, stated?, Option.map_eq_some_iff, admits_iff]
  constructor
  · rintro ⟨fault, value, hvalue, hread⟩
    refine ⟨value, hvalue, ?_⟩
    rintro ⟨_, hok⟩
    rw [hread] at hok
    cases hok
  · rintro ⟨value, hvalue, hnot⟩
    cases hread : s.read value with
    | error fault => exact ⟨fault, value, hvalue, hread⟩
    | ok taken => exact absurd ⟨taken, hread⟩ hnot

theorem Refused.congr (h : s.stated? json = s.stated? json') :
    s.Refused json ↔ s.Refused json' := by
  rw [Refused, Refused, h]

theorem Taken.eq (h : s.Taken json c c') {d d' : Configuration} (h' : s.Taken json d d')
    (hread : ¬s.Refused json) (hbefore : s.stated? json = none → s.get c = s.get d) :
    s.get c' = s.get d' := by
  rcases s.stated?_cases json with hnone | ⟨value, hvalue⟩ | hrefused
  · rw [h.of_unstated hnone, h'.of_unstated hnone, hbefore hnone]
  · rw [h.of_stated hvalue, h'.of_stated hvalue]
  · exact absurd hrefused hread

theorem exists_first_refused (h : ∃ s : Setting, s.Refused json) :
    ∃ front s back, all = front ++ s :: back ∧ (∀ t ∈ front, ¬t.Refused json) ∧
      s.Refused json := by
  classical
  obtain ⟨s, hs⟩ := h
  have hsome : (all.find? fun t => decide (t.Refused json)).isSome = true :=
    List.find?_isSome.2 ⟨s, s.mem_all, decide_eq_true hs⟩
  obtain ⟨first, hfirst⟩ := Option.isSome_iff_exists.1 hsome
  obtain ⟨hrefused, front, back, hall, hfront⟩ := List.find?_eq_some_iff_append.1 hfirst
  refine ⟨front, first, back, hall, fun t ht => ?_, of_decide_eq_true hrefused⟩
  simpa using hfront t ht

end Setting

namespace Configuration

variable {json json' : Json} {c c' : Configuration} {field : Field} {s : Setting}
  {front rest : List Field} {settings : List Setting}

/-! ## One field -/

theorem mergeFields_cons_refused (hreads : field.Reads s) {fault : ConfigurationFault}
    (h : s.stated? json = some (.error fault)) (rest : List Field) (c : Configuration) :
    mergeFields json (field :: rest) c = (c, some fault) := by
  obtain ⟨value, hvalue, hread⟩ := Option.map_eq_some_iff.1 h
  rw [mergeFields, hreads.key_eq, hvalue]
  simp only [hreads.set_eq, hread, Except.map]

theorem exists_mergeFields_cons (hreads : field.Reads s) (h : ¬s.Refused json)
    (c : Configuration) :
    ∃ c', (∀ rest, mergeFields json (field :: rest) c = mergeFields json rest c') ∧
      s.Taken json c c' ∧ ∀ t, t ≠ s → t.get c' = t.get c := by
  rcases s.stated?_cases json with hnone | ⟨value, hvalue⟩ | hrefused
  · refine ⟨c, fun rest => ?_, ⟨fun hvalue => ?_, fun _ => rfl⟩, fun _ _ => rfl⟩
    · rw [mergeFields, hreads.key_eq, Option.map_eq_none_iff.1 hnone]
    · rw [hnone] at hvalue
      cases hvalue
  · refine ⟨s.put value c, fun rest => ?_, ⟨fun hvalue' => ?_, fun hnone => ?_⟩, fun t ht => ?_⟩
    · obtain ⟨member, hmember, hread⟩ := Option.map_eq_some_iff.1 hvalue
      rw [mergeFields, hreads.key_eq, hmember]
      simp only [hreads.set_eq, hread, Except.map]
    · rw [hvalue] at hvalue'
      cases hvalue'
      exact s.get_put value c
    · rw [hvalue] at hnone
      cases hnone
    · exact Setting.get_put_ne ht value c
  · exact absurd hrefused h

/-! ## A run of fields -/

/-- Fields of different settings, none of them refused, set these settings and no others. -/
theorem exists_mergeFields_append (hreads : List.Forall₂ Field.Reads front settings)
    (hnodup : settings.Nodup) (h : ∀ s ∈ settings, ¬s.Refused json) (c : Configuration) :
    ∃ c', (∀ rest, mergeFields json (front ++ rest) c = mergeFields json rest c') ∧
      (∀ s ∈ settings, s.Taken json c c') ∧ ∀ s ∉ settings, s.get c' = s.get c := by
  induction hreads generalizing c with
  | nil => exact ⟨c, fun _ => rfl, List.forall_mem_nil _, fun _ _ => rfl⟩
  | @cons field s front settings hfield _ ih =>
    obtain ⟨hfresh, hnodup⟩ := List.nodup_cons.1 hnodup
    obtain ⟨hs, hmore⟩ := List.forall_mem_cons.1 h
    obtain ⟨c₁, hstep, htaken, hother⟩ := exists_mergeFields_cons hfield hs c
    obtain ⟨c', hrun, hsettings, hkept⟩ := ih hnodup hmore c₁
    refine ⟨c', fun rest => ?_, ?_, fun t ht => ?_⟩
    · rw [List.cons_append, hstep, hrun]
    · refine List.forall_mem_cons.2 ⟨⟨fun hvalue => ?_, fun hnone => ?_⟩, fun t ht => ?_⟩
      · rw [hkept s hfresh, htaken.of_stated hvalue]
      · rw [hkept s hfresh, htaken.of_unstated hnone]
      · have hne : t ≠ s := fun heq => hfresh (heq ▸ ht)
        exact ⟨(hsettings t ht).of_stated, fun hnone => by
          rw [(hsettings t ht).of_unstated hnone, hother t hne]⟩
    · obtain ⟨hne, hnot⟩ := not_or.1 (mt List.mem_cons.2 ht)
      rw [hkept t hnot, hother t hne]

/-! ## Whole documents -/

theorem exists_merge_of_readable (h : ∀ s : Setting, ¬s.Refused json) (c : Configuration) :
    ∃ c', c.merge json = (c', none) ∧ ∀ s : Setting, s.Taken json c c' := by
  obtain ⟨c', hrun, htaken, -⟩ :=
    exists_mergeFields_append fields_read Setting.nodup_all (fun s _ => h s) c
  refine ⟨c', ?_, fun s => htaken s s.mem_all⟩
  rw [merge, ← List.append_nil fields, hrun]
  rfl

theorem exists_merge_of_refused {front back : List Setting} {fault : ConfigurationFault}
    (hall : Setting.all = front ++ s :: back) (hfront : ∀ t ∈ front, ¬t.Refused json)
    (hs : s.stated? json = some (.error fault)) (c : Configuration) :
    ∃ c', c.merge json = (c', some fault) ∧ (∀ t ∈ front, t.Taken json c c') ∧
      ∀ t ∈ s :: back, t.get c' = t.get c := by
  have hreads := fields_read
  rw [hall] at hreads
  have hreads_front := List.forall₂_take_append _ _ _ hreads
  have hreads_back := List.forall₂_drop_append _ _ _ hreads
  have hnodup := Setting.nodup_all
  rw [hall, List.nodup_append'] at hnodup
  obtain ⟨hnodup, -, hdisjoint⟩ := hnodup
  obtain ⟨c', hrun, htaken, hkept⟩ := exists_mergeFields_append hreads_front hnodup hfront c
  refine ⟨c', ?_, htaken, fun t ht => hkept t (List.disjoint_right.1 hdisjoint ht)⟩
  rw [merge, ← List.take_append_drop front.length fields, hrun]
  generalize fields.drop front.length = behind at hreads_back
  cases hreads_back with
  | cons hfield _ => exact mergeFields_cons_refused hfield hs _ _

theorem readable_of_merge? (h : c.merge? json = .ok c') (s : Setting) : ¬s.Refused json := by
  intro hs
  obtain ⟨front, s, back, hall, hfront, fault, hfault⟩ := Setting.exists_first_refused ⟨s, hs⟩
  obtain ⟨c', hmerge, -⟩ := exists_merge_of_refused hall hfront hfault c
  rw [merge?, hmerge] at h
  cases h

theorem merge?_eq_ok_iff : c.merge? json = .ok c' ↔
    ∀ s : Setting, ¬s.Refused json ∧ s.Taken json c c' := by
  constructor
  · intro h s
    have hread := readable_of_merge? h
    obtain ⟨c'', hmerge, htaken⟩ := exists_merge_of_readable hread c
    rw [merge?, hmerge] at h
    obtain rfl := Except.ok.inj h
    exact ⟨hread s, htaken s⟩
  · intro h
    obtain ⟨c'', hmerge, htaken⟩ := exists_merge_of_readable (fun s => (h s).1) c
    have heq : c'' = c' := by
      apply Setting.ext_get
      exact fun s => (htaken s).eq (h s).2 (h s).1 fun _ => rfl
    rw [merge?, hmerge, heq]

theorem mergeFields_congr (hreads : List.Forall₂ Field.Reads front settings)
    (h : ∀ s : Setting, json.member? s.key = json'.member? s.key) (c : Configuration) :
    mergeFields json front c = mergeFields json' front c := by
  induction hreads generalizing c with
  | nil => rfl
  | @cons field s front settings hfield _ ih =>
    rw [mergeFields, mergeFields, hfield.key_eq, h]
    cases json'.member? s.key with
    | none => exact ih c
    | some value =>
      simp only
      cases field.set value c with
      | ok c₁ => exact ih c₁
      | error fault => rfl

theorem merge_congr (h : ∀ s : Setting, json.member? s.key = json'.member? s.key)
    (c : Configuration) : c.merge json = c.merge json' :=
  mergeFields_congr fields_read h c

theorem merge_of_kind_ne (h : json.kind ≠ .object) (c : Configuration) :
    c.merge json = (c, none) := by
  have hmember : ∀ s : Setting, json.member? s.key = none := by
    intro s
    cases json with
    | object members => exact absurd rfl h
    | _ => rfl
  have hunstated : ∀ s : Setting, s.stated? json = none := fun s => by
    rw [Setting.stated?, hmember, Option.map_none]
  have hread : ∀ s : Setting, ¬s.Refused json := by
    rintro s ⟨fault, hfault⟩
    rw [hunstated] at hfault
    cases hfault
  obtain ⟨c', hmerge, htaken⟩ := exists_merge_of_readable hread c
  have hsame : c' = c := Setting.ext_get fun s => (htaken s).of_unstated (hunstated s)
  rw [hmerge, hsame]

/-! ## Documents one after the other -/

theorem member?_ofMembers_append (members members' : SortedMap Bytes Json) (key : Bytes) :
    (Json.ofMembers (members.toList ++ members'.toList)).member? key =
      (members'.find? key).or (members.find? key) := by
  rw [Json.ofMembers, Json.member?, ← SortedMap.find?, SortedMap.find?_ofList_append,
    SortedMap.ofList_toList, SortedMap.ofList_toList]

theorem merge_merge (json : Json) (c : Configuration) :
    (c.merge json).1.merge json = c.merge json := by
  by_cases hrefused : ∃ s : Setting, s.Refused json
  · obtain ⟨front, s, back, hall, hfront, fault, hfault⟩ := Setting.exists_first_refused hrefused
    obtain ⟨c₁, hmerge₁, htaken₁, -⟩ := exists_merge_of_refused hall hfront hfault c
    obtain ⟨c₂, hmerge₂, htaken₂, hkept₂⟩ := exists_merge_of_refused hall hfront hfault c₁
    rw [hmerge₁, hmerge₂]
    congr 1
    apply Setting.ext_get
    intro t
    rcases List.mem_append.1 (hall ▸ t.mem_all) with ht | ht
    · exact (htaken₂ t ht).eq (htaken₁ t ht) (hfront t ht) (htaken₁ t ht).of_unstated
    · exact hkept₂ t ht
  · have hread : ∀ s : Setting, ¬s.Refused json := fun s hs => hrefused ⟨s, hs⟩
    obtain ⟨c₁, hmerge₁, htaken₁⟩ := exists_merge_of_readable hread c
    obtain ⟨c₂, hmerge₂, htaken₂⟩ := exists_merge_of_readable hread c₁
    rw [hmerge₁, hmerge₂]
    congr 1
    apply Setting.ext_get
    exact fun s => (htaken₂ s).eq (htaken₁ s) (hread s) (htaken₁ s).of_unstated

/-- Two documents one after the other are the second one over the first. -/
theorem merge?_ofMembers_append {members members' : SortedMap Bytes Json} {c₁ c₂ : Configuration}
    (h₁ : c.merge? (.object members.toList) = .ok c₁)
    (h₂ : c₁.merge? (.object members'.toList) = .ok c₂) :
    c.merge? (.ofMembers (members.toList ++ members'.toList)) = .ok c₂ := by
  rw [merge?_eq_ok_iff] at h₁ h₂ ⊢
  intro s
  obtain ⟨hread₁, htaken₁⟩ := h₁ s
  obtain ⟨hread₂, htaken₂⟩ := h₂ s
  have hstated : s.stated? (.ofMembers (members.toList ++ members'.toList)) =
      (s.stated? (.object members'.toList)).or (s.stated? (.object members.toList)) := by
    rw [Setting.stated?, member?_ofMembers_append, Option.map_or]
    rfl
  rcases s.stated?_cases (.object members'.toList) with hnone | ⟨value, hvalue⟩ | hrefused
  · rw [hnone, Option.none_or] at hstated
    refine ⟨(Setting.Refused.congr hstated).not.2 hread₁, ?_, ?_⟩
    · intro value hvalue
      rw [htaken₂.of_unstated hnone, htaken₁.of_stated (hstated ▸ hvalue)]
    · intro hunstated
      rw [htaken₂.of_unstated hnone, htaken₁.of_unstated (hstated ▸ hunstated)]
  · rw [hvalue, Option.some_or, ← hvalue] at hstated
    refine ⟨(Setting.Refused.congr hstated).not.2 hread₂, ?_, ?_⟩
    · intro value hvalue
      exact htaken₂.of_stated (hstated ▸ hvalue)
    · intro hunstated
      rw [hstated, hvalue] at hunstated
      cases hunstated
  · exact absurd hrefused hread₂

/-- A document without a refused setting sets the settings that it states, to null at most the
greatest length. Any other document sets those before the first refused one. Nothing else in a
document counts. -/
theorem merge_sets_stated_settings (json : Json) (c : Configuration) :
    (∀ s : Setting, s.Refused json ↔
      ∃ value, json.member? s.key = some value ∧ ¬s.Admits value) ∧
    ((∀ s : Setting, ¬s.Refused json) →
      ∃ c', c.merge json = (c', none) ∧ (∀ s : Setting, s.Taken json c c') ∧
        (json.member? (utf8 "max_length") = some .null → c'.maxLength = none) ∧
        (∀ n, json.member? (utf8 "max_length") = some (.integer n) →
          c'.maxLength = some (Int32.ofInt n)) ∧
        ∀ b, json.member? (utf8 "max_length") = some (.bool b) →
          c'.maxLength = some (if b then 1 else 0)) ∧
    (∀ front s back, Setting.all = front ++ s :: back → (∀ t ∈ front, ¬t.Refused json) →
      s.Refused json → ∃ c' fault, c.merge json = (c', some fault) ∧
        s.stated? json = some (.error fault) ∧ (∀ t ∈ front, t.Taken json c c') ∧
        ∀ t ∈ s :: back, t.get c' = t.get c) ∧
    (json.kind ≠ .object → c.merge json = (c, none)) ∧
    (∀ json', (∀ s : Setting, json.member? s.key = json'.member? s.key) →
      c.merge json = c.merge json') ∧
    (∀ members members' : SortedMap Bytes Json, ∀ c₁ c₂ : Configuration,
      c.merge? (.object members.toList) = .ok c₁ → c₁.merge? (.object members'.toList) = .ok c₂ →
      c.merge? (.ofMembers (members.toList ++ members'.toList)) = .ok c₂) ∧
    (c.merge json).1.merge json = c.merge json := by
  refine ⟨fun s => Setting.refused_iff, fun hread => ?_, ?_, fun hkind => merge_of_kind_ne hkind c,
    fun json' hmembers => merge_congr hmembers c, fun _ _ _ _ => merge?_ofMembers_append,
    merge_merge json c⟩
  · obtain ⟨c', hmerge, htaken⟩ := exists_merge_of_readable hread c
    have hmaximum : ∀ value n, json.member? (utf8 "max_length") = some value →
        Setting.readMaximum value = .ok n → c'.maxLength = n := by
      intro value n hvalue hn
      have hstated : Setting.maxLength.stated? json = some (.ok n) := by
        rw [Setting.stated?, Setting.key, hvalue, Option.map_some, Setting.read, hn]
      exact (htaken .maxLength).of_stated hstated
    exact ⟨c', hmerge, htaken, fun hnull => hmaximum _ _ hnull rfl,
      fun n hn => hmaximum _ _ hn rfl, fun b hb => hmaximum _ _ hb rfl⟩
  · rintro front s back hall hfront ⟨fault, hfault⟩
    obtain ⟨c', hmerge, htaken, hkept⟩ := exists_merge_of_refused hall hfront hfault c
    exact ⟨c', fault, hmerge, hfault, htaken, hkept⟩

def textForMaximum : Json :=
  .record [("lite", .bool true), ("max_length", .text "two"), ("min_length", .integer 2)]

/-- The greatest length is a text, so the least one is set and the flag is not. -/
theorem merge_stops_at_text :
    ∃ c', merge textForMaximum {} = (c', some (.valueKind (.wrongKind .number .string))) ∧
      c'.minLength = 2 ∧ c'.maxLength = none ∧ c'.lite = false := by
  have hminimum : Setting.minLength.stated? textForMaximum = some (.ok 2) := rfl
  have hmaximum : Setting.maxLength.stated? textForMaximum =
      some (.error (.valueKind (.wrongKind .number .string))) := rfl
  obtain ⟨-, -, hstops, -⟩ := merge_sets_stated_settings textForMaximum {}
  obtain ⟨c', fault, hmerge, hfault, htaken, hkept⟩ := hstops [.minLength] .maxLength _ rfl
    (by simp [Setting.Refused, hminimum]) ⟨_, hmaximum⟩
  obtain rfl := Except.error.inj (Option.some.inj (hmaximum.symm.trans hfault))
  exact ⟨c', hmerge, (htaken .minLength (by simp)).of_stated hminimum,
    hkept .maxLength (by simp), hkept .lite (by simp)⟩

end Configuration

end Substitutability
