import Substitutability.Proofs.Grammar.Induction

/-!
# Filling fragments in place

The fragments of a grammar can be filled one after the other in a row with a place for
each class: a class opens its fragment, a sighting is noted in the fragment of its
class, and a class adds the rules of its members. No place outside the row is used, and
the row ends up with the fragments of the induced grammar.
-/

set_option autoImplicit false

namespace Substitutability

namespace Fragment

def blank : Fragment :=
  ⟨0, [], SortedSet.empty, SortedSet.empty, SortedSet.empty, 0, false⟩

def opened (c : CongruenceClass) (f : Fragment) : Fragment :=
  { f with index := c.index, members := c.members }

def noted (pattern : Pattern) (f : Fragment) : Fragment :=
  { f with patterns := f.patterns.insert pattern, occurrences := f.occurrences + 1 }

def withRules (p : Partition) (c : CongruenceClass) (f : Fragment) : Fragment :=
  { f with
    tokens := f.tokens.insertAll (Grammar.singleTokens c.members)
    decompositions := f.decompositions.insertAll (c.members.flatMap (Grammar.splits p)) }

def judged (least : Nat) (f : Fragment) : Fragment :=
  { f with productive := decide (least ≤ f.patternCount) }

def changed (f : Fragment) (changes : List (Fragment → Fragment)) : Fragment :=
  changes.foldl (fun f change => change f) f

theorem changed_append (f : Fragment) (changes rest : List (Fragment → Fragment)) :
    f.changed (changes ++ rest) = (f.changed changes).changed rest :=
  List.foldl_append

theorem changed_noted (f : Fragment) (patterns : List Pattern) :
    f.changed (patterns.map noted) =
      { f with
        patterns := f.patterns.insertAll patterns
        occurrences := f.occurrences + patterns.length } := by
  induction patterns generalizing f with
  | nil => rfl
  | cons pattern rest ih =>
    have hstep : f.changed ((pattern :: rest).map noted) = (f.noted pattern).changed (rest.map noted) :=
      rfl
    rw [hstep, ih]
    simp [noted, SortedSet.insertAll]
    omega

end Fragment

namespace Grammar

/-! ## A row of fragments -/

abbrev Change := Nat × (Fragment → Fragment)

/-- The changes one after the other; nothing if one is for a place outside the row. -/
def change? : List Change → List Fragment → Option (List Fragment)
  | [], row => some row
  | (i, change) :: rest, row =>
    if i < row.length then change? rest (row.modify i change) else none

theorem change?_eq_some {changes : List Change} {row : List Fragment}
    (h : ∀ c ∈ changes, c.1 < row.length) :
    ∃ result, change? changes row = some result ∧
      ∀ i : Nat, result[i]? =
        (row[i]?).map fun f => f.changed (SortedMap.itemsOf i changes) := by
  induction changes generalizing row with
  | nil =>
    refine ⟨row, rfl, ?_⟩
    intro i
    cases row[i]? <;> rfl
  | cons change rest ih =>
    obtain ⟨k, change⟩ := change
    have hk : k < row.length := h (k, change) (by simp)
    have hrest : ∀ c ∈ rest, c.1 < (row.modify k change).length := by
      intro c hc
      rw [List.length_modify]
      exact h c (by simp [hc])
    obtain ⟨result, hresult, hget⟩ := ih hrest
    refine ⟨result, by rw [change?, if_pos hk, hresult], ?_⟩
    intro i
    rw [hget, List.getElem?_modify]
    by_cases hi : i = k
    · subst hi
      rw [SortedMap.itemsOf_cons_self]
      cases row[i]? <;> simp [Fragment.changed]
    · rw [SortedMap.itemsOf_cons_ne hi]
      cases row[i]? <;> simp [Ne.symm hi]

/-! ## The three passes -/

variable {p : Partition}

def openings (p : Partition) : List Change :=
  p.classes.map fun c => (c.index, Fragment.opened c)

def notes (seen : List Pattern) : List Change :=
  seen.map fun pattern => (pattern.index, Fragment.noted pattern)

def additions (p : Partition) : List Change :=
  p.classes.map fun c => (c.index, Fragment.withRules p c)

/-- Open the fragments, note what was seen, add the rules, and judge. -/
def fill? (extractor : Extractor) (least : Nat) (sentences : List Sentence) (p : Partition) :
    Option (List Fragment) :=
  let changes := openings p ++ notes (allSightings extractor p sentences) ++ additions p
  (change? changes (List.replicate p.size Fragment.blank)).map (·.map (Fragment.judged least))

theorem itemsOf_classes (change : CongruenceClass → Fragment → Fragment) {c : CongruenceClass}
    (hc : c ∈ p.classes) :
    SortedMap.itemsOf c.index (p.classes.map fun c => (c.index, change c)) = [change c] := by
  apply SortedMap.itemsOf_eq_singleton
  · rw [List.map_map]
    show (p.classes.map CongruenceClass.index).Nodup
    rw [p.numbered]
    exact List.nodup_range
  · exact List.mem_map.2 ⟨c, hc, rfl⟩

theorem itemsOf_notes (i : Nat) (seen : List Pattern) :
    SortedMap.itemsOf i (notes seen) = (seen.filter (·.index == i)).map Fragment.noted := by
  induction seen with
  | nil => rfl
  | cons pattern rest ih =>
    have hcons : notes (pattern :: rest) = (pattern.index, Fragment.noted pattern) :: notes rest := rfl
    by_cases hi : i = pattern.index
    · subst hi
      simp [hcons, SortedMap.itemsOf_cons_self, ih]
    · simp [hcons, SortedMap.itemsOf_cons_ne hi, ih, Ne.symm hi]

theorem judged_changed (seen : List Pattern) (least : Nat) {c : CongruenceClass}
    (hc : c ∈ p.classes) :
    (Fragment.blank.changed
      (SortedMap.itemsOf c.index (openings p ++ notes seen ++ additions p))).judged least =
        fragmentOf p seen least c := by
  rw [SortedMap.itemsOf_append, SortedMap.itemsOf_append, openings, additions,
    itemsOf_classes _ hc, itemsOf_classes _ hc, itemsOf_notes, Fragment.changed_append,
    Fragment.changed_append, Fragment.changed_noted]
  simp only [Fragment.changed, Fragment.opened, Fragment.withRules, Fragment.judged,
    Fragment.blank, List.foldl_cons, List.foldl_nil, Nat.zero_add]
  rfl

theorem index_lt_size_of_mem_allSightings {extractor : Extractor} {sentences : List Sentence}
    {pattern : Pattern} (h : pattern ∈ allSightings extractor p sentences) :
    pattern.index < p.size := by
  obtain ⟨a, ha, -⟩ := mem_allSightings.1 h
  exact Partition.classOf?_lt_size ha

theorem fill?_eq_some (extractor : Extractor) (least : Nat) (corpus : Corpus) (p : Partition) :
    fill? extractor least corpus.sentences p = some (induce extractor least corpus p).fragments := by
  have hplaces : ∀ c ∈ openings p ++ notes (allSightings extractor p corpus.sentences) ++
      additions p, c.1 < (List.replicate p.size Fragment.blank).length := by
    intro change hchange
    rw [List.length_replicate]
    rcases List.mem_append.1 hchange with hchange | hchange
    · rcases List.mem_append.1 hchange with hchange | hchange
      · obtain ⟨c, hc, rfl⟩ := List.mem_map.1 hchange
        exact Partition.index_lt_size hc
      · obtain ⟨pattern, hpattern, rfl⟩ := List.mem_map.1 hchange
        exact index_lt_size_of_mem_allSightings hpattern
    · obtain ⟨c, hc, rfl⟩ := List.mem_map.1 hchange
      exact Partition.index_lt_size hc
  obtain ⟨row, hrow, hget⟩ := change?_eq_some hplaces
  rw [fill?, hrow, Option.map_some, Option.some.injEq]
  apply List.ext_getElem?
  intro i
  show (row.map _)[i]? = (p.classes.map (fragmentOf p _ least))[i]?
  rw [List.getElem?_map, List.getElem?_map, hget]
  cases hc : p.classes[i]? with
  | none =>
    have hsize : p.size ≤ i := List.getElem?_eq_none_iff.1 hc
    simp [hsize]
  | some c =>
    have hmem := List.mem_of_getElem? hc
    have hindex := Partition.index_of_getElem? hc
    subst hindex
    have hplace := List.getElem?_replicate_of_lt (a := Fragment.blank) (Partition.index_lt_size hmem)
    rw [hplace, Option.map_some, Option.map_some, Option.map_some, judged_changed _ _ hmem]

end Grammar

end Substitutability
