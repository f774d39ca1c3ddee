import Mathlib.Data.List.SplitBy
import Mathlib.Data.List.TakeWhile
import Substitutability.Text.Bytes

/-!
# Words

The words of a text are its maximal runs of bytes that are not blank. A blank ends a word
wherever it stands, so the words before it and the words behind it are found apart.
-/

set_option autoImplicit false

namespace Substitutability.Bytes

variable {b : UInt8} {x y piece text word : Bytes}

/-! ## Pieces -/

theorem pieces_eq_splitOnP (separates : UInt8 → Bool) (text : Bytes) :
    pieces separates text = text.splitOnP separates := by
  induction text with
  | nil => simp [pieces]
  | cons b rest ih =>
    rw [pieces, List.splitOnP_cons_eq_if_modifyHead, ← ih]
    by_cases hb : separates b = true
    · rw [if_pos hb, if_pos hb]
    · rw [if_neg hb, if_neg hb]
      cases hpieces : pieces separates rest with
      | nil => exact absurd hpieces (pieces_ne_nil separates rest)
      | cons piece more => rfl

theorem splitOn_eq (separator : UInt8) (text : Bytes) :
    splitOn separator text = List.splitOn separator text :=
  pieces_eq_splitOnP _ text

theorem join_eq_intercalate (separator : Bytes) (texts : List Bytes) :
    join separator texts = separator.intercalate texts := by
  induction texts with
  | nil => rfl
  | cons text rest ih =>
    cases rest with
    | nil => simp [join]
    | cons next rest => rw [join, ih, List.intercalate_cons_cons, List.append_assoc]

theorem join_nil (texts : List Bytes) : join [] texts = texts.flatten := by
  induction texts with
  | nil => rfl
  | cons text rest ih =>
    cases rest with
    | nil => simp [join]
    | cons next rest => rw [join, ih, List.append_nil, ← List.flatten_cons]

theorem splitOn_join {separator : UInt8} {texts : List Bytes} (hne : texts ≠ [])
    (h : ∀ text ∈ texts, separator ∉ text) :
    splitOn separator (join [separator] texts) = texts := by
  rw [splitOn_eq, join_eq_intercalate, List.splitOn_intercalate separator h hne]

theorem mem_pieces {separates : UInt8 → Bool} (h : piece ∈ pieces separates text) :
    ∀ b ∈ piece, b ∈ text ∧ separates b = false := by
  induction text generalizing piece with
  | nil =>
    rw [pieces, List.mem_singleton] at h
    simp [h]
  | cons first rest ih =>
    rw [pieces] at h
    split at h
    · rcases List.mem_cons.1 h with rfl | h
      · simp
      · intro b hb
        exact ⟨List.mem_cons_of_mem _ (ih h b hb).1, (ih h b hb).2⟩
    · rename_i hfirst
      cases hpieces : pieces separates rest with
      | nil => exact absurd hpieces (pieces_ne_nil separates rest)
      | cons head more =>
        rw [hpieces] at h ih
        grind

/-! ## Words -/

theorem words_nil : words [] = [] :=
  rfl

theorem words_append_cons (hb : isBlank b = true) (x y : Bytes) :
    words (x ++ b :: y) = words x ++ words y := by
  simp only [words, pieces_eq_splitOnP]
  rw [List.splitOnP_append_cons x y hb, List.filter_append]

theorem words_cons (hb : isBlank b = true) (text : Bytes) : words (b :: text) = words text :=
  words_append_cons hb [] text

theorem words_append_of_blank (h : ∀ b ∈ x, isBlank b = true) (y : Bytes) :
    words (x ++ y) = words y := by
  induction x with
  | nil => rfl
  | cons b rest ih =>
    rw [List.cons_append, words_cons (h b List.mem_cons_self),
      ih fun b hb => h b (List.mem_cons_of_mem _ hb)]

theorem words_of_unblank (hne : word ≠ []) (h : ∀ b ∈ word, isBlank b = false) :
    words word = [word] := by
  rw [words, pieces_eq_splitOnP, List.splitOnP_eq_singleton h]
  simp [hne]

theorem mem_words (h : word ∈ words text) :
    word ≠ [] ∧ ∀ b ∈ word, b ∈ text ∧ isBlank b = false := by
  obtain ⟨hpiece, hne⟩ := List.mem_filter.1 h
  exact ⟨by simpa using hne, mem_pieces hpiece⟩

theorem words_join (hb : isBlank b = true) {phrase : List Bytes}
    (h : ∀ word ∈ phrase, word ≠ [] ∧ ∀ b ∈ word, isBlank b = false) :
    words (join [b] phrase) = phrase := by
  induction phrase with
  | nil => rfl
  | cons word rest ih =>
    obtain ⟨hne, hunblank⟩ := h word List.mem_cons_self
    have hrest := ih fun word hword => h word (List.mem_cons_of_mem _ hword)
    cases rest with
    | nil => exact words_of_unblank hne hunblank
    | cons next rest =>
      rw [join, List.append_assoc, List.singleton_append, words_append_cons hb,
        words_of_unblank hne hunblank, hrest, List.singleton_append]

theorem words_append_of_unblank (hne : word ≠ []) (h : ∀ b ∈ word, isBlank b = false)
    (hy : ∀ b ∈ y.head?, isBlank b = true) : words (word ++ y) = word :: words y := by
  cases y with
  | nil => rw [List.append_nil, words_of_unblank hne h, words_nil]
  | cons b rest =>
    have hb := hy b rfl
    rw [words_append_cons hb, words_of_unblank hne h, words_cons hb, List.singleton_append]

/-! ## Maximal runs -/

def blanks : Bytes :=
  [9, 10, 11, 12, 13, 32]

theorem mem_blanks : b ∈ blanks ↔ isBlank b = true := by
  simp only [blanks, isBlank]
  grind

def alike (a b : UInt8) : Bool :=
  decide (a ∈ blanks ↔ b ∈ blanks)

/-- The text is cut wherever a blank and another byte meet, and the parts of blanks are left
out. -/
def runs (text : Bytes) : List Bytes :=
  (text.splitBy alike).filter fun run => run.all (· ∉ blanks)

theorem alike_iff {a b : UInt8} : alike a b = true ↔ isBlank a = isBlank b := by
  rw [alike, decide_eq_true_iff, mem_blanks, mem_blanks]
  exact Bool.eq_iff_iff.symm

theorem splitBy_append_of_alike (hne : x ≠ []) {blank : Bool} (hx : ∀ b ∈ x, isBlank b = blank)
    (hy : ∀ b ∈ y.head?, isBlank b = !blank) :
    (x ++ y).splitBy alike = x :: y.splitBy alike := by
  have hmeet : ∀ a ∈ x.getLast?, ∀ b ∈ y.head?, alike a b = false := by
    intro a ha b hb
    rw [Bool.eq_false_iff, Ne, alike_iff, hx a (List.mem_of_getLast? ha), hy b hb]
    simp
  have hchain : x.IsChain fun a b => alike a b = true := by
    apply List.Pairwise.isChain
    apply List.pairwise_of_forall_mem_list
    intro a ha b hb
    rw [alike_iff, hx a ha, hx b hb]
  rw [List.splitBy_append hmeet, List.splitBy_of_isChain hne hchain, List.singleton_append]

theorem runs_append_of_unblank (hne : word ≠ []) (h : ∀ b ∈ word, isBlank b = false)
    (hy : ∀ b ∈ y.head?, isBlank b = true) : runs (word ++ y) = word :: runs y := by
  have hkeep : word.all (· ∉ blanks) = true := by
    apply List.all_eq_true.2
    intro b hb
    simp [mem_blanks, h b hb]
  rw [runs, splitBy_append_of_alike hne h hy, List.filter_cons, if_pos hkeep, runs]

theorem runs_append_of_blank (hne : x ≠ []) (h : ∀ b ∈ x, isBlank b = true)
    (hy : ∀ b ∈ y.head?, isBlank b = false) : runs (x ++ y) = runs y := by
  have hdrop : ¬x.all (· ∉ blanks) = true := by
    obtain ⟨b, hb⟩ := List.exists_mem_of_ne_nil x hne
    intro hall
    have := List.all_eq_true.1 hall b hb
    simp [mem_blanks, h b hb] at this
  rw [runs, splitBy_append_of_alike hne h hy, List.filter_cons, if_neg hdrop, runs]

theorem exists_first_run (hne : text ≠ []) :
    ∃ x y blank, text = x ++ y ∧ x ≠ [] ∧ (∀ b ∈ x, isBlank b = blank) ∧
      ∀ b ∈ y.head?, isBlank b = !blank := by
  obtain ⟨first, rest, rfl⟩ := List.exists_cons_of_ne_nil hne
  refine ⟨(first :: rest).takeWhile (isBlank · == isBlank first),
    (first :: rest).dropWhile (isBlank · == isBlank first), isBlank first, ?_, ?_, ?_, ?_⟩
  · exact List.takeWhile_append_dropWhile.symm
  · simp
  · intro b hb
    simpa using List.mem_takeWhile_imp hb
  · intro b hb
    have hstop := List.head?_dropWhile_not (isBlank · == isBlank first) (first :: rest)
    rw [Option.mem_def.1 hb] at hstop
    simpa [Bool.eq_not] using hstop

/-- By induction on the length: a text that is not empty starts with a run of blanks or with
a word, and goes on with the other kind. -/
theorem words_eq_runs (text : Bytes) : words text = runs text := by
  induction hlength : text.length using Nat.strong_induction_on generalizing text with
  | _ n ih =>
    by_cases hne : text = []
    · rw [hne]
      rfl
    · obtain ⟨x, y, blank, rfl, hx, hblank, hy⟩ := exists_first_run hne
      have hshort : y.length < n := by
        have := List.length_pos_iff.2 hx
        rw [← hlength, List.length_append]
        omega
      have hrest := ih y.length hshort y rfl
      cases blank with
      | true => rw [words_append_of_blank hblank, runs_append_of_blank hx hblank hy, hrest]
      | false =>
        rw [words_append_of_unblank hx hblank hy, runs_append_of_unblank hx hblank hy, hrest]

end Substitutability.Bytes
