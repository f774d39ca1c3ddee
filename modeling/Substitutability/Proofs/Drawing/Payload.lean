import Substitutability.Proofs.Drawing.Protection
import Substitutability.Proofs.Graph.Degrees
import Substitutability.Proofs.Report.Printable

/-!
# The data of a page

The data stands inside a script element, so the text of it is edited in place: the first `</`
behind a position gets its backslash, and the search goes on behind the edit. One edit keeps
what stands in front of the position together with the protected rest, and shortens the rest.
So the edits come to an end, and the protected text is all that they can end with. No `</` is
left in it, and as a document it says what the page shows.
-/

set_option autoImplicit false

namespace Substitutability.Drawing.Page

variable {text front rest : Bytes} {i j : Nat}

/-! ## Pairs -/

def IsPairAt (text : Bytes) (i : Nat) : Prop :=
  [60, 47] <+: text.drop i

instance (text : Bytes) (i : Nat) : Decidable (IsPairAt text i) :=
  inferInstanceAs (Decidable (_ <+: _))

theorem protect_cons_of_not_pair {b : UInt8} (h : ¬IsPairAt (b :: rest) 0) :
    protect (b :: rest) = b :: protect rest := by
  rw [protect]
  rintro more rfl rfl
  exact h ⟨more, rfl⟩

theorem protect_append_of_not_pair (h : ∀ i < front.length, ¬IsPairAt (front ++ rest) i) :
    protect (front ++ rest) = front ++ protect rest := by
  induction front with
  | nil => rfl
  | cons b front ih =>
    have hb : ¬IsPairAt (b :: (front ++ rest)) 0 := h 0 (Nat.succ_pos _)
    have hfront : ∀ i < front.length, ¬IsPairAt (front ++ rest) i := by
      intro i hi
      exact h (i + 1) (Nat.succ_lt_succ hi)
    rw [List.cons_append, protect_cons_of_not_pair hb, ih hfront, List.cons_append]

theorem not_pair_protect (text : Bytes) : ¬[60, 47] <:+: protect text := by
  fun_induction protect text with
  | case1 rest ih =>
    simp only [List.infix_cons_iff, List.cons_prefix_cons]
    simpa using ih
  | case2 b rest hpair ih =>
    rw [List.infix_cons_iff, not_or]
    refine ⟨fun hstart => ?_, ih⟩
    obtain ⟨rfl, more, hmore⟩ := List.cons_prefix_cons.1 hstart
    obtain ⟨after, hafter⟩ := Json.exists_of_protect_eq_append [47] (by decide) hmore.symm
    exact hpair after rfl hafter
  | case3 => simp

theorem isPairAt_drop (text : Bytes) (i j : Nat) :
    IsPairAt (text.drop i) j ↔ IsPairAt text (i + j) := by
  rw [IsPairAt, IsPairAt, List.drop_drop]

/-! ## Edits -/

def pairFrom? (text : Bytes) (position : Nat) : Option Nat :=
  (List.range' position (text.length - position)).find? fun i => IsPairAt text i

/-- A text that is edited in place, and the position at which the next search starts. -/
structure Editing where
  text : Bytes
  position : Nat
  deriving DecidableEq, Repr

namespace Editing

/-- The two bytes of the first pair are replaced by three, and the next search starts behind
them. -/
def next? (e : Editing) : Option Editing :=
  (pairFrom? e.text e.position).map fun i =>
    ⟨e.text.take i ++ [60, 92, 47] ++ e.text.drop (i + 2), i + 3⟩

inductive Ends : Editing → Bytes → Prop
  | stop {e : Editing} (h : e.next? = none) : Ends e e.text
  | edit {e e' : Editing} {result : Bytes} (h : e.next? = some e') (hends : Ends e' result) :
    Ends e result

/-- What no edit changes: the text in front of the position, and the protected rest. -/
def outcome (e : Editing) : Bytes :=
  e.text.take e.position ++ protect (e.text.drop e.position)

variable {e e' : Editing} {result : Bytes}

theorem text_of_next?_eq_none (h : e.next? = none) : e.text = e.outcome := by
  rw [next?, Option.map_eq_none_iff, pairFrom?, List.find?_range'_eq_none] at h
  have hfree : ∀ i < (e.text.drop e.position).length,
      ¬IsPairAt (e.text.drop e.position ++ []) i := by
    intro i hi
    rw [List.length_drop] at hi
    rw [List.append_nil, isPairAt_drop]
    simpa using h (e.position + i) (Nat.le_add_right _ _) (by omega)
  have hrest := protect_append_of_not_pair hfree
  rw [List.append_nil, protect, List.append_nil] at hrest
  rw [outcome, hrest, List.take_append_drop]

theorem next?_eq_some (h : e.next? = some e') : ∃ front rest,
    e.text.drop e.position = front ++ 60 :: 47 :: rest ∧
    (∀ i < front.length, ¬IsPairAt (front ++ 60 :: 47 :: rest) i) ∧
    e'.text.take e'.position = e.text.take e.position ++ front ++ [60, 92, 47] ∧
    e'.text.drop e'.position = rest := by
  obtain ⟨i, hi, rfl⟩ := Option.map_eq_some_iff.1 h
  obtain ⟨hpair, hmem, hfirst⟩ := List.find?_range'_eq_some.1 hi
  obtain ⟨hle, hlt⟩ := List.mem_range'_1.1 hmem
  obtain ⟨k, rfl⟩ := Nat.exists_eq_add_of_le hle
  obtain ⟨rest, hrest⟩ := of_decide_eq_true hpair
  have hbehind : (e.text.drop e.position).drop k = 60 :: 47 :: rest := by
    rw [List.drop_drop, ← hrest]
    rfl
  have hdrop : e.text.drop e.position = (e.text.drop e.position).take k ++ 60 :: 47 :: rest := by
    rw [← hbehind, List.take_append_drop]
  have hlength : (e.text.take (e.position + k) ++ [60, 92, 47]).length = e.position + k + 3 := by
    rw [List.length_append, List.length_take, Nat.min_eq_left (by omega)]
    rfl
  refine ⟨(e.text.drop e.position).take k, rest, hdrop, ?_, ?_, ?_⟩
  · intro j hj
    rw [List.length_take] at hj
    rw [← hdrop, isPairAt_drop]
    simpa using hfirst (e.position + j) (Nat.le_add_right _ _) (by omega)
  · rw [List.take_left' hlength, List.take_add]
  · rw [List.drop_left' hlength, ← List.drop_drop, ← hrest]
    rfl

theorem outcome_of_next?_eq_some (h : e.next? = some e') : e'.outcome = e.outcome := by
  obtain ⟨front, rest, hdrop, hfree, htake, hrest⟩ := next?_eq_some h
  calc e'.outcome
    _ = e.text.take e.position ++ front ++ [60, 92, 47] ++ protect rest := by
        rw [outcome, htake, hrest]
    _ = e.text.take e.position ++ (front ++ protect (60 :: 47 :: rest)) := by
        rw [protect, List.append_assoc, List.append_assoc]
        rfl
    _ = e.outcome := by
        rw [outcome, hdrop, protect_append_of_not_pair hfree]

theorem length_drop_lt (h : e.next? = some e') :
    (e'.text.drop e'.position).length < (e.text.drop e.position).length := by
  obtain ⟨front, rest, hdrop, -, -, hrest⟩ := next?_eq_some h
  rw [hdrop, hrest, List.length_append, List.length_cons, List.length_cons]
  omega

theorem exists_ends (e : Editing) : ∃ result, e.Ends result := by
  induction hlength : (e.text.drop e.position).length using Nat.strong_induction_on
    generalizing e with
  | _ n ih =>
    cases hnext : e.next? with
    | none => exact ⟨e.text, .stop hnext⟩
    | some e' =>
      have hshorter := length_drop_lt hnext
      obtain ⟨result, hends⟩ := ih _ (hlength ▸ hshorter) e' rfl
      exact ⟨result, .edit hnext hends⟩

theorem Ends.eq_outcome (h : e.Ends result) : result = e.outcome := by
  induction h with
  | stop hnext => exact text_of_next?_eq_none hnext
  | edit hnext hends ih => rw [ih, outcome_of_next?_eq_some hnext]

theorem ends_iff : e.Ends result ↔ result = e.outcome := by
  constructor
  · exact Ends.eq_outcome
  · rintro rfl
    obtain ⟨result, hends⟩ := e.exists_ends
    exact hends.eq_outcome ▸ hends

end Editing

theorem ends_start_iff {result : Bytes} :
    (⟨text, 0⟩ : Editing).Ends result ↔ result = protect text :=
  Editing.ends_iff

example : (⟨utf8 "<</</", 0⟩ : Editing).next? = some ⟨utf8 "<<\\/</", 4⟩ ∧
    protect (utf8 "<</</") = utf8 "<<\\/<\\/" := by
  decide

/-! ## What the page shows -/

/-- What a page can show: texts are well-formed, and a word holds the numbers of nodes and
classes. -/
structure Presentable (caption : Caption) (g : Graph) (p : Partition) : Prop where
  title : Utf8.WellFormed caption.title
  separator : Utf8.WellFormed caption.separator
  tokens : g.All Utf8.WellFormed
  nodes : g.nodeCount < 2 ^ 64
  classes : p.size < 2 ^ 64

variable {caption : Caption} {g : Graph} {p : Partition}

theorem faithful_nat {n : Nat} (h : n < 2 ^ 64) : (Json.nat n).Faithful := by
  apply Json.Faithful.integer
  simp only [Json.fitsWord, Bool.and_eq_true, decide_eq_true_eq]
  omega

theorem wellFormed_label {separator : Bytes} {phrase : Phrase}
    (hseparator : Utf8.WellFormed separator) (h : phrase.All Utf8.WellFormed) :
    Utf8.wellFormed (phrase.label separator) = true :=
  Utf8.wellFormed_join hseparator h

theorem wellFormed_contextLabel {separator : Bytes} {c : Context}
    (hseparator : Utf8.WellFormed separator) (h : c.All Utf8.WellFormed) :
    Utf8.wellFormed (c.label separator) = true := by
  have hleft := Utf8.wellFormed_append (Utf8.wellFormed_utf8 "(") (wellFormed_label hseparator h.1)
  have hright := Utf8.wellFormed_append (wellFormed_label hseparator h.2) (Utf8.wellFormed_utf8 ")")
  have hmiddle := Utf8.wellFormed_append hleft (Utf8.wellFormed_utf8 " _ ")
  have hall := Utf8.wellFormed_append hmiddle hright
  rwa [← List.append_assoc] at hall

theorem degree_le (g : Graph) {i : Nat} (hi : i < g.nodeCount) : g.degree i ≤ g.nodeCount := by
  rw [← Graph.length_partners (List.getElem?_eq_getElem hi)]
  exact List.length_filter_le _ _

theorem faithful_nodeToJson (h : Presentable caption g p) {node : Phrase × Nat}
    (hnode : node ∈ g.nodes.zipIdx) : (nodeToJson caption g p node).Faithful := by
  obtain ⟨phrase, i⟩ := node
  have hi : i < g.nodeCount := List.snd_lt_of_mem_zipIdx hnode
  have hdegree := degree_le g hi
  have hnodes := h.nodes
  have hphrase := h.tokens.nodes _ (List.fst_mem_of_mem_zipIdx hnode)
  apply Json.faithful_record
  simp only [List.forall_mem_cons]
  refine ⟨faithful_nat (by omega), .string (wellFormed_label h.separator hphrase),
    faithful_nat (by omega), .string ?_, .string ?_, nofun⟩
  · cases p.classOf? phrase with
    | none => exact Utf8.wellFormed_nil
    | some index => exact wellFormed_nonterminal index
  · cases p.classOf? phrase with
    | none => exact Utf8.wellFormed_utf8 _
    | some index => exact Utf8.wellFormed_utf8 _

theorem faithful_linkToJson (h : Presentable caption g p) {entry : Edge × Context}
    (hentry : entry ∈ g.witnesses.toList) : (linkToJson caption entry).Faithful := by
  obtain ⟨hlt, hbound⟩ := g.ordered entry.1 (List.mem_map_of_mem hentry)
  have hnodes : g.nodes.length < 2 ^ 64 := h.nodes
  have hlabel := wellFormed_contextLabel h.separator (h.tokens.witnesses entry hentry)
  apply Json.faithful_record
  simp only [List.forall_mem_cons]
  exact ⟨faithful_nat (by omega), faithful_nat (by omega), .string hlabel, nofun⟩

theorem faithful_view (h : Presentable caption g p) : (view caption g p).Faithful := by
  have hnodes : (Json.array (g.nodes.zipIdx.map (nodeToJson caption g p))).Faithful :=
    .array (List.forall_mem_map.2 fun _ => faithful_nodeToJson h)
  have hlinks : (Json.array (g.witnesses.toList.map (linkToJson caption))).Faithful :=
    .array (List.forall_mem_map.2 fun _ => faithful_linkToJson h)
  apply Json.faithful_record
  simp only [List.forall_mem_cons]
  exact ⟨.string h.title, hnodes, hlinks, faithful_nat h.classes, nofun⟩

/-- The text of the data is edited to an end, the payload is the only text that the edits end
with, no less-than sign stands in front of a slash in it, and it is the text of what the page
shows. -/
theorem payload_is_text_of_view (h : Presentable caption g p) :
    ∃ text result, (view caption g p).dump .compact = .ok text ∧
      payload (view caption g p) = .ok result ∧
      (∀ edited, (⟨text, 0⟩ : Editing).Ends edited ↔ edited = result) ∧
      ¬[60, 47] <:+: result ∧ Json.IsTextOf result (view caption g p) := by
  obtain ⟨text, hdump, htext⟩ := Json.isTextOf_dump (faithful_view h) .compact
  refine ⟨text, protect text, hdump, ?_, fun edited => ends_start_iff, not_pair_protect text,
    htext.protect⟩
  rw [payload, hdump]
  rfl

def closing : Graph :=
  (Graph.empty.addEdge [utf8 "</script>"] [utf8 "a"] ⟨[startMarker], [endMarker]⟩).2

def closingPartition : Partition :=
  ⟨[⟨0, [[utf8 "a"], [utf8 "</script>"]], [utf8 "a"]⟩], rfl, by decide⟩

theorem presentable_closing :
    Presentable ⟨utf8 "</script>", [Bytes.space]⟩ closing closingPartition where
  title := Utf8.wellFormed_utf8 _
  separator := Utf8.wellFormed_utf8 " "
  tokens := by
    have hnodes : closing.nodes = [[utf8 "a"], [utf8 "</script>"]] := by decide
    have hwitnesses : closing.witnesses.toList =
        [(⟨0, 1⟩, ⟨[utf8 "<s>"], [utf8 "</s>"]⟩)] := by decide
    constructor
    · simp [hnodes, Phrase.All, Utf8.WellFormed, Utf8.wellFormed_utf8]
    · simp [hwitnesses, Context.All, Phrase.All, Utf8.WellFormed, Utf8.wellFormed_utf8]
  nodes := by decide
  classes := by decide

theorem payload_of_closing :
    Presentable ⟨utf8 "</script>", [Bytes.space]⟩ closing closingPartition ∧
    ∃ text result,
      (view ⟨utf8 "</script>", [Bytes.space]⟩ closing closingPartition).dump .compact = .ok text ∧
      payload (view ⟨utf8 "</script>", [Bytes.space]⟩ closing closingPartition) = .ok result ∧
      (∀ edited, (⟨text, 0⟩ : Editing).Ends edited ↔ edited = result) ∧
      ¬[60, 47] <:+: result ∧
      Json.IsTextOf result (view ⟨utf8 "</script>", [Bytes.space]⟩ closing closingPartition) :=
  ⟨presentable_closing, payload_is_text_of_view presentable_closing⟩

end Substitutability.Drawing.Page
