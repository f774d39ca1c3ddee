import Substitutability.Drawing.Dot

/-!
# Reading DOT

A text in DOT is read in four steps. In quoted strings a backslash protects the byte after
it; outside of them the bytes make words and marks; a semicolon or a brace ends a clause; and
a clause is a statement. A label is read as the text that it was made of, whatever bytes it
has, so the statements are those that were written.
-/

set_option autoImplicit false

namespace Substitutability.Drawing.Dot

/-! ## Strings -/

/-- A byte outside of strings, or a whole string. -/
inductive Item
  | byte (b : UInt8)
  | string (text : Bytes)
  deriving DecidableEq, Repr

/-- Where a reader is: outside of strings, in a string, or behind a backslash in a string. -/
inductive Place
  | outside
  | inside (read : Bytes)
  | protects (read : Bytes)
  deriving DecidableEq, Repr

def itemsFrom? : Place → Bytes → Option (List Item)
  | .outside, [] => some []
  | .outside, b :: rest =>
    if b = 34 then itemsFrom? (.inside []) rest
    else (itemsFrom? .outside rest).map (.byte b :: ·)
  | .inside read, b :: rest =>
    if b = 34 then (itemsFrom? .outside rest).map (.string read :: ·)
    else if b = 92 then itemsFrom? (.protects read) rest
    else itemsFrom? (.inside (read ++ [b])) rest
  | .protects read, b :: rest => itemsFrom? (.inside (read ++ [b])) rest
  | _, [] => none

def items? (text : Bytes) : Option (List Item) :=
  itemsFrom? .outside text

namespace Piece

def items : Piece → List Item
  | .plain text => text.map .byte
  | .label text => [.string text]

def isOpen : Piece → Bool
  | .plain text => !text.contains 34
  | .label _ => true

end Piece

theorem itemsFrom?_escape (text read rest : Bytes) :
    itemsFrom? (.inside read) (escape text ++ rest) = itemsFrom? (.inside (read ++ text)) rest := by
  induction text generalizing read with
  | nil => rw [escape, List.flatMap_nil, List.nil_append, List.append_nil]
  | cons b text ih =>
    have hsplit : escape (b :: text) ++ rest = escapeByte b ++ (escape text ++ rest) := by
      rw [escape, List.flatMap_cons, List.append_assoc]
      rfl
    have hread : read ++ b :: text = (read ++ [b]) ++ text := by simp
    rw [hsplit, hread, ← ih, escapeByte]
    by_cases hb : b = 34 ∨ b = 92
    · rw [if_pos hb]
      rfl
    · rw [not_or] at hb
      rw [if_neg (by simpa using hb), List.singleton_append, itemsFrom?, if_neg hb.1, if_neg hb.2]

theorem itemsFrom?_print {piece : Piece} (h : piece.isOpen = true) (rest : Bytes) :
    items? (piece.print ++ rest) = (items? rest).map (piece.items ++ ·) := by
  rw [items?, items?]
  cases piece with
  | label text =>
    rw [Piece.print, List.cons_append, List.cons_append, List.append_assoc, itemsFrom?, if_pos rfl,
      itemsFrom?_escape, List.nil_append, List.singleton_append, itemsFrom?, if_pos rfl]
    rfl
  | plain text =>
    rw [Piece.print, Piece.items]
    rw [Piece.isOpen, Bool.not_eq_true', List.contains_eq_mem, decide_eq_false_iff_not] at h
    induction text with
    | nil =>
      rw [List.nil_append, List.map_nil]
      exact (Option.map_id' (x := itemsFrom? .outside rest)).symm
    | cons b text ih =>
      rw [List.mem_cons, not_or] at h
      rw [List.cons_append, itemsFrom?, if_neg (Ne.symm h.1), ih h.2, Option.map_map]
      rfl

/-- Each string ends where its label does, and is read as the text of the label. -/
theorem items?_print {pieces : List Piece} (h : ∀ piece ∈ pieces, piece.isOpen = true) :
    items? (pieces.flatMap Piece.print) = some (pieces.flatMap Piece.items) := by
  induction pieces with
  | nil => rfl
  | cons piece pieces ih =>
    obtain ⟨hpiece, hpieces⟩ := List.forall_mem_cons.1 h
    rw [List.flatMap_cons, List.flatMap_cons, itemsFrom?_print hpiece, ih hpieces]
    rfl

/-! ## Words and marks -/

inductive Mark
  | braceOpen
  | braceClose
  | bracketOpen
  | bracketClose
  | semicolon
  | comma
  | equals
  | dash
  deriving DecidableEq, Repr

def Mark.ofByte? (b : UInt8) : Option Mark :=
  [(123, Mark.braceOpen), (125, .braceClose), (91, .bracketOpen), (93, .bracketClose),
    (59, .semicolon), (44, .comma), (61, .equals), (45, .dash)].lookup b

inductive Token
  | word (text : Bytes)
  | string (text : Bytes)
  | mark (mark : Mark)
  deriving DecidableEq, Repr

def wordRead (word : Bytes) : List Token :=
  if word = [] then [] else [.word word]

def tokensFrom (word : Bytes) : List Item → List Token
  | [] => wordRead word
  | .string text :: rest => wordRead word ++ .string text :: tokensFrom [] rest
  | .byte b :: rest =>
    if Bytes.isBlank b then wordRead word ++ tokensFrom [] rest
    else match Mark.ofByte? b with
      | some mark => wordRead word ++ .mark mark :: tokensFrom [] rest
      | none => tokensFrom (word ++ [b]) rest

def isWordByte (b : UInt8) : Bool :=
  !Bytes.isBlank b && (Mark.ofByte? b).isNone && b != 34

theorem tokensFrom_word {text : Bytes} (h : ∀ b ∈ text, isWordByte b = true) (word : Bytes)
    (rest : List Item) :
    tokensFrom word (text.map .byte ++ rest) = tokensFrom (word ++ text) rest := by
  induction text generalizing word with
  | nil => rw [List.map_nil, List.nil_append, List.append_nil]
  | cons b text ih =>
    obtain ⟨hb, htext⟩ := List.forall_mem_cons.1 h
    simp only [isWordByte, Bool.and_eq_true, Bool.not_eq_true', Option.isNone_iff_eq_none] at hb
    obtain ⟨⟨hblank, hmark⟩, -⟩ := hb
    have hstep : tokensFrom word (.byte b :: (text.map .byte ++ rest)) =
        tokensFrom (word ++ [b]) (text.map .byte ++ rest) := by
      rw [tokensFrom, if_neg (by simp [hblank]), hmark]
    rw [List.map_cons, List.cons_append, hstep, ih htext, List.append_assoc, List.singleton_append]

/-! ## Clauses -/

inductive Ending
  | semicolon
  | opening
  | closing
  deriving DecidableEq, Repr

def Ending.mark : Ending → Mark
  | .semicolon => .semicolon
  | .opening => .braceOpen
  | .closing => .braceClose

def Ending.ofToken? : Token → Option Ending
  | .mark .semicolon => some .semicolon
  | .mark .braceOpen => some .opening
  | .mark .braceClose => some .closing
  | _ => none

structure Clause where
  tokens : List Token
  ending : Ending
  deriving DecidableEq, Repr

def clausesFrom? (read : List Token) : List Token → Option (List Clause)
  | [] => if read = [] then some [] else none
  | token :: rest =>
    match Ending.ofToken? token with
    | some ending => (clausesFrom? [] rest).map (⟨read, ending⟩ :: ·)
    | none => clausesFrom? (read ++ [token]) rest

namespace Clause

def written (c : Clause) : List Token :=
  c.tokens ++ [.mark c.ending.mark]

def isWhole (c : Clause) : Bool :=
  c.tokens.all fun token => (Ending.ofToken? token).isNone

end Clause

theorem ofToken?_mark (ending : Ending) : Ending.ofToken? (.mark ending.mark) = some ending := by
  cases ending <;> rfl

theorem clausesFrom?_tokens {tokens : List Token}
    (h : ∀ token ∈ tokens, Ending.ofToken? token = none) (read rest : List Token) :
    clausesFrom? read (tokens ++ rest) = clausesFrom? (read ++ tokens) rest := by
  induction tokens generalizing read with
  | nil => rw [List.nil_append, List.append_nil]
  | cons token tokens ih =>
    obtain ⟨htoken, htokens⟩ := List.forall_mem_cons.1 h
    have hstep : clausesFrom? read (token :: (tokens ++ rest)) =
        clausesFrom? (read ++ [token]) (tokens ++ rest) := by
      rw [clausesFrom?, htoken]
    rw [List.cons_append, hstep, ih htokens, List.append_assoc, List.singleton_append]

theorem clausesFrom?_written {clauses : List Clause} (h : ∀ c ∈ clauses, c.isWhole = true)
    (rest : List Token) :
    clausesFrom? [] (clauses.flatMap Clause.written ++ rest) =
      (clausesFrom? [] rest).map (clauses ++ ·) := by
  induction clauses with
  | nil => exact (Option.map_id' (x := clausesFrom? [] rest)).symm
  | cons c clauses ih =>
    obtain ⟨hc, hclauses⟩ := List.forall_mem_cons.1 h
    have htokens : ∀ token ∈ c.tokens, Ending.ofToken? token = none := by
      simpa [Clause.isWhole] using hc
    rw [List.flatMap_cons, Clause.written, List.append_assoc, List.append_assoc,
      clausesFrom?_tokens htokens, List.singleton_append, List.nil_append, clausesFrom?,
      ofToken?_mark]
    simp only [ih hclauses, Option.map_map]
    rfl

/-! ## Statements -/

inductive Statement
  | opens (kind name : Bytes)
  | closes
  | setting (name value : Bytes)
  | node (name : Bytes) (attributes : List (Bytes × Bytes))
  | edge (source target : Bytes) (attributes : List (Bytes × Bytes))
  deriving DecidableEq, Repr

def Token.value? : Token → Option Bytes
  | .word text => some text
  | .string text => some text
  | .mark _ => none

def attributes? : List Token → Option (List (Bytes × Bytes))
  | [.word name, .mark .equals, value, .mark .bracketClose] =>
    value.value?.map fun value => [(name, value)]
  | .word name :: .mark .equals :: value :: .mark .comma :: rest => do
    let value ← value.value?
    let more ← attributes? rest
    some ((name, value) :: more)
  | _ => none

def statement? : Clause → Option Statement
  | ⟨[.word kind, .word name], .opening⟩ => some (.opens kind name)
  | ⟨[], .closing⟩ => some .closes
  | ⟨[.word name, .mark .equals, value], .semicolon⟩ => value.value?.map (.setting name)
  | ⟨.word name :: .mark .bracketOpen :: rest, .semicolon⟩ => (attributes? rest).map (.node name)
  | ⟨.word source :: .mark .dash :: .mark .dash :: .word target :: .mark .bracketOpen :: rest,
      .semicolon⟩ => (attributes? rest).map (.edge source target)
  | _ => none

def statementsFrom? (items : List Item) : Option (List Statement) := do
  let clauses ← clausesFrom? [] (tokensFrom [] items)
  clauses.mapM statement?

/-- In front of any text the pieces are read as the statements. -/
structure Writes (pieces : List Piece) (statements : List Statement) : Prop where
  isOpen : ∀ piece ∈ pieces, piece.isOpen = true
  reads : ∀ rest, statementsFrom? (pieces.flatMap Piece.items ++ rest) =
    (statementsFrom? rest).map (statements ++ ·)

namespace Writes

variable {pieces more : List Piece} {statements others : List Statement}

theorem nil : Writes [] [] :=
  ⟨nofun, fun rest => (Option.map_id' (x := statementsFrom? rest)).symm⟩

theorem append (h : Writes pieces statements) (hmore : Writes more others) :
    Writes (pieces ++ more) (statements ++ others) := by
  refine ⟨List.forall_mem_append.2 ⟨h.isOpen, hmore.isOpen⟩, fun rest => ?_⟩
  rw [List.flatMap_append, List.append_assoc, h.reads, hmore.reads, Option.map_map]
  apply congrFun
  apply congrArg
  funext read
  exact (List.append_assoc _ _ _).symm

theorem flatMap {α : Type} {write : α → List Piece} {state : α → List Statement} {xs : List α}
    (h : ∀ x ∈ xs, Writes (write x) (state x)) : Writes (xs.flatMap write) (xs.flatMap state) := by
  induction xs with
  | nil => exact nil
  | cons x xs ih =>
    obtain ⟨hx, hxs⟩ := List.forall_mem_cons.1 h
    exact hx.append (ih hxs)

theorem of_clauses (clauses : List Clause) (hopen : ∀ piece ∈ pieces, piece.isOpen = true)
    (htokens : ∀ rest, tokensFrom [] (pieces.flatMap Piece.items ++ rest) =
      clauses.flatMap Clause.written ++ tokensFrom [] rest)
    (hwhole : clauses.all Clause.isWhole = true)
    (hstatements : clauses.mapM statement? = some statements) : Writes pieces statements := by
  refine ⟨hopen, fun rest => ?_⟩
  rw [statementsFrom?, htokens, clausesFrom?_written (List.all_eq_true.1 hwhole), statementsFrom?]
  cases clausesFrom? [] (tokensFrom [] rest) with
  | none => rfl
  | some found =>
    show (clauses ++ found).mapM statement? = (found.mapM statement?).map (statements ++ ·)
    rw [List.mapM_append, hstatements]
    cases found.mapM statement? <;> rfl

theorem statementsFrom?_eq (h : Writes pieces statements) :
    statementsFrom? (pieces.flatMap Piece.items) = some statements := by
  have hread := h.reads []
  have hnil : statementsFrom? [] = some [] := rfl
  rwa [List.append_nil, hnil, Option.map_some, List.append_nil] at hread

end Writes

/-! ## Graphs -/

/-- Statements up to the closing brace of the graph, each with the subgraph that it is in. -/
def bodyFrom? (home : Option Bytes) : List Statement → Option (List (Option Bytes × Statement))
  | [] => none
  | .opens kind name :: rest =>
    if home = none ∧ kind = utf8 "subgraph" then bodyFrom? (some name) rest else none
  | .closes :: rest =>
    if home.isSome then bodyFrom? none rest else if rest = [] then some [] else none
  | statement :: rest => (bodyFrom? home rest).map ((home, statement) :: ·)

/-- The statements of a graph; subgraphs do not contain others. -/
def body? (text : Bytes) : Option (List (Option Bytes × Statement)) := do
  match ← statementsFrom? (← items? text) with
  | .opens kind _ :: rest => if kind = utf8 "graph" then bodyFrom? none rest else none
  | _ => none

def Statement.isFlat : Statement → Bool
  | .opens _ _ => false
  | .closes => false
  | _ => true

theorem bodyFrom?_flat {statements : List Statement} (h : ∀ s ∈ statements, s.isFlat = true)
    (home : Option Bytes) (rest : List Statement) :
    bodyFrom? home (statements ++ rest) =
      (bodyFrom? home rest).map (statements.map (home, ·) ++ ·) := by
  induction statements with
  | nil => exact (Option.map_id' (x := bodyFrom? home rest)).symm
  | cons s statements ih =>
    obtain ⟨hs, hstatements⟩ := List.forall_mem_cons.1 h
    have hstep : bodyFrom? home (s :: (statements ++ rest)) =
        (bodyFrom? home (statements ++ rest)).map ((home, s) :: ·) := by
      cases s with
      | opens kind name => cases hs
      | closes => cases hs
      | setting name value => rfl
      | node name attributes => rfl
      | edge source target attributes => rfl
    rw [List.cons_append, hstep, ih hstatements, Option.map_map]
    rfl

end Substitutability.Drawing.Dot
