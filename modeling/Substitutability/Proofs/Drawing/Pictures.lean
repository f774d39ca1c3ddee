import Substitutability.Proofs.Drawing.Statements
import Substitutability.Proofs.Text.Decimal

/-!
# Pictures are read as they were written

Each part of a picture writes its statements and no others, and leaves a reader outside of
strings and between two clauses. So the parts are read one after the other, and a cluster
holds the nodes that were written into it.
-/

set_option autoImplicit false

namespace Substitutability.Drawing.Dot

/-! ## Statements of a picture -/

def nodeName (i : Nat) : Bytes :=
  utf8 "n" ++ Bytes.ofNat i

def clusterName (symbol : Bytes) : Bytes :=
  utf8 "cluster_" ++ symbol

def Node.attributes (n : Node) : List (Bytes × Bytes) :=
  (utf8 "label", n.label) ::
    match n.color with
    | some color => [(utf8 "fillcolor", color)]
    | none => []

def Node.statement (n : Node) : Statement :=
  .node (nodeName n.index) n.attributes

def Link.statement (l : Link) : Statement :=
  .edge (nodeName l.source) (nodeName l.target) [(utf8 "label", l.label)]

def Cluster.statements (c : Cluster) : List Statement :=
  [.opens (utf8 "subgraph") (clusterName c.symbol), .setting (utf8 "label") c.symbol] ++
    c.nodes.map Node.statement ++ [.closes]

def defaults : List Statement :=
  [.setting (utf8 "layout") (utf8 "neato"), .setting (utf8 "overlap") (utf8 "false"),
    .node (utf8 "node") [(utf8 "shape", utf8 "ellipse"), (utf8 "style", utf8 "filled"),
      (utf8 "fontname", utf8 "Helvetica")],
    .node (utf8 "edge") [(utf8 "fontsize", utf8 "9"), (utf8 "color", utf8 "gray40")]]

variable {text : Bytes} {indent : String}

theorem isWordByte_of_isDigit {b : UInt8} (h : Bytes.isDigit b = true) : isWordByte b = true := by
  have hdigits : ∀ m < 10, isWordByte (UInt8.ofNat (48 + m)) = true := by decide
  have hrange := Bytes.isDigit_iff.1 h
  have hvalue : 48 + (b.toNat - 48) = b.toNat := by omega
  have hword := hdigits (b.toNat - 48) (by omega)
  rwa [hvalue, UInt8.ofNat_toNat] at hword

theorem isWordByte_of_mem_ofNat {n : Nat} {b : UInt8} (h : b ∈ Bytes.ofNat n) :
    isWordByte b = true :=
  isWordByte_of_isDigit (Bytes.isDigit_of_mem_ofNat h)

theorem isOpen_of_word (h : ∀ b ∈ text, isWordByte b = true) : (Piece.plain text).isOpen = true := by
  rw [Piece.isOpen, Bool.not_eq_true', List.contains_eq_mem, decide_eq_false_iff_not]
  exact fun hquote => absurd (h 34 hquote) (by decide)

theorem isOpen_label (text : Bytes) : (Piece.label text).isOpen = true := rfl

theorem isOpen_number (n : Nat) : (Piece.number n).isOpen = true :=
  isOpen_of_word fun _ => isWordByte_of_mem_ofNat

def Node.clause (n : Node) : Clause :=
  ⟨[.word (nodeName n.index), .mark .bracketOpen, .word (utf8 "label"), .mark .equals,
      .string n.label] ++
    (match n.color with
      | some color => [.mark .comma, .word (utf8 "fillcolor"), .mark .equals, .string color]
      | none => []) ++
    [.mark .bracketClose], .semicolon⟩

theorem writes_node (hindent : indent = "  " ∨ indent = "    ") (n : Node) :
    Writes (nodePieces indent n) [n.statement] := by
  obtain ⟨index, label, color⟩ := n
  have hword := @tokensFrom_word (Bytes.ofNat index) (fun _ => isWordByte_of_mem_ofNat) (utf8 "n")
  have hindex := isOpen_number index
  apply Writes.of_clauses [Node.clause ⟨index, label, color⟩]
  · rcases hindent with rfl | rfl <;> cases color <;>
      simp only [nodePieces, List.forall_mem_append, List.forall_mem_cons, hindex, isOpen_label] <;>
      decide
  · intro rest
    rcases hindent with rfl | rfl <;> cases color <;>
      simp only [nodePieces, List.flatMap_append, List.flatMap_cons, List.append_assoc] <;>
      exact (hword _).trans rfl
  · cases color <;> rfl
  · cases color <;> rfl

theorem writes_link (l : Link) : Writes (linkPieces l) [l.statement] := by
  obtain ⟨source, target, label⟩ := l
  have hsource := @tokensFrom_word (Bytes.ofNat source) (fun _ => isWordByte_of_mem_ofNat) (utf8 "n")
  have htarget := @tokensFrom_word (Bytes.ofNat target) (fun _ => isWordByte_of_mem_ofNat) (utf8 "n")
  apply Writes.of_clauses [⟨[.word (nodeName source), .mark .dash, .mark .dash,
    .word (nodeName target), .mark .bracketOpen, .word (utf8 "label"), .mark .equals,
    .string label, .mark .bracketClose], .semicolon⟩]
  · simp only [linkPieces, List.forall_mem_cons, isOpen_number, isOpen_label]
    decide
  · intro rest
    simp only [linkPieces, List.flatMap_cons, List.append_assoc]
    refine (hsource _).trans (congrArg ([Token.word (nodeName source), .mark .dash, .mark .dash] ++ ·) ?_)
    exact (htarget _).trans rfl
  · rfl
  · rfl

def Cluster.IsNamed (c : Cluster) : Prop :=
  ∀ b ∈ c.symbol, isWordByte b = true

theorem writes_cluster {c : Cluster} (h : c.IsNamed) : Writes (clusterPieces c) c.statements := by
  have hsymbol := @tokensFrom_word c.symbol h (utf8 "cluster_")
  have hhead : Writes [Piece.literal "  subgraph cluster_", .plain c.symbol,
      Piece.literal " \x7b\n    label=", .label c.symbol, Piece.literal ";\n"]
      [.opens (utf8 "subgraph") (clusterName c.symbol), .setting (utf8 "label") c.symbol] := by
    apply Writes.of_clauses [⟨[.word (utf8 "subgraph"), .word (clusterName c.symbol)], .opening⟩,
      ⟨[.word (utf8 "label"), .mark .equals, .string c.symbol], .semicolon⟩]
    · simp only [List.forall_mem_cons, isOpen_of_word h, isOpen_label]
      decide
    · intro rest
      simp only [List.flatMap_cons, List.append_assoc]
      exact congrArg (Token.word (utf8 "subgraph") :: ·) ((hsymbol _).trans rfl)
    · rfl
    · rfl
  have hnodes : Writes (c.nodes.flatMap (nodePieces "    ")) (c.nodes.map Node.statement) := by
    rw [List.map_eq_flatMap]
    exact Writes.flatMap fun n _ => writes_node (.inr rfl) n
  have hend : Writes [Piece.literal "  \x7d\n"] [.closes] :=
    .of_clauses [⟨[], .closing⟩] (by decide) (fun _ => rfl) rfl rfl
  exact (hhead.append hnodes).append hend

set_option maxRecDepth 2000 in
theorem writes_head (title : Bytes) :
    Writes (headPieces title) (.opens (utf8 "graph") (utf8 "SubstitutionGraph") ::
      .setting (utf8 "label") title :: defaults) := by
  apply Writes.of_clauses
    [⟨[.word (utf8 "graph"), .word (utf8 "SubstitutionGraph")], .opening⟩,
      ⟨[.word (utf8 "label"), .mark .equals, .string title], .semicolon⟩,
      ⟨[.word (utf8 "layout"), .mark .equals, .word (utf8 "neato")], .semicolon⟩,
      ⟨[.word (utf8 "overlap"), .mark .equals, .word (utf8 "false")], .semicolon⟩,
      ⟨[.word (utf8 "node"), .mark .bracketOpen, .word (utf8 "shape"), .mark .equals,
        .word (utf8 "ellipse"), .mark .comma, .word (utf8 "style"), .mark .equals,
        .word (utf8 "filled"), .mark .comma, .word (utf8 "fontname"), .mark .equals,
        .string (utf8 "Helvetica"), .mark .bracketClose], .semicolon⟩,
      ⟨[.word (utf8 "edge"), .mark .bracketOpen, .word (utf8 "fontsize"), .mark .equals,
        .word (utf8 "9"), .mark .comma, .word (utf8 "color"), .mark .equals,
        .word (utf8 "gray40"), .mark .bracketClose], .semicolon⟩]
  · simp only [headPieces, List.forall_mem_cons, isOpen_label]
    decide
  · exact fun _ => rfl
  · rfl
  · rfl

namespace Picture

variable {picture : Picture}

def statements (picture : Picture) : List Statement :=
  .opens (utf8 "graph") (utf8 "SubstitutionGraph") ::
    ((.setting (utf8 "label") picture.title :: defaults) ++
      (picture.clusters.flatMap Cluster.statements ++
        (picture.nodes.map Node.statement ++ (picture.links.map Link.statement ++ [.closes]))))

theorem writes (h : ∀ c ∈ picture.clusters, c.IsNamed) :
    Writes picture.pieces picture.statements := by
  have hclusters : Writes (picture.clusters.flatMap clusterPieces) _ :=
    Writes.flatMap fun c hc => writes_cluster (h c hc)
  have hnodes : Writes (picture.nodes.flatMap (nodePieces "  "))
      (picture.nodes.map Node.statement) := by
    rw [List.map_eq_flatMap]
    exact Writes.flatMap fun n _ => writes_node (.inl rfl) n
  have hlinks : Writes (picture.links.flatMap linkPieces) (picture.links.map Link.statement) := by
    rw [List.map_eq_flatMap]
    exact Writes.flatMap fun l _ => writes_link l
  have hline : Writes [Piece.literal "\n"] [] :=
    .of_clauses [] (by decide) (fun _ => rfl) rfl rfl
  have hend : Writes [Piece.literal "\x7d\n"] [.closes] :=
    .of_clauses [⟨[], .closing⟩] (by decide) (fun _ => rfl) rfl rfl
  have hall := ((((writes_head picture.title).append hclusters).append hnodes).append hline).append
    hlinks |>.append hend
  simpa only [pieces, statements, List.append_assoc, List.append_nil, List.nil_append,
    List.cons_append] using hall

def body (picture : Picture) : List (Option Bytes × Statement) :=
  (.setting (utf8 "label") picture.title :: defaults).map (none, ·) ++
    picture.clusters.flatMap (fun c =>
      (.setting (utf8 "label") c.symbol :: c.nodes.map Node.statement).map
        (some (clusterName c.symbol), ·)) ++
    (picture.nodes.map Node.statement).map (none, ·) ++
    (picture.links.map Link.statement).map (none, ·)

theorem bodyFrom?_clusters (clusters : List Cluster) (rest : List Statement) :
    bodyFrom? none (clusters.flatMap Cluster.statements ++ rest) =
      (bodyFrom? none rest).map (clusters.flatMap (fun c =>
        (.setting (utf8 "label") c.symbol :: c.nodes.map Node.statement).map
          (some (clusterName c.symbol), ·)) ++ ·) := by
  induction clusters with
  | nil => exact (Option.map_id' (x := bodyFrom? none rest)).symm
  | cons c clusters ih =>
    have hflat : ∀ s ∈ Statement.setting (utf8 "label") c.symbol :: c.nodes.map Node.statement,
        s.isFlat = true := by
      simp [Node.statement, Statement.isFlat]
    have hclose : bodyFrom? (some (clusterName c.symbol))
        (.closes :: (clusters.flatMap Cluster.statements ++ rest)) =
        bodyFrom? none (clusters.flatMap Cluster.statements ++ rest) := rfl
    have hsplit : (c :: clusters).flatMap Cluster.statements ++ rest =
        .opens (utf8 "subgraph") (clusterName c.symbol) ::
          ((.setting (utf8 "label") c.symbol :: c.nodes.map Node.statement) ++
            .closes :: (clusters.flatMap Cluster.statements ++ rest)) := by
      simp [Cluster.statements]
    rw [hsplit, bodyFrom?, if_pos ⟨rfl, rfl⟩, bodyFrom?_flat hflat, hclose, ih, Option.map_map]
    apply congrFun
    apply congrArg
    funext read
    simp

theorem body?_print (h : ∀ c ∈ picture.clusters, c.IsNamed) :
    body? (picture.pieces.flatMap Piece.print) = some picture.body := by
  have hwrites := writes h
  have hhead : ∀ s ∈ Statement.setting (utf8 "label") picture.title :: defaults,
      s.isFlat = true := List.forall_mem_cons.2 ⟨rfl, by decide⟩
  have hnodes : ∀ s ∈ picture.nodes.map Node.statement, s.isFlat = true :=
    List.forall_mem_map.2 fun _ _ => rfl
  have hlinks : ∀ s ∈ picture.links.map Link.statement, s.isFlat = true :=
    List.forall_mem_map.2 fun _ _ => rfl
  have hend : bodyFrom? none [.closes] = some [] := rfl
  rw [body?, items?_print hwrites.isOpen]
  show (statementsFrom? _ >>= _) = _
  rw [hwrites.statementsFrom?_eq, statements]
  show bodyFrom? none (_ ++ (_ ++ (_ ++ (_ ++ _)))) = _
  rw [bodyFrom?_flat hhead, bodyFrom?_clusters, bodyFrom?_flat hnodes, bodyFrom?_flat hlinks, hend]
  simp only [Option.map_some, List.append_nil, body, List.append_assoc]

end Picture

end Substitutability.Drawing.Dot
