import Substitutability.Failure
import Substitutability.Graph.Basic
import Substitutability.Partition.Basic

/-!
# Drawings in DOT

A substitution graph is drawn as DOT text or as a page that lays the graph out
when it is opened. Nodes of one class share a colour. In DOT a class of several
members is a cluster; the members of the other classes stand at the top level.
The text is a list of pieces: text that is written as it is, and labels, which
are quoted.
-/

set_option autoImplicit false

namespace Substitutability.Drawing

inductive Format
  | dot
  | html
  deriving DecidableEq, Repr

namespace Format

def name : Format → Bytes
  | .dot => utf8 "dot"
  | .html => utf8 "html"

def extension : Format → Bytes
  | .dot => utf8 ".dot"
  | .html => utf8 ".html"

def ofName (name : Bytes) : Except ConfigurationFault Format :=
  if name = utf8 "dot" then .ok .dot
  else if name = utf8 "html" then .ok .html
  else .error (.unknownRenderFormat name)

end Format

structure Caption where
  title : Bytes := utf8 "Substitution Graph"
  separator : Bytes := [Bytes.space]
  deriving DecidableEq, Repr

def palette : List String :=
  ["#8dd3c7", "#ffffb3", "#bebada", "#fb8072", "#80b1d3", "#fdb462", "#b3de69", "#fccde5",
    "#d9d9d9", "#bc80bd", "#ccebc5", "#ffed6f"]

/-- The colour of a class; after the last one the colours start again. -/
def color (index : Nat) : Bytes :=
  utf8 (palette.getD (index % palette.length) "")

end Substitutability.Drawing

namespace Substitutability.Drawing.Dot

structure Node where
  index : Nat
  label : Bytes
  color : Option Bytes
  deriving DecidableEq, Repr

structure Cluster where
  symbol : Bytes
  nodes : List Node
  deriving DecidableEq, Repr

structure Link where
  source : Nat
  target : Nat
  label : Bytes
  deriving DecidableEq, Repr

structure Picture where
  title : Bytes
  clusters : List Cluster
  nodes : List Node
  links : List Link
  deriving DecidableEq, Repr

def node? (separator : Bytes) (g : Graph) (p : Partition) (phrase : Phrase) : Option Node :=
  (g.index? phrase).map fun index =>
    ⟨index, phrase.label separator, (p.classOf? phrase).map color⟩

def picture (caption : Caption) (g : Graph) (p : Partition) : Picture :=
  let node? := node? caption.separator g p
  { title := caption.title
    clusters := (p.classes.filter (!·.isSingleton)).map fun c =>
      ⟨nonterminal c.index, c.members.filterMap node?⟩
    nodes := (p.classes.filter (·.isSingleton)).filterMap fun c => node? c.representative
    links := g.witnesses.toList.map fun (e, witness) =>
      ⟨e.source, e.target, witness.label caption.separator⟩ }

inductive Piece
  | plain (text : Bytes)
  | label (text : Bytes)
  deriving DecidableEq, Repr

def escapeByte (b : UInt8) : Bytes :=
  if b = 34 ∨ b = 92 then [92, b] else [b]

def escape (text : Bytes) : Bytes :=
  text.flatMap escapeByte

namespace Piece

def literal (text : String) : Piece :=
  .plain (utf8 text)

def number (n : Nat) : Piece :=
  .plain (Bytes.ofNat n)

def print : Piece → Bytes
  | .plain text => text
  | .label text => 34 :: escape text ++ [34]

end Piece

open Piece (literal number)

def nodePieces (indent : String) (n : Node) : List Piece :=
  [literal (indent ++ "n"), number n.index, literal " [label=", .label n.label] ++
    (match n.color with
      | some color => [literal ", fillcolor=", .label color]
      | none => []) ++
    [literal "];\n"]

def clusterPieces (c : Cluster) : List Piece :=
  [literal "  subgraph cluster_", .plain c.symbol, literal " \x7b\n    label=", .label c.symbol,
    literal ";\n"] ++ c.nodes.flatMap (nodePieces "    ") ++ [literal "  \x7d\n"]

def linkPieces (l : Link) : List Piece :=
  [literal "  n", number l.source, literal " -- n", number l.target, literal " [label=",
    .label l.label, literal "];\n"]

def headPieces (title : Bytes) : List Piece :=
  [literal "graph SubstitutionGraph \x7b\n  label=", .label title,
    literal ";\n  layout=neato;\n  overlap=false;\n",
    literal "  node [shape=ellipse, style=filled, fontname=", .label (utf8 "Helvetica"),
    literal "];\n  edge [fontsize=9, color=gray40];\n\n"]

def Picture.pieces (picture : Picture) : List Piece :=
  headPieces picture.title ++ picture.clusters.flatMap clusterPieces ++
    picture.nodes.flatMap (nodePieces "  ") ++ [literal "\n"] ++
    picture.links.flatMap linkPieces ++ [literal "\x7d\n"]

def text (caption : Caption) (g : Graph) (p : Partition) : Bytes :=
  (picture caption g p).pieces.flatMap Piece.print

end Substitutability.Drawing.Dot
