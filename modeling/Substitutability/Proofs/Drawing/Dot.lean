import Mathlib.Data.List.Perm.Basic
import Substitutability.Proofs.Drawing.Pictures
import Substitutability.Proofs.Partition.Counting

/-!
# Drawings in DOT show the graph

Read again, the text of a drawing declares every node of the graph once, in the cluster of its
class if the class has other members and at the top level if not. It joins the ends of every
edge once and nothing else. Every string is read as the label that it was made of.
-/

set_option autoImplicit false

namespace Substitutability.Drawing.Dot

/-! ## What a text declares -/

def keywords : List Bytes :=
  ["graph", "node", "edge"].map utf8

structure Declaration where
  home : Option Bytes
  name : Bytes
  label : Option Bytes
  deriving DecidableEq, Repr

structure Joint where
  source : Bytes
  target : Bytes
  label : Option Bytes
  deriving DecidableEq, Repr

def declaration? : Option Bytes × Statement → Option Declaration
  | (home, .node name attributes) =>
    if name ∈ keywords then none else some ⟨home, name, attributes.lookup (utf8 "label")⟩
  | _ => none

def joint? : Option Bytes × Statement → Option Joint
  | (_, .edge source target attributes) =>
    some ⟨source, target, attributes.lookup (utf8 "label")⟩
  | _ => none

def declarations (body : List (Option Bytes × Statement)) : List Declaration :=
  body.filterMap declaration?

def joints (body : List (Option Bytes × Statement)) : List Joint :=
  body.filterMap joint?

def Node.declaration (home : Option Bytes) (n : Node) : Declaration :=
  ⟨home, nodeName n.index, some n.label⟩

def Link.joint (l : Link) : Joint :=
  ⟨nodeName l.source, nodeName l.target, some l.label⟩

theorem nodeName_injective : Function.Injective nodeName := by
  intro i j h
  have hdigits : Bytes.ofNat i = Bytes.ofNat j := List.append_cancel_left h
  rw [← Bytes.toNat_ofNat i, hdigits, Bytes.toNat_ofNat]

theorem nodeName_not_mem_keywords (i : Nat) : nodeName i ∉ keywords := by
  obtain ⟨b, rest, hfirst, hdigit⟩ := Bytes.exists_digit_ofNat i
  have hname : nodeName i = 110 :: b :: rest := by
    rw [nodeName, hfirst]
    rfl
  have hkeywords : ∀ name ∈ keywords, name[0]? = some 110 → name[1]? = some 111 := by decide
  intro hmem
  have hsecond := hkeywords _ hmem (by rw [hname]; rfl)
  rw [hname] at hsecond
  obtain rfl : b = 111 := Option.some.inj hsecond
  exact absurd hdigit (by decide)

theorem declaration?_statement (home : Option Bytes) (n : Node) :
    declaration? (home, n.statement) = some (n.declaration home) := by
  rw [Node.statement, declaration?, if_neg (nodeName_not_mem_keywords _)]
  rfl

theorem declarations_nodes (home : Option Bytes) (nodes : List Node) :
    declarations ((nodes.map Node.statement).map (home, ·)) =
      nodes.map (Node.declaration home) := by
  rw [declarations, List.map_map, List.filterMap_map, ← List.filterMap_eq_map]
  exact List.filterMap_congr fun n _ => declaration?_statement home n

theorem declarations_body (picture : Picture) :
    declarations picture.body =
      picture.clusters.flatMap (fun c =>
        c.nodes.map (Node.declaration (some (clusterName c.symbol)))) ++
      picture.nodes.map (Node.declaration none) := by
  have hlinks : declarations ((picture.links.map Link.statement).map (none, ·)) = [] := by
    rw [declarations, List.filterMap_eq_nil_iff]
    simp [Link.statement, declaration?]
  have hclusters : declarations (picture.clusters.flatMap fun c =>
      (.setting (utf8 "label") c.symbol :: c.nodes.map Node.statement).map
        (some (clusterName c.symbol), ·)) =
      picture.clusters.flatMap fun c =>
        c.nodes.map (Node.declaration (some (clusterName c.symbol))) := by
    rw [declarations, List.filterMap_flatMap]
    exact List.flatMap_congr fun c _ => declarations_nodes _ c.nodes
  rw [declarations, Picture.body, List.filterMap_append, List.filterMap_append,
    List.filterMap_append, ← declarations, ← declarations, ← declarations, ← declarations, hlinks,
    declarations_nodes, hclusters, List.append_nil]
  rfl

theorem joints_body (picture : Picture) : joints picture.body = picture.links.map Link.joint := by
  have hnodes : ∀ home (nodes : List Node),
      joints ((nodes.map Node.statement).map (home, ·)) = [] := by
    intro home nodes
    rw [joints, List.filterMap_eq_nil_iff]
    simp [Node.statement, joint?]
  have hclusters : joints (picture.clusters.flatMap fun c =>
      (.setting (utf8 "label") c.symbol :: c.nodes.map Node.statement).map
        (some (clusterName c.symbol), ·)) = [] := by
    rw [joints, List.filterMap_flatMap, List.flatMap_eq_nil_iff]
    exact fun c _ => hnodes _ c.nodes
  have hlinks : joints ((picture.links.map Link.statement).map (none, ·)) =
      picture.links.map Link.joint := by
    rw [joints, List.map_map, List.filterMap_map, ← List.filterMap_eq_map]
    rfl
  rw [joints, Picture.body, List.filterMap_append, List.filterMap_append, List.filterMap_append,
    ← joints, ← joints, ← joints, ← joints, hlinks, hnodes, hclusters]
  rfl

/-! ## What the graph has -/

def cluster? (g : Graph) (phrase : Phrase) : Option Bytes :=
  (g.partition.classes.find? fun c => c.members.contains phrase).bind fun c =>
    if 2 ≤ c.size then some (clusterName (nonterminal c.index)) else none

def declarationOf (caption : Caption) (g : Graph) (entry : Phrase × Nat) : Declaration :=
  ⟨cluster? g entry.1, nodeName entry.2, some (entry.1.label caption.separator)⟩

def jointOf (caption : Caption) (entry : Edge × Context) : Joint :=
  ⟨nodeName entry.1.source, nodeName entry.1.target, some (entry.2.label caption.separator)⟩

variable {caption : Caption} {g : Graph} {c : CongruenceClass} {phrase : Phrase}

theorem cluster?_of_mem (hc : c ∈ g.partition.classes) (hphrase : phrase ∈ c.members) :
    cluster? g phrase = if 2 ≤ c.size then some (clusterName (nonterminal c.index)) else none := by
  rw [cluster?]
  cases hfind : g.partition.classes.find? fun d => d.members.contains phrase with
  | none => exact absurd (List.contains_iff_mem.2 hphrase) (List.find?_eq_none.1 hfind c hc)
  | some d =>
    have hd := List.mem_of_find?_eq_some hfind
    have hphrased : phrase ∈ d.members := by simpa using List.find?_some hfind
    rw [Partition.class_unique hd hc hphrased hphrase, Option.bind_some]

/-- What is declared for a phrase wherever it stands among the nodes. -/
def placed (caption : Caption) (g : Graph) (phrase : Phrase) : Declaration :=
  declarationOf caption g (phrase, g.nodes.idxOf phrase)

theorem node?_of_mem (caption : Caption) (h : phrase ∈ g.nodes) :
    ∃ color, node? caption.separator g g.partition phrase =
      some ⟨g.nodes.idxOf phrase, phrase.label caption.separator, color⟩ := by
  have hindex : g.index? phrase = some (g.nodes.idxOf phrase) := by
    rw [Graph.index?_eq_some, List.getElem?_eq_some_iff]
    exact ⟨List.idxOf_lt_length_of_mem h, List.getElem_idxOf _⟩
  rw [node?, hindex]
  exact ⟨_, rfl⟩

theorem mem_nodes_of_mem_class (hc : c ∈ g.partition.classes) (hphrase : phrase ∈ c.members) :
    phrase ∈ g.nodes :=
  g.perm_members.mem_iff.1 (List.mem_flatMap_of_mem hc hphrase)

theorem declarations_members (caption : Caption) {home : Option Bytes}
    (hc : c ∈ g.partition.classes)
    (hhome : home = if 2 ≤ c.size then some (clusterName (nonterminal c.index)) else none) :
    (c.members.filterMap (node? caption.separator g g.partition)).map (Node.declaration home) =
      c.members.map (placed caption g) := by
  rw [List.map_filterMap, ← List.filterMap_eq_map]
  apply List.filterMap_congr
  intro phrase hphrase
  obtain ⟨color, hnode⟩ := node?_of_mem caption (mem_nodes_of_mem_class hc hphrase)
  rw [hnode, Option.map_some, hhome, ← cluster?_of_mem hc hphrase]
  rfl

theorem size_pos (hc : c ∈ g.partition.classes) : 0 < c.size := by
  obtain ⟨hmembers, -⟩ := Graph.mem_classesOf hc
  exact List.length_pos_of_ne_nil (Graph.ne_nil_of_mem_components hmembers)

theorem isSingleton_eq_false_iff (hc : c ∈ g.partition.classes) :
    (!c.isSingleton) = true ↔ 2 ≤ c.size := by
  have hpos := size_pos hc
  rw [Bool.not_eq_true', ← Bool.not_eq_true, CongruenceClass.isSingleton_iff]
  omega

theorem members_eq_of_isSingleton (hc : c ∈ g.partition.classes) (h : c.isSingleton = true) :
    c.members = [c.representative] := by
  obtain ⟨a, ha⟩ := List.length_eq_one_iff.1 (CongruenceClass.isSingleton_iff.1 h)
  rw [(Graph.mem_classesOf hc).2, ha]
  rfl

theorem declarations_picture (caption : Caption) (g : Graph) :
    declarations (picture caption g g.partition).body =
      (g.partition.classes.filter (!·.isSingleton) ++
        g.partition.classes.filter (·.isSingleton)).flatMap fun c =>
          c.members.map (placed caption g) := by
  rw [declarations_body, List.flatMap_append]
  congr 1
  · rw [picture, List.flatMap_map]
    apply List.flatMap_congr
    intro c hc
    obtain ⟨hc, hsize⟩ := List.mem_filter.1 hc
    exact declarations_members caption hc (if_pos ((isSingleton_eq_false_iff hc).1 hsize)).symm
  · show ((g.partition.classes.filter (·.isSingleton)).filterMap fun c =>
      node? caption.separator g g.partition c.representative).map _ = _
    rw [List.filterMap_eq_flatMap_toList, List.map_flatMap]
    apply List.flatMap_congr
    intro c hc
    obtain ⟨hc, hsize⟩ := List.mem_filter.1 hc
    have hone : ¬2 ≤ c.size := by
      rw [CongruenceClass.isSingleton_iff.1 hsize]
      decide
    have hdeclared := declarations_members caption hc (if_neg hone).symm
    rw [← hdeclared, members_eq_of_isSingleton hc hsize]
    rw [List.filterMap_eq_flatMap_toList (l := [_]), List.flatMap_singleton]

theorem placed_nodes (caption : Caption) (g : Graph) :
    g.nodes.map (placed caption g) = g.nodes.zipIdx.map (declarationOf caption g) := by
  apply List.ext_getElem?
  intro i
  rw [List.getElem?_map, List.getElem?_map, List.getElem?_zipIdx]
  cases hphrase : g.nodes[i]? with
  | none => rfl
  | some phrase =>
    obtain ⟨hi, heq⟩ := List.getElem?_eq_some_iff.1 hphrase
    have hindex : g.nodes.idxOf phrase = i := by rw [← heq, g.nodup.idxOf_getElem]
    simp [placed, hindex]

theorem declarations_perm (caption : Caption) (g : Graph) :
    (declarations (picture caption g g.partition).body).Perm
      (g.nodes.zipIdx.map (declarationOf caption g)) := by
  rw [declarations_picture, ← placed_nodes]
  have hfilter : (g.partition.classes.filter (!·.isSingleton) ++
      g.partition.classes.filter (·.isSingleton)).Perm g.partition.classes :=
    List.perm_append_comm.trans (List.filter_append_perm _ _)
  refine (hfilter.flatMap_right _).trans ?_
  rw [← List.map_flatMap]
  exact g.perm_members.map _

theorem isNamed_of_mem_clusters {cluster : Cluster}
    (h : cluster ∈ (picture caption g g.partition).clusters) : cluster.IsNamed := by
  obtain ⟨c, -, rfl⟩ := List.mem_map.1 h
  intro b hb
  rcases List.mem_append.1 hb with hb | hb
  · have hsymbol : utf8 "N" = [78] := rfl
    rw [hsymbol, List.mem_singleton] at hb
    rw [hb]
    rfl
  · exact isWordByte_of_mem_ofNat hb

/-- The text of a drawing is read string by string as it was written. What stands outside of
the strings declares every node once, in the cluster of its class exactly if the class has other
members, and joins the ends of every edge once, both of which are declared. -/
theorem drawing_reads_as_graph (caption : Caption) (g : Graph) :
    items? (text caption g g.partition) =
      some ((picture caption g g.partition).pieces.flatMap Piece.items) ∧
    ∃ body, body? (text caption g g.partition) = some body ∧
      body.head? = some (none, .setting (utf8 "label") caption.title) ∧
      (declarations body).Perm (g.nodes.zipIdx.map (declarationOf caption g)) ∧
      ((declarations body).map Declaration.name).Nodup ∧
      joints body = g.witnesses.toList.map (jointOf caption) ∧
      ∀ joint ∈ joints body, joint.source ∈ (declarations body).map Declaration.name ∧
        joint.target ∈ (declarations body).map Declaration.name := by
  have hnamed := fun c => @isNamed_of_mem_clusters caption g c
  have hdeclared := declarations_perm caption g
  have hnames : ((declarations (picture caption g g.partition).body).map Declaration.name).Perm
      ((List.range g.nodes.length).map nodeName) := by
    refine (hdeclared.map _).trans (List.Perm.of_eq ?_)
    rw [List.map_map, List.range_eq_range', ← List.zipIdx_map_snd, List.map_map]
    rfl
  have hjoints : joints (picture caption g g.partition).body =
      g.witnesses.toList.map (jointOf caption) := by
    rw [joints_body, picture, List.map_map]
    rfl
  refine ⟨items?_print (Picture.writes hnamed).isOpen, _, Picture.body?_print hnamed, rfl, hdeclared,
    ?_, hjoints, ?_⟩
  · exact hnames.nodup_iff.2 (List.nodup_range.map nodeName_injective)
  · intro joint hjoint
    rw [hjoints] at hjoint
    obtain ⟨⟨e, witness⟩, he, rfl⟩ := List.mem_map.1 hjoint
    obtain ⟨hlt, hbound⟩ := g.ordered e (List.mem_map.2 ⟨_, he, rfl⟩)
    rw [hnames.mem_iff, hnames.mem_iff]
    exact ⟨List.mem_map_of_mem (List.mem_range.2 (hlt.trans hbound)),
      List.mem_map_of_mem (List.mem_range.2 hbound)⟩

end Substitutability.Drawing.Dot
