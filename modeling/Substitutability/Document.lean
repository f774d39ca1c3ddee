import Substitutability.Extraction
import Substitutability.Grammar.Basic
import Substitutability.Graph.Basic
import Substitutability.Json.Value

/-!
# JSON documents of the domain

How contexts, context sets, graphs, partitions and grammars are written as JSON
values, and how a context is read back.
-/

set_option autoImplicit false

namespace Substitutability

open Json (nat record strings)

def Phrase.toJson (phrase : Phrase) : Json :=
  strings phrase

def Phrase.listToJson (phrases : List Phrase) : Json :=
  .array (phrases.map Phrase.toJson)

namespace Context

def toJson (context : Context) : Json :=
  record [("left", context.left.toJson), ("right", context.right.toJson)]

def ofJson (json : Json) : Except Json.Fault Context := do
  let left ← (← json.member (utf8 "left")).toStrings
  let right ← (← json.member (utf8 "right")).toStrings
  return ⟨left, right⟩

end Context

def optionalInt (n : Option Int32) : Json :=
  match n with
  | some n => .integer n.toInt
  | none => .null

def LengthPolicy.toJson (policy : LengthPolicy) : Json :=
  record
    [("min_length", .integer policy.minimum.toInt), ("max_length", optionalInt policy.maximum)]

namespace ContextSet

def entryToJson (entry : Phrase × Attestation) : Json :=
  record
    [("phrase", entry.1.toJson),
      ("contexts", .array (entry.2.contexts.toList.map Context.toJson)),
      ("occurrences", nat entry.2.occurrences.length)]

def toJson (s : ContextSet) : Json :=
  record
    [("num_substrings", nat s.phraseCount),
      ("num_occurrences", nat s.occurrenceCount),
      ("entries", .array (s.entries.toList.map entryToJson))]

end ContextSet

def GraphStatistics.toJson (s : GraphStatistics) : Json :=
  record
    [("num_nodes", nat s.nodes),
      ("num_edges", nat s.edges),
      ("num_isolated_nodes", nat s.isolatedNodes),
      ("num_contexts", nat s.contexts),
      ("num_shared_contexts", nat s.sharedContexts),
      ("max_context_fanout", nat s.widestContext),
      ("avg_node_degree", .float s.averageDegree),
      ("max_node_degree", nat s.greatestDegree),
      ("min_node_degree", nat s.leastDegree)]

namespace Graph

def nodeToJson (g : Graph) (node : Phrase × Nat) : Json :=
  record
    [("id", nat node.2), ("phrase", node.1.toJson), ("degree", nat (g.degree node.2))]

def edgeToJson (entry : Edge × Context) : Json :=
  record
    [("source", nat entry.1.source), ("target", nat entry.1.target),
      ("context", entry.2.toJson)]

def toJson (g : Graph) : Json :=
  record
    [("nodes", .array (g.nodes.zipIdx.map g.nodeToJson)),
      ("edges", .array (g.witnesses.toList.map edgeToJson)),
      ("statistics", g.statistics.toJson)]

end Graph

def CongruenceClass.toJson (c : CongruenceClass) : Json :=
  record
    [("id", nat c.index),
      ("nonterminal", .string (nonterminal c.index)),
      ("representative", c.representative.toJson),
      ("members", Phrase.listToJson c.members),
      ("size", nat c.size)]

def Partition.toJson (p : Partition) : Json :=
  record
    [("num_classes", nat p.size),
      ("num_singletons", nat p.singletonCount),
      ("classes", .array (p.classes.map CongruenceClass.toJson))]

def Pattern.toJson (p : Pattern) : Json :=
  record [("left", p.left.toJson), ("class_id", nat p.index), ("right", p.right.toJson)]

def Decomposition.toJson (d : Decomposition) : Json :=
  .array [nat d.left, nat d.right]

def Fragment.toJson (f : Fragment) : Json :=
  record
    [("class_id", nat f.index),
      ("nonterminal", .string (nonterminal f.index)),
      ("members", Phrase.listToJson f.members),
      ("occurrences", nat f.occurrences),
      ("productive", .bool f.productive),
      ("patterns", .array (f.patterns.toList.map Pattern.toJson)),
      ("lexical_rules", strings f.tokens.toList),
      ("decompositions", .array (f.decompositions.toList.map Decomposition.toJson))]

def Grammar.toJson (g : Grammar) : Json :=
  record
    [("name", .string g.name),
      ("start_symbol", .string Grammar.startSymbol),
      ("alphabet", strings g.alphabet.toList),
      ("nonterminals", strings g.nonterminals),
      ("start_strings", Phrase.listToJson g.sentences),
      ("fragments", .array (g.productive.map Fragment.toJson)),
      ("unproductive", .array (g.unproductive.map Fragment.toJson))]

end Substitutability
