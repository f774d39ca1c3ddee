import Substitutability.Json.Value
import Substitutability.Number.Decimal

/-!
# Summaries

The counts and durations of one run, as they are shown on a terminal and as they
are written to a JSON document.
-/

set_option autoImplicit false

namespace Substitutability

structure Durations where
  extraction : Double := Double.zero
  graph : Double := Double.zero
  resolution : Double := Double.zero
  induction : Double := Double.zero
  total : Double := Double.zero
  deriving DecidableEq, Repr

structure Summary where
  sentences : Nat
  tokens : Nat
  phrases : Nat
  occurrences : Nat
  distinctContexts : Nat
  nodes : Nat
  edges : Nat
  sharedContexts : Nat
  classes : Nat
  singletons : Nat
  largestClass : Nat
  productive : Nat
  unproductive : Nat
  rules : Nat
  durations : Durations
  deriving DecidableEq, Repr

namespace Summary

def seconds (duration : Double) : Bytes :=
  Notation.summary.text duration ++ utf8 " seconds"

def groups (s : Summary) : List (String × List (String × Bytes)) :=
  let count := Bytes.ofNat
  [("Corpus", [("Sentences", count s.sentences), ("Tokens", count s.tokens)]),
    ("Context Extraction",
      [("Distinct substrings", count s.phrases), ("Occurrences", count s.occurrences),
        ("Distinct contexts", count s.distinctContexts)]),
    ("Substitution Graph",
      [("Nodes", count s.nodes), ("Edges", count s.edges),
        ("Shared contexts", count s.sharedContexts)]),
    ("Congruence Classes",
      [("Classes", count s.classes), ("Singletons", count s.singletons),
        ("Largest class", count s.largestClass)]),
    ("Grammar",
      [("Productive fragments", count s.productive),
        ("Insufficiently attested", count s.unproductive), ("Rules", count s.rules)]),
    ("Timing",
      [("Extraction", seconds s.durations.extraction),
        ("Graph building", seconds s.durations.graph),
        ("Class resolution", seconds s.durations.resolution),
        ("Grammar induction", seconds s.durations.induction),
        ("Total", seconds s.durations.total)])]

def row (label : String) (value : Bytes) : Bytes :=
  utf8 "  " ++ utf8 label ++ utf8 ": " ++ value

def groupText (title : String) (rows : List (String × Bytes)) : Bytes :=
  Bytes.lines ((utf8 title ++ utf8 ":") :: rows.map fun (label, value) => row label value)

def rule : Bytes := Bytes.ruler 70 61

def text (s : Summary) : Bytes :=
  Bytes.lines [[], rule, utf8 "Learning Summary", rule, []] ++
    Bytes.join [Bytes.newline] (s.groups.map fun (title, rows) => groupText title rows) ++
    Bytes.lines [[], rule, []]

def toJson (s : Summary) : Json :=
  .record
    [("sentences", .nat s.sentences),
      ("tokens", .nat s.tokens),
      ("substrings", .nat s.phrases),
      ("occurrences", .nat s.occurrences),
      ("distinct_contexts", .nat s.distinctContexts),
      ("nodes", .nat s.nodes),
      ("edges", .nat s.edges),
      ("shared_contexts", .nat s.sharedContexts),
      ("classes", .nat s.classes),
      ("singleton_classes", .nat s.singletons),
      ("largest_class", .nat s.largestClass),
      ("productive_fragments", .nat s.productive),
      ("unproductive_fragments", .nat s.unproductive),
      ("rules", .nat s.rules),
      ("extraction_time_seconds", .float s.durations.extraction),
      ("graph_time_seconds", .float s.durations.graph),
      ("resolution_time_seconds", .float s.durations.resolution),
      ("induction_time_seconds", .float s.durations.induction),
      ("total_time_seconds", .float s.durations.total)]

end Summary

end Substitutability
