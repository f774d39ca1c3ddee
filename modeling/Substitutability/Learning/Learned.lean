import Substitutability.ContextSet
import Substitutability.Corpus.Basic
import Substitutability.Grammar.Basic
import Substitutability.Graph.Basic
import Substitutability.Learning.Summary

/-!
# What was learned

The results of all stages for one corpus. A result that says nothing about
substitution is no failure, but it carries a warning.
-/

set_option autoImplicit false

namespace Substitutability

inductive Warning
  | noPhrases
  | noEdges
  deriving DecidableEq, Repr

namespace Warning

def stage : Warning → Bytes
  | .noPhrases => utf8 "extraction"
  | .noEdges => utf8 "graph"

def message : Warning → Bytes
  | .noPhrases =>
    utf8 "No substrings extracted; every sentence is shorter than the length policy allows"
  | .noEdges =>
    utf8 ("Substitution graph has no edges; no two substrings share a context " ++
      "and every congruence class is a singleton")

end Warning

structure Learned where
  corpus : Corpus
  contexts : ContextSet
  graph : Graph
  partition : Partition
  grammar : Grammar
  durations : Durations := {}

namespace Learned

def warnings (l : Learned) : List Warning :=
  (if l.contexts.isEmpty then [.noPhrases] else []) ++
    (if l.graph.edgeCount = 0 then [.noEdges] else [])

def isDegenerate (l : Learned) : Bool :=
  l.graph.edgeCount == 0

def summary (l : Learned) : Summary :=
  { sentences := l.corpus.size
    tokens := l.corpus.tokenCount
    phrases := l.contexts.phraseCount
    occurrences := l.contexts.occurrenceCount
    distinctContexts := l.contexts.distinctContexts.toList.length
    nodes := l.graph.nodeCount
    edges := l.graph.edgeCount
    sharedContexts := l.graph.statistics.sharedContexts
    classes := l.partition.size
    singletons := l.partition.singletonCount
    largestClass := l.partition.largestSize
    productive := l.grammar.productive.length
    unproductive := l.grammar.unproductive.length
    rules := l.grammar.ruleCount
    durations := l.durations }

end Learned

end Substitutability
