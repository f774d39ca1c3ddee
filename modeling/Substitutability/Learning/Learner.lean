import Substitutability.Configuration.Basic
import Substitutability.Corpus.Loading
import Substitutability.Grammar.Induction
import Substitutability.Graph.Basic
import Substitutability.Learning.Learned
import Substitutability.Partition.Components

/-!
# Learners

A learner is a configuration that was found valid. It takes a corpus through
four stages: contexts, substitution graph, congruence classes, grammar. `learned`
is the result; `learn` also announces each stage and reads the clock around it.
-/

set_option autoImplicit false

namespace Substitutability

structure Learner where
  extractor : Extractor
  format : TextFormat
  least : Nat
  verbose : Bool

def Configuration.learner? (c : Configuration) : Except ConfigurationFault Learner := do
  match c.rejection? with
  | some reason => throw (.rejected reason)
  | none =>
    let extractor ← Extractor.make c.policy c.contextWidth
    let format ← TextFormat.ofNames c.segmentation c.granularity
    return ⟨extractor, format, c.minObservations.toNat, c.verbose⟩

namespace Learner

def contexts (l : Learner) (corpus : Corpus) : ContextSet :=
  l.extractor.extract corpus.sentences

def grammar (l : Learner) (corpus : Corpus) (p : Partition) : Grammar :=
  Grammar.induce l.extractor l.least corpus p

def learned (l : Learner) (corpus : Corpus) : Learned :=
  let contexts := l.contexts corpus
  let graph := Graph.ofContexts contexts
  let partition := graph.partition
  { corpus, contexts, graph, partition, grammar := l.grammar corpus partition }

def progressLine (p : Progress) : Bytes :=
  utf8 "[" ++ Bytes.ofNat p.current ++ utf8 "/" ++ Bytes.ofNat p.total ++ utf8 "] " ++ p.stage ++
    (if p.message = [] then [] else utf8 ": " ++ p.message) ++ [Bytes.newline]

def report (l : Learner) (p : Progress) : Job Unit := do
  Job.progress p
  if l.verbose then Job.print (progressLine p) else pure ()

def announce (l : Learner) (stage : String) (number count : Nat) (unit : String) : Job Unit :=
  l.report ⟨utf8 stage, number, 4, Bytes.ofNat count ++ utf8 " " ++ utf8 unit⟩

def warnIf (condition : Bool) (warning : Warning) : Job Unit :=
  if condition then
    Job.warn (utf8 "Warning: " ++ warning.message ++ [Bytes.newline])
  else pure ()

def learn (l : Learner) (corpus : Corpus) : Job Learned := do
  if corpus.sentences = [] then Job.failInput (.corpusEmpty corpus.name)
  let start ← Job.clock
  l.announce "Extracting contexts" 1 corpus.size "sentences"
  let (contexts, extraction) ← Job.timed fun _ => l.contexts corpus
  warnIf contexts.isEmpty .noPhrases
  l.announce "Building substitution graph" 2 contexts.phraseCount "substrings"
  let (graph, building) ← Job.timed fun _ => Graph.ofContexts contexts
  warnIf (graph.edgeCount == 0) .noEdges
  l.announce "Resolving congruence classes" 3 graph.edgeCount "edges"
  let (partition, resolution) ← Job.timed fun _ => graph.partition
  l.announce "Inducing grammar" 4 partition.size "classes"
  let (grammar, induction) ← Job.timed fun _ => l.grammar corpus partition
  let stop ← Job.clock
  let durations := ⟨extraction, building, resolution, induction, start.secondsTo stop⟩
  return ⟨corpus, contexts, graph, partition, grammar, durations⟩

def loader (l : Learner) : Loader :=
  ⟨l.format, l.verbose⟩

def learnPath (l : Learner) (path : Bytes) : Job Learned := do
  l.report ⟨utf8 "Loading", 0, 1, path⟩
  l.learn (← l.loader.load path)

end Learner

end Substitutability
