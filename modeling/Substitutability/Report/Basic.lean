import Substitutability.Action
import Substitutability.Failure
import Substitutability.Files.Tree
import Substitutability.Learning.Learned

/-!
# Reports

A report is plain text, Markdown or JSON. The name of a format says which, or
leaves it to the extension of the path that the report is written to. A list
that was not asked for is absent. Vertices may be cut after a number of them,
and classes of one member may be counted instead of listed; what is left out is
counted.
-/

set_option autoImplicit false

namespace Substitutability

namespace Report

inductive Format
  | text
  | markdown
  | json
  deriving DecidableEq, Repr

namespace Format

/-- Names are read without regard to case. -/
def ofName (name : Bytes) : Except ConfigurationFault Format :=
  let lowered := Bytes.lower name
  if lowered = utf8 "text" ∨ lowered = utf8 "txt" then .ok .text
  else if lowered = utf8 "markdown" ∨ lowered = utf8 "md" then .ok .markdown
  else if lowered = utf8 "json" then .ok .json
  else .error (.unknownReportFormat name)

def ofExtension (path : Bytes) : Format :=
  let extension := Bytes.lower (Path.extension path)
  if extension = utf8 ".json" then .json
  else if extension = utf8 ".md" ∨ extension = utf8 ".markdown" then .markdown
  else .text

def automatic : Bytes := utf8 "auto"

def resolve (name path : Bytes) : Except ConfigurationFault Format :=
  if name = [] ∨ name = automatic then .ok (ofExtension path) else ofName name

end Format

structure Settings where
  title : Bytes := utf8 "Substitutable Language Grammar"
  generated : Option Moment := none
  graph : Bool := true
  contexts : Bool := true
  statistics : Bool := true
  collapseSingletons : Bool := false
  /-- The number of vertices to list, 0 for all. -/
  maxVertices : Nat := 0
  deriving DecidableEq, Repr

structure EdgeEntry where
  first : Phrase
  second : Phrase
  witness : Context
  deriving DecidableEq, Repr

structure GraphListing where
  vertices : List Phrase
  omitted : Nat
  edges : List EdgeEntry
  deriving DecidableEq, Repr

structure ContextEntry where
  context : Context
  members : List Phrase
  deriving DecidableEq, Repr

structure ClassListing where
  classes : List CongruenceClass
  collapsed : Nat
  deriving DecidableEq, Repr

end Report

structure Report where
  title : Bytes
  generated : Option Moment
  corpus : Bytes
  sentences : Nat
  separator : Bytes
  warnings : List Warning
  statistics : Option Summary
  graph : Option Report.GraphListing
  contexts : Option (List Report.ContextEntry)
  classes : Report.ClassListing
  grammar : Grammar

namespace Report

def phraseAt (g : Graph) (i : Nat) : Phrase :=
  (g.node? i).getD []

def edgeEntry (g : Graph) (entry : Edge × Context) : EdgeEntry :=
  ⟨phraseAt g entry.1.source, phraseAt g entry.1.target, entry.2⟩

def graphListing (limit : Nat) (g : Graph) : GraphListing :=
  let shown := if limit = 0 then g.nodes else g.nodes.take limit
  { vertices := shown
    omitted := g.nodes.length - shown.length
    edges := g.witnesses.toList.map (edgeEntry g) }

def sharedContexts (g : Graph) : List ContextEntry :=
  (g.contextIndex.toList.filter fun entry => 2 ≤ entry.2.length).map fun (context, nodes) =>
    ⟨context, nodes.map (phraseAt g)⟩

def classListing (collapse : Bool) (p : Partition) : ClassListing :=
  if collapse then ⟨p.classes.filter (!·.isSingleton), p.singletonCount⟩ else ⟨p.classes, 0⟩

def ofLearned (settings : Settings) (l : Learned) : Report :=
  { title := settings.title
    generated := settings.generated
    corpus := l.corpus.name
    sentences := l.corpus.size
    separator := l.corpus.separator
    warnings := l.warnings
    statistics := if settings.statistics then some l.summary else none
    graph := if settings.graph then some (graphListing settings.maxVertices l.graph) else none
    contexts := if settings.contexts then some (sharedContexts l.graph) else none
    classes := classListing settings.collapseSingletons l.partition
    grammar := l.grammar }

end Report

end Substitutability
