import Substitutability.Document
import Substitutability.Json.Printer
import Substitutability.Report.Basic

/-!
# Reports as text

A report is laid out line by line, section after section, in plain text or in
Markdown. The two differ in how headings, labels and list items are marked. Only
a report in the third format, JSON, can fail: it has no text if some part of it
is not well-formed.
-/

set_option autoImplicit false

namespace Substitutability.Report

inductive Markup
  | plain
  | markdown
  deriving DecidableEq, Repr

namespace Markup

def choose (m : Markup) (plain markdown : String) : Bytes :=
  match m with
  | .plain => utf8 plain
  | .markdown => utf8 markdown

def gap : Markup → List Bytes
  | .plain => []
  | .markdown => [[]]

def heading (m : Markup) (title : String) : List Bytes :=
  match m with
  | .plain => [Bytes.upper (utf8 title), Bytes.ruler (utf8 title).length 45]
  | .markdown => [utf8 "## " ++ utf8 title, []]

def subheading (m : Markup) (plain markdown : String) : List Bytes :=
  match m with
  | .plain => [utf8 plain ++ utf8 ":"]
  | .markdown => [utf8 "### " ++ utf8 markdown, []]

def labelled (m : Markup) (label : String) (value : Bytes) : Bytes :=
  m.choose (label ++ ": ") ("**" ++ label ++ ":** ") ++ value

def item (m : Markup) (depth : Nat) (text : Bytes) : Bytes :=
  match m with
  | .plain => List.replicate depth Bytes.space ++ text
  | .markdown => utf8 "- " ++ text

def code (m : Markup) (text : Bytes) : Bytes :=
  match m with
  | .plain => text
  | .markdown => utf8 "`" ++ text ++ utf8 "`"

def block (m : Markup) (title : String) (lines : List Bytes) : List Bytes :=
  m.heading title ++ lines ++ [[]]

def orNone (lines : List Bytes) : List Bytes :=
  if lines = [] then [utf8 "(none)"] else lines

end Markup

def memberList (r : Report) (members : List Phrase) : Bytes :=
  commaList (members.map (Phrase.label r.separator))

def headerFields (r : Report) : List (String × Bytes) :=
  (match r.generated with
    | some time => [("Generated", time.timestamp)]
    | none => []) ++
    [("Corpus", r.corpus), ("Sentences", Bytes.ofNat r.sentences)]

def headerLines (m : Markup) (r : Report) : List Bytes :=
  let fields := r.headerFields.map fun (label, value) => m.labelled label value
  match m with
  | .plain => [r.title, Bytes.ruler r.title.length 61, []] ++ fields ++ [[]]
  | .markdown =>
    [utf8 "# " ++ r.title, []] ++ fields.map (· ++ utf8 "  ") ++ [[], utf8 "---", []]

def warningLine (w : Warning) : Bytes :=
  utf8 "- [" ++ w.stage ++ utf8 "] " ++ w.message

def warningLines (m : Markup) (r : Report) : List Bytes :=
  if r.warnings = [] then [] else m.block "Warnings" (r.warnings.map warningLine)

def metrics (s : Summary) : List (String × Nat) :=
  [("Tokens", s.tokens), ("Distinct substrings", s.phrases),
    ("Distinct contexts", s.distinctContexts), ("Graph edges", s.edges),
    ("Shared contexts", s.sharedContexts), ("Congruence classes", s.classes),
    ("Singleton classes", s.singletons), ("Largest class", s.largestClass),
    ("Productive nonterminals", s.productive), ("Rules", s.rules)]

def metricLine (m : Markup) (metric : String × Nat) : Bytes :=
  let label := utf8 metric.1
  let value := Bytes.ofNat metric.2
  match m with
  | .plain => label ++ utf8 ": " ++ value
  | .markdown => utf8 "| " ++ label ++ utf8 " | " ++ value ++ utf8 " |"

def tableHead : Markup → List Bytes
  | .plain => []
  | .markdown => [utf8 "| Metric | Value |", utf8 "|--------|-------|"]

def statisticsLines (m : Markup) (r : Report) : List Bytes :=
  match r.statistics with
  | none => []
  | some s => m.block "Statistics" (tableHead m ++ (metrics s).map (metricLine m))

def vertexLine (m : Markup) (r : Report) (vertex : Phrase) : Bytes :=
  m.item 2 (m.code (vertex.label r.separator))

def omittedLines (m : Markup) (omitted : Nat) : List Bytes :=
  if omitted = 0 then []
  else [m.item 2 (utf8 "... and " ++ Bytes.ofNat omitted ++ utf8 " more")]

def edgeLine (m : Markup) (r : Report) (e : EdgeEntry) : Bytes :=
  m.item 2 <| m.code <|
    e.first.label r.separator ++ utf8 " -- " ++ e.second.label r.separator ++ utf8 "  " ++
      e.witness.label r.separator

def graphLines (m : Markup) (r : Report) : List Bytes :=
  match r.graph with
  | none => []
  | some g =>
    m.block "Vertices" (g.vertices.map (vertexLine m r) ++ omittedLines m g.omitted) ++
      m.block "Edges" (Markup.orNone (g.edges.map (edgeLine m r)))

def contextLine (m : Markup) (r : Report) (entry : ContextEntry) : Bytes :=
  m.item 2 (m.code (entry.context.label r.separator) ++ m.choose " : " ": " ++
    r.memberList entry.members)

def contextLines (m : Markup) (r : Report) : List Bytes :=
  match r.contexts with
  | none => []
  | some entries => m.block "Shared Contexts" (Markup.orNone (entries.map (contextLine m r)))

def classLine (m : Markup) (r : Report) (c : CongruenceClass) : Bytes :=
  let symbol := nonterminal c.index
  let size := utf8 " (" ++ Bytes.ofNat c.size ++ utf8 "): "
  let members := r.memberList c.members
  match m with
  | .plain => m.item 2 (symbol ++ size ++ utf8 "\x7b" ++ members ++ utf8 "\x7d")
  | .markdown => m.item 2 (utf8 "**" ++ symbol ++ utf8 "**" ++ size ++ members)

def collapsedLines (m : Markup) (collapsed : Nat) : List Bytes :=
  if collapsed = 0 then []
  else [m.item 2 (Bytes.ofNat collapsed ++ utf8 " singleton classes")]

def classLines (m : Markup) (r : Report) : List Bytes :=
  m.block "Congruence Classes"
    (r.classes.classes.map (classLine m r) ++ collapsedLines m r.classes.collapsed)

def arrow (left right : Bytes) : Bytes :=
  left ++ utf8 " -> " ++ right

/-- The rules of a fragment, those for sentences first. -/
def rules (separator : Bytes) (f : Fragment) : List Bytes :=
  let symbol := nonterminal f.index
  f.patterns.toList.map (fun p => arrow Grammar.startSymbol (p.label separator)) ++
    f.tokens.toList.map (arrow symbol) ++
    f.decompositions.toList.map fun d =>
      arrow symbol (nonterminal d.left ++ utf8 " " ++ nonterminal d.right)

def fragmentHead (m : Markup) (f : Fragment) : List Bytes :=
  match m with
  | .plain => [utf8 "  " ++ nonterminal f.index ++ utf8 ":"]
  | .markdown => [utf8 "#### " ++ nonterminal f.index, []]

def fragmentLines (m : Markup) (r : Report) (f : Fragment) : List Bytes :=
  fragmentHead m f ++ (rules r.separator f).map (fun rule => m.item 4 (m.code rule)) ++ m.gap

def ruleLines (m : Markup) (r : Report) : List Bytes :=
  match r.grammar.productive with
  | [] => [m.choose "    " "" ++ utf8 "(none)"]
  | fragments => fragments.flatMap (fragmentLines m r)

def attestation (count : Nat) : Bytes :=
  Bytes.ofNat count ++ utf8 " context pattern" ++ (if count = 1 then [] else utf8 "s")

def unproductiveLine (m : Markup) (r : Report) (f : Fragment) : Bytes :=
  m.item 4 (nonterminal f.index ++ utf8 " \x7b" ++ r.memberList f.members ++ utf8 "\x7d: " ++
    attestation f.patternCount)

def unproductiveLines (m : Markup) (r : Report) : List Bytes :=
  match r.grammar.unproductive with
  | [] => []
  | fragments =>
    m.subheading "Insufficiently attested" "Insufficiently Attested" ++
      fragments.map (unproductiveLine m r) ++ [[]]

def alphabetText (g : Grammar) : Bytes :=
  utf8 "\x7b" ++ commaList g.alphabet.toList ++ utf8 "\x7d"

def nonterminalText (g : Grammar) : Bytes :=
  g.productive.flatMap (fun f => nonterminal f.index ++ utf8 " ") ++ utf8 "(" ++
    Bytes.ofNat g.productive.length ++ utf8 " of " ++ Bytes.ofNat g.fragments.length ++
    utf8 " classes)"

def sentenceLine (m : Markup) (r : Report) (sentence : Phrase) : Bytes :=
  m.item 4 (sentence.label r.separator)

def grammarLines (m : Markup) (r : Report) : List Bytes :=
  m.heading "Grammar" ++
    [m.labelled "Alphabet" (alphabetText r.grammar)] ++ m.gap ++
    [m.labelled "Nonterminals" (nonterminalText r.grammar)] ++ m.gap ++
    [m.labelled "Start symbol" Grammar.startSymbol, []] ++
    m.subheading "Start strings" "Start Strings" ++
    r.grammar.sentences.map (sentenceLine m r) ++ [[]] ++
    m.subheading "Rules" "Rules" ++ ruleLines m r ++ [[]] ++
    unproductiveLines m r

def lines (m : Markup) (r : Report) : List Bytes :=
  headerLines m r ++ warningLines m r ++ statisticsLines m r ++ graphLines m r ++
    contextLines m r ++ classLines m r ++ grammarLines m r

def text (m : Markup) (r : Report) : Bytes :=
  Bytes.lines (lines m r)

def warningToJson (w : Warning) : Json :=
  .record [("stage", .string w.stage), ("message", .string w.message)]

def document (settings : Settings) (l : Learned) : Json :=
  .record <|
    [("title", .string settings.title),
      ("corpus", .string l.corpus.name),
      ("warnings", .array (l.warnings.map warningToJson)),
      ("classes", l.partition.toJson),
      ("grammar", l.grammar.toJson)] ++
    (match settings.generated with
      | some time => [("generated", .string time.timestamp)]
      | none => []) ++
    (if settings.statistics then [("statistics", l.summary.toJson)] else []) ++
    (if settings.graph then [("graph", l.graph.toJson)] else [])

def write (format : Format) (settings : Settings) (l : Learned) : Except Json.Fault Bytes :=
  match format with
  | .text => .ok ((ofLearned settings l).text .plain)
  | .markdown => .ok ((ofLearned settings l).text .markdown)
  | .json => (document settings l).dump .indented

def save (path content : Bytes) : Job Unit :=
  Job.write path content (.reportUnwritten path)

end Substitutability.Report
