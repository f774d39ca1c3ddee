import Substitutability.Action
import Substitutability.Document
import Substitutability.Drawing.Dot
import Substitutability.Json.Printer
import Substitutability.Learning.Learned

/-!
# Drawings as pages

A page holds the graph as one JSON value and a script that draws it. The value
stands inside a script element, so no `</` may occur in it. A drawing of either
format is written to a file once its whole text is known; a command that draws
says where the drawing is.
-/

set_option autoImplicit false

namespace Substitutability.Drawing.Page

def nodeToJson (caption : Caption) (g : Graph) (p : Partition) (node : Phrase × Nat) : Json :=
  let index := p.classOf? node.1
  .record
    [("id", .nat node.2),
      ("label", .string (node.1.label caption.separator)),
      ("degree", .nat (g.degree node.2)),
      ("class", .string ((index.map nonterminal).getD [])),
      ("color", .string ((index.map color).getD (utf8 "#ffffff")))]

def linkToJson (caption : Caption) (entry : Edge × Context) : Json :=
  .record
    [("source", .nat entry.1.source),
      ("target", .nat entry.1.target),
      ("context", .string (entry.2.label caption.separator))]

def view (caption : Caption) (g : Graph) (p : Partition) : Json :=
  .record
    [("title", .string caption.title),
      ("nodes", .array (g.nodes.zipIdx.map (nodeToJson caption g p))),
      ("links", .array (g.witnesses.toList.map (linkToJson caption))),
      ("num_classes", .nat p.size)]

/-- A backslash between every less-than sign and a slash after it. -/
def protect : Bytes → Bytes
  | 60 :: 47 :: rest => 60 :: 92 :: 47 :: protect rest
  | b :: rest => b :: protect rest
  | [] => []

def payload (view : Json) : Except Json.Fault Bytes :=
  (view.dump .compact).map protect

def escapeByte (b : UInt8) : Bytes :=
  if b = 38 then utf8 "&amp;"
  else if b = 60 then utf8 "&lt;"
  else if b = 62 then utf8 "&gt;"
  else if b = 34 then utf8 "&quot;"
  else [b]

def escape (text : Bytes) : Bytes :=
  text.flatMap escapeByte

def opening : List String :=
  ["<!DOCTYPE html>",
    "<html lang=\"en\">",
    "<head>",
    "    <meta charset=\"UTF-8\">",
    "    <meta name=\"viewport\" content=\"width=device-width, initial-scale=1.0\">"]

def body : List String :=
  ["    <script src=\"https://d3js.org/d3.v7.min.js\"></script>",
    "    <style>",
    "        body \x7b margin: 0; font-family: 'Segoe UI', Tahoma, Geneva, Verdana, " ++
      "sans-serif; background: #fafafa; \x7d",
    "        #header \x7b position: fixed; top: 0; left: 0; right: 0; padding: 10px 20px; " ++
      "background: rgba(255, 255, 255, 0.9); border-bottom: 1px solid #ddd; \x7d",
    "        #header h1 \x7b font-size: 1.2em; margin: 0; font-weight: 500; \x7d",
    "        #stats \x7b font-size: 0.85em; color: #555; \x7d",
    "        #graph \x7b width: 100vw; height: 100vh; \x7d",
    "        .link \x7b stroke: #999; stroke-opacity: 0.6; \x7d",
    "        .node circle \x7b stroke: #333; stroke-width: 1px; \x7d",
    "        .node text \x7b font-size: 11px; pointer-events: none; \x7d",
    "    </style>",
    "</head>",
    "<body>",
    "<div id=\"header\">",
    "    <h1 id=\"title\"></h1>",
    "    <div id=\"stats\"></div>",
    "</div>",
    "<svg id=\"graph\"></svg>",
    "<script>"]

def script : List String :=
  ["document.getElementById('title').textContent = data.title;",
    "document.getElementById('stats').textContent =",
    "    data.nodes.length + ' substrings, ' + data.links.length + ' edges, ' + " ++
      "data.num_classes + ' classes';",
    "",
    "const svg = d3.select('#graph');",
    "const width = window.innerWidth, height = window.innerHeight;",
    "const container = svg.append('g');",
    "svg.call(d3.zoom().on('zoom', (event) => container.attr('transform', event.transform)));",
    "",
    "const simulation = d3.forceSimulation(data.nodes)",
    "    .force('link', d3.forceLink(data.links).id(d => d.id).distance(80))",
    "    .force('charge', d3.forceManyBody().strength(-120))",
    "    .force('center', d3.forceCenter(width / 2, height / 2));",
    "",
    "const link = container.append('g').selectAll('line')",
    "    .data(data.links).join('line').attr('class', 'link');",
    "link.append('title').text(d => d.context);",
    "",
    "const node = container.append('g').selectAll('g')",
    "    .data(data.nodes).join('g').attr('class', 'node')",
    "    .call(d3.drag()",
    "        .on('start', (event, d) => \x7b if (!event.active) " ++
      "simulation.alphaTarget(0.3).restart(); d.fx = d.x; d.fy = d.y; \x7d)",
    "        .on('drag', (event, d) => \x7b d.fx = event.x; d.fy = event.y; \x7d)",
    "        .on('end', (event, d) => \x7b if (!event.active) simulation.alphaTarget(0); " ++
      "d.fx = null; d.fy = null; \x7d));",
    "node.append('circle').attr('r', d => 6 + Math.sqrt(d.degree)).attr('fill', d => d.color);",
    "node.append('text').attr('dx', 10).attr('dy', 4).text(d => d.label);",
    "node.append('title').text(d => d.class + ': ' + d.label);",
    "",
    "simulation.on('tick', () => \x7b",
    "    link.attr('x1', d => d.source.x).attr('y1', d => d.source.y)",
    "        .attr('x2', d => d.target.x).attr('y2', d => d.target.y);",
    "    node.attr('transform', d => 'translate(' + d.x + ',' + d.y + ')');",
    "\x7d);",
    "</script>",
    "</body>",
    "</html>"]

def page (title payload : Bytes) : Bytes :=
  Bytes.lines <|
    opening.map utf8 ++ [utf8 "    <title>" ++ escape title ++ utf8 "</title>"] ++
      body.map utf8 ++ [utf8 "const data = " ++ payload ++ utf8 ";"] ++ script.map utf8

def text (caption : Caption) (g : Graph) (p : Partition) : Except Json.Fault Bytes :=
  (payload (view caption g p)).map (page caption.title)

end Substitutability.Drawing.Page

/-! ## Writing drawings -/

namespace Substitutability.Drawing

def text (format : Format) (caption : Caption) (g : Graph) (p : Partition) :
    Except Json.Fault Bytes :=
  match format with
  | .dot => .ok (Dot.text caption g p)
  | .html => Page.text caption g p

def save (format : Format) (caption : Caption) (g : Graph) (p : Partition) (path : Bytes) :
    Job Unit := do
  Job.write path (← Job.ofDocument (text format caption g p)) (.fileUnwritten path)

end Substitutability.Drawing

namespace Substitutability

def Learned.caption (l : Learned) : Drawing.Caption :=
  ⟨l.corpus.name, l.corpus.separator⟩

def Learned.draw (l : Learned) (format : Drawing.Format) (path : Bytes) : Job Unit := do
  Drawing.save format l.caption l.graph l.partition path
  Job.printLine (utf8 "Graph written to: " ++ path)

end Substitutability
