import Substitutability.Proofs.Text.Decimal
import Substitutability.Proofs.Text.Words
import Substitutability.Report.Markup

/-!
# The texts of entries

What a report in lines shows of a node, an edge, a context, a class and a rule, letter by
letter in plain text and in Markdown, with the lines over a section and the lines that tell
how much is left out. The writer puts its lines together from smaller marks; they come to
these texts.
-/

set_option autoImplicit false

namespace Substitutability.Report

/-! ## Phrases, contexts and symbols -/

section Texts

variable (m : Markup) (separator : Bytes)

def commas (texts : List Bytes) : Bytes :=
  (utf8 ", ").intercalate texts

def membersText (members : List Phrase) : Bytes :=
  commas (members.map separator.intercalate)

def contextText (c : Context) : Bytes :=
  utf8 "(" ++ separator.intercalate c.left ++ utf8 " _ " ++ separator.intercalate c.right ++
    utf8 ")"

def symbolText (index : Nat) : Bytes :=
  utf8 ("N" ++ toString index)

/-- The symbol of a class between the sides of its context; a side without text is left out. -/
def patternText (p : Pattern) : Bytes :=
  (utf8 " ").intercalate
    ([separator.intercalate p.left, symbolText p.index, separator.intercalate p.right].filter
      (· ≠ []))

/-- The lines over a section: its title in capitals and a rule of hyphens, or a Markdown heading. -/
def titleText (title capitals hyphens : String) : List Bytes :=
  match m with
  | .plain => [utf8 capitals, utf8 hyphens]
  | .markdown => [utf8 ("## " ++ title), []]

/-! ## The opening -/

def headText (title corpus : Bytes) (sentences : Nat) (generated : Option Bytes) : List Bytes :=
  match m with
  | .plain =>
    [title, List.replicate title.length 61, []] ++
      generated.toList.map (fun time => utf8 "Generated: " ++ time) ++
      [utf8 "Corpus: " ++ corpus, utf8 ("Sentences: " ++ toString sentences), []]
  | .markdown =>
    [utf8 "# " ++ title, []] ++
      generated.toList.map (fun time => utf8 "**Generated:** " ++ time ++ utf8 "  ") ++
      [utf8 "**Corpus:** " ++ corpus ++ utf8 "  ",
        utf8 ("**Sentences:** " ++ toString sentences ++ "  "), [], utf8 "---", []]

def warningText (w : Warning) : Bytes :=
  utf8 "- [" ++ w.stage ++ utf8 "] " ++ w.message

def quantities (s : Summary) : List (String × Nat) :=
  [("Tokens", s.tokens), ("Distinct substrings", s.phrases),
    ("Distinct contexts", s.distinctContexts), ("Graph edges", s.edges),
    ("Shared contexts", s.sharedContexts), ("Congruence classes", s.classes),
    ("Singleton classes", s.singletons), ("Largest class", s.largestClass),
    ("Productive nonterminals", s.productive), ("Rules", s.rules)]

def quantityText (q : String × Nat) : Bytes :=
  match m with
  | .plain => utf8 (q.1 ++ ": " ++ toString q.2)
  | .markdown => utf8 ("| " ++ q.1 ++ " | " ++ toString q.2 ++ " |")

def columnsText : List Bytes :=
  match m with
  | .plain => []
  | .markdown => [utf8 "| Metric | Value |", utf8 "|--------|-------|"]

/-! ## Nodes, edges and contexts -/

def vertexText (a : Phrase) : Bytes :=
  match m with
  | .plain => utf8 "  " ++ separator.intercalate a
  | .markdown => utf8 "- `" ++ separator.intercalate a ++ utf8 "`"

def omittedText (count : Nat) : Bytes :=
  match m with
  | .plain => utf8 ("  ... and " ++ toString count ++ " more")
  | .markdown => utf8 ("- ... and " ++ toString count ++ " more")

def edgeText (a b : Phrase) (witness : Context) : Bytes :=
  let edge := separator.intercalate a ++ utf8 " -- " ++ separator.intercalate b ++ utf8 "  " ++
    contextText separator witness
  match m with
  | .plain => utf8 "  " ++ edge
  | .markdown => utf8 "- `" ++ edge ++ utf8 "`"

def contextMembersText (c : Context) (members : List Phrase) : Bytes :=
  match m with
  | .plain => utf8 "  " ++ contextText separator c ++ utf8 " : " ++ membersText separator members
  | .markdown =>
    utf8 "- `" ++ contextText separator c ++ utf8 "`: " ++ membersText separator members

/-! ## Classes -/

def classText (c : CongruenceClass) : Bytes :=
  match m with
  | .plain =>
    utf8 ("  N" ++ toString c.index ++ " (" ++ toString c.members.length ++ "): \x7b") ++
      membersText separator c.members ++ utf8 "\x7d"
  | .markdown =>
    utf8 ("- **N" ++ toString c.index ++ "** (" ++ toString c.members.length ++ "): ") ++
      membersText separator c.members

def collapsedText (count : Nat) : Bytes :=
  match m with
  | .plain => utf8 ("  " ++ toString count ++ " singleton classes")
  | .markdown => utf8 ("- " ++ toString count ++ " singleton classes")

/-! ## The grammar -/

def grammarHeadText (g : Grammar) (blocks : List Fragment) (classes : Nat) : List Bytes :=
  let alphabet := utf8 "\x7b" ++ commas g.alphabet.toList ++ utf8 "\x7d"
  let symbols := blocks.flatMap (fun f => symbolText f.index ++ utf8 " ") ++
    utf8 ("(" ++ toString blocks.length ++ " of " ++ toString classes ++ " classes)")
  match m with
  | .plain =>
    [utf8 "GRAMMAR", utf8 "-------", utf8 "Alphabet: " ++ alphabet,
      utf8 "Nonterminals: " ++ symbols, utf8 "Start symbol: S", [], utf8 "Start strings:"] ++
    g.sentences.map (fun s => utf8 "    " ++ separator.intercalate s) ++
    [[], utf8 "Rules:"]
  | .markdown =>
    [utf8 "## Grammar", [], utf8 "**Alphabet:** " ++ alphabet, [],
      utf8 "**Nonterminals:** " ++ symbols, [], utf8 "**Start symbol:** S", [],
      utf8 "### Start Strings", []] ++
    g.sentences.map (fun s => utf8 "- " ++ separator.intercalate s) ++
    [[], utf8 "### Rules", []]

/-- The rules of a class: those of the start symbol, those for one token, and those for two
classes. -/
def ruleTexts (f : Fragment) : List Bytes :=
  f.patterns.toList.map (fun p => utf8 "S -> " ++ patternText separator p) ++
    f.tokens.toList.map (fun token => symbolText f.index ++ utf8 " -> " ++ token) ++
    f.decompositions.toList.map fun d =>
      symbolText f.index ++ utf8 " -> " ++ symbolText d.left ++ utf8 " " ++ symbolText d.right

def ruleEntries (f : Fragment) : List Bytes :=
  match m with
  | .plain => (ruleTexts separator f).map fun rule => utf8 "    " ++ rule
  | .markdown => (ruleTexts separator f).map fun rule => utf8 "- `" ++ rule ++ utf8 "`"

def blockText (f : Fragment) : List Bytes :=
  match m with
  | .plain => [utf8 "  " ++ symbolText f.index ++ utf8 ":"] ++ ruleEntries .plain separator f
  | .markdown =>
    [utf8 "#### " ++ symbolText f.index, []] ++ ruleEntries .markdown separator f ++ [[]]

def noRulesText : List Bytes :=
  match m with
  | .plain => [utf8 "    (none)"]
  | .markdown => [utf8 "(none)"]

def unattestedHeadText : List Bytes :=
  match m with
  | .plain => [utf8 "Insufficiently attested:"]
  | .markdown => [utf8 "### Insufficiently Attested", []]

def unattestedText (f : Fragment) : Bytes :=
  let count := f.patterns.toList.length
  let entry := symbolText f.index ++ utf8 " \x7b" ++ membersText separator f.members ++
    utf8 ("\x7d: " ++ toString count ++ if count = 1 then " context pattern" else " context patterns")
  match m with
  | .plain => utf8 "    " ++ entry
  | .markdown => utf8 "- " ++ entry

end Texts

/-! ## The lines of the writer -/

variable {m : Markup} {r : Report}

theorem label_eq (separator : Bytes) :
    Phrase.label separator = separator.intercalate :=
  funext (Bytes.join_eq_intercalate separator)

theorem label_context (separator : Bytes) (c : Context) :
    c.label separator = contextText separator c := by
  rw [Context.label, label_eq, contextText]

theorem commaList_eq (texts : List Bytes) : commaList texts = commas texts :=
  Bytes.join_eq_intercalate _ texts

theorem memberList_eq (members : List Phrase) :
    r.memberList members = membersText r.separator members := by
  rw [memberList, commaList_eq, label_eq, membersText]

theorem nonterminal_eq (index : Nat) : nonterminal index = symbolText index := by
  rw [symbolText, utf8_append, Bytes.utf8_toString, nonterminal]

theorem label_pattern (separator : Bytes) (p : Pattern) :
    p.label separator = patternText separator p := by
  have hsymbol : symbolText p.index ≠ [] := by
    rw [← nonterminal_eq]
    simp [nonterminal, Bytes.ofNat_ne_nil]
  have hspace : utf8 " " = [Bytes.space] := rfl
  rw [Pattern.label, label_eq, nonterminal_eq, patternText, Pattern.spaceAfter,
    Pattern.spaceBefore, hspace]
  by_cases hleft : separator.intercalate p.left = [] <;>
    by_cases hright : separator.intercalate p.right = [] <;>
    simp [hleft, hright, hsymbol, List.intercalate_cons_cons]

theorem block_eq (title capitals hyphens : String)
    (hcapitals : Bytes.upper (utf8 title) = utf8 capitals)
    (hhyphens : Bytes.ruler (utf8 title).length 45 = utf8 hyphens) (lines : List Bytes) :
    m.block title lines = titleText m title capitals hyphens ++ lines ++ [[]] := by
  cases m with
  | plain => rw [Markup.block, Markup.heading, hcapitals, hhyphens, titleText]
  | markdown => rw [Markup.block, Markup.heading, titleText, utf8_append]

theorem headerLines_eq :
    headerLines m r =
      headText m r.title r.corpus r.sentences (r.generated.map Moment.timestamp) := by
  have hsentences : Bytes.ofNat r.sentences = utf8 (toString r.sentences) :=
    (Bytes.utf8_toString _).symm
  cases m <;> cases hgenerated : r.generated <;>
    simp only [headerLines, headerFields, headText, hgenerated, hsentences, utf8_append] <;> rfl

theorem metricLine_eq (q : String × Nat) : metricLine m q = quantityText m q := by
  cases m <;> simp only [metricLine, quantityText, ← Bytes.utf8_toString, utf8_append]

theorem vertexLine_eq (a : Phrase) : vertexLine m r a = vertexText m r.separator a := by
  rw [vertexLine, label_eq]
  cases m <;> rfl

theorem edgeLine_eq (e : EdgeEntry) :
    edgeLine m r e = edgeText m r.separator e.first e.second e.witness := by
  rw [edgeLine, label_eq, label_context]
  cases m <;> rfl

theorem contextLine_eq (e : ContextEntry) :
    contextLine m r e = contextMembersText m r.separator e.context e.members := by
  rw [contextLine, label_context, memberList_eq]
  cases m <;>
    simp only [contextMembersText, Markup.item, Markup.code, Markup.choose, List.append_assoc] <;>
    rfl

theorem omittedLines_eq (count : Nat) :
    omittedLines m count = if count = 0 then [] else [omittedText m count] := by
  rw [omittedLines, ← Bytes.utf8_toString]
  cases m <;> simp only [omittedText, utf8_append] <;> rfl

theorem classLine_eq (c : CongruenceClass) : classLine m r c = classText m r.separator c := by
  cases m <;>
    simp only [classLine, classText, memberList_eq, nonterminal_eq, symbolText,
      CongruenceClass.size, ← Bytes.utf8_toString, utf8_append, Markup.item,
      List.append_assoc] <;>
    rfl

theorem collapsedLines_eq (count : Nat) :
    collapsedLines m count = if count = 0 then [] else [collapsedText m count] := by
  rw [collapsedLines, ← Bytes.utf8_toString]
  cases m <;> simp only [collapsedText, utf8_append] <;> rfl

theorem rules_eq (f : Fragment) : rules r.separator f = ruleTexts r.separator f := by
  have hstart : ∀ text, arrow Grammar.startSymbol text = utf8 "S -> " ++ text := fun _ => rfl
  have hclass : arrow (symbolText f.index) = fun text => symbolText f.index ++ utf8 " -> " ++ text :=
    rfl
  simp only [rules, ruleTexts, hstart, hclass, label_pattern, nonterminal_eq, List.append_assoc]

theorem fragmentLines_eq (f : Fragment) :
    fragmentLines m r f = blockText m r.separator f := by
  rw [fragmentLines, rules_eq]
  cases m with
  | plain => simp only [fragmentHead, nonterminal_eq, Markup.gap, List.append_nil]; rfl
  | markdown => simp only [fragmentHead, nonterminal_eq]; rfl

theorem alphabetText_eq (g : Grammar) :
    alphabetText g = utf8 "\x7b" ++ commas g.alphabet.toList ++ utf8 "\x7d" := by
  rw [alphabetText, commaList_eq]

theorem nonterminalText_eq (g : Grammar) :
    nonterminalText g = g.productive.flatMap (fun f => symbolText f.index ++ utf8 " ") ++
      utf8 ("(" ++ toString g.productive.length ++ " of " ++ toString g.fragments.length ++
        " classes)") := by
  simp only [nonterminalText, nonterminal_eq, ← Bytes.utf8_toString, utf8_append, List.append_assoc]

theorem grammarHead_eq :
    m.heading "Grammar" ++ [m.labelled "Alphabet" (alphabetText r.grammar)] ++ m.gap ++
        [m.labelled "Nonterminals" (nonterminalText r.grammar)] ++ m.gap ++
        [m.labelled "Start symbol" Grammar.startSymbol, []] ++
        m.subheading "Start strings" "Start Strings" ++
        r.grammar.sentences.map (sentenceLine m r) ++ [[]] ++ m.subheading "Rules" "Rules" =
      grammarHeadText m r.separator r.grammar r.grammar.productive r.grammar.fragments.length := by
  have hsentence : sentenceLine m r = fun s => m.item 4 (r.separator.intercalate s) :=
    funext fun s => by rw [sentenceLine, label_eq]
  rw [alphabetText_eq, nonterminalText_eq, hsentence]
  cases m <;> simp only [grammarHeadText, List.append_assoc] <;> rfl

theorem unproductiveLine_eq (f : Fragment) :
    unproductiveLine m r f = unattestedText m r.separator f := by
  have hcount : attestation f.patternCount = utf8 (toString f.patterns.toList.length) ++
      utf8 (if f.patterns.toList.length = 1 then " context pattern" else " context patterns") := by
    rw [attestation, Bytes.utf8_toString, Fragment.patternCount, List.append_assoc]
    by_cases hone : f.patterns.toList.length = 1
    · rw [if_pos hone, if_pos hone, List.append_nil]
    · rw [if_neg hone, if_neg hone]
      rfl
  simp only [unproductiveLine, unattestedText, memberList_eq, nonterminal_eq, hcount, utf8_append,
    List.append_assoc]
  cases m <;> rfl

end Substitutability.Report
