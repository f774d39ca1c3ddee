import Substitutability.Proofs.Corpus.WellFormed
import Substitutability.Proofs.Json.Printable
import Substitutability.Proofs.Learning.Tokens
import Substitutability.Proofs.Text.Decimal
import Substitutability.Report.Markup

/-!
# Reports that can be written

The document of a result has the tokens of the result in it, names of classes, counts, and
texts of the library. So it can be written if the tokens, the name of the corpus and the
title are well-formed, and the sentences, which it lists, have to be. Among the corpora that
are read from a text only the words of lines can break this.
-/

set_option autoImplicit false

namespace Substitutability

def Utf8.WellFormed (text : Bytes) : Prop :=
  wellFormed text = true

/-! ## Numbers -/

theorem wellFormed_ofNat (n : Nat) : Utf8.wellFormed (Bytes.ofNat n) = true :=
  Utf8.wellFormed_of_ascii fun _ => Bytes.ascii_of_mem_ofNat

theorem wellFormed_nonterminal (i : Nat) : Utf8.wellFormed (nonterminal i) = true :=
  Utf8.wellFormed_append (Utf8.wellFormed_utf8 "N") (wellFormed_ofNat i)

theorem Moment.wellFormed_padded (width n : Nat) : Utf8.wellFormed (padded width n) = true := by
  apply Utf8.wellFormed_append _ (wellFormed_ofNat n)
  apply Utf8.wellFormed_of_ascii
  intro b hb
  rw [List.eq_of_mem_replicate hb]
  decide

theorem Moment.wellFormed_timestamp (m : Moment) : Utf8.wellFormed m.timestamp = true := by
  have hjoin : ∀ (separator : String) (a b c : Nat × Nat), Utf8.wellFormed
      (Bytes.join (utf8 separator) [padded a.1 a.2, padded b.1 b.2, padded c.1 c.2]) = true := by
    intro separator a b c
    apply Utf8.wellFormed_join (Utf8.wellFormed_utf8 separator)
    simp [wellFormed_padded]
  have hdate : Utf8.wellFormed m.date = true := hjoin "-" (4, m.year) (2, m.month) (2, m.day)
  have htime : Utf8.wellFormed (m.time ":") = true :=
    hjoin ":" (2, m.hour) (2, m.minute) (2, m.second)
  exact Utf8.wellFormed_append (Utf8.wellFormed_append (Utf8.wellFormed_append hdate
    (Utf8.wellFormed_utf8 " ")) htime) (Utf8.wellFormed_utf8 " UTC")

/-! ## Parts of documents -/

open Json (printable_record printable_map printable_strings printable_string printable_nat)

theorem Phrase.printable_toJson {phrase : Phrase} :
    phrase.toJson.Printable ↔ Phrase.All Utf8.WellFormed phrase :=
  printable_strings

theorem Phrase.printable_listToJson {phrases : List Phrase} :
    (Phrase.listToJson phrases).Printable ↔
      ∀ phrase ∈ phrases, Phrase.All Utf8.WellFormed phrase := by
  rw [listToJson, printable_map]
  exact forall₂_congr fun _ _ => printable_toJson

theorem Context.printable_toJson {c : Context} (h : c.All Utf8.WellFormed) :
    c.toJson.Printable := by
  have hleft := Phrase.printable_toJson.2 h.1
  have hright := Phrase.printable_toJson.2 h.2
  exact printable_record (by simp [hleft, hright])

theorem GraphStatistics.printable_toJson (s : GraphStatistics) : s.toJson.Printable :=
  printable_record (by simp)

theorem Graph.printable_toJson {g : Graph} (h : g.All Utf8.WellFormed) : g.toJson.Printable := by
  have hnodes : (Json.array (g.nodes.zipIdx.map g.nodeToJson)).Printable := by
    rw [printable_map]
    intro node hnode
    have hphrase := Phrase.printable_toJson.2 (h.nodes _ (List.fst_mem_of_mem_zipIdx hnode))
    exact printable_record (by simp [hphrase])
  have hedges : (Json.array (g.witnesses.toList.map edgeToJson)).Printable := by
    rw [printable_map]
    intro entry hentry
    have hwitness := Context.printable_toJson (h.witnesses entry hentry)
    exact printable_record (by simp [hwitness])
  have hstatistics := g.statistics.printable_toJson
  exact printable_record (by simp [hnodes, hedges, hstatistics])

theorem CongruenceClass.printable_toJson {c : CongruenceClass} (h : c.All Utf8.WellFormed) :
    c.toJson.Printable := by
  have hsymbol := wellFormed_nonterminal c.index
  have hrepresentative := Phrase.printable_toJson.2 h.1
  have hmembers := Phrase.printable_listToJson.2 h.2
  exact printable_record (by simp [hsymbol, hrepresentative, hmembers])

theorem Partition.printable_toJson {p : Partition} (h : ∀ c ∈ p.classes, c.All Utf8.WellFormed) :
    p.toJson.Printable := by
  have hclasses : (Json.array (p.classes.map CongruenceClass.toJson)).Printable :=
    printable_map.2 fun c hc => CongruenceClass.printable_toJson (h c hc)
  exact printable_record (by simp [hclasses])

theorem Pattern.printable_toJson {p : Pattern}
    (h : Phrase.All Utf8.WellFormed p.left ∧ Phrase.All Utf8.WellFormed p.right) :
    p.toJson.Printable := by
  have hleft := Phrase.printable_toJson.2 h.1
  have hright := Phrase.printable_toJson.2 h.2
  exact printable_record (by simp [hleft, hright])

theorem Fragment.printable_toJson {f : Fragment} (h : f.All Utf8.WellFormed) :
    f.toJson.Printable := by
  have hsymbol := wellFormed_nonterminal f.index
  have hmembers := Phrase.printable_listToJson.2 h.members
  have hpatterns : (Json.array (f.patterns.toList.map Pattern.toJson)).Printable :=
    printable_map.2 fun p hp => Pattern.printable_toJson (h.patterns p hp)
  have htokens : (Json.strings f.tokens.toList).Printable := printable_strings.2 h.tokens
  have hdecompositions :
      (Json.array (f.decompositions.toList.map Decomposition.toJson)).Printable :=
    printable_map.2 fun d _ => rfl
  exact printable_record (by simp [hsymbol, hmembers, hpatterns, htokens, hdecompositions])

theorem Grammar.printable_toJson {g : Grammar} (hname : Utf8.wellFormed g.name = true)
    (h : g.All Utf8.WellFormed) : g.toJson.Printable := by
  have hstart : Utf8.wellFormed startSymbol = true := Utf8.wellFormed_utf8 "S"
  have halphabet : (Json.strings g.alphabet.toList).Printable := printable_strings.2 h.alphabet
  have hnonterminals : (Json.strings g.nonterminals).Printable := by
    rw [printable_strings, nonterminals, List.forall_mem_map]
    exact fun f _ => wellFormed_nonterminal f.index
  have hsentences := Phrase.printable_listToJson.2 h.sentences
  have hfragments : ∀ keep, (Json.array ((g.fragments.filter keep).map Fragment.toJson)).Printable :=
    fun keep => printable_map.2 fun f hf =>
      Fragment.printable_toJson (h.fragments f (List.mem_of_mem_filter hf))
  have hproductive : (Json.array (g.productive.map Fragment.toJson)).Printable := hfragments _
  have hunproductive : (Json.array (g.unproductive.map Fragment.toJson)).Printable := hfragments _
  exact printable_record
    (by simp [hname, hstart, halphabet, hnonterminals, hsentences, hproductive, hunproductive])

theorem Summary.printable_toJson (s : Summary) : s.toJson.Printable :=
  printable_record (by simp)

/-! ## The document -/

namespace Report

theorem printable_warningToJson (w : Warning) : (warningToJson w).Printable := by
  have hstage : Utf8.wellFormed w.stage = true := by
    cases w <;> exact Utf8.wellFormed_utf8 _
  have hmessage : Utf8.wellFormed w.message = true := by
    cases w <;> exact Utf8.wellFormed_utf8 _
  exact printable_record (by simp [hstage, hmessage])

variable {settings : Settings} {l : Learned}

def documentFields (settings : Settings) (l : Learned) : List (String × Json) :=
  [("title", .string settings.title),
    ("corpus", .string l.corpus.name),
    ("warnings", .array (l.warnings.map warningToJson)),
    ("classes", l.partition.toJson),
    ("grammar", l.grammar.toJson)] ++
  (match settings.generated with
    | some time => [("generated", .string time.timestamp)]
    | none => []) ++
  (if settings.statistics then [("statistics", l.summary.toJson)] else []) ++
  (if settings.graph then [("graph", l.graph.toJson)] else [])

theorem document_eq (settings : Settings) (l : Learned) :
    document settings l = .record (documentFields settings l) := rfl

theorem printable_document (htitle : Utf8.wellFormed settings.title = true)
    (hcorpus : Utf8.wellFormed l.corpus.name = true)
    (hgrammar : Utf8.wellFormed l.grammar.name = true) (h : l.All Utf8.WellFormed) :
    (document settings l).Printable := by
  have hwarnings : (Json.array (l.warnings.map warningToJson)).Printable :=
    printable_map.2 fun w _ => printable_warningToJson w
  have hclasses := Partition.printable_toJson h.classes
  have hrules := Grammar.printable_toJson hgrammar h.grammar
  have hgraph := Graph.printable_toJson h.graph
  have htime : ∀ time : Moment, Utf8.wellFormed time.timestamp = true :=
    Moment.wellFormed_timestamp
  have hsummary := l.summary.printable_toJson
  rw [document_eq, documentFields]
  apply printable_record
  cases settings.generated <;> cases settings.statistics <;> cases settings.graph <;>
    simp [htitle, hcorpus, hwarnings, hclasses, hrules, hgraph, htime, hsummary]

theorem member?_document {name : String} {value : Json}
    (h : (name, value) ∈ documentFields settings l) :
    (document settings l).member? (utf8 name) = some value := by
  have hkeys : ((documentFields settings l).map Prod.fst).Nodup := by
    rw [documentFields]
    cases settings.generated <;> cases settings.statistics <;> cases settings.graph <;> simp
  exact Json.member?_record hkeys h

theorem wellFormed_of_printable_document (h : (document settings l).Printable) :
    ∀ sentence ∈ l.grammar.sentences, Phrase.All Utf8.WellFormed sentence := by
  have hgrammar : (document settings l).member? (utf8 "grammar") = some l.grammar.toJson :=
    member?_document (by simp [documentFields])
  have hsentences : l.grammar.toJson.member? (utf8 "start_strings") =
      some (Phrase.listToJson l.grammar.sentences) :=
    Json.member?_record (by simp) (by simp)
  exact Phrase.printable_listToJson.1 ((h.member hgrammar).member hsentences)

/-! ## Reports of corpora that were read -/

/-- A result of a corpus can be written exactly if the tokens of the corpus are well-formed. -/
theorem printable_document_iff {learner : Learner} {corpus : Corpus} {durations : Durations}
    (htitle : Utf8.wellFormed settings.title = true)
    (hcorpus : Utf8.wellFormed corpus.name = true) :
    (document settings { learner.learned corpus with durations := durations }).Printable ↔
      ∀ s ∈ corpus.sentences, Phrase.All Utf8.WellFormed s.tokens := by
  constructor
  · intro h s hs
    exact wellFormed_of_printable_document h _ (Grammar.mem_sentences.2 ⟨s, hs, rfl⟩)
  · intro h
    have hall : (learner.learned corpus).All Utf8.WellFormed :=
      learner.all_learned ⟨Utf8.wellFormed_utf8 _, Utf8.wellFormed_utf8 _, h⟩
    exact printable_document htitle hcorpus hcorpus ⟨hall.graph, hall.classes, hall.grammar⟩

theorem readsWellFormed_iff_sentences {format : TextFormat} {name source text : Bytes} :
    (∀ s ∈ (format.corpus name source text).sentences, Phrase.All Utf8.WellFormed s.tokens) ↔
      format.ReadsWellFormed text := by
  rw [TextFormat.ReadsWellFormed, ← TextFormat.map_tokens_sentences format source text,
    List.forall_mem_map]
  exact Iff.rfl

/-- A learner returns a result of every text that has sentences. The JSON report of the
result is written exactly if the tokens are well-formed, and otherwise a text in it is
faulty. -/
theorem returns_write {format : TextFormat} {name source text : Bytes} (learner : Learner)
    (htitle : Utf8.wellFormed settings.title = true) (hname : Utf8.wellFormed name = true)
    (hsome : (format.corpus name source text).sentences ≠ []) :
    (learner.learn (format.corpus name source text)).Returns fun learned =>
      (format.ReadsWellFormed text → ∃ content, write .json settings learned = .ok content) ∧
      (¬format.ReadsWellFormed text →
        ∃ fault, write .json settings learned = .error (.badText fault)) := by
  apply (learner.returns_learn hsome).imp
  intro learned hlearned
  obtain ⟨durations, rfl⟩ := hlearned
  have hiff : (document settings { learner.learned (format.corpus name source text) with
      durations := durations }).Printable ↔ format.ReadsWellFormed text :=
    (printable_document_iff htitle hname).trans readsWellFormed_iff_sentences
  constructor
  · intro h
    exact (Json.exists_dump_iff .indented).2 (hiff.2 h)
  · intro h
    exact Json.dump_of_not_printable (mt hiff.1 h) .indented

/-- Under every valid configuration a text with sentences is learned from, and its JSON
report is written, unless the text is read as words of lines and is not well-formed. Then
the writing fails, after all stages. -/
theorem json_report_written_unless_words_malformed {c : Configuration} (h : c.rejection? = none)
    (format : TextFormat) {name source text : Bytes} {settings : Settings}
    (hname : Utf8.wellFormed name = true) (htitle : Utf8.wellFormed settings.title = true)
    (hsome : (format.corpus name source text).sentences ≠ []) :
    ∃ learner, c.learner? = .ok learner ∧
      (learner.learn (format.corpus name source text)).Returns fun learned =>
        ((format = ⟨.line, .word⟩ → Utf8.wellFormed text = true) →
          ∃ content, write .json settings learned = .ok content) ∧
        (format = ⟨.line, .word⟩ → Utf8.wellFormed text = false →
          ∃ fault, write .json settings learned = .error (.badText fault)) := by
  obtain ⟨learner, hlearner, -⟩ := Configuration.exists_learner h
  refine ⟨learner, hlearner, ?_⟩
  apply (returns_write learner htitle hname hsome).imp
  intro learned hlearned
  rw [TextFormat.readsWellFormed_iff] at hlearned
  refine ⟨hlearned.1, fun hformat hmalformed => hlearned.2 fun hwellFormed => ?_⟩
  rw [hwellFormed hformat] at hmalformed
  cases hmalformed

/-- Two words, the second of which starts with a byte that starts no character. -/
def strayByte : Bytes := [0x61, 0x20, 0xff, 0x62]

/-- In prose the byte is dropped. -/
theorem strayByte_reported_in_prose :
    (TextFormat.corpus ⟨.period, .word⟩ (utf8 "t") (utf8 "t") strayByte).sentences ≠ [] ∧
    ∃ learner, ({} : Configuration).learner? = .ok learner ∧
      (learner.learn (TextFormat.corpus ⟨.period, .word⟩ (utf8 "t") (utf8 "t")
        strayByte)).Returns fun learned => ∃ content, write .json {} learned = .ok content := by
  have hvalid : ({} : Configuration).rejection? = none := by decide
  have hsome : (TextFormat.corpus ⟨.period, .word⟩ (utf8 "t") (utf8 "t")
      strayByte).sentences ≠ [] := by decide
  have htitle : Utf8.wellFormed ({} : Settings).title = true := Utf8.wellFormed_utf8 _
  have hprose : (⟨.period, .word⟩ : TextFormat) ≠ ⟨.line, .word⟩ := by decide
  obtain ⟨learner, hlearner, hreturns⟩ := json_report_written_unless_words_malformed hvalid
    ⟨.period, .word⟩ (Utf8.wellFormed_utf8 "t") htitle hsome
  exact ⟨hsome, learner, hlearner,
    hreturns.imp fun learned hlearned => hlearned.1 fun hlines => absurd hlines hprose⟩

theorem strayByte_not_reported_in_lines :
    (TextFormat.corpus ⟨.line, .word⟩ (utf8 "t") (utf8 "t") strayByte).sentences ≠ [] ∧
    ∃ learner, ({} : Configuration).learner? = .ok learner ∧
      (learner.learn (TextFormat.corpus ⟨.line, .word⟩ (utf8 "t") (utf8 "t")
        strayByte)).Returns fun learned =>
          ∃ fault, write .json {} learned = .error (.badText fault) := by
  have hvalid : ({} : Configuration).rejection? = none := by decide
  have hsome : (TextFormat.corpus ⟨.line, .word⟩ (utf8 "t") (utf8 "t")
      strayByte).sentences ≠ [] := by decide
  have hmalformed : ¬TextFormat.ReadsWellFormed ⟨.line, .word⟩ strayByte := by
    rw [TextFormat.readsWellFormed_iff, ← Utf8.fault?_eq_none_iff]
    decide
  have htitle : Utf8.wellFormed ({} : Settings).title = true := Utf8.wellFormed_utf8 _
  obtain ⟨learner, hlearner, -⟩ := Configuration.exists_learner hvalid
  have hreturns := returns_write learner htitle (Utf8.wellFormed_utf8 "t") hsome
  exact ⟨hsome, learner, hlearner, hreturns.imp fun learned hlearned => hlearned.2 hmalformed⟩

end Report

end Substitutability
