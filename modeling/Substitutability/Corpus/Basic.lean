import Substitutability.Context
import Substitutability.Failure
import Substitutability.Number.Basic

/-!
# Corpora

A corpus is a list of sentences in the order in which they were read, with the
separator that its phrases are shown with. In a text, a segmentation cuts out
trimmed segments, and a granularity cuts a segment into tokens. Lines keep every
byte; prose keeps letters, periods and blanks and ends a sentence at each
period. Two sample corpora are built in: a toy grammar of characters, and a few
sentences of words in which nouns and adverbs can stand for each other.
-/

set_option autoImplicit false

namespace Substitutability

structure Sentence where
  tokens : Phrase
  source : Bytes
  segment : Nat
  deriving DecidableEq, Repr

structure Corpus where
  name : Bytes
  sentences : List Sentence
  separator : Bytes
  deriving DecidableEq, Repr

namespace Corpus

def size (corpus : Corpus) : Nat :=
  corpus.sentences.length

def tokenCount (corpus : Corpus) : Nat :=
  total (corpus.sentences.map fun sentence => sentence.tokens.length)

/-- The sentences of a source from the tokens of its segments; a segment without
tokens is no sentence but keeps its number. -/
def number (source : Bytes) (segments : List Phrase) : List Sentence :=
  segments.zipIdx.filterMap fun (tokens, segment) =>
    if tokens = [] then none else some ⟨tokens, source, segment⟩

def ofPhrases (name : Bytes) (phrases : List Phrase) (separator : Bytes) : Corpus :=
  ⟨name, number name phrases, separator⟩

end Corpus

inductive Segmentation
  | line
  | period
  deriving DecidableEq, Repr

namespace Segmentation

def name : Segmentation → Bytes
  | .line => utf8 "line"
  | .period => utf8 "period"

def ofName (name : Bytes) : Except ConfigurationFault Segmentation :=
  if name = utf8 "line" then .ok .line
  else if name = utf8 "period" then .ok .period
  else .error (.unknownSegmentation name)

def separator : Segmentation → UInt8
  | .line => Bytes.newline
  | .period => 46

def isProse (b : UInt8) : Bool :=
  Bytes.isLetter b || Bytes.isBlank b || b == 46

def kept (segmentation : Segmentation) (text : Bytes) : Bytes :=
  match segmentation with
  | .line => text
  | .period => text.filter isProse

def segments (segmentation : Segmentation) (text : Bytes) : List Bytes :=
  ((Bytes.splitOn segmentation.separator (segmentation.kept text)).map Bytes.trim).filter
    (!·.isEmpty)

end Segmentation

inductive Granularity
  | word
  | character
  deriving DecidableEq, Repr

namespace Granularity

def name : Granularity → Bytes
  | .word => utf8 "word"
  | .character => utf8 "character"

/-- Names are read without regard to case. -/
def ofName (name : Bytes) : Except ConfigurationFault Granularity :=
  let lowered := Bytes.lower name
  if lowered = utf8 "word" ∨ lowered = utf8 "words" then .ok .word
  else if lowered = utf8 "character" ∨ lowered = utf8 "char" ∨ lowered = utf8 "chars" then
    .ok .character
  else .error (.unknownGranularity name)

def separator : Granularity → Bytes
  | .word => [Bytes.space]
  | .character => []

def isBlankToken : Bytes → Bool
  | [b] => Bytes.isBlank b
  | _ => false

def tokens (granularity : Granularity) (segment : Bytes) : Phrase :=
  match granularity with
  | .word => Bytes.words segment
  | .character => (Utf8.characters segment).filter (!isBlankToken ·)

end Granularity

structure TextFormat where
  segmentation : Segmentation
  granularity : Granularity
  deriving DecidableEq, Repr

namespace TextFormat

def ofParts : Option Segmentation → Granularity → Except ConfigurationFault TextFormat
  | some segmentation, granularity => .ok ⟨segmentation, granularity⟩
  | none, _ => .error .noSegmentation

def ofNames (segmentation granularity : Bytes) : Except ConfigurationFault TextFormat := do
  let segmentation ← Segmentation.ofName segmentation
  let granularity ← Granularity.ofName granularity
  return ⟨segmentation, granularity⟩

def sentences (format : TextFormat) (source text : Bytes) : List Sentence :=
  Corpus.number source ((format.segmentation.segments text).map format.granularity.tokens)

def corpus (format : TextFormat) (name source text : Bytes) : Corpus :=
  ⟨name, format.sentences source text, format.granularity.separator⟩

end TextFormat

end Substitutability

namespace Substitutability.Corpus

def toyGrammar : Corpus :=
  TextFormat.corpus ⟨.line, .character⟩ (utf8 "SG_1") (utf8 "SG_1")
    (utf8 "abbcbba\nabcba\naacaa\naaacaaa\nbbbcbbb\n")

def dogsAndCats : Corpus :=
  ofPhrases (utf8 "SG_2")
    [["the", "dog", "ran"].map utf8,
      ["the", "cat", "ran"].map utf8,
      ["the", "cat", "quickly", "walked"].map utf8,
      ["the", "cat", "slowly", "walked"].map utf8]
    [Bytes.space]

def samples : List Corpus :=
  [toyGrammar, dogsAndCats]

end Substitutability.Corpus
