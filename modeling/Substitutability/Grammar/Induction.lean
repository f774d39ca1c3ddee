import Substitutability.Extraction
import Substitutability.Grammar.Basic

/-!
# Induction of a grammar

Every accepted span of the corpus whose phrase belongs to a class is a sighting
of that class in a context. The rules of a class come from its members: a member
of one token, and each split of a longer member into two members of classes.
-/

set_option autoImplicit false

namespace Substitutability.Grammar

def sightings (extractor : Extractor) (p : Partition) (tokens : Phrase) : List Pattern :=
  (extractor.spans tokens.length).filterMap fun span =>
    (p.classOf? (span.phrase tokens)).map fun index =>
      let context := extractor.contextAt tokens span
      ⟨context.left, index, context.right⟩

def allSightings (extractor : Extractor) (p : Partition) (sentences : List Sentence) :
    List Pattern :=
  sentences.flatMap fun sentence => sightings extractor p sentence.tokens

def singleTokens (members : List Phrase) : List Bytes :=
  members.filterMap fun
    | [token] => some token
    | _ => none

def splits (p : Partition) (member : Phrase) : List Decomposition :=
  (List.range' 1 (member.length - 1)).filterMap fun cut => do
    let left ← p.classOf? (member.take cut)
    let right ← p.classOf? (member.drop cut)
    some ⟨left, right⟩

def fragmentOf (p : Partition) (seen : List Pattern) (least : Nat) (c : CongruenceClass) :
    Fragment :=
  let own := seen.filter (·.index == c.index)
  let patterns := SortedSet.ofList own
  { index := c.index
    members := c.members
    patterns := patterns
    tokens := SortedSet.ofList (singleTokens c.members)
    decompositions := SortedSet.ofList (c.members.flatMap (splits p))
    occurrences := own.length
    productive := decide (least ≤ patterns.toList.length) }

def distinct (phrases : List Phrase) : List Phrase :=
  phrases.foldl (fun kept phrase => if phrase ∈ kept then kept else kept ++ [phrase]) []

/-- The grammar of a corpus and a partition; a class is productive if it has at
least so many contexts. -/
def induce (extractor : Extractor) (least : Nat) (corpus : Corpus) (p : Partition) : Grammar :=
  let seen := allSightings extractor p corpus.sentences
  { name := corpus.name
    alphabet := SortedSet.ofList (p.classes.flatMap fun c => c.members.flatten)
    sentences := distinct (corpus.sentences.map Sentence.tokens)
    fragments := p.classes.map (fragmentOf p seen least) }

def induceChecked (extractor : Extractor) (least : UInt64) (corpus : Corpus) (p : Partition) :
    Except ConfigurationFault Grammar :=
  if least = 0 then .error .noObservations
  else .ok (induce extractor least.toNat corpus p)

end Substitutability.Grammar
