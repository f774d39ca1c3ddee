import Substitutability.ContextSet
import Substitutability.Corpus.Basic
import Substitutability.Failure
import Substitutability.Number.Basic

/-!
# Extraction of contexts

A length policy is a pair of inclusive bounds on the number of tokens of a
phrase. Without a maximum every phrase shorter than its sentence is allowed; a
whole sentence never is. An extractor walks over every span of every sentence
that its policy accepts and records the phrase of the span in its context. With
width 0 a context is the rest of the sentence; with width `k` it is the `k`
nearest tokens on each side, and a marker where the window reaches the edge.
-/

set_option autoImplicit false

namespace Substitutability

structure LengthPolicy where
  minimum : Int32 := 1
  maximum : Option Int32 := none
  deriving DecidableEq, Repr

namespace LengthPolicy

def fault? (policy : LengthPolicy) : Option ConfigurationFault :=
  if policy.minimum.toInt ≤ 0 then some (.minimumLength policy.minimum)
  else match policy.maximum with
    | none => none
    | some maximum =>
      if maximum.toInt ≤ 0 then some (.maximumLength maximum)
      else if maximum.toInt < policy.minimum.toInt then
        some (.crossedLengths policy.minimum maximum)
      else none

def bound (n : Int32) : Nat :=
  unsignedWord n.toInt

def accepts (policy : LengthPolicy) (length sentenceLength : Nat) : Bool :=
  0 < length && length < sentenceLength && bound policy.minimum ≤ length &&
    match policy.maximum with
    | none => true
    | some maximum => length ≤ bound maximum

end LengthPolicy

structure Span where
  start : Nat
  stop : Nat
  deriving DecidableEq, Repr

def Span.phrase (span : Span) (tokens : Phrase) : Phrase :=
  (tokens.take span.stop).drop span.start

def contextAt (width : Nat) (tokens : Phrase) (span : Span) : Context :=
  let first := if width = 0 then 0 else span.start - width
  let last := if width = 0 then tokens.length else min tokens.length (span.stop + width)
  { left := (if first = 0 then [startMarker] else []) ++ (tokens.take span.start).drop first
    right := (tokens.take last).drop span.stop ++ (if last = tokens.length then [endMarker] else []) }

structure Extractor where
  policy : LengthPolicy
  width : Int32
  policy_valid : policy.fault? = none
  width_nonneg : 0 ≤ width.toInt

namespace Extractor

def make (policy : LengthPolicy) (width : Int32) : Except ConfigurationFault Extractor :=
  match h : policy.fault? with
  | some fault => .error fault
  | none =>
    if hw : 0 ≤ width.toInt then .ok ⟨policy, width, h, hw⟩
    else .error (.contextWidth width)

def contextAt (extractor : Extractor) (tokens : Phrase) (span : Span) : Context :=
  Substitutability.contextAt extractor.width.toInt.toNat tokens span

def lengths (extractor : Extractor) (n : Nat) : List Nat :=
  (List.range' 1 (n - 1)).filter fun length => extractor.policy.accepts length n

/-- The accepted spans, by length and then by start. -/
def spans (extractor : Extractor) (n : Nat) : List Span :=
  (extractor.lengths n).flatMap fun length =>
    (List.range (n - length + 1)).map fun start => ⟨start, start + length⟩

structure Observation where
  phrase : Phrase
  context : Context
  occurrence : Occurrence
  deriving DecidableEq, Repr

def observe (extractor : Extractor) (sentence : Nat) (tokens : Phrase) : List Observation :=
  (extractor.spans tokens.length).map fun span =>
    ⟨span.phrase tokens, extractor.contextAt tokens span, ⟨sentence, span.start, span.stop⟩⟩

def observations (extractor : Extractor) (sentences : List Sentence) : List Observation :=
  sentences.zipIdx.flatMap fun (sentence, index) => extractor.observe index sentence.tokens

def record (s : ContextSet) (observation : Observation) : ContextSet :=
  s.add observation.phrase observation.context observation.occurrence

def extract (extractor : Extractor) (sentences : List Sentence) : ContextSet :=
  (extractor.observations sentences).foldl record ContextSet.empty

end Extractor

end Substitutability
