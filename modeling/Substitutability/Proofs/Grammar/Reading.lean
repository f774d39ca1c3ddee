import Mathlib.Computability.ContextFreeGrammar
import Substitutability.Grammar.Basic
import Substitutability.Context

/-!
# Grammars read as context-free grammars

The start symbol yields the sentences and, for each pattern, the class between what
stands before and after it, without the markers. A class yields its members of one
token and its decompositions. All fragments count, productive or not.
-/

set_option autoImplicit false

namespace Substitutability

inductive Nonterminal
  | start
  | ofClass (index : Nat)
  deriving DecidableEq

abbrev Rule := ContextFreeRule Bytes Nonterminal

def Phrase.terminals (phrase : Phrase) : List (Symbol Bytes Nonterminal) :=
  phrase.map .terminal

theorem Phrase.terminals_append (u v : Phrase) : (u ++ v).terminals = u.terminals ++ v.terminals :=
  List.map_append

namespace Pattern

/-- What stands between the markers and the class; nothing if a marker is missing. -/
def inner? (p : Pattern) : Option (Phrase × Phrase) :=
  if p.left.head? = some startMarker ∧ p.right.getLast? = some endMarker then
    some (p.left.tail, p.right.dropLast)
  else none

theorem inner?_eq_some {p : Pattern} {l r : Phrase} :
    p.inner? = some (l, r) ↔ p.left = startMarker :: l ∧ p.right = r ++ [endMarker] := by
  unfold inner?
  split
  · rename_i h
    obtain ⟨left, hleft⟩ := List.head?_eq_some_iff.1 h.1
    obtain ⟨right, hright⟩ := List.getLast?_eq_some_iff.1 h.2
    simp [hleft, hright]
  · rename_i h
    simp only [reduceCtorEq, false_iff]
    rintro ⟨hleft, hright⟩
    exact h (by simp [hleft, hright])

def rule? (p : Pattern) : Option Rule :=
  p.inner?.map fun (l, r) =>
    ⟨.start, Phrase.terminals l ++ [.nonterminal (.ofClass p.index)] ++ Phrase.terminals r⟩

end Pattern

def Decomposition.output (d : Decomposition) : List (Symbol Bytes Nonterminal) :=
  [.nonterminal (.ofClass d.left), .nonterminal (.ofClass d.right)]

def Fragment.rules (f : Fragment) : List Rule :=
  f.patterns.toList.filterMap Pattern.rule? ++
    f.tokens.toList.map (fun token => ⟨.ofClass f.index, [.terminal token]⟩) ++
      f.decompositions.toList.map fun d => ⟨.ofClass f.index, d.output⟩

namespace Grammar

def rules (g : Grammar) : List Rule :=
  g.sentences.map (fun sentence => ⟨.start, Phrase.terminals sentence⟩) ++
    g.fragments.flatMap Fragment.rules

theorem mem_rules {g : Grammar} {rule : Rule} :
    rule ∈ g.rules ↔ (∃ sentence ∈ g.sentences, rule = ⟨.start, Phrase.terminals sentence⟩) ∨
      ∃ f ∈ g.fragments, (∃ pattern ∈ f.patterns, pattern.rule? = some rule) ∨
        (∃ token ∈ f.tokens, rule = ⟨.ofClass f.index, [.terminal token]⟩) ∨
          ∃ d ∈ f.decompositions, rule = ⟨.ofClass f.index, d.output⟩ := by
  simp only [rules, Fragment.rules, List.mem_append, List.mem_flatMap, List.mem_map,
    List.mem_filterMap, or_assoc, eq_comm (a := rule)]
  rfl

def toContextFree (g : Grammar) : ContextFreeGrammar Bytes :=
  ⟨Nonterminal, .start, g.rules.toFinset⟩

theorem produces_of_mem_rules {g : Grammar} {rule : Rule} (h : rule ∈ g.rules) :
    g.toContextFree.Produces [.nonterminal rule.input] rule.output := by
  have hrule : rule ∈ g.rules.toFinset := List.mem_toFinset.2 h
  exact ⟨rule, hrule, ContextFreeRule.Rewrites.input_output⟩

section Steps

variable {g : Grammar} {f : Fragment}

theorem produces_sentence {sentence : Phrase} (h : sentence ∈ g.sentences) :
    g.toContextFree.Produces [.nonterminal .start] sentence.terminals := by
  have hrule : (⟨.start, sentence.terminals⟩ : Rule) ∈ g.rules :=
    mem_rules.2 (.inl ⟨sentence, h, rfl⟩)
  exact produces_of_mem_rules hrule

theorem produces_pattern (hf : f ∈ g.fragments) {pattern : Pattern} (h : pattern ∈ f.patterns)
    {l r : Phrase} (hinner : pattern.inner? = some (l, r)) :
    g.toContextFree.Produces [.nonterminal .start]
      (l.terminals ++ [.nonterminal (.ofClass pattern.index)] ++ r.terminals) := by
  have hrule : pattern.rule? =
      some ⟨.start, l.terminals ++ [.nonterminal (.ofClass pattern.index)] ++ r.terminals⟩ := by
    rw [Pattern.rule?, hinner, Option.map_some]
  exact produces_of_mem_rules (mem_rules.2 (.inr ⟨f, hf, .inl ⟨pattern, h, hrule⟩⟩))

theorem produces_token (hf : f ∈ g.fragments) {token : Bytes} (h : token ∈ f.tokens) :
    g.toContextFree.Produces [.nonterminal (.ofClass f.index)] [.terminal token] := by
  have hrule : (⟨.ofClass f.index, [.terminal token]⟩ : Rule) ∈ g.rules :=
    mem_rules.2 (.inr ⟨f, hf, .inr (.inl ⟨token, h, rfl⟩)⟩)
  exact produces_of_mem_rules hrule

theorem produces_decomposition (hf : f ∈ g.fragments) {d : Decomposition}
    (h : d ∈ f.decompositions) :
    g.toContextFree.Produces [.nonterminal (.ofClass f.index)] d.output := by
  have hrule : (⟨.ofClass f.index, d.output⟩ : Rule) ∈ g.rules :=
    mem_rules.2 (.inr ⟨f, hf, .inr (.inr ⟨d, h, rfl⟩)⟩)
  exact produces_of_mem_rules hrule

end Steps

end Grammar

end Substitutability
