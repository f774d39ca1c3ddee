import Mathlib.Computability.ContextFreeGrammar

/-!
# Languages, congruence and grammars

A language is substitutable when two of its parts that share one context share all
of them; they are then congruent. A grammar whose rules hold in languages chosen
for its nonterminals generates a part of the language of its initial symbol.
-/

set_option autoImplicit false

namespace Substitutability

/-! ## Congruence -/

section Congruence

variable {T : Type} {L : Language T} {u v w : List T}

/-- Non-empty words with a common context have all their contexts in common. -/
def Substitutable (L : Language T) : Prop :=
  ∀ u v l r l' r' : List T, u ≠ [] → v ≠ [] → l ++ u ++ r ∈ L → l ++ v ++ r ∈ L →
    l' ++ u ++ r' ∈ L → l' ++ v ++ r' ∈ L

/-- The one word may stand wherever the other may. -/
def Congruent (L : Language T) (u v : List T) : Prop :=
  ∀ l r, l ++ u ++ r ∈ L ↔ l ++ v ++ r ∈ L

namespace Congruent

theorem refl (u : List T) : Congruent L u u :=
  fun _ _ => Iff.rfl

theorem trans (huv : Congruent L u v) (hvw : Congruent L v w) : Congruent L u w :=
  fun l r => (huv l r).trans (hvw l r)

theorem append {u' v' : List T} (h : Congruent L u v) (h' : Congruent L u' v') :
    Congruent L (u ++ u') (v ++ v') := by
  intro l r
  have hfirst : l ++ (u ++ u') ++ r ∈ L ↔ l ++ (v ++ u') ++ r ∈ L := by
    simpa using h l (u' ++ r)
  have hsecond : l ++ (v ++ u') ++ r ∈ L ↔ l ++ (v ++ v') ++ r ∈ L := by
    simpa using h' (l ++ v) r
  exact hfirst.trans hsecond

end Congruent

theorem Substitutable.congruent (h : Substitutable L) (hu : u ≠ []) (hv : v ≠ [])
    {l r : List T} (hlu : l ++ u ++ r ∈ L) (hlv : l ++ v ++ r ∈ L) : Congruent L u v := by
  intro l' r'
  constructor
  · exact h u v l r l' r' hu hv hlu hlv
  · exact h v u l r l' r' hv hu hlv hlu

end Congruence

/-! ## Models of a context-free grammar -/

namespace ContextFree

section Value

variable {T N : Type} {m : N → Language T}

/-- The words of a symbol when each nonterminal stands for a language. -/
def symbolValue (m : N → Language T) : Symbol T N → Language T
  | .terminal a => {[a]}
  | .nonterminal n => m n

def value (m : N → Language T) (symbols : List (Symbol T N)) : Language T :=
  (symbols.map (symbolValue m)).prod

theorem value_append (u v : List (Symbol T N)) : value m (u ++ v) = value m u * value m v := by
  rw [value, List.map_append, List.prod_append]
  rfl

theorem value_nonterminal (n : N) : value m [.nonterminal n] = m n := by
  simp [value, symbolValue]

theorem value_terminals (w : List T) : value m (w.map .terminal) = {w} := by
  induction w with
  | nil => rfl
  | cons a w ih =>
    ext x
    show x ∈ ({[a]} : Language T) * value m (w.map .terminal) ↔ x ∈ ({a :: w} : Language T)
    rw [ih, Language.mem_mul]
    constructor
    · rintro ⟨_, rfl, _, rfl, rfl⟩
      rfl
    · rintro rfl
      exact ⟨[a], rfl, w, rfl, rfl⟩

end Value

theorem derives_append {T : Type} {g : ContextFreeGrammar T} {u u' v v' : List (Symbol T g.NT)}
    (h : g.Derives u u') (h' : g.Derives v v') : g.Derives (u ++ v) (u' ++ v') :=
  (h.append_right v).trans (h'.append_left u')

section Model

variable {T : Type} {g : ContextFreeGrammar T} {m : g.NT → Language T}

/-- Each nonterminal has the words that its rules yield. -/
def IsModel (g : ContextFreeGrammar T) (m : g.NT → Language T) : Prop :=
  ∀ r ∈ g.rules, ∀ w ∈ value m r.output, w ∈ m r.input

namespace IsModel

theorem produces (h : IsModel g m) {u v : List (Symbol T g.NT)} (hstep : g.Produces u v)
    {w : List T} (hw : w ∈ value m v) : w ∈ value m u := by
  obtain ⟨r, hr, hrewrites⟩ := hstep
  obtain ⟨p, q, rfl, rfl⟩ := hrewrites.exists_parts
  simp only [value_append, value_nonterminal] at hw ⊢
  obtain ⟨_, ⟨x, hx, y, hy, rfl⟩, z, hz, rfl⟩ := hw
  exact ⟨_, ⟨x, hx, y, h r hr y hy, rfl⟩, z, hz, rfl⟩

theorem derives (h : IsModel g m) {u v : List (Symbol T g.NT)} (hpath : g.Derives u v)
    {w : List T} (hw : w ∈ value m v) : w ∈ value m u := by
  induction hpath with
  | refl => exact hw
  | tail _ hstep ih => exact ih (h.produces hstep hw)

theorem mem_initial (h : IsModel g m) {w : List T} (hw : w ∈ g.language) : w ∈ m g.initial := by
  have hself : w ∈ value m (w.map .terminal) := by
    rw [value_terminals]
    rfl
  rw [← value_nonterminal (m := m)]
  exact h.derives hw hself

end IsModel

end Model

end ContextFree

end Substitutability
