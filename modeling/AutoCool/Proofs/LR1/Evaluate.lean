import AutoCool.Proofs.LR1.Construction
import AutoCool.Proofs.LR1.Run

/-!
# Evaluating the parser of a given grammar

The states of a parser are numbered by a walk that ends because fewer and fewer states are new, and
a run ends when it ends. Neither can be evaluated as it stands. For the walk there is `Graph.walk`.
`Parser.runWithin` is a run with a bound on its steps, whose results are those of the run
(`Parser.run_of_runWithin`). With them the parser of a given grammar is evaluated by rewriting with
`Graph.preorder_eq_walk`.

The grammar of nested pairs, `Sample.nested`, is one whose parser has no conflicts.
-/

namespace AutoCool

namespace LR1.Parser

variable {ρ : Type} {p : Parser ρ}

/-- A run of fewer than `n` steps before the last one. -/
def runWithin (p : Parser ρ) : Nat → Configuration → Option Step
  | 0, _ => none
  | n + 1, c =>
    match p.step c with
    | .next c => p.runWithin n c
    | s => some s

theorem run_of_runWithin (h : p.runWithin n c = some s) : p.run c = some s := by
  induction n generalizing c with
  | zero => cases h
  | succ n ih =>
    rw [runWithin] at h
    rw [run_eq]
    cases hstep : p.step c with
    | next c' =>
      rw [hstep] at h
      exact ih h
    | accept _ | fail _ | overrun =>
      rw [hstep] at h
      exact h

theorem mem_toOption (hp : ofGrammar g = .ok p) : p ∈ (ofGrammar g).toOption := by
  rw [hp]
  rfl

end LR1.Parser

/-! ### Nested pairs -/

namespace Sample

open LR1

def S : Symbol := { id := 1, name := "S", kind := .nonterminal }

def a : Symbol := { id := 2, name := "a", kind := .terminal }

def b : Symbol := { id := 3, name := "b", kind := .terminal }

/-- A token of a given type. -/
def token (s : Symbol) : Token := { type := s, lexeme := .text s.name }

/-- The tokens of some types and the one that ends the input. -/
def tokens (types : List Symbol) : List Token := types.map token ++ [.ofEndMark (.endMark 0)]

/-- The grammar `S → ε | a S b`. -/
def nested : Grammar Unit :=
  let g := ((({} : Grammar Unit).pushStart "S").2.terminalsOf "a b").2
  ((g.extend S .epsilon).1.extend S (.sentence [.symbol a, .symbol S, .symbol b])).1

theorem nested_built : nested.Built :=
  .extend (.extend (.terminals .start) (by decide) rfl) (by decide) rfl

theorem nested_proper : nested.Proper S where
  built := nested_built
  plain := by decide
  names_nodup := by decide
  start_eq := rfl

theorem nested_isLR1 : ∀ p ∈ (Parser.ofGrammar nested).toOption, p.isLR1 = true := by
  simp only [Parser.ofGrammar, renumber, Automaton.visit, Graph.preorder_eq_walk]
  decide +kernel

theorem nested_rightDerives :
    nested.RightDerives [S] [{ head := S, body := .sentence [a, S, b] },
      { head := S, body := .epsilon }]
      [a, b] :=
  .step (p := { head := S, body := .sentence [a, S, b] }) (u := []) (v := [])
    ⟨.tail _ (.head _), rfl⟩ (by simp)
    (.step (p := { head := S, body := .epsilon }) (u := [a]) (v := [b]) ⟨.head _, rfl⟩ (by decide)
      (.refl _))

theorem nested_generates : ∀ s ∈ nested.nonterminals, ∃ x, nested.Generates s x := by
  intro s hs
  obtain rfl : s = S := List.mem_singleton.mp hs
  exact ⟨[a, b], by decide, _, nested_rightDerives⟩

end Sample

end AutoCool
