import AutoCool.BitSet
import AutoCool.Grammar.First

/-!
# Numbered productions

The automaton of a grammar works on its productions by number, the productions of a nonterminal next
to each other. For every place of a right side where a nonterminal is expected, `Spread` tells which
lookaheads its productions get there: those that the rest of the right side begins with, and the
lookaheads of the item itself when the rest can be empty.
-/

namespace AutoCool.LR1

/-- What is expected at a place before a nonterminal: the nonterminal, the terminals that the rest
after it begins with, and whether the rest can be empty. Symbols are given by their numbers. There
is a fault when it cannot be told what the rest begins with. -/
structure Spread where
  target : Nat
  begins : BitSet
  passes : Bool
  fault : Option GrammarError := none
deriving DecidableEq, Repr

/-- What stands at a place of a right side beyond which no item gets. -/
inductive Obstacle
  /-- Something before which no item can stand. -/
  | wall (e : GrammarError)
  /-- Nothing, which no table has a row for. -/
  | gap
  /-- The empty word. No state moves over it, but it goes where its name leads. -/
  | epsilon
deriving DecidableEq, Repr

/-- A production with its symbols up to the first obstacle and, for each of them, the spread at its
place if it is a nonterminal. -/
structure Rule (ρ : Type) where
  production : Production ρ
  symbols : List Symbol
  spreads : List (Option Spread)
  obstacle : Option Obstacle := none

namespace Rule

variable {ρ : Type}

def next? (r : Rule ρ) (dot : Nat) : Option Symbol := r.symbols[dot]?

def spread? (r : Rule ρ) (dot : Nat) : Option Spread := (r.spreads[dot]?).join

def fault? (r : Rule ρ) (dot : Nat) (ahead : BitSet) : Option GrammarError :=
  if dot < r.symbols.length then
    if ahead.isEmpty then none else (r.spread? dot).bind (·.fault)
  else
    match r.obstacle with
    | some (.wall e) => some e
    | some .gap | some .epsilon | none => none

end Rule

variable {ρ : Type}

def readParts : List (Term ρ) → List Symbol × Option Obstacle
  | [] => ([], none)
  | .symbol s :: rest => ((readParts rest).map (s :: ·) id)
  | .epsilon :: _ => ([], some .epsilon)
  | .value .nothing :: _ => ([], some .gap)
  | _ :: _ => ([], some (.wall .notASymbol))

/-- The parts of a right side, or why it cannot be read at all: it has no place in a table, or it
has no parts that can be counted. -/
def partsOf : Body ρ → Except GrammarError (List (Term ρ))
  | .epsilon => .ok []
  | .sentence symbols => .ok (symbols.map .symbol)
  | .stray (.choice _) => .error .wrongOperand
  | .stray t => if t.isKey then t.elements else .error .wrongOperand

def spreadOf (firsts : FirstTable ρ) (s : Symbol) (rest : List (Term ρ)) : Option Spread :=
  if s.isNonterminal then
    match firsts.parts rest with
    | .ok first =>
      some { target := s.id, begins := BitSet.ofList (first.items.map (·.id)), passes :=
        first.epsilon }
    | .error e => some { target := s.id, begins := BitSet.empty, passes := false, fault := some e }
  else none

def spreadsOf (firsts : FirstTable ρ) : List (Term ρ) → List (Option Spread)
  | .symbol s :: rest => spreadOf firsts s rest :: spreadsOf firsts rest
  | _ => []

def ruleOf (firsts : FirstTable ρ) (p : Production ρ) : Rule ρ :=
  match partsOf p.body with
  | .ok parts =>
    let (symbols, obstacle) := readParts parts
    { production := p, symbols, spreads := spreadsOf firsts parts, obstacle }
  | .error e => { production := p, symbols := [], spreads := [], obstacle := some (.wall e) }

/-- The rules of a grammar, nonterminal by nonterminal. The end mark begins with itself. -/
def rulesOf (g : Grammar ρ) : Except GrammarError (Array (Rule ρ)) := do
  let firsts ← g.firsts
  let firsts := { firsts with symbols := firsts.symbols ++ [(g.endMark, { items := [g.endMark] })] }
  return ((g.nonterminals.flatMap g.productionsOf).map (ruleOf firsts)).toArray

end AutoCool.LR1
