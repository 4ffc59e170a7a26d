import AutoCool.Iteration
import AutoCool.LR1.Table
import AutoCool.Token

/-!
# The shift-reduce parser

A parser holds the automaton of a grammar and its tables. It works on configurations: a stack of
states and the tokens that remain. `Parser.step` is one step of it, `Parser.run` goes on to the end,
and `Parser.parse` runs it on an input.
-/

namespace AutoCool.LR1

structure Parser (ρ : Type) where
  grammar : Grammar ρ
  rules : Array (Rule ρ)
  automaton : Automaton (List Item)
  rows : Array Rows

inductive Operation
  | shift
  | reduce
  /-- No step of a parser, but something that a record of steps can hold. -/
  | other (name : String)
deriving DecidableEq, Repr

/-- What a parser knows while it runs: the states it has passed, the present one first, the tokens
that remain, and what it has done, the last thing first. -/
structure Configuration where
  stack : List Nat := [0]
  rest : List Token
  output : List Nat := []
  operations : List Operation := []
deriving DecidableEq

inductive Step
  | next (c : Configuration)
  | accept (c : Configuration)
  | fail (c : Configuration)
  | overrun
deriving DecidableEq

def Step.proceed : Step → Configuration ⊕ Step
  | .next c => .inl c
  | s => .inr s

namespace Parser

variable {ρ : Type}

def ofGrammar (g : Grammar ρ) : Except GrammarError (Parser ρ) := do
  let g ← g.augmented true
  let rules ← rulesOf g
  let setting : Setting ρ :=
    { rules, edges := edgesOf rules, symbols := g.terminals ++ g.nonterminals, size := g.nextId }
  let first : Item := { rule := 0, dot := 0, ahead := BitSet.singleton g.endMark.id }
  let found := setting.search first
  if let some e := setting.fault? found then throw e
  let automaton := renumber found.automaton
  let rows ← automaton.states.mapM (rowsOf g rules)
  return { grammar := g, rules, automaton, rows }

def isLR1 (p : Parser ρ) : Bool := p.rows.all (·.single)

def action? (p : Parser ρ) (state : Nat) (ahead : Symbol) : Option Action :=
  (p.rows[state]?).bind (·.action.first? ahead)

def goto? (p : Parser ρ) (state : Nat) (head : Symbol) : Option Nat :=
  (p.rows[state]?).bind (·.goto.first? head)

def reduce (p : Parser ρ) (c : Configuration) (rule : Nat) : Step :=
  match p.rules[rule]? with
  | none => .fail c
  | some r =>
    let stack := c.stack.drop r.symbols.length
    match stack.head?.bind (p.goto? · r.production.head) with
    | none => .fail { c with stack }
    | some target =>
      .next { c with
        stack := target :: stack
        output := rule :: c.output
        operations := .reduce :: c.operations }

def step (p : Parser ρ) (c : Configuration) : Step :=
  match c.rest with
  | [] => .overrun
  | token :: rest =>
    match c.stack.head?.bind (p.action? · token.type) with
    | none => .fail c
    | some (.shift target) =>
      .next { c with stack := target :: c.stack, rest, operations := .shift :: c.operations }
    | some (.reduce rule) => p.reduce c rule
    | some .accept => .accept c

/-- Steps until the input is accepted, rejected or used up. Without a result the steps go on for
ever. -/
def run (p : Parser ρ) (c : Configuration) : Option Step :=
  Iteration.untilDone (fun c => (p.step c).proceed) c

def passes (p : Parser ρ) (c : Configuration) : Option (List Configuration) :=
  Iteration.untilDone (fun (c, before) =>
    match p.step c with
    | .next c' => .inl (c', c :: before)
    | _ => .inr (c :: before).reverse) (c, [])

/-- The outcome of a parse: the productions of the reductions and the steps in order, or the
configuration in which there was nothing to do, or that the input was used up, or that the steps go
on for ever. -/
inductive Outcome (ρ : Type)
  | accepted (output : List (Production ρ)) (operations : List Operation)
  | rejected (stack : List Nat) (rest : List Token)
  | overrun
  | endless

def parse (p : Parser ρ) (tokens : List Token) : Outcome ρ :=
  match p.run { rest := tokens } with
  | some (.accept c) =>
    .accepted (c.output.reverse.filterMap fun i => (p.rules[i]?).map (·.production))
      c.operations.reverse
  | some (.next c) | some (.fail c) => .rejected c.stack.reverse c.rest
  | some .overrun => .overrun
  | none => .endless

def displayState (stack : List Nat) (rest : List Token) : String :=
  Text.bracketed (stack.map toString) ++ " " ++ Text.bracketed (rest.map (·.display))

def trace (p : Parser ρ) (tokens : List Token) : String :=
  String.join (((p.passes { rest := tokens }).getD []).map fun c =>
    displayState c.stack.reverse c.rest ++ "\n")

def Outcome.report : Outcome ρ → String
  | .accepted _ _ | .overrun | .endless => ""
  | .rejected stack rest => "Parsing Error: " ++ displayState stack rest ++ "\n"

end Parser

end AutoCool.LR1
