import AutoCool.Automaton.Drawing
import AutoCool.Automaton.Subset
import AutoCool.Grammar.Exchange
import AutoCool.Grammar.Follow
import AutoCool.LR1.Parser
import AutoCool.Types.Display
import AutoCool.Types.Scope

/-!
# Grammars, automata and types of any size
-/

namespace AutoCool.Workload

def extendAll (g : Grammar Unit) (rules : List (Symbol × List Symbol)) :
    Except GrammarError (Grammar Unit) :=
  rules.foldlM (fun g (head, body) => match g.extend head (.ofSymbols body) with
    | (g, none) => .ok g
    | (_, some e) => .error e) g

/-- A grammar of expressions with a given number of operators, each one binding tighter than the one
before it. Without operators there is no start symbol. -/
def operatorGrammar (n : Nat) : Except GrammarError (Grammar Unit) := do
  let declare (isStart : Bool) (state : List Symbol × Grammar Unit) (i : Nat) :
      Except GrammarError (List Symbol × Grammar Unit) := do
    let (s, g) ← state.2.nonterminal ("E" ++ toString i) isStart
    return (state.1 ++ [s], g)
  let first ← (List.range (min n 1)).foldlM (declare true) ([], {})
  let (levels, g) ← ((List.range n).drop 1).foldlM (declare false) first
  let (atom, g) ← g.nonterminal "F"
  let (operators, g) :=
    g.terminalsOf (String.intercalate " " ((List.range n).map fun i => "op" ++ toString i))
  let (opening, g) ← g.terminal "("
  let (closing, g) ← g.terminal ")"
  let (num, g) ← g.terminal "num"
  let operands := levels.drop 1 ++ [atom]
  let binary := (levels.zip (operators.zip operands)).flatMap fun (level, operator, operand) =>
    [(level, [level, operator, operand]), (level, [operand])]
  let group := (levels.head?.map fun top => (atom, [opening, top, closing])).toList
  extendAll g (binary ++ group ++ [(atom, [num])])

def operatorTokens (g : Grammar Unit) (n : Nat) : List Token :=
  let named (name : String) : List Token :=
    (g.find? name).toList.map fun s => { type := s, lexeme := .text name }
  named "num" ++ (List.range n).flatMap (fun i => named ("op" ++ toString i) ++ named "num") ++
    [Token.ofEndMark g.endMark]

/-- A grammar with a chain of nonterminals, each one with a terminal of its own. The chain begins at
its first nonterminal. -/
def chainGrammar (n : Nat) : Except GrammarError (Grammar Unit) := do
  let (start, g) ← ({} : Grammar Unit).nonterminal "S" true
  let (links, g) :=
    g.nonterminalsOf (String.intercalate " " ((List.range n).map fun i => "N" ++ toString i))
  let (letters, g) :=
    g.terminalsOf (String.intercalate " " ((List.range n).map fun i => "t" ++ toString i))
  match links with
  | [] => throw .outOfRange
  | first :: rest =>
    let steps := (links.zip letters).zip (rest ++ [first])
    extendAll g ((start, [first]) :: steps.flatMap fun ((link, letter), next) =>
      [(link, [letter, next]), (link, [letter])])

/-- The phrases of one or two symbols over six symbols, made by putting terms side by side. -/
def shortPhrases : Except GrammarError (List (Term Unit)) := do
  let (symbols, _) := Grammar.terminalsOf ({} : Grammar Unit) "a b c d e f"
  let single : List (Term Unit) := symbols.map .symbol
  let double ← (single.flatMap fun s => single.map fun t => (s, t)).mapM fun (s, t) => s.add t
  return single ++ double

/-- A chain of states over one letter, at least three of them, with a silent move at its beginning.
The last state accepts and keeps every further letter. -/
def chainAutomaton (n : Nat) : Option (Automaton Nat) :=
  let size := max n 3
  let edges := (List.range size).map fun (i : Nat) =>
      ((i : Int), "a", [((min (i + 1) (size - 1) : Nat) : Int)])
  Automaton.ofEdges? size 0 [size - 1] (edges ++ [(0, "", [1])])

/-- A chain of types and one more type under the middle of the chain. The answer has the chain and
the type beside it. -/
def typeTree (n : Nat) : Except Failure (List TypeId × TypeId × Types) := do
  let grow (state : List TypeId × Types) (i : Nat) : Except Failure (List TypeId × Types) := do
    let (t, ts) ← state.2.create ("T" ++ toString i)
    let ts ← match state.1.getLast? with
      | some parent => ts.setParent t parent
      | none => pure ts
    return (state.1 ++ [t], ts)
  let (types, ts) ← (List.range n).foldlM grow ([], {})
  let some middle := types[(n - 1) / 2]? | throw .outOfRange
  let (side, ts) ← ts.create "Side"
  return (types, side, ← ts.setParent side middle)

def variableScope (types : List TypeId) : ScopeTree :=
  (types.zipIdx).foldl (fun t (type, i) => (t.define ScopeTree.root ("v" ++ toString i) type).2) {}

end AutoCool.Workload
