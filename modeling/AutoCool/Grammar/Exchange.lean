import AutoCool.Grammar.Basic
import AutoCool.Text.Json

/-!
# Grammars as JSON

A grammar is exchanged as a record of the names of its nonterminals and terminals and of its
productions, each one a head and the names of its right side. Rules are not exchanged. On reading,
the first nonterminal is the start symbol, and the name `epsilon` stands for the empty word unless a
symbol has it.
-/

namespace AutoCool.Grammar

variable {ρ : Type}

def productionDatum (p : Production ρ) : Except GrammarError Datum := do
  let names ← (← p.body.toTerm.elements).mapM Term.name
  return .record [("Head", .text p.head.name), ("Body", .list (names.map .text))]

def toDatum (g : Grammar ρ) : Except GrammarError Datum := do
  let productions ← g.productions.mapM productionDatum
  return .record [
    ("NonTerminals", .list (g.nonterminals.map fun s => .text s.name)),
    ("Terminals", .list (g.terminals.map fun s => .text s.name)),
    ("Productions", .list productions)]

def toJson (g : Grammar ρ) : Except GrammarError String := do return Json.write (← g.toDatum)

def field (d : Datum) (name : String) : Except GrammarError Datum :=
  match d with
  | .record fields => (fields.lookup name).elim (.error .missingField) .ok
  | _ => .error .wrongOperand

def itemsOf (d : Datum) : Except GrammarError (List Datum) :=
  d.items?.elim (.error .wrongOperand) .ok

/-- What the names in an exchanged grammar stand for, the latest meaning first. -/
abbrev Meanings (ρ : Type) := List (String × Term ρ)

def meaning (names : Meanings ρ) : Datum → Except GrammarError (Term ρ)
  | .text name => (names.lookup name).elim (.error .unknownName) .ok
  | .list _ | .record _ => .error .wrongOperand
  | _ => .error .unknownName

def readSymbol (declare : Grammar ρ → String → Except GrammarError (Symbol × Grammar ρ))
    (state : Grammar ρ × Meanings ρ) (d : Datum) : Except GrammarError (Grammar ρ × Meanings ρ) :=
  match d with
  | .text name => do
    let (s, g) ← declare state.1 name
    return (g, (name, .symbol s) :: state.2)
  | _ => .error .notASymbol

def readBody (names : Meanings ρ) (d : Datum) : Except GrammarError (Term ρ) := do
  let items ← match d with
    | .list _ | .text _ => itemsOf d
    | _ => throw .wrongOperand
  match items with
  | [] => throw .outOfRange
  | first :: rest =>
    rest.foldlM (fun t name => do t.add (← meaning names name)) (← meaning names first)

def readProduction (names : Meanings ρ) (g : Grammar ρ) (d : Datum) :
    Except GrammarError (Grammar ρ) := do
  let head ← meaning names (← field d "Head")
  let body ← readBody names (← field d "Body")
  match head with
  | .symbol s =>
    match g.extend s body with
    | (g, none) => return g
    | (_, some e) => throw e
  | _ => throw .wrongOperand

/-- The grammar that a record describes. Its end mark has the number `firstId` and its symbols the
numbers after it. -/
def ofDatum (d : Datum) (firstId : Nat) : Except GrammarError (Grammar ρ) := do
  let empty : Grammar ρ := { endMark := Symbol.endMark firstId }
  let terminals ← itemsOf (← field d "Terminals")
  let state ← terminals.foldlM (readSymbol Grammar.terminal) (empty, [(Term.epsilonName, .epsilon)])
  let nonterminals ← itemsOf (← field d "NonTerminals")
  let state ← match nonterminals with
    | [] => pure state
    | first :: rest => do
      let state ← readSymbol (fun g name => g.nonterminal name true) state first
      rest.foldlM (readSymbol fun g name => g.nonterminal name) state
  let productions ← itemsOf (← field d "Productions")
  productions.foldlM (readProduction state.2) state.1

def ofJson (text : String) (firstId : Nat) : Except GrammarError (Grammar ρ) :=
  match Json.read text with
  | .ok d => ofDatum d firstId
  | .error .malformed => .error .unreadable
  | .error .tooLong => .error .tooLong

end AutoCool.Grammar
