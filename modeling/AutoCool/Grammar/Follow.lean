import AutoCool.Grammar.First

/-!
# What can follow a nonterminal

The FOLLOW set of a nonterminal holds the terminals that can stand right after it, and the end mark
when a word derived from the start symbol can end with it.
-/

namespace AutoCool

/-- FOLLOW sets by nonterminal. The start symbol has a place also when there is none. -/
abbrev FollowTable := List (Option Symbol × MarkedSet Symbol)

namespace FollowTable

variable {ρ : Type}

def get? (t : FollowTable) (s : Symbol) : Option (MarkedSet Symbol) := t.lookup (some s)

def absorb (t : FollowTable) (s : Symbol) (set : MarkedSet Symbol) : FollowTable :=
  t.map fun (x, f) => if x == some s then (x, f.absorb set) else (x, f)

def total (t : FollowTable) : Nat := (t.map fun e => e.2.items.length).foldr (· + ·) 0

/-- Takes a nonterminal of a right side into account, given what the rest can begin with: this
follows the nonterminal, and when the rest can be empty, so does what follows the head. -/
def stepNonterminal (head s : Symbol) (first : MarkedSet Symbol) (t : FollowTable) : FollowTable :=
  let t := t.absorb s first
  if first.epsilon then t.absorb s ((t.get? head).getD {}) else t

def stepSymbols (firsts : FirstTable ρ) (head : Symbol) :
    List Symbol → FollowTable → Except GrammarError FollowTable
  | [], t => .ok t
  | s :: rest, t =>
    if s.isNonterminal then do
      if (t.get? s).isNone then throw .unknownSymbol
      stepSymbols firsts head rest (t.stepNonterminal head s (← firsts.phrase rest))
    else stepSymbols firsts head rest t

/-- Takes the nonterminals among some terms into account. `divides` tells whether the rest after a
term can be taken. -/
def stepParts (firsts : FirstTable ρ) (head : Symbol) (divides : Bool) :
    List (Term ρ) → FollowTable → Except GrammarError FollowTable
  | [], t => .ok t
  | .epsilon :: rest, t => stepParts firsts head divides rest t
  | .symbol s :: rest, t =>
    if s.isNonterminal then do
      if (t.get? s).isNone then throw .unknownSymbol
      if !divides then throw .wrongOperand
      stepParts firsts head divides rest (t.stepNonterminal head s (← firsts.parts rest))
    else stepParts firsts head divides rest t
  | _ :: _, _ => .error .notASymbol

/-- Takes one production into account. Alternatives cannot be divided. -/
def step (firsts : FirstTable ρ) (t : FollowTable) (p : Production ρ) :
    Except GrammarError FollowTable := do
  if (t.get? p.head).isNone then throw .unknownSymbol
  match p.body with
  | .epsilon => return t
  | .sentence symbols => stepSymbols firsts p.head symbols t
  | .stray (.choice items) => stepParts firsts p.head false items t
  | .stray e => do stepParts firsts p.head true (← e.elements) t

def iterate (firsts : FirstTable ρ) (productions : List (Production ρ)) :
    (fuel : Nat) → FollowTable → Except GrammarError FollowTable
  | 0, t => .ok t
  | fuel + 1, t => do
    let t' ← productions.foldlM (step firsts) t
    if total t' == total t then return t' else iterate firsts productions fuel t'

end FollowTable

namespace Grammar

variable {ρ : Type}

def followsBase (g : Grammar ρ) : FollowTable :=
  let ends : MarkedSet Symbol := { items := [g.endMark] }
  let entries : FollowTable := g.nonterminals.map fun s =>
    (some s, if g.start == some s then ends else {})
  if g.nonterminals.any (g.start == some ·) then entries else entries ++ [(g.start, ends)]

def followsBound (g : Grammar ρ) : Nat := (g.nonterminals.length + 1) * (g.terminals.length + 1) + 1

def follows (g : Grammar ρ) (firsts : FirstTable ρ) : Except GrammarError FollowTable :=
  FollowTable.iterate firsts g.productions g.followsBound g.followsBase

end Grammar

end AutoCool
