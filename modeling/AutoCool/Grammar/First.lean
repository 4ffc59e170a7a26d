import AutoCool.Grammar.Basic
import AutoCool.MarkedSet

/-!
# What a phrase can begin with

The FIRST set of a phrase holds the terminals that a word derived from it can begin with, and is
marked when the empty word can be derived. `Grammar.firsts` has the sets of all symbols and of all
right sides. It starts from the sets of the terminals and goes through the productions until nothing
changes.
-/

namespace AutoCool

def MarkedSet.names (s : MarkedSet Symbol) : List String :=
  (s.items.map (·.name) ++ if s.epsilon then [Term.epsilonText] else []).mergeSort fun x y =>
    decide (x ≤ y)

/-- The FIRST set of a right side, and the number of the production at which the right side was
first met. -/
structure BodyFirst (ρ : Type) where
  owner : Nat
  body : Body ρ
  set : MarkedSet Symbol := {}

structure FirstTable (ρ : Type) where
  symbols : List (Symbol × MarkedSet Symbol)
  bodies : List (BodyFirst ρ) := []

namespace FirstTable

variable {ρ : Type}

def get? (t : FirstTable ρ) (s : Symbol) : Option (MarkedSet Symbol) := t.symbols.lookup s

def get (t : FirstTable ρ) (s : Symbol) : Except GrammarError (MarkedSet Symbol) :=
  (t.get? s).elim (.error .unknownSymbol) .ok

/-- The set of a phrase, by those of its symbols: the sets up to the first symbol that cannot be
empty. -/
def phrase (t : FirstTable ρ) : List Symbol → Except GrammarError (MarkedSet Symbol)
  | [] => .ok { epsilon := true }
  | s :: rest => do
    let first ← t.get s
    if first.epsilon then return MarkedSet.join { items := first.items } (← t.phrase
      rest) else return first

/-- The place of a right side among those that were met. It is the one of the production with the
given number, if that was met before, or the one of an equal right side. -/
def place? (t : FirstTable ρ) (owner : Nat) (b : Body ρ) : Except GrammarError (Option Nat) :=
  match t.bodies.findIdx? fun e => e.owner == owner || e.body.toTerm.alike b.toTerm with
  | none => .ok none
  | some k =>
    match t.bodies[k]? with
    | none => .ok none
    | some e => do if e.owner == owner || (← e.body.same b) then return some k else return none

/-- The set that the table has for a part of a term: for a symbol, or for a right side that was
met. -/
def entry (t : FirstTable ρ) : Term ρ → Except GrammarError (MarkedSet Symbol)
  | .symbol s => t.get s
  | e =>
    if !e.isKey then .error .wrongOperand
    else
      match t.bodies.find? fun x => x.body.toTerm.alike e with
      | none => .error .unknownSymbol
      | some x => do if ← x.body.toTerm.same e then return x.set else throw .unknownSymbol

def parts (t : FirstTable ρ) : List (Term ρ) → Except GrammarError (MarkedSet Symbol)
  | [] => .ok { epsilon := true }
  | e :: rest => do
    let first ← t.entry e
    if first.epsilon then return MarkedSet.join { items := first.items } (← t.parts rest)
    else return first

@[simp] theorem parts_map_symbol (t : FirstTable ρ) (symbols : List Symbol) :
    t.parts (symbols.map .symbol) = t.phrase symbols := by
  induction symbols with
  | nil => rfl
  | cons s symbols ih => simp [parts, phrase, entry, ih]

def term (t : FirstTable ρ) (e : Term ρ) : Except GrammarError (MarkedSet Symbol) := do
  t.parts (← e.elements)

def body (t : FirstTable ρ) : Body ρ → Except GrammarError (MarkedSet Symbol)
  | .epsilon => .ok { epsilon := true }
  | .sentence symbols => t.phrase symbols
  | .stray e => t.term e

def joinSymbol (t : FirstTable ρ) (s : Symbol) (set : MarkedSet Symbol) : FirstTable ρ :=
  { t with symbols := t.symbols.map fun (x, f) => if x == s then (x, f.join set) else (x, f) }

def meet (t : FirstTable ρ) (owner : Nat) (b : Body ρ) :
    Except GrammarError (Nat × FirstTable ρ) := do
  match ← t.place? owner b with
  | some k => return (k, t)
  | none =>
    if !b.toTerm.isKey then throw .wrongOperand
    return (t.bodies.length, { t with bodies := t.bodies ++ [{ owner, body := b }] })

def joinBody (t : FirstTable ρ) (k : Nat) (set : MarkedSet Symbol) : FirstTable ρ :=
  { t with bodies := t.bodies.modify k fun e => { e with set := e.set.join set } }

/-- The number of items in all sets together. It only ever grows. -/
def total (t : FirstTable ρ) : Nat :=
  (t.symbols.map (·.2.size) ++ t.bodies.map (·.set.size)).foldr (· + ·) 0

def step (t : FirstTable ρ) (entry : Production ρ × Nat) : Except GrammarError (FirstTable ρ) := do
  let (p, owner) := entry
  let _ ← t.get p.head
  let (k, t) ← t.meet owner p.body
  let set ← t.body p.body
  return (t.joinBody k set).joinSymbol p.head set

def iterate (productions : List (Production ρ)) :
    (fuel : Nat) → FirstTable ρ → Except GrammarError (FirstTable ρ)
  | 0, t => .ok t
  | fuel + 1, t => do
    let t' ← productions.zipIdx.foldlM step t
    if t'.total == t.total then return t' else iterate productions fuel t'

end FirstTable

namespace Grammar

variable {ρ : Type}

def firstsBase (g : Grammar ρ) : FirstTable ρ where
  symbols := g.terminals.map (fun s => (s, { items := [s] })) ++ g.nonterminals.map
    (fun s => (s, {}))

/-- A bound on the number of changes: the size of a table in which every set is full. -/
def firstsBound (g : Grammar ρ) : Nat :=
  (g.terminals.length + g.nonterminals.length + g.productions.length) * (g.terminals.length + 1) + 1

def firsts (g : Grammar ρ) : Except GrammarError (FirstTable ρ) :=
  FirstTable.iterate g.productions g.firstsBound g.firstsBase

end Grammar

end AutoCool
