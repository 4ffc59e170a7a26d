import AutoCool.Grammar.Term
import AutoCool.Offset

/-!
# Grammars

A grammar has terminals, nonterminals, perhaps a start symbol, and productions. It is built by
declaring symbols and adding right sides to nonterminals. Equal productions are kept once, and
productions with rules do not mix with plain ones.

Every grammar has an end mark of its own, and a copy of a grammar shares its symbols. A production
is filed with the grammar that declared its head, so a grammar keeps a ledger for every generation
it descends from; the last one is its own.
-/

namespace AutoCool

/-- A place for a rule that is filled: with a rule or with something that cannot be applied. -/
inductive Slot (ρ : Type)
  | rule (r : ρ)
  | inert

/-- The right side of a production: the empty word, a sentence of symbols, or any other term. Of
these others, tuples of symbols work like sentences, and most can be filed but not parsed. -/
inductive Body (ρ : Type)
  | epsilon
  | sentence (symbols : List Symbol)
  | stray (t : Term ρ)

namespace Body

variable {ρ : Type}

def ofTerm : Term ρ → Body ρ
  | .epsilon => .epsilon
  | .sentence parts => (Term.symbolsOf? parts).elim (.stray (.sentence parts)) .sentence
  | t => .stray t

def toTerm : Body ρ → Term ρ
  | .epsilon => .epsilon
  | .sentence symbols => .ofSymbols symbols
  | .stray t => t

def length : Body ρ → Nat
  | .epsilon => 0
  | .sentence symbols => symbols.length
  | .stray t => t.length.toOption.getD 0

def same (a b : Body ρ) : Except GrammarError Bool := a.toTerm.same b.toTerm

def display (b : Body ρ) : String := b.toTerm.display

end Body

structure Production (ρ : Type) where
  head : Symbol
  body : Body ρ
  slots : Option (List (Option (Slot ρ))) := none

namespace Production

variable {ρ : Type}

def isAttributed (p : Production ρ) : Bool := p.slots.isSome

def same (p q : Production ρ) : Except GrammarError Bool :=
  if p.head == q.head then p.body.same q.body else .ok false

def display (p : Production ρ) : String :=
  p.head.name ++ (if p.isAttributed then " := " else " → ") ++ p.body.display

def displayInList (p : Production ρ) : String :=
  p.head.name ++ (if p.isAttributed then " -> " else " → ") ++ p.body.display

end Production

/-- The productions filed with one grammar, and whether the first of them had rules. -/
structure Ledger (ρ : Type) where
  attributed : Option Bool := none
  productions : List (Production ρ) := []

/-- A grammar. `filed` holds every production of the symbols it knows, in the order of filing. -/
structure Grammar (ρ : Type) where
  endMark : Symbol := Symbol.endMark 0
  nextId : Nat := endMark.id + 1
  terminals : List Symbol := []
  nonterminals : List Symbol := []
  start : Option Symbol := none
  names : List (String × Symbol) := [(endMark.name, endMark)]
  ledger : Ledger ρ := {}
  earlier : List (Ledger ρ) := []
  filed : List (Production ρ) := []

namespace Grammar

variable {ρ : Type}

def productions (g : Grammar ρ) : List (Production ρ) := g.ledger.productions

def productionsOf (g : Grammar ρ) (s : Symbol) : List (Production ρ) := g.filed.filter (·.head == s)

/-- The production of a symbol that an offset names. Only nonterminals have productions. -/
def productionAt (g : Grammar ρ) (s : Symbol) (i : Int) : Except GrammarError (Production ρ) :=
  if s.isNonterminal then
    let ps := g.productionsOf s
    ((Offset.index? ps.length i).bind (ps[·]?)).elim (.error .outOfRange) .ok
  else .error .notASymbol

/-- Whether two productions are equal, given by symbols and offsets. A production is equal to
itself, whatever its right side. -/
def sameAt (g : Grammar ρ) (s : Symbol) (i : Int) (t : Symbol) (j : Int) :
    Except GrammarError Bool := do
  let p ← g.productionAt s i
  let q ← g.productionAt t j
  let n := (g.productionsOf s).length
  if s == t && Offset.index? n i == Offset.index? n j then return true else p.same q

def find? (g : Grammar ρ) (name : String) : Option Symbol := g.names.lookup name

def nextSymbol (g : Grammar ρ) (name : String) (kind : SymbolKind) : Symbol :=
  { id := g.nextId, name, kind, generation := g.earlier.length }

def bindName (names : List (String × Symbol)) (s : Symbol) : List (String × Symbol) :=
  if names.any (·.1 == s.name) then names.map fun (n, t) => if n == s.name then (n, s) else (n, t)
  else names ++ [(s.name, s)]

def pushTerminal (g : Grammar ρ) (name : String) : Symbol × Grammar ρ :=
  let s := g.nextSymbol name .terminal
  (s, { g with
    nextId := g.nextId + 1
    terminals := g.terminals ++ [s]
    names := bindName g.names s })

def pushNonterminal (g : Grammar ρ) (name : String) : Symbol × Grammar ρ :=
  let s := g.nextSymbol name .nonterminal
  (s, { g with
    nextId := g.nextId + 1
    nonterminals := g.nonterminals ++ [s]
    names := bindName g.names s })

def pushStart (g : Grammar ρ) (name : String) : Symbol × Grammar ρ :=
  let s := g.nextSymbol name .nonterminal
  (s, { g with
    nextId := g.nextId + 1
    nonterminals := s :: g.nonterminals
    start := some s
    names := bindName g.names s })

def terminal (g : Grammar ρ) (name : String) : Except GrammarError (Symbol × Grammar ρ) :=
  let name := Text.trim name
  if name.isEmpty then .error .emptyName else .ok (g.pushTerminal name)

def nonterminal (g : Grammar ρ) (name : String) (isStart : Bool := false) :
    Except GrammarError (Symbol × Grammar ρ) :=
  let name := Text.trim name
  if name.isEmpty then .error .emptyName
  else if isStart then
    if g.start.isSome then .error .secondStart else .ok (g.pushStart name)
  else .ok (g.pushNonterminal name)

def terminalsOf (g : Grammar ρ) (names : String) : List Symbol × Grammar ρ :=
  (Text.words names).foldl (fun (ss, g) name => let (s, g) := g.pushTerminal name; (ss ++ [s], g))
    ([], g)

def nonterminalsOf (g : Grammar ρ) (names : String) : List Symbol × Grammar ρ :=
  (Text.words names).foldl (fun (ss, g) name =>
    let (s, g) := g.pushNonterminal name; (ss ++ [s], g))
    ([], g)

def hasSame (p : Production ρ) : List (Production ρ) → Except GrammarError Bool
  | [] => .ok false
  | q :: qs => do if ← q.same p then return true else hasSame p qs

/-- Opens a ledger for a production: the first one decides whether productions have rules. -/
def Ledger.accept (l : Ledger ρ) (p : Production ρ) : Except GrammarError (Ledger ρ) :=
  let attributed := if l.productions.isEmpty then some p.isAttributed else l.attributed
  if attributed == some p.isAttributed then .ok { l with attributed } else .error .mixedForms

def ledgerOf (g : Grammar ρ) (generation : Nat) : Ledger ρ := g.earlier.getD generation g.ledger

def setLedger (g : Grammar ρ) (generation : Nat) (l : Ledger ρ) : Grammar ρ :=
  if generation < g.earlier.length then { g with earlier := g.earlier.set generation l }
  else { g with ledger := l }

/-- Files a production with the grammar that declared its head, unless its head has an equal one. -/
def addProduction (g : Grammar ρ) (p : Production ρ) : Except GrammarError (Grammar ρ) := do
  let l ← Ledger.accept (g.ledgerOf p.head.generation) p
  if ← hasSame p (g.productionsOf p.head) then return g.setLedger p.head.generation l
  let g := g.setLedger p.head.generation { l with productions := l.productions ++ [p] }
  return { g with filed := g.filed ++ [p] }

/-- Adds productions one after the other. What was added before a failure stays. -/
def addProductions (g : Grammar ρ) : List (Production ρ) → Grammar ρ × Option GrammarError
  | [] => (g, none)
  | p :: ps =>
    match g.addProduction p with
    | .error e => (g, some e)
    | .ok g => g.addProductions ps

def slotOf : Term ρ → Option (Slot ρ)
  | .value .nothing => none
  | .rule r => some (.rule r)
  | _ => some .inert

/-- The production that a tuple makes for a head: a right side, the rule of the head, and one place
for each symbol, left empty when only the rule of the head is given. -/
def productionOfTuple (head : Symbol) : List (Term ρ) → Except GrammarError (Production ρ)
  | [] | [_] => .error .shortTuple
  | body :: rules => do
    let n ← body.length
    let rest : List (Option (Slot ρ)) := if rules.length == 1 then List.replicate n none else []
    let slots := rules.map slotOf ++ rest
    if slots.length != n + 1 then throw .ruleCount
    match body with
    | .symbol s => return { head, body := .sentence [s], slots := some slots }
    | .epsilon | .sentence _ => return { head, body := .ofTerm body, slots := some slots }
    | _ => throw .notARightSide

def productionsFor (head : Symbol) : Term ρ → Except GrammarError (List (Production ρ))
  | .symbol s => .ok [{ head, body := .sentence [s] }]
  | t@.epsilon | t@(.sentence _) => .ok [{ head, body := .ofTerm t }]
  | .tuple parts => do return [← productionOfTuple head parts]
  | .choice items => .ok (items.map fun t => { head, body := Body.ofTerm t })
  | .value _ | .rule _ => .error .wrongOperand

/-- Adds the right sides of a term to a symbol, which must be a nonterminal. The grammar is answered
also when a part of the term failed. -/
def extend (g : Grammar ρ) (head : Symbol) (t : Term ρ) : Grammar ρ × Option GrammarError :=
  if head.isNonterminal then
    match productionsFor head t with
    | .error e => (g, some e)
    | .ok ps => g.addProductions ps
  else (g, some .wrongOperand)

def isAugmented (g : Grammar ρ) : Bool :=
  (g.productions.filter fun p => g.start == some p.head).length ≤ 1

def copy (g : Grammar ρ) : Grammar ρ := { g with earlier := g.earlier ++ [g.ledger] }

def augment (g : Grammar ρ) : Except GrammarError (Grammar ρ) := do
  let (top, augmented) := g.copy.pushStart "S'"
  let some start := g.start | throw .noStart
  let slots := if g.ledger.attributed == some true then some [some .inert, none] else none
  augmented.addProduction { head := top, body := .sentence [start], slots }

/-- The grammar with a start symbol that has one production: a copy if it has that already, unless a
new start symbol is asked for. -/
def augmented (g : Grammar ρ) (force : Bool) : Except GrammarError (Grammar ρ) :=
  if force || !g.isAugmented then g.augment else .ok g.copy

def display (g : Grammar ρ) : String :=
  "Non-Terminals:\n\t" ++ Text.commas (g.nonterminals.map (·.name)) ++
    "\nTerminals:\n\t" ++ Text.commas (g.terminals.map (·.name)) ++
    "\nProductions:\n\t" ++ Text.bracketed (g.productions.map (·.displayInList))

end Grammar

end AutoCool
