import AutoCool.Graph
import AutoCool.Offset
import AutoCool.Text.Datum

/-!
# Finite automata

An automaton is a table of numbered states. A state has labelled moves, in the order in which its
symbols were first used, each to any number of states, and silent moves that read nothing. It is
recognised by the states it can be in: `Automaton.accepts` follows all of them at once.
-/

namespace AutoCool

/-- The silent moves of a state. They form a set that grows, until they are assigned as a whole:
from then on they are the list that was given, and nothing is added to it. -/
inductive Silent
  | growing (targets : List Nat)
  | fixed (targets : List Nat)
deriving DecidableEq, Repr

namespace Silent

def targets : Silent → List Nat
  | .growing ts | .fixed ts => ts

/-- The silent moves as they are listed: a set in ascending order, a list as it is. -/
def listing : Silent → List Nat
  | .growing ts => ts.mergeSort
  | .fixed ts => ts

/-- One more silent move; a fixed list takes none. -/
def insert (target : Nat) : Silent → Option Silent
  | .growing ts => some (.growing (if target ∈ ts then ts else ts ++ [target]))
  | .fixed _ => none

def isUnordered : Silent → Bool
  | .growing ts => 2 ≤ ts.length
  | .fixed _ => false

end Silent

inductive LabelStyle
  | plain
  | lines
  /-- One item a line, each without its last four characters. -/
  | clipped
  | blank
deriving DecidableEq, Repr, Inhabited

structure State (α : Type) where
  label : α
  final : Bool
  moves : List (String × List Nat) := []
  silent : Silent := .growing []
  tag : String := ""
  style : LabelStyle := .plain

namespace State

variable {α : Type}

def hasMove (s : State α) (symbol : String) : Bool := s.moves.any (·.1 == symbol)

/-- What is filed under a symbol. The empty text stands for the silent moves. -/
def get? (s : State α) (symbol : String) : Option (List Nat) :=
  if symbol.isEmpty then some s.silent.targets else s.moves.lookup symbol

def listing? (s : State α) (symbol : String) : Option (List Nat) :=
  if symbol.isEmpty then some s.silent.listing else s.moves.lookup symbol

def targets (s : State α) (symbol : String) : List Nat :=
  if s.hasMove symbol then (s.get? symbol).getD [] else []

def addMove (s : State α) (symbol : String) (target : Nat) : State α :=
  if s.hasMove symbol then
    { s with moves := s.moves.map fun (x, ts) =>
      if x == symbol then (x, ts ++ [target]) else (x, ts) }
  else { s with moves := s.moves ++ [(symbol, [target])] }

/-- Replaces the destinations of a symbol, or all silent moves for the empty text. -/
def assign (s : State α) (symbol : String) (targets : List Nat) : State α :=
  if symbol.isEmpty then { s with silent := .fixed targets }
  else if s.hasMove symbol then
    { s with moves := s.moves.map fun (x, ts) => if x == symbol then (x, targets) else (x, ts) }
  else { s with moves := s.moves ++ [(symbol, targets)] }

/-- Every state that a move of this one leads to, in the order in which they are visited: labelled
moves first, then the silent ones. -/
def successors (s : State α) : List Nat := s.moves.flatMap (·.2) ++ s.silent.targets

end State

structure Automaton (α : Type) where
  states : Array (State α)
  start : Nat

namespace Automaton

variable {α : Type}

def numbers (a : Automaton α) : List Nat := List.range a.states.size

def isFinal (a : Automaton α) (i : Nat) : Bool := (a.states[i]?.map (·.final)).getD false

def targets (a : Automaton α) (symbol : String) (i : Nat) : List Nat :=
  (a.states[i]?.map (·.targets symbol)).getD []

def silentTargets (a : Automaton α) (i : Nat) : List Nat :=
  (a.states[i]?.map (·.silent.targets)).getD []

def successors (a : Automaton α) (i : Nat) : List Nat := (a.states[i]?.map (·.successors)).getD []

def modify (a : Automaton α) (i : Nat) (f : State α → State α) : Automaton α :=
  { a with states := a.states.modify i f }

def silentRound (a : Automaton α) (set : List Nat) : List Nat :=
  let reached := set ++ set.flatMap a.silentTargets
  a.numbers.filter (· ∈ reached)

/-- Rounds of silent moves, until one of them finds no more states than there were. -/
def silentRounds (a : Automaton α) (set : List Nat) : List Nat :=
  let next := a.silentRound set
  if set.length < next.length then a.silentRounds next else set
termination_by a.states.size - set.length
decreasing_by
  have hlt : set.length < (a.silentRound set).length := ‹_›
  have hle : (a.silentRound set).length ≤ a.numbers.length := List.length_filter_le ..
  rw [numbers, List.length_range] at hle
  omega

/-- The states reached from some states by silent moves, themselves included, in ascending order. -/
def closure (a : Automaton α) (sources : List Nat) : List Nat :=
  a.silentRounds (a.numbers.filter (· ∈ sources))

def move (a : Automaton α) (symbol : String) (sources : List Nat) : List Nat :=
  let reached := sources.flatMap (a.targets symbol)
  a.numbers.filter (· ∈ reached)

/-- The states the automaton can be in after a word, if it could be in `current` before. -/
def run (a : Automaton α) (current : List Nat) : List String → List Nat
  | [] => current
  | symbol :: word => a.run (a.closure (a.move symbol current)) word

def acceptsFrom (a : Automaton α) (i : Nat) (word : List String) : Bool :=
  (a.run (a.closure [i]) word).any a.isFinal

def accepts (a : Automaton α) (word : List String) : Bool := a.acceptsFrom a.start word

def visit (a : Automaton α) : List Nat := Graph.preorder a.successors a.numbers [a.start]

def isUnordered (a : Automaton α) : Bool :=
  a.visit.any fun i => (a.states[i]?.map (·.silent.isUnordered)).getD false

/-- Files the destinations of an origin and a symbol: a later entry replaces an earlier one in its
place. -/
def fileEdge (edges : List ((Int × String) × List Int)) (key : Int × String) (targets : List Int) :
    List ((Int × String) × List Int) :=
  if edges.any (·.1 == key) then edges.map fun e => if e.1 == key then (key, targets) else e
  else edges ++ [(key, targets)]

/-- The automaton with `n` states labelled by their numbers and the given moves. There is none when
a number that is used belongs to no state. -/
def ofEdges? (n : Nat) (start : Int) (finals : List Int) (edges : List (Int × String × List Int)) :
    Option (Automaton Nat) := do
  let filed :=
    edges.foldl (fun es (origin, symbol, targets) => fileEdge es (origin, symbol) targets) []
  let states := (Array.range n).map fun i => { label := i, final := finals.contains (i : Int) }
  let enter (states : Array (State Nat)) : (Int × String) × List Int → Option (Array (State Nat))
    | ((origin, symbol), targets) => do
      let origin ← Offset.index? n origin
      let targets ← targets.mapM (Offset.index? n)
      some (states.modify origin (·.assign symbol targets))
  let states ← filed.foldlM enter states
  some { states, start := ← Offset.index? n start }

end Automaton

end AutoCool
