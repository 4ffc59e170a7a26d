import AutoCool.Automaton.Basic
import AutoCool.LR1.Closure

/-!
# The automaton of the item sets

Its states are the item sets that can be reached from the first one, which begins the production of
the new start symbol before the end mark. Two sets are the same state when their kernels, the items
they were reached with, are equal. The sets are found depth first, and then numbered in the order of
a walk over the moves.
-/

namespace AutoCool.LR1

/-- What the construction knows: the kernels and the states found so far, and the states whose moves
are still to be found, the next one first. -/
structure Search where
  kernels : Array (List Item) := #[]
  states : Array (State (List Item)) := #[]
  pending : List Nat := []

/-- What the construction is given: rules, beginnings, symbols in the order in which they are tried,
and a number above that of every symbol. -/
structure Setting (ρ : Type) where
  rules : Array (Rule ρ)
  edges : List (Nat × Spread)
  symbols : List Symbol
  size : Nat

namespace Setting

variable {ρ : Type}

def stateOf (t : Setting ρ) (kernel : List Item) : State (List Item) :=
  { label := closure t.rules t.edges t.size kernel, final := true }

def file (t : Setting ρ) (k : List Item) (s : Search) : Nat × Search :=
  match s.kernels.findIdx? (· == k) with
  | some i => (i, s)
  | none =>
    (s.kernels.size, {
      kernels := s.kernels.push k
      states := s.states.push (t.stateOf k)
      pending := s.kernels.size :: s.pending })

def tryMove (t : Setting ρ) (current : Nat) (items : List Item) (s : Search) (x : Symbol) :
    Search :=
  match kernel t.rules items x with
  | [] => s
  | k =>
    let (target, s) := t.file k s
    { s with states := s.states.modify current (·.addMove x.name target) }

/-- Finds the moves of the pending states. `fuel` bounds the number of states. -/
def explore (t : Setting ρ) : (fuel : Nat) → Search → Search
  | 0, s => s
  | fuel + 1, s =>
    match s.pending with
    | [] => s
    | current :: pending =>
      let items := ((s.states[current]?).map (·.label)).getD []
      t.explore fuel (t.symbols.foldl (t.tryMove current items) { s with pending })

/-- A bound on the number of states: an item set gives every place of a right side a set of
lookaheads, or none. -/
def bound (t : Setting ρ) : Nat :=
  Nat.pow 2 ((t.size + 1) * (t.rules.toList.map (·.symbols.length + 1)).foldr (· + ·) 0)

def search (t : Setting ρ) (first : Item) : Search := t.explore t.bound (t.file [first] {}).2

def fault? (t : Setting ρ) (s : Search) : Option GrammarError :=
  s.kernels.toList.findSome? (closureFault? t.rules t.edges t.size)

end Setting

def Search.automaton (s : Search) : Automaton (List Item) := { states := s.states, start := 0 }

def renumber (a : Automaton (List Item)) : Automaton (List Item) :=
  let order := a.visit
  let places := order.zipIdx.foldl (fun (ps : Array Nat) (i, k) => ps.set! i k)
    (Array.replicate a.states.size 0)
  let place i := places.getD i 0
  { start := place a.start
    states := (order.filterMap fun i => a.states[i]?).toArray.mapIdx fun k s =>
      { s with
        moves := s.moves.map fun (x, ts) => (x, ts.map place)
        tag := "I" ++ toString k } }

end AutoCool.LR1
