import AutoCool.Automaton.Basic

/-!
# The subset construction

`Automaton.determinize` has one state for every set of states that the automaton can be in. The sets
are found breadth first, the symbols of a set in ascending order, so the number of a set is its
place in the order of discovery.
-/

namespace AutoCool.Automaton

variable {α : Type}

def symbols (a : Automaton α) (set : List Nat) : List String :=
  let all := set.flatMap fun i => (a.states[i]?.map fun s => s.moves.map (·.1)).getD []
  all.eraseDups.mergeSort fun x y => decide (x ≤ y)

/-- The place of a set among those found, and the sets found with it included. -/
def placeOf (found : List (List Nat)) (set : List Nat) : Nat × List (List Nat) :=
  match found.findIdx? (· == set) with
  | some k => (k, found)
  | none => (found.length, found ++ [set])

def subsetMoves (a : Automaton α) (set : List Nat) (found : List (List Nat)) :
    List (String × List Nat) × List (List Nat) :=
  (a.symbols set).foldl (fun (moves, found) symbol =>
    let (k, found) := placeOf found (a.closure (a.move symbol set))
    (moves ++ [(symbol, [k])], found)) ([], found)

/-- The states for the sets found from place `k` on. `fuel` bounds the number of sets. -/
def subsetStates (a : Automaton α) : (fuel : Nat) → List (List Nat) → (k : Nat) →
    List (State (List Nat))
  | 0, _, _ => []
  | fuel + 1, found, k =>
    match found[k]? with
    | none => []
    | some set =>
      let (moves, found) := a.subsetMoves set found
      { label := set, final := set.any a.isFinal, moves } :: a.subsetStates fuel found (k + 1)

/-- The deterministic automaton of the sets of states. There are at most `2 ^ n` of them. -/
def determinize (a : Automaton α) : Automaton (List Nat) where
  states := (a.subsetStates (Nat.pow 2 a.states.size) [a.closure [a.start]] 0).toArray
  start := 0

end AutoCool.Automaton
