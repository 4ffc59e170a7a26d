import AutoCool.Automaton.Basic

/-!
# Drawings of an automaton

A state is written with its tag and its label, the label in the style that was chosen for it. A
drawing has an entry mark, then the states in the order of the walk, and an arrow for every move.
-/

namespace AutoCool

namespace LabelStyle

def clip (s : String) : String := String.ofList (s.toList.take (s.length - 4))

def items? : Datum → Option (List String)
  | .list items => some (items.map Datum.display)
  | .text s => some (s.toList.map (·.toString))
  | .record fields => some (fields.map (·.1))
  | _ => none

def format? (style : LabelStyle) (label : Datum) : Option String :=
  match style with
  | .plain => some label.display
  | .lines => (items? label).map (String.intercalate "\n")
  | .clipped =>
    match items? label with
    | some items => some (String.intercalate "\n" (items.map clip))
    | none => some (clip label.display)
  | .blank => some ""

end LabelStyle

def State.name? (s : State Nat) : Option String := do
  let label ← s.style.format? (.int s.label)
  some (if s.tag.isEmpty then label else s.tag ++ "\n" ++ label)

/-- A drawing: what is written in each state and whether its frame is bold, and the arrows between
them with their labels. States are numbered from 1, and 0 is the entry mark. -/
structure Drawing where
  nodes : List (String × Bool)
  arrows : List (Nat × Nat × String)

def Drawing.sortedArrows (d : Drawing) : List (Nat × Nat × String) :=
  d.arrows.mergeSort fun (i, j, x) (k, l, y) => i < k || i == k && (j < l || j == l && x ≤ y)

namespace Automaton

def setStyle (a : Automaton Nat) (style : LabelStyle) : Automaton Nat :=
  a.visit.foldl (fun a i => a.modify i fun s => { s with style }) a

def arrowsFrom (place : Nat → Nat) (i : Nat) (s : State Nat) : List (Nat × Nat × String) :=
  (s.moves.flatMap fun (symbol, ts) => ts.map fun t => (place i, place t, symbol)) ++
    s.silent.targets.map fun t => (place i, place t, "ε")

def draw? (a : Automaton Nat) : Option Drawing := do
  let order := a.visit
  let place i := order.idxOf i + 1
  let visited := order.filterMap fun i => (a.states[i]?).map (i, ·)
  let nodes ← visited.mapM fun (_, s) => do some (← s.name?, s.final)
  some { nodes, arrows := visited.flatMap fun (i, s) => arrowsFrom place i s }

end Automaton

end AutoCool
