import AutoCool.Grammar.Basic
import AutoCool.Text.Order

/-!
# Productions with a place

A production with a place in its right side and the symbols that may follow it.
-/

namespace AutoCool

/-- A production, a place in its right side and the lookaheads without repetition. The place is an
offset: a negative one counts from the end. -/
structure Dotted (ρ : Type) where
  production : Production ρ
  dot : Int
  ahead : List Symbol := []

namespace Dotted

variable {ρ : Type}

def body (x : Dotted ρ) : Term ρ := x.production.body.toTerm

def isComplete (x : Dotted ρ) :
    Except GrammarError Bool := do return (← x.body.length : Int) == x.dot

def item (t : Term ρ) (i : Int) : Except GrammarError (Term ρ) :=
  match t with
  | .value (.record _) => .error .missingField
  | .symbol _ | .choice _ => .error .wrongOperand
  | t => do
    let elements ← t.elements
    ((Offset.index? elements.length i).bind (elements[·]?)).elim (.error .outOfRange) .ok

def next? (x : Dotted ρ) : Except GrammarError (Option (Term ρ)) := do
  if x.dot < (← x.body.length : Int) then return some (← item x.body x.dot) else return none

def advance? (x : Dotted ρ) : Except GrammarError (Option (Dotted ρ)) := do
  if x.dot < (← x.body.length : Int) then return some { x with dot := x.dot + 1 } else return none

def center (x : Dotted ρ) : Dotted ρ := { x with ahead := [] }

/-- What can stand after the next symbol: the rest of the right side, then a lookahead. Only the
rest of a sentence or of a tuple can be followed by something. -/
def preview (x : Dotted ρ) : Except GrammarError (List (List (Term ρ))) :=
  match x.body with
  | .sentence parts | .tuple parts =>
    .ok (x.ahead.map fun s => parts.drop (Offset.before parts.length (x.dot + 1)) ++ [.symbol s])
  | .epsilon | .value (.text _) | .value (.list _) =>
    if x.ahead.isEmpty then .ok [] else .error .wrongOperand
  | .symbol _ | .choice _ | .value _ | .rule _ => .error .wrongOperand

def displayPreview (x : Dotted ρ) : Except GrammarError (List (List String)) := do
  return ((← x.preview).map Term.displayParts).mergeSort Text.lexLe

def displayBody (x : Dotted ρ) : Except GrammarError String := do
  let n ← x.body.length
  if n == 0 then return "."
  let items ← (List.range n).mapM fun (i : Nat) => item x.body i
  let shown := Term.displayParts items
  if 0 ≤ x.dot && x.dot ≤ n then
    return String.join (shown.take x.dot.toNat) ++ "." ++ String.join (shown.drop x.dot.toNat)
  else return String.join shown

def display (x : Dotted ρ) : Except GrammarError String := do
  let ahead := if x.ahead.isEmpty then "" else
    "\x7b" ++ Text.commas (x.ahead.map fun s => Text.quote s.name) ++ "\x7d"
  return x.production.head.name ++ " -> " ++ (← x.displayBody) ++ ", " ++ ahead

end Dotted

structure DottedListing where
  production : String
  dot : Int
  ahead : List String
deriving DecidableEq, Repr

namespace DottedListing

def le (x y : DottedListing) : Bool :=
  x.production < y.production || x.production == y.production &&
    (x.dot < y.dot || x.dot == y.dot && Text.lexLe x.ahead y.ahead)

def of {ρ : Type} (p : Production ρ) (dot : Int) (ahead : List Symbol) : DottedListing :=
  { production := p.display, dot, ahead := Symbol.sortedNames ahead }

end DottedListing

end AutoCool
