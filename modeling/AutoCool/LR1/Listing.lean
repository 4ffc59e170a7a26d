import AutoCool.Grammar.Dotted
import AutoCool.LR1.Parser

/-!
# Listings of automata and tables

The states of a parser and the rows of its tables, with everything that has no order of its own in
ascending order.
-/

namespace AutoCool.LR1

structure StateListing where
  tag : String
  items : List DottedListing
  moves : List (String × List Nat)
deriving DecidableEq, Repr

/-- What is listed of a row: the names of the symbols that have a cell, and what the cells hold. -/
abbrev RowListing := List (String × List String)

namespace Row

variable {α : Type}

def listing (display : α → String) (row : Row α) : RowListing :=
  row.map fun (s, cell) => (s.name, (cell.map display).mergeSort fun x y => decide (x ≤ y))

end Row

def RowListing.sort (row : RowListing) : RowListing :=
  row.mergeSort fun (s, x) (t, y) => s < t || s == t && Text.lexLe x y

namespace Parser

variable {ρ : Type}

def displayRule (p : Parser ρ) (i : Nat) : String :=
  (p.rules[i]?.map (·.production.display)).getD ""

def displayAction (p : Parser ρ) : Action → String
  | .shift n => "S" ++ toString n
  | .reduce i => p.displayRule i
  | .accept => "OK"

def listItem (p : Parser ρ) (x : Item) : Option DottedListing :=
  p.rules[x.rule]?.map fun r =>
    .of r.production x.dot ((p.grammar.terminals ++ [p.grammar.endMark]).filter fun s =>
      x.ahead.contains s.id)

def listState (p : Parser ρ) (s : State (List Item)) : StateListing :=
  { tag := s.tag, items := (s.label.filterMap p.listItem).mergeSort DottedListing.le,
    moves := s.moves }

def listRows (p : Parser ρ) (r : Rows) : RowListing × RowListing :=
  let silent := r.silent.toList.map fun n => (Term.epsilonText, [p.displayAction (.shift n)])
  (RowListing.sort (r.action.listing p.displayAction ++ silent),
    RowListing.sort (r.goto.listing toString))

end Parser

/-- How an entry of a table is shown that is given by its parts: a pair by the letters of its action
and what goes with it, anything else as a tuple. -/
def displayEntry : List Datum → String
  | [action, value] =>
    let letters := match action with
      | .text "SHIFT" => "S"
      | .text "OK" => "OK"
      | _ => ""
    letters ++ value.display
  | parts => Text.tupled (Datum.quoteAll parts)

end AutoCool.LR1
