import AutoCool.LR1.States

/-!
# Parsing tables

Every state has a row of actions by terminal and a row of destinations by nonterminal. A cell holds
all that the items of the state ask for; the grammar is LR(1) when no cell holds two things.
-/

namespace AutoCool.LR1

inductive Action
  | shift (state : Nat)
  | reduce (rule : Nat)
  | accept
deriving DecidableEq, Repr

abbrev Row (α : Type) := List (Symbol × List α)

namespace Row

variable {α : Type} [DecidableEq α]

def register (row : Row α) (s : Symbol) (v : α) : Row α :=
  match row with
  | [] => [(s, [v])]
  | (t, cell) :: row =>
    if t == s then (t, if v ∈ cell then cell else cell ++ [v]) :: row
    else (t, cell) :: register row s v

def first? (row : Row α) (s : Symbol) : Option α := (row.lookup s).bind (·.head?)

/-- Whether the cell of a symbol holds one thing. -/
def isSingle (row : Row α) (s : Symbol) : Bool := (row.lookup s).any (·.length == 1)

end Row

structure Rows where
  action : Row Action := []
  goto : Row Nat := []
  /-- The shift that an item before the empty word asks for. No token is of that type, so it is
  never made. -/
  silent : Option Nat := none
  /-- Whether the cell held one thing after every registration. -/
  single : Bool := true

def Rows.act (rows : Rows) (s : Symbol) (v : Action) : Rows :=
  let action := rows.action.register s v
  { rows with action, single := rows.single && action.isSingle s }

def Rows.move (rows : Rows) (s : Symbol) (target : Nat) : Rows :=
  let goto := rows.goto.register s target
  { rows with goto, single := rows.single && goto.isSingle s }

variable {ρ : Type}

def destination (state : State (List Item)) (name : String) : Except GrammarError Nat :=
  match (state.get? name).bind (·.head?) with
  | some target => .ok target
  | none => .error .noMove

/-- What one item asks of the rows of its state: at the end of its right side a reduction for every
lookahead, or acceptance if the head is the new start symbol, and before a symbol or the empty word
the move over its name. -/
def registerItem (g : Grammar ρ) (rules : Array (Rule ρ)) (state : State (List Item)) (rows : Rows)
    (x : Item) : Except GrammarError Rows :=
  match rules[x.rule]? with
  | none => .ok rows
  | some rule =>
    match rule.next? x.dot with
    | some s => do
      let target ← destination state s.name
      if s.isTerminal then return rows.act s (.shift target)
      else return rows.move s target
    | none =>
      match rule.obstacle with
      | some (.wall e) => .error e
      | some .gap => .error .notASymbol
      | some .epsilon => do return { rows with silent := ← destination state Term.epsilonName }
      | none =>
        if g.start == some rule.production.head then .ok (rows.act g.endMark .accept)
        else
          let ahead := (g.terminals ++ [g.endMark]).filter fun s => x.ahead.contains s.id
          .ok (ahead.foldl (fun rows s => rows.act s (.reduce x.rule)) rows)

def rowsOf (g : Grammar ρ) (rules : Array (Rule ρ)) (state : State (List Item)) :
    Except GrammarError Rows :=
  state.label.foldlM (registerItem g rules state) {}

end AutoCool.LR1
