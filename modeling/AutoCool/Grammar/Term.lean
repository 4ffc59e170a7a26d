import AutoCool.Grammar.Error
import AutoCool.Grammar.Symbol
import AutoCool.Text.Blank
import AutoCool.Text.Datum

/-!
# Terms

The right sides of productions are written as terms: symbols are put side by side with `Term.add`
and offered as alternatives with `Term.or`. A term can also be a plain value or a tuple of a right
side and its rules, which is what a production with rules is made from. `ρ` is the type of the
rules.
-/

namespace AutoCool

inductive Term (ρ : Type)
  | epsilon
  | symbol (s : Symbol)
  /-- Symbols side by side; there may be none. A sentence that was made from sentences has these as
  its parts. -/
  | sentence (parts : List (Term ρ))
  | choice (items : List (Term ρ))
  | value (d : Datum)
  | tuple (parts : List (Term ρ))
  | rule (r : ρ)
deriving Inhabited

namespace Term

variable {ρ : Type}

def ofSymbols (symbols : List Symbol) : Term ρ := .sentence (symbols.map .symbol)

def symbolsOf? : List (Term ρ) → Option (List Symbol)
  | [] => some []
  | .symbol s :: ts => (symbolsOf? ts).map (s :: ·)
  | _ :: _ => none

@[simp] theorem symbolsOf?_map_symbol (symbols : List Symbol) :
    symbolsOf? (symbols.map fun s => (.symbol s : Term ρ)) = some symbols := by
  induction symbols with
  | nil => rfl
  | cons s symbols ih => simp [symbolsOf?, ih]

/-! ### Operations -/

/-- Two terms side by side. The empty word is dropped on either side of a symbol. -/
def add : Term ρ → Term ρ → Except GrammarError (Term ρ)
  | .epsilon, t => .ok t
  | .symbol s, .symbol t => .ok (ofSymbols [s, t])
  | .symbol s, .epsilon => .ok (ofSymbols [s])
  | .sentence a, .symbol s => .ok (.sentence (a ++ [.symbol s]))
  | .sentence a, .epsilon => .ok (.sentence a)
  | .sentence a, .sentence b => .ok (.sentence (a ++ b))
  | .value a, .value b => (a.add? b).elim (.error .wrongOperand) fun d => .ok (.value d)
  | .tuple a, .tuple b => .ok (.tuple (a ++ b))
  | _, _ => .error .wrongOperand

/-- Two alternatives, or one more alternative. To a list of alternatives nothing but a sentence or a
symbol can be added: with anything else the result is no term. -/
def or : Term ρ → Term ρ → Except GrammarError (Term ρ)
  | .epsilon, .sentence b => .ok (.choice [.sentence [], .sentence b])
  | .epsilon, .epsilon => .ok (.choice [.sentence [], .epsilon])
  | .symbol s, .sentence b => .ok (.choice [ofSymbols [s], .sentence b])
  | .symbol s, .epsilon => .ok (.choice [ofSymbols [s], .epsilon])
  | .sentence a, .sentence b => .ok (.choice [.sentence a, .sentence b])
  | .sentence a, .epsilon => .ok (.choice [.sentence a, .epsilon])
  | .sentence a, .symbol s => .ok (.choice [.sentence a, ofSymbols [s]])
  | .choice items, .epsilon => .ok (.choice (items ++ [.epsilon]))
  | .choice _, .sentence [] => .error .emptyAlternative
  | .choice items, .sentence b => .ok (.choice (items ++ [.sentence b]))
  | .choice items, .symbol s => .ok (.choice (items ++ [ofSymbols [s]]))
  | .choice _, _ => .ok (.value .nothing)
  | .value a, .value b => (a.or? b).elim (.error .wrongOperand) fun d => .ok (.value d)
  | _, _ => .error .wrongOperand

/-- What a sentence keeps of the terms it is made from. The empty word adds nothing. -/
def partsOf : List (Term ρ) → Except GrammarError (List (Term ρ))
  | [] => .ok []
  | .epsilon :: ts => partsOf ts
  | t@(.symbol _) :: ts | t@(.sentence _) :: ts => do return t :: (← partsOf ts)
  | _ :: _ => .error .notASymbol

def ofParts (parts : List (Term ρ)) : Except GrammarError (Term ρ) := do
  return .sentence (← partsOf parts)

/-! ### Parts -/

/-- Whether a term is the empty word. Only symbols and sentences can be asked. -/
def isEpsilon : Term ρ → Except GrammarError Bool
  | .epsilon => .ok true
  | .symbol _ | .sentence _ => .ok false
  | .choice _ | .value _ | .tuple _ | .rule _ => .error .notASymbol

/-- What a term is made of, one after the other. A symbol, a number and a rule are made of
nothing. -/
def elements : Term ρ → Except GrammarError (List (Term ρ))
  | .epsilon => .ok []
  | .sentence parts | .tuple parts | .choice parts => .ok parts
  | .value d => d.items?.elim (.error .wrongOperand) fun items => .ok (items.map .value)
  | .symbol _ | .rule _ => .error .wrongOperand

def length : Term ρ → Except GrammarError Nat
  | .symbol _ => .ok 1
  | .choice _ => .error .wrongOperand
  | t => do return (← t.elements).length

/-- The name of the empty word. A symbol can have the same name. -/
def epsilonName : String := "epsilon"

def name : Term ρ → Except GrammarError String
  | .epsilon => .ok epsilonName
  | .symbol s => .ok s.name
  | .sentence _ | .choice _ | .value _ | .tuple _ | .rule _ => .error .notASymbol

/-! ### Equality -/

mutual

/-- Whether two terms are equal. Sentences compare by their parts, which a term of another kind does
not have; alternatives and rules are equal to nothing. -/
def same : Term ρ → Term ρ → Except GrammarError Bool
  | .epsilon, .epsilon => .ok true
  | .epsilon, _ | _, .epsilon => .ok false
  | .sentence a, .sentence b => sameParts a b
  | .sentence _, _ | _, .sentence _ => .error .notASymbol
  | .symbol s, .symbol t => .ok (s == t)
  | .value a, .value b => .ok (a.same b)
  | .tuple a, .tuple b => sameParts a b
  | _, _ => .ok false

def sameParts : List (Term ρ) → List (Term ρ) → Except GrammarError Bool
  | [], [] => .ok true
  | a :: as, b :: bs => do if ← same a b then sameParts as bs else return false
  | _, _ => .ok false

end

mutual

/-- Whether two terms have one place in a table. Equal terms have, and so have a sentence and a
tuple with the same parts, which cannot be compared. -/
def alike : Term ρ → Term ρ → Bool
  | .epsilon, .epsilon => true
  | .symbol s, .symbol t => s == t
  | .value a, .value b => a.same b
  | .sentence a, .sentence b | .sentence a, .tuple b | .tuple a, .sentence b | .tuple a, .tuple b =>
    alikeParts a b
  | _, _ => false

def alikeParts : List (Term ρ) → List (Term ρ) → Bool
  | [], [] => true
  | a :: as, b :: bs => alike a b && alikeParts as bs
  | _, _ => false

end

mutual

/-- Whether a term can have a place in a table. Lists and records have none. -/
def isKey : Term ρ → Bool
  | .value (.list _) | .value (.record _) => false
  | .tuple parts => areKeys parts
  | _ => true

def areKeys : List (Term ρ) → Bool
  | [] => true
  | t :: ts => isKey t && areKeys ts

end

/-! ### Display -/

def epsilonText : String := "ε"

mutual

def display : Term ρ → String
  | .epsilon => epsilonText
  | .symbol s => s.name
  | .sentence parts => Text.trim (String.intercalate " " (displayParts parts))
  | .value d => d.display
  | .tuple parts => Text.tupled (quoteParts parts)
  | .choice _ | .rule _ => ""

def displayParts : List (Term ρ) → List String
  | [] => []
  | t :: ts => display t :: displayParts ts

def quote : Term ρ → String
  | .epsilon => epsilonName
  | .symbol s => Text.quote s.name
  | .sentence parts => Text.trim (String.intercalate " " (displayParts parts))
  | .value d => d.quote
  | .tuple parts => Text.tupled (quoteParts parts)
  | .choice _ | .rule _ => ""

def quoteParts : List (Term ρ) → List String
  | [] => []
  | t :: ts => quote t :: quoteParts ts

end

end Term

end AutoCool
