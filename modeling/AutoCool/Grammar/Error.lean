/-!
# What can go wrong with a grammar
-/

namespace AutoCool

inductive GrammarError
  | emptyName
  | secondStart
  | mixedForms
  /-- A right side with rules has one for the head and one for each of its symbols. -/
  | ruleCount
  | shortTuple
  /-- The first entry of a tuple is no right side. -/
  | notARightSide
  /-- An operation was given something it does not apply to. -/
  | wrongOperand
  /-- An empty sentence cannot follow other alternatives. -/
  | emptyAlternative
  /-- Something that is no symbol or no sentence was asked for what only these have. -/
  | notASymbol
  | unknownSymbol
  | unknownName
  | missingField
  | outOfRange
  | unreadable
  | tooLong
  | noStart
  /-- A right side expects a symbol that no state can move on. -/
  | noMove
deriving DecidableEq, Repr

def GrammarError.message : GrammarError → String
  | .emptyName => "Empty name"
  | .secondStart => "Cannot define more than one start symbol."
  | .mixedForms => "The Productions most be of only 1 type."
  | .ruleCount => "Debe definirse una, y solo una, regla por cada símbolo de la producción"
  | _ => ""

end AutoCool
