import AutoCool.LR1.Parser

/-!
# Evaluation of a parse

A parse is evaluated bottom up along its record of steps: a shift puts the value of the next token
on a stack, and a reduction applies the rule of its production to the values of the right side.
-/

namespace AutoCool.LR1

inductive EvaluationError
  | noToken
  | noProduction
  | noRules
  | inheritedRule
  | notApplicable
  | missingValue
  | wrongShape
  | noPlace
  | notSingle
  | notAtEnd
  | invalidAction
deriving DecidableEq, Repr

def EvaluationError.message : EvaluationError → String
  | .inheritedRule => "There must be only synteticed attributes."
  | .invalidAction => "Invalid action!!!"
  | _ => ""

structure Evaluation (ρ α : Type) where
  stack : List α := []
  productions : List (Production ρ)
  tokens : List Token

namespace Evaluation

variable {ρ α : Type}

/-- The rule of a production: it is that of the head, and the only one. -/
def ruleOf (p : Production ρ) : Except EvaluationError ρ :=
  match p.slots with
  | none => .error .noRules
  | some [] => .error .notApplicable
  | some (slot :: rest) =>
    if rest.any Option.isSome then .error .inheritedRule
    else match slot with
      | some (.rule r) => .ok r
      | _ => .error .notApplicable

/-- One step. `apply` applies a rule to the values of a right side, and `leaf` is the value of a
token. When the stack holds fewer values than the right side has symbols, the rule gets those that
there are. -/
def step (apply : ρ → List α → Except EvaluationError α) (leaf : Token → α) (e : Evaluation ρ α) :
    Operation → Except EvaluationError (Evaluation ρ α)
  | .shift =>
    match e.tokens with
    | [] => .error .noToken
    | t :: tokens => .ok { e with stack := leaf t :: e.stack, tokens }
  | .reduce =>
    match e.productions with
    | [] => .error .noProduction
    | p :: productions => do
      let rule ← ruleOf p
      let n := p.body.length
      let v ← apply rule (e.stack.take n).reverse
      return { e with stack := v :: e.stack.drop n, productions }
  | .other _ => .error .invalidAction

end Evaluation

variable {ρ α : Type}

/-- The value of a parse. There is none when the productions, the steps or the tokens are
missing. -/
def evaluate (apply : ρ → List α → Except EvaluationError α) (leaf : Token → α)
    (productions : List (Production ρ))
    (operations : List Operation) (tokens : List Token) : Except EvaluationError (Option α) := do
  if productions.isEmpty || operations.isEmpty || tokens.isEmpty then return none
  let e ← operations.foldlM (Evaluation.step apply leaf) { productions, tokens }
  match e.stack with
  | [v] =>
    match e.tokens with
    | [] => throw .noToken
    | t :: _ => if t.type.kind == .endMark then return some v else throw .notAtEnd
  | _ => throw .notSingle

inductive ParseTree
  | leaf (t : Token)
  | node (label : String) (children : List ParseTree)

end AutoCool.LR1
