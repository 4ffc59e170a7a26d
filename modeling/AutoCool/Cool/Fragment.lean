import AutoCool.Cool.Syntax
import AutoCool.LR1.Evaluation

/-!
# Fragments of programs

What the rules of the grammar build is a fragment: a token, a list, a tuple, or a node with its
kind, its place and its parts in order. A record of steps can be cut short or go on too far, so a
rule takes what it finds on the stack; whether the parts of a node fit is decided when a whole
fragment is read as a program. A complete parse gives the fragment of a program, and
`Program.ofFragment?` reads it back.
-/

namespace AutoCool.Cool

open LR1 (EvaluationError)

inductive NodeKind
  | program
  | classDecl
  | attributeDecl
  | methodDecl
  | ifThenElse
  | whileLoop
  | block
  | letIn
  | caseOf
  | assign
  | unary (op : UnaryOp)
  | binary (op : BinaryOp)
  | call
  | selfCall
  | new
  | atom (kind : AtomKind)
deriving DecidableEq, Repr

namespace NodeKind

def name : NodeKind → String
  | .program => "Program"
  | .classDecl => "ClassDeclaration"
  | .attributeDecl => "AttrDeclaration"
  | .methodDecl => "FuncDeclaration"
  | .ifThenElse => "IfThenElse"
  | .whileLoop => "WhileLoop"
  | .block => "Block"
  | .letIn => "LetIn"
  | .caseOf => "CaseOf"
  | .assign => "Assign"
  | .unary .not => "Not"
  | .unary .isVoid => "IsVoid"
  | .unary .complement => "Complement"
  | .binary .lessEqual => "LessEqual"
  | .binary .less => "Less"
  | .binary .equal => "Equal"
  | .binary .plus => "Plus"
  | .binary .minus => "Minus"
  | .binary .star => "Star"
  | .binary .div => "Div"
  | .call => "FunctionCall"
  | .selfCall => "MemberCall"
  | .new => "New"
  | .atom .integer => "Integer"
  | .atom .name => "Id"
  | .atom .string => "String"
  | .atom .bool => "Bool"

end NodeKind

def Expr.kind : Expr → NodeKind
  | .ifThenElse .. => .ifThenElse
  | .whileLoop .. => .whileLoop
  | .block .. => .block
  | .letIn .. => .letIn
  | .caseOf .. => .caseOf
  | .assign .. => .assign
  | .unary op _ => .unary op
  | .binary op _ _ => .binary op
  | .call .. => .call
  | .selfCall .. => .selfCall
  | .new _ => .new
  | .atom kind _ => .atom kind

inductive Fragment
  | absent
  | token (t : Token)
  | list (items : List Fragment)
  | tuple (items : List Fragment)
  | node (kind : NodeKind) (place : Position) (parts : List Fragment)

namespace Fragment

/-- Where a fragment stands. Only tokens and nodes have a place. -/
def place : Fragment → Except EvaluationError Position
  | .token t => .ok (position t)
  | .node _ p _ => .ok p
  | .absent | .list _ | .tuple _ => .error .noPlace

def items : Fragment → Except EvaluationError (List Fragment)
  | .list xs | .tuple xs => .ok xs
  | .absent | .token _ | .node .. => .error .wrongShape

def cons (x : Fragment) : Fragment → Except EvaluationError Fragment
  | .list xs => .ok (.list (x :: xs))
  | .absent | .token _ | .tuple _ | .node .. => .error .wrongShape

/-- The fragment from which a node takes its place. A program stands where its first class does, a
block where its last expression does, a `let` where its body does, and a call where the name of the
method does; any other node stands where its first part does. -/
def anchor (kind : NodeKind) (parts : List Fragment) : Except EvaluationError Fragment :=
  let orMissing (x : Option Fragment) := x.elim (.error .missingValue) .ok
  match kind, parts with
  | .program, x :: _ => do orMissing (← x.items).head?
  | .block, x :: _ => do orMissing (← x.items).getLast?
  | .letIn, _ :: x :: _ | .call, _ :: x :: _ => .ok x
  | _, parts => orMissing parts.head?

def make (kind : NodeKind) (parts : List Fragment) : Except EvaluationError Fragment := do
  return .node kind (← (← anchor kind parts).place) parts

/-- The call of a method. What follows the object is a tuple: the name of the method, its arguments,
and possibly a type. -/
def call (object dispatch : Fragment) : Except EvaluationError Fragment := do
  match ← dispatch.items with
  | [name, args] => make .call [object, name, args, .absent]
  | [name, args, type] => make .call [object, name, args, type]
  | _ => throw .wrongShape

def ofToken? (t : Option Token) : Fragment := t.elim .absent .token

mutual

def ofExpr : Expr → Fragment
  | e@(.ifThenElse condition ifBody elseBody) =>
    .node e.kind e.position [ofExpr condition, ofExpr ifBody, ofExpr elseBody]
  | e@(.whileLoop condition body) => .node e.kind e.position [ofExpr condition, ofExpr body]
  | e@(.block expressions) => .node e.kind e.position [.list (ofExprs expressions)]
  | e@(.letIn bindings body) => .node e.kind e.position [.list (ofBindings bindings), ofExpr body]
  | e@(.caseOf subject branches) =>
    .node e.kind e.position [ofExpr subject, .list (ofBranches branches)]
  | e@(.assign name value) => .node e.kind e.position [.token name, ofExpr value]
  | e@(.unary _ operand) => .node e.kind e.position [ofExpr operand]
  | e@(.binary _ left right) => .node e.kind e.position [ofExpr left, ofExpr right]
  | e@(.call object name args type) =>
    .node e.kind e.position [ofExpr object, .token name, .list (ofExprs args), ofToken? type]
  | e@(.selfCall name args) => .node e.kind e.position [.token name, .list (ofExprs args)]
  | e@(.new type) => .node e.kind e.position [.token type]
  | e@(.atom _ t) => .node e.kind e.position [.token t]

def ofExprs : List Expr → List Fragment
  | [] => []
  | e :: es => ofExpr e :: ofExprs es

def ofBindings : List Binding → List Fragment
  | [] => []
  | .mk name type none :: bs => .tuple [.token name, .token type, .absent] :: ofBindings bs
  | .mk name type (some e) :: bs => .tuple [.token name, .token type, ofExpr e] :: ofBindings bs

def ofBranches : List Branch → List Fragment
  | [] => []
  | .mk name type e :: bs => .tuple [.token name, .token type, ofExpr e] :: ofBranches bs

end

def ofParam (p : Param) : Fragment := .tuple [.token p.name, .token p.type]

def ofFeature : Feature → Fragment
  | .attribute name type value =>
    .node .attributeDecl (position name) [.token name, .token type, value.elim .absent ofExpr]
  | .method name params type body =>
    .node .methodDecl (position name)
      [.token name, .list (params.map ofParam), .token type, ofExpr body]

def ofClass (c : ClassDecl) : Fragment :=
  .node .classDecl (position c.name)
    [.token c.name, ofToken? c.parent, .list (c.features.map ofFeature)]

def ofProgram (p : Program) : Fragment :=
  .node .program ((p.classes.head?.map fun c => position c.name).getD ⟨0, 0⟩)
    [.list (p.classes.map ofClass)]

end Fragment

mutual

def Expr.ofFragment? : Fragment → Option Expr
  | .node .ifThenElse _ [condition, ifBody, elseBody] =>
    return .ifThenElse (← Expr.ofFragment? condition) (← Expr.ofFragment? ifBody)
      (← Expr.ofFragment? elseBody)
  | .node .whileLoop _ [condition, body] =>
    return .whileLoop (← Expr.ofFragment? condition) (← Expr.ofFragment? body)
  | .node .block _ [.list expressions] => return .block (← Expr.ofFragments? expressions)
  | .node .letIn _ [.list bindings, body] =>
    return .letIn (← Binding.ofFragments? bindings) (← Expr.ofFragment? body)
  | .node .caseOf _ [subject, .list branches] =>
    return .caseOf (← Expr.ofFragment? subject) (← Branch.ofFragments? branches)
  | .node .assign _ [.token name, value] => return .assign name (← Expr.ofFragment? value)
  | .node (.unary op) _ [operand] => return .unary op (← Expr.ofFragment? operand)
  | .node (.binary op) _ [left, right] =>
    return .binary op (← Expr.ofFragment? left) (← Expr.ofFragment? right)
  | .node .call _ [object, .token name, .list args, .absent] =>
    return .call (← Expr.ofFragment? object) name (← Expr.ofFragments? args) none
  | .node .call _ [object, .token name, .list args, .token type] =>
    return .call (← Expr.ofFragment? object) name (← Expr.ofFragments? args) (some type)
  | .node .selfCall _ [.token name, .list args] => return .selfCall name (← Expr.ofFragments? args)
  | .node .new _ [.token type] => some (.new type)
  | .node (.atom kind) _ [.token t] => some (.atom kind t)
  | _ => none

def Expr.ofFragments? : List Fragment → Option (List Expr)
  | [] => some []
  | x :: xs => return (← Expr.ofFragment? x) :: (← Expr.ofFragments? xs)

def Binding.ofFragments? : List Fragment → Option (List Binding)
  | [] => some []
  | .tuple [.token name, .token type, .absent] :: xs =>
    return .mk name type none :: (← Binding.ofFragments? xs)
  | .tuple [.token name, .token type, value] :: xs =>
    return .mk name type (some (← Expr.ofFragment? value)) :: (← Binding.ofFragments? xs)
  | _ => none

def Branch.ofFragments? : List Fragment → Option (List Branch)
  | [] => some []
  | .tuple [.token name, .token type, body] :: xs =>
    return .mk name type (← Expr.ofFragment? body) :: (← Branch.ofFragments? xs)
  | _ => none

end

def Param.ofFragment? : Fragment → Option Param
  | .tuple [.token name, .token type] => some { name, type }
  | _ => none

def Feature.ofFragment? : Fragment → Option Feature
  | .node .attributeDecl _ [.token name, .token type, .absent] => some (.attribute name type none)
  | .node .attributeDecl _ [.token name, .token type, value] =>
    return .attribute name type (some (← Expr.ofFragment? value))
  | .node .methodDecl _ [.token name, .list params, .token type, body] =>
    return .method name (← params.mapM Param.ofFragment?) type (← Expr.ofFragment? body)
  | _ => none

def ClassDecl.ofFragment? : Fragment → Option ClassDecl
  | .node .classDecl _ [.token name, .absent, .list features] =>
    return { name, features := ← features.mapM Feature.ofFragment? }
  | .node .classDecl _ [.token name, .token parent, .list features] =>
    return { name, parent := some parent, features := ← features.mapM Feature.ofFragment? }
  | _ => none

def Program.ofFragment? : Fragment → Option Program
  | .node .program _ [.list classes] => return ⟨← classes.mapM ClassDecl.ofFragment?⟩
  | _ => none

end AutoCool.Cool
