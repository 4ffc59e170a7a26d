import AutoCool.Token

/-!
# The abstract form of Cool programs

A program is a list of classes, a class a list of features, and the bodies of features are
expressions. Names, types and literals are kept as tokens, so that every node knows where it stands:
the position of a node is that of one of its parts.
-/

namespace AutoCool.Cool

inductive UnaryOp
  | not
  | isVoid
  | complement
deriving DecidableEq, Repr

inductive BinaryOp
  | lessEqual
  | less
  | equal
  | plus
  | minus
  | star
  | div
deriving DecidableEq, Repr

inductive AtomKind
  | integer
  | name
  | string
  | bool
deriving DecidableEq, Repr

mutual

inductive Expr
  | ifThenElse (condition ifBody elseBody : Expr)
  | whileLoop (condition body : Expr)
  | block (expressions : List Expr)
  | letIn (bindings : List Binding) (body : Expr)
  | caseOf (subject : Expr) (branches : List Branch)
  | assign (name : Token) (value : Expr)
  | unary (op : UnaryOp) (operand : Expr)
  | binary (op : BinaryOp) (left right : Expr)
  | call (object : Expr) (name : Token) (args : List Expr) (type : Option Token)
  | selfCall (name : Token) (args : List Expr)
  | new (type : Token)
  | atom (kind : AtomKind) (token : Token)

inductive Binding
  | mk (name type : Token) (value : Option Expr)

inductive Branch
  | mk (name type : Token) (body : Expr)

end

instance : Inhabited Expr := ⟨.atom .integer { type := Symbol.endMark 0, lexeme := .int 0 }⟩

structure Param where
  name : Token
  type : Token
deriving DecidableEq

inductive Feature
  | attribute (name type : Token) (value : Option Expr)
  | method (name : Token) (params : List Param) (type : Token) (body : Expr)

structure ClassDecl where
  name : Token
  parent : Option Token := none
  features : List Feature

structure Program where
  classes : List ClassDecl

structure Position where
  line : Nat
  column : Nat
deriving DecidableEq, Repr, Inhabited

def position (t : Token) : Position := ⟨t.line, t.column⟩

namespace Expr

mutual

def position : Expr → Position
  | .ifThenElse condition _ _ | .whileLoop condition _ => condition.position
  | .block expressions => lastPosition expressions
  | .letIn _ body => body.position
  | .caseOf subject _ => subject.position
  | .assign name _ | .call _ name _ _ | .selfCall name _ => Cool.position name
  | .unary _ operand => operand.position
  | .binary _ left _ => left.position
  | .new type => Cool.position type
  | .atom _ token => Cool.position token

def lastPosition : List Expr → Position
  | [] => ⟨0, 0⟩
  | [e] => e.position
  | _ :: e :: es => lastPosition (e :: es)

end

mutual

def nodes : Expr → List Expr
  | e@(.ifThenElse condition ifBody elseBody) =>
    e :: (condition.nodes ++ ifBody.nodes ++ elseBody.nodes)
  | e@(.whileLoop condition body) => e :: (condition.nodes ++ body.nodes)
  | e@(.block expressions) => e :: nodesOf expressions
  | e@(.letIn bindings body) => e :: (nodesOfBindings bindings ++ body.nodes)
  | e@(.caseOf subject branches) => e :: (subject.nodes ++ nodesOfBranches branches)
  | e@(.assign _ value) => e :: value.nodes
  | e@(.unary _ operand) => e :: operand.nodes
  | e@(.binary _ left right) => e :: (left.nodes ++ right.nodes)
  | e@(.call object _ args _) => e :: (object.nodes ++ nodesOf args)
  | e@(.selfCall _ args) => e :: nodesOf args
  | e@(.new _) => [e]
  | e@(.atom _ _) => [e]

def nodesOf : List Expr → List Expr
  | [] => []
  | e :: es => e.nodes ++ nodesOf es

def nodesOfBindings : List Binding → List Expr
  | [] => []
  | .mk _ _ none :: bs => nodesOfBindings bs
  | .mk _ _ (some e) :: bs => e.nodes ++ nodesOfBindings bs

def nodesOfBranches : List Branch → List Expr
  | [] => []
  | .mk _ _ e :: bs => e.nodes ++ nodesOfBranches bs

end

mutual

def size : Expr → Nat
  | .ifThenElse condition ifBody elseBody => condition.size + ifBody.size + elseBody.size + 1
  | .whileLoop condition body => condition.size + body.size + 1
  | .block expressions => sizeOfExprs expressions + 1
  | .letIn bindings body => sizeOfBindings bindings + body.size + 1
  | .caseOf subject branches => subject.size + sizeOfBranches branches + 1
  | .assign _ value => value.size + 1
  | .unary _ operand => operand.size + 1
  | .binary _ left right => left.size + right.size + 1
  | .call object _ args _ => object.size + sizeOfExprs args + 1
  | .selfCall _ args => sizeOfExprs args + 1
  | .new _ => 1
  | .atom _ _ => 1

def sizeOfExprs : List Expr → Nat
  | [] => 0
  | e :: es => e.size + sizeOfExprs es

def sizeOfBindings : List Binding → Nat
  | [] => 0
  | .mk _ _ none :: bs => sizeOfBindings bs
  | .mk _ _ (some e) :: bs => e.size + sizeOfBindings bs

def sizeOfBranches : List Branch → Nat
  | [] => 0
  | .mk _ _ e :: bs => e.size + sizeOfBranches bs

end

mutual

@[simp] theorem length_nodes : (e : Expr) → e.nodes.length = e.size
  | .ifThenElse c t e =>
    by simp [nodes, size, length_nodes c, length_nodes t, length_nodes e, Nat.add_assoc]
  | .whileLoop c b => by simp [nodes, size, length_nodes c, length_nodes b]
  | .block es => by simp [nodes, size, length_nodesOf es]
  | .letIn bs e => by simp [nodes, size, length_nodesOfBindings bs, length_nodes e]
  | .caseOf e bs => by simp [nodes, size, length_nodes e, length_nodesOfBranches bs]
  | .assign _ e => by simp [nodes, size, length_nodes e]
  | .unary _ e => by simp [nodes, size, length_nodes e]
  | .binary _ l r => by simp [nodes, size, length_nodes l, length_nodes r]
  | .call e _ es _ => by simp [nodes, size, length_nodes e, length_nodesOf es]
  | .selfCall _ es => by simp [nodes, size, length_nodesOf es]
  | .new _ => by simp [nodes, size]
  | .atom _ _ => by simp [nodes, size]

theorem length_nodesOf : (es : List Expr) → (nodesOf es).length = sizeOfExprs es
  | [] => by simp [nodesOf, sizeOfExprs]
  | e :: es => by simp [nodesOf, sizeOfExprs, length_nodes e, length_nodesOf es]

theorem length_nodesOfBindings : (bs : List Binding) →
    (nodesOfBindings bs).length = sizeOfBindings bs
  | [] => by simp [nodesOfBindings, sizeOfBindings]
  | .mk _ _ none :: bs => by simp [nodesOfBindings, sizeOfBindings, length_nodesOfBindings bs]
  | .mk _ _ (some e) :: bs => by
    simp [nodesOfBindings, sizeOfBindings, length_nodes e, length_nodesOfBindings bs]

theorem length_nodesOfBranches : (bs : List Branch) →
    (nodesOfBranches bs).length = sizeOfBranches bs
  | [] => by simp [nodesOfBranches, sizeOfBranches]
  | .mk _ _ e :: bs =>
    by simp [nodesOfBranches, sizeOfBranches, length_nodes e, length_nodesOfBranches bs]

end

end Expr

def Feature.nodes : Feature → List Expr
  | .attribute _ _ none => []
  | .attribute _ _ (some e) => e.nodes
  | .method _ _ _ body => body.nodes

def Program.nodes (p : Program) : List Expr :=
  p.classes.flatMap fun c => c.features.flatMap Feature.nodes

end AutoCool.Cool
