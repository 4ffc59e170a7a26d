import AutoCool.Types.Order

/-!
# Trees of scopes

A scope has variables of its own and a parent, of whose variables it sees those that were there when
it was made. Scopes and variables are known by number, so that the variable found from two places
can be told to be the same.
-/

namespace AutoCool

abbrev ScopeId := Nat

abbrev VarId := Nat

/-- A scope: its parent, how many of the parent's variables it sees, its own variables and its
children. -/
structure Scope where
  parent : Option ScopeId := none
  index : Nat := 0
  locals : List (String × VarId) := []
  children : List ScopeId := []
deriving DecidableEq, Repr, Inhabited

/-- Scopes and variables by number. The root of the tree has number 0. -/
structure ScopeTree where
  scopes : Array Scope := #[{}]
  vars : Array Variable := #[]

namespace ScopeTree

def root : ScopeId := 0

def get (t : ScopeTree) (s : ScopeId) : Scope := t.scopes.getD s default

def getVar (t : ScopeTree) (v : VarId) : Variable := t.vars.getD v default

def createChild (t : ScopeTree) (s : ScopeId) : ScopeId × ScopeTree :=
  let child := t.scopes.size
  let scopes := t.scopes.push { parent := some s, index := (t.get s).locals.length }
  (child, { t with scopes := scopes.modify s fun scope =>
    { scope with children := scope.children ++ [child] } })

def newVariable (t : ScopeTree) (v : Variable) : VarId × ScopeTree :=
  (t.vars.size, { t with vars := t.vars.push v })

def define (t : ScopeTree) (s : ScopeId) (name : String) (type : TypeId) : VarId × ScopeTree :=
  let (v, t) := t.newVariable (Variable.ofType name type)
  (v, { t with scopes := t.scopes.modify s fun scope =>
    { scope with locals := scope.locals ++ [(name, v)] } })

def modify (t : ScopeTree) (v : VarId) (f : Variable → Variable) : ScopeTree :=
  { t with vars := t.vars.modify v f }

/-- The first variable of a name among the first `limit` ones of a scope, or what the parent gives.
A parent has a lower number than its children. -/
def findWithin (t : ScopeTree) (s : ScopeId) (name : String) (limit : Option Nat) : Option VarId :=
  let scope := t.get s
  match (limit.elim scope.locals fun n => scope.locals.take n).lookup name with
  | some v => some v
  | none =>
    match scope.parent with
    | none => none
    | some p => if p < s then t.findWithin p name (some scope.index) else none
termination_by s

def find (t : ScopeTree) (s : ScopeId) (name : String) : Option VarId := t.findWithin s name none

def isLocal (t : ScopeTree) (s : ScopeId) (name : String) : Bool :=
  (t.get s).locals.any (·.1 == name)

/-- The scopes from one downwards with their depths, each one before its children. A tree of `fuel`
scopes has no deeper one. -/
def below (t : ScopeTree) : (fuel : Nat) → (depth : Nat) → ScopeId → List (ScopeId × Nat)
  | 0, _, _ => []
  | fuel + 1, depth, s => (s, depth) :: (t.get s).children.flatMap (t.below fuel (depth + 1))

def preorder (t : ScopeTree) (s : ScopeId) : List (ScopeId × Nat) := t.below (t.scopes.size + 1) 0 s

def hasLocals (t : ScopeTree) (s : ScopeId) : Bool := !(t.get s).locals.isEmpty

def localVariables (t : ScopeTree) (s : ScopeId) : List Variable :=
  (t.get s).locals.map fun (_, v) => t.getVar v

end ScopeTree

end AutoCool
