import AutoCool.Cool.Analysis

/-!
# Checking types

The checker walks over a program once. It makes the scopes, gives every expression a type and says
where types do not fit. Every expression gets a scope of its own, a child of the scope around it.
-/

namespace AutoCool.Cool

/-- Where an expression stands: its class, and the method that was met last, which for the value of
an attribute is not around it. -/
structure Site where
  cls : TypeId
  method : Option String

namespace Checking

open Analyzing

def expect (place : Position) (source : Option TypeId) (target : TypeId) : Analyzing Unit := do
  let source ← present source
  unless ← conforms source target do
    report place (.cannotConvert (← nameOf source) (← nameOf target))

/-- Whether two types both conform to the type of integers. The second one is not asked when the
first does not. -/
def bothInt (left right : Option TypeId) : Analyzing Bool := do
  if ← conforms (← present left) Builtin.int then conforms (← present right) Builtin.int
  else return false

def differ (left right target : TypeId) : Analyzing Bool := do
  let l ← conforms left target
  let r ← conforms right target
  return l != r

def checkOperands (place : Position) (op : BinaryOp) (left right : Option TypeId) :
    Analyzing Unit := do
  match op with
  | .lessEqual | .less =>
    unless ← bothInt left right do
      report place (.noOperation (← nameOf (← present right)) (← nameOf Builtin.int))
  | .plus | .minus | .star | .div =>
    unless ← bothInt left right do
      report place (.noOperation (← nameOf (← present left)) (← nameOf (← present right)))
  | .equal =>
    if left == some TypeId.auto || right == some TypeId.auto then return
    let l ← present left
    let r ← present right
    let mut wrong := false
    for target in [Builtin.int, Builtin.string, Builtin.bool] do
      unless wrong do wrong ← differ l r target
    if wrong then report place (.noOperation (← nameOf l) (← nameOf r))

def typeOfOperation : BinaryOp → TypeId
  | .lessEqual | .less | .equal => Builtin.bool
  | .plus | .minus | .star | .div => Builtin.int

def typeOrWrong (name : Token) : Analyzing TypeId := do
  match ← attempt (·.find name.text) with
  | .ok t => return t
  | .error e =>
    report (position name) (.declaration e)
    return TypeId.error

/-- The type of a name that may not be the type of the object itself or one that is to be
inferred. -/
def concreteOrWrong (name : Token) (complaint : Types → TypeId → Complaint) : Analyzing TypeId := do
  let t ← typeOrWrong name
  match TypeId.kind t with
  | .self | .auto =>
    report (position name) (complaint (← get).types t)
    return TypeId.error
  | _ => return t

/-- The method that a call means and the type of the call, which is wrong without a method. -/
def callee (name : Token) (target : TypeId) : Analyzing (TypeId × Option Method) := do
  match ← attempt (·.findMethod target name.text) with
  | .ok (_, m) => return (ownType target m.returnType, some m)
  | .error e =>
    report (position name) (.declaration e)
    return (TypeId.error, none)

def expectAll : List (Expr × Option TypeId) → List TypeId → Analyzing Unit
  | (e, t) :: args, p :: params => do
    expect e.position t p
    expectAll args params
  | _, _ => pure ()

def checkCall (name : Token) (method : Option Method) (args : List (Expr × Option TypeId)) :
    Analyzing Unit := do
  match method with
  | some m =>
    if args.length == m.paramTypes.length then expectAll args m.paramTypes
    else report (position name) (.noDispatch name.text)
  | none => report (position name) (.noDispatch name.text)

def checkAssign (site : Site) (scope : ScopeId) (name : Token) (value : Expr)
    (type : Option TypeId) :
    Analyzing Unit := do
  match ← resolve scope name.text with
  | some v =>
    if name.text == "self" then report (position name) .readOnlySelf
    else expect value.position type (← variableOf v).type
  | none => report (position name) (.noVariable name.text (← present site.method))

def typeOfName (site : Site) (scope : ScopeId) (name : Token) : Analyzing TypeId := do
  match ← resolve scope name.text with
  | some v => return (← variableOf v).type
  | none =>
    report (position name) (.noVariable name.text (← present site.method))
    return TypeId.error

mutual

def checkExpr (site : Site) (scope : ScopeId) (e : Expr) : Analyzing (Option TypeId) := do
  let i ← enter scope
  match e with
  | .ifThenElse condition ifBody elseBody =>
    let conditionType ← checkExpr site (← newChild scope) condition
    expect condition.position conditionType Builtin.bool
    let ifType ← checkExpr site (← newChild scope) ifBody
    let elseType ← checkExpr site (← newChild scope) elseBody
    settle i (← join ifType elseType)
  | .whileLoop condition body =>
    let conditionType ← checkExpr site (← newChild scope) condition
    expect condition.position conditionType Builtin.bool
    let _ ← checkExpr site (← newChild scope) body
    settle i (some Builtin.object)
  | .block expressions =>
    match (← checkExprs site scope expressions).getLast? with
    | some (_, t) => settle i t
    | none => throw .outOfRange
  | .letIn bindings body =>
    checkBindings site scope bindings
    let bodyType ← checkExpr site (← newChild scope) body
    settle i bodyType
  | .caseOf subject branches =>
    let _ ← checkExpr site (← newChild scope) subject
    checkBranches site scope i (← settle i none) branches
  | .assign name value =>
    let type ← checkExpr site (← newChild scope) value
    checkAssign site scope name value type
    settle i type
  | .unary op operand =>
    let type ← checkExpr site (← newChild scope) operand
    match op with
    | .not =>
      expect operand.position type Builtin.bool
      settle i (some Builtin.bool)
    | .isVoid => settle i (some Builtin.bool)
    | .complement =>
      expect operand.position type Builtin.int
      settle i (some Builtin.int)
  | .binary op left right =>
    let leftType ← checkExpr site (← newChild scope) left
    let rightType ← checkExpr site (← newChild scope) right
    checkOperands left.position op leftType rightType
    settle i (some (typeOfOperation op))
  | .call object name args type =>
    let objectType ← checkExpr site (← newChild scope) object
    let target ← match type with
      | none => present objectType
      | some type => do
        let t ← concreteOrWrong type fun ts t => .dispatchType (ts.displayType t)
        expect object.position objectType t
        pure t
    let (type, method) ← callee name target
    let argTypes ← checkExprs site scope args
    checkCall name method argTypes
    settle i (some type)
  | .selfCall name args =>
    let (type, method) ← callee name site.cls
    let argTypes ← checkExprs site scope args
    checkCall name method argTypes
    settle i (some type)
  | .new type => settle i (some (← typeOrWrong type))
  | .atom kind token =>
    match kind with
    | .integer => settle i (some Builtin.int)
    | .string => settle i (some Builtin.string)
    | .bool => settle i (some Builtin.bool)
    | .name => settle i (some (← typeOfName site scope token))

def checkExprs (site : Site) (scope : ScopeId) : List Expr → Analyzing (List (Expr × Option TypeId))
  | [] => pure []
  | e :: es => do
    let type ← checkExpr site (← newChild scope) e
    return (e, type) :: (← checkExprs site scope es)

def checkBindings (site : Site) (scope : ScopeId) : List Binding → Analyzing Unit
  | [] => pure ()
  | .mk name type value :: bindings => do
    let declared ← typeOrWrong type
    let type := ownType site.cls declared
    let child ← newChild scope
    match value with
    | none => pure ()
    | some e =>
      let valueType ← checkExpr site child e
      expect e.position valueType type
    define scope name.text type
    checkBindings site scope bindings

def checkBranches (site : Site) (scope : ScopeId) (i : Nat) (total : Option TypeId) :
    List Branch → Analyzing (Option TypeId)
  | [] => return total
  | .mk name type body :: branches => do
    let t ← concreteOrWrong type fun ts t => .branchType (ts.name t)
    let child ← newChild scope
    define child name.text t
    let bodyType ← checkExpr site child body
    let total ← match total with
      | some _ => settle i (← join total bodyType)
      | none => settle i bodyType
    checkBranches site scope i total branches

end

def sameTypes (ts us : List TypeId) : Bool :=
  ts.length == us.length && (ts.zip us).all fun (t, u) => TypeId.same t u

def checkOverride (cls : TypeId) (name : Token) (m : Method) : Analyzing Unit := do
  match (← get).types.parent? cls with
  | none => pure ()
  | some parent =>
    match ← attempt (·.findMethod parent name.text) with
    | .error _ => pure ()
    | .ok (_, n) =>
      unless sameTypes n.paramTypes m.paramTypes && TypeId.same n.returnType m.returnType do
        report (position name) (.differentSignature m.name (← nameOf cls) (← nameOf parent))

def checkFeature (site : Site) (scope : ScopeId) : Feature → Analyzing (Option String)
  | .attribute _ _ none => return site.method
  | .attribute name _ (some value) => do
    let type ← checkExpr site (← newChild scope) value
    let (_, a) ← ask (·.findAttribute site.cls name.text)
    expect value.position type (ownType site.cls a.type)
    return site.method
  | .method name _ _ body => do
    let (_, m) ← ask (·.findMethod site.cls name.text)
    checkOverride site.cls name m
    define scope "self" site.cls
    (m.paramNames.zip m.paramTypes).forM fun (p, t) => define scope p t
    let type ← checkExpr { site with method := some m.name } (← newChild scope) body
    expect body.position type (ownType site.cls m.returnType)
    return some m.name

def checkFeatures (scope : ScopeId) : Site → List Feature → Analyzing (Option String)
  | site, [] => return site.method
  | site, f :: fs => do
    let method ← checkFeature site (← newChild scope) f
    checkFeatures scope { site with method } fs

/-- Whether a type stands above itself, going from one of the types above it upwards. A chain of
more than `fuel` types that does not come back to the type has no end. -/
def closesCycle (ts : Types) (t : TypeId) : (fuel : Nat) → Option TypeId → Except Failure Bool
  | _, none => .ok false
  | 0, some _ => .error .cyclic
  | fuel + 1, some p => if p == t then .ok true else closesCycle ts t fuel (ts.parent? p)

def breakCycle (c : ClassDecl) (t : TypeId) : Analyzing Unit := do
  if ← ask fun ts => closesCycle ts t ts.height (ts.parent? t) then
    report (position c.name) (.cyclicHeritage (← nameOf t))
    modify fun a =>
      { a with types := a.types.modify t fun e => { e with parent := some Builtin.object } }

def checkClass (method : Option String) (scope : ScopeId) (c : ClassDecl) :
    Analyzing (Option String) := do
  let cls ← ask (·.find c.name.text)
  breakCycle c cls
  ((← get).types.get cls).attributes.forM fun a => define scope a.name a.type
  checkFeatures scope { cls, method } c.features

def checkClasses : (method : Option String) → List ClassDecl → Analyzing Unit
  | _, [] => pure ()
  | method, c :: cs => do
    let method ← checkClass method (← newChild ScopeTree.root) c
    checkClasses method cs

end Checking

def check (p : Program) : Analyzing Unit := Checking.checkClasses none p.classes

end AutoCool.Cool
