import AutoCool.Proofs.Cool.Declaring
import AutoCool.Proofs.Cool.Layout
import AutoCool.Proofs.Types.Order

/-!
# The typing rules of Cool

`HasType` is the typing judgement over a table of types, for the expressions of a class. It is
stated without the checker: an environment is a list of names with their types, the innermost one
first, methods are looked up in the nearest type that has them, and where a value is handed over its
type is below the one that is declared. Together with the type of an expression a derivation gives
the types of all expressions below it, in the order of `Expr.nodes`.

One rule is a parameter. A call through a named type may mean a method whose result is of the type
of the object itself; `stands object named` is the type that this stands for, given the type of the
object and the named type (`asObject`, `asNamed`).
-/

namespace AutoCool.Cool

/-- The names that may be used, the innermost one first, with their types. -/
abbrev Env := List (String × TypeId)

/-- The method of a name in the nearest type that has one. -/
inductive HasMethod (ts : Types) : TypeId → String → Method → Prop
  | own {t m} : m ∈ (ts.get t).methods → HasMethod ts t m.name m
  | inherited {t u name m} : (∀ n ∈ (ts.get t).methods, n.name ≠ name) → ts.parent? t = some u →
      HasMethod ts u name m → HasMethod ts t name m

/-- Two types may be compared: a basic type only with itself. -/
def Comparable (t u : TypeId) : Prop :=
  ∀ b ∈ [Builtin.int, Builtin.string, Builtin.bool], t = b ↔ u = b

def Binding.type : Binding → String
  | .mk _ type _ => type.text

def Branch.type : Branch → String
  | .mk _ type _ => type.text

mutual

/-- An expression has a type, and those below it have the types that are listed. -/
inductive HasType (ts : Types) (stands : TypeId → TypeId → TypeId) (cls : TypeId) :
    Env → Expr → TypeId → List TypeId → Prop
  | ifThenElse {Γ c x y t u w cs xs ys} : HasType ts stands cls Γ c Builtin.bool cs →
      HasType ts stands cls Γ x t xs →
      HasType ts stands cls Γ y u ys → ts.LeastAbove [t, u] w →
      HasType ts stands cls Γ (.ifThenElse c x y) w (Builtin.bool :: cs ++ t :: xs ++ u :: ys)
  | whileLoop {Γ c x t cs xs} : HasType ts stands cls Γ c Builtin.bool cs →
      HasType ts stands cls Γ x t xs →
      HasType ts stands cls Γ (.whileLoop c x) Builtin.object (Builtin.bool :: cs ++ t :: xs)
  | block {Γ es types t l} : HaveTypes ts stands cls Γ es types l → types.getLast? = some t →
      HasType ts stands cls Γ (.block es) t l
  | letIn {Γ Γ' bs x t l xs} : Binds ts stands cls Γ bs Γ' l → HasType ts stands cls Γ' x t xs →
      HasType ts stands cls Γ (.letIn bs x) t (l ++ t :: xs)
  | caseOf {Γ x bs t w types xs l} : HasType ts stands cls Γ x t xs →
      BranchTypes ts stands cls Γ bs types l →
      ts.LeastAbove types w → HasType ts stands cls Γ (.caseOf x bs) w (t :: xs ++ l)
  | assign {Γ name x t u xs} : Γ.lookup name.text = some u → name.text ≠ "self" →
      HasType ts stands cls Γ x t xs →
      ts.Sub t u → HasType ts stands cls Γ (.assign name x) t (t :: xs)
  | not {Γ x xs} : HasType ts stands cls Γ x Builtin.bool xs →
      HasType ts stands cls Γ (.unary .not x) Builtin.bool (Builtin.bool :: xs)
  | isVoid {Γ x t xs} : HasType ts stands cls Γ x t xs →
      HasType ts stands cls Γ (.unary .isVoid x) Builtin.bool (t :: xs)
  | complement {Γ x xs} : HasType ts stands cls Γ x Builtin.int xs →
      HasType ts stands cls Γ (.unary .complement x) Builtin.int (Builtin.int :: xs)
  | arithmetic {Γ op x y xs ys} : op ∈ [BinaryOp.plus, .minus, .star, .div] →
      HasType ts stands cls Γ x Builtin.int xs → HasType ts stands cls Γ y Builtin.int ys →
      HasType ts stands cls Γ (.binary op x y) Builtin.int (Builtin.int :: xs ++ Builtin.int :: ys)
  | comparison {Γ op x y xs ys} : op ∈ [BinaryOp.less, .lessEqual] →
      HasType ts stands cls Γ x Builtin.int xs → HasType ts stands cls Γ y Builtin.int ys →
      HasType ts stands cls Γ (.binary op x y) Builtin.bool (Builtin.int :: xs ++ Builtin.int :: ys)
  | equal {Γ x y t u xs ys} : HasType ts stands cls Γ x t xs → HasType ts stands cls Γ y u ys →
      Comparable t u →
      HasType ts stands cls Γ (.binary .equal x y) Builtin.bool (t :: xs ++ u :: ys)
  | call {Γ x name es t m types xs l} : HasType ts stands cls Γ x t xs →
      HasMethod ts t name.text m →
      HaveTypes ts stands cls Γ es types l → List.Forall₂ ts.Sub types m.paramTypes →
      HasType ts stands cls Γ (.call x name es none) (ownType t m.returnType) (t :: xs ++ l)
  | namedCall {Γ x name es type t u m types xs l} : HasType ts stands cls Γ x t xs →
      ts.find type.text = .ok u →
      ts.Sub t u → HasMethod ts u name.text m → HaveTypes ts stands cls Γ es types l →
      List.Forall₂ ts.Sub types m.paramTypes →
      HasType ts stands cls Γ (.call x name es (some type)) (ownType (stands t u) m.returnType)
        (t :: xs ++ l)
  | selfCall {Γ name es m types l} : HasMethod ts cls name.text m →
      HaveTypes ts stands cls Γ es types l →
      List.Forall₂ ts.Sub types m.paramTypes →
      HasType ts stands cls Γ (.selfCall name es) (ownType cls m.returnType) l
  | new {Γ type t} : ts.find type.text = .ok t → HasType ts stands cls Γ (.new type) t []
  | integer {Γ token} : HasType ts stands cls Γ (.atom .integer token) Builtin.int []
  | string {Γ token} : HasType ts stands cls Γ (.atom .string token) Builtin.string []
  | bool {Γ token} : HasType ts stands cls Γ (.atom .bool token) Builtin.bool []
  | name {Γ token t} : Γ.lookup token.text = some t →
      HasType ts stands cls Γ (.atom .name token) t []

/-- Some expressions have types. -/
inductive HaveTypes (ts : Types) (stands : TypeId → TypeId → TypeId) (cls : TypeId) :
    Env → List Expr → List TypeId → List TypeId → Prop
  | nil {Γ} : HaveTypes ts stands cls Γ [] [] []
  | cons {Γ x es t types xs l} : HasType ts stands cls Γ x t xs →
      HaveTypes ts stands cls Γ es types l →
      HaveTypes ts stands cls Γ (x :: es) (t :: types) (t :: xs ++ l)

/-- The bindings of a `let` make one environment from another. A name may be used after its own
binding. -/
inductive Binds (ts : Types) (stands : TypeId → TypeId → TypeId) (cls : TypeId) :
    Env → List Binding → Env → List TypeId → Prop
  | nil {Γ} : Binds ts stands cls Γ [] Γ []
  | bare {Γ Γ' name type bs u l} : ts.find type.text = .ok u →
      Binds ts stands cls ((name.text, u) :: Γ) bs Γ' l →
      Binds ts stands cls Γ (.mk name type none :: bs) Γ' l
  | value {Γ Γ' name type x bs t u xs l} : ts.find type.text = .ok u →
      HasType ts stands cls Γ x t xs → ts.Sub t u →
      Binds ts stands cls ((name.text, u) :: Γ) bs Γ' l →
      Binds ts stands cls Γ (.mk name type (some x) :: bs) Γ' (t :: xs ++ l)

/-- The bodies of the branches of a `case` have types. -/
inductive BranchTypes (ts : Types) (stands : TypeId → TypeId → TypeId) (cls : TypeId) :
    Env → List Branch → List TypeId → List TypeId → Prop
  | nil {Γ} : BranchTypes ts stands cls Γ [] [] []
  | cons {Γ name type x bs t u types xs l} : ts.find type.text = .ok u →
      HasType ts stands cls ((name.text, u) :: Γ) x t xs → BranchTypes ts stands cls Γ bs types l →
      BranchTypes ts stands cls Γ (.mk name type x :: bs) (t :: types) (t :: xs ++ l)

end

/-- Through a named type, the type of the object itself stays what it is. -/
def asObject (object _ : TypeId) : TypeId := object

/-- Through a named type, the type of the object itself is the named one. -/
def asNamed (_ named : TypeId) : TypeId := named

/-- The names that may be used in all features of a class: its own attributes, and the object
itself. -/
def classEnv (ts : Types) (cls : TypeId) : Env :=
  ("self", cls) :: (ts.get cls).attributes.map fun x => (x.name, x.type)

/-- A feature of a class is typed, and its expressions have the types that are listed. -/
inductive FeatureTyped (ts : Types) (stands : TypeId → TypeId → TypeId) (cls : TypeId) :
    Feature → List TypeId → Prop
  | bare {name type u} : ts.find type.text = .ok u →
      FeatureTyped ts stands cls (.attribute name type none) []
  | value {name type x t u xs} : ts.find type.text = .ok u →
      HasType ts stands cls (classEnv ts cls) x t xs → ts.Sub t u →
      FeatureTyped ts stands cls (.attribute name type (some x)) (t :: xs)
  | method {name params type x types t u xs} :
      List.Forall₂ (fun (p : Param) v => ts.find p.type.text = .ok v) params types →
        ts.find type.text = .ok u →
      HasType ts stands cls ((params.map (·.name.text)).zip types ++ classEnv ts cls) x t xs →
        ts.Sub t u →
      -- a method that is there above the class as well has the same signature there
      (∀ parent m, ts.parent? cls = some parent → HasMethod ts parent name.text m →
        m.paramTypes = types ∧ m.returnType = u) →
      FeatureTyped ts stands cls (.method name params type x) (t :: xs)

/-- A class is typed. -/
def ClassTyped (ts : Types) (stands : TypeId → TypeId → TypeId) (c : ClassDecl)
    (types : List TypeId) : Prop :=
  ∃ cls parts, ts.find c.name.text = .ok cls ∧
    List.Forall₂ (FeatureTyped ts stands cls) c.features parts ∧
    types = parts.flatten

/-- A program is typed. -/
def ProgramTyped (ts : Types) (stands : TypeId → TypeId → TypeId) (p : Program)
    (types : List TypeId) : Prop :=
  ∃ parts, List.Forall₂ (ClassTyped ts stands) p.classes parts ∧ types = parts.flatten

/-! ## What the rules are stated for -/

/-- The names of types in an expression itself, not in those below it. -/
def Expr.typeNames : Expr → List String
  | .letIn bindings _ => bindings.map Binding.type
  | .caseOf _ branches => branches.map Branch.type
  | .call _ _ _ (some type) => [type.text]
  | .new type => [type.text]
  | _ => []

/-- The names that an expression itself binds. -/
def Expr.binders : Expr → List String
  | .letIn bindings _ => bindings.map Binding.name
  | .caseOf _ branches => branches.map Branch.name
  | _ => []

/-- The name that a feature adds to the environment of its class. -/
def Feature.attributeName? : Feature → Option String
  | .attribute name _ _ => some name.text
  | .method .. => none

def Feature.paramNames : Feature → List String
  | .attribute .. => []
  | .method _ params _ _ => params.map (·.name.text)

/-- All names that a feature binds: parameters, and the variables of `let` and `case`. -/
def Feature.binders (f : Feature) : List String := f.paramNames ++ f.nodes.flatMap Expr.binders

/-- A feature that the rules are stated for: it names neither the type of the object itself nor a
type that is to be inferred, and the names that it binds differ from each other and from that of the
object itself. Blocks have an expression and cases a branch, as the grammar says. -/
structure Feature.Plain (f : Feature) : Prop where
  types : ∀ n ∈ f.signature ++ f.nodes.flatMap Expr.typeNames, n ≠ "SELF_TYPE" ∧ n ≠ "AUTO_TYPE"
  filled : ∀ e ∈ f.nodes, e.isFilled = true
  distinct : f.binders.Nodup
  no_self : "self" ∉ f.attributeName?.toList ++ f.binders

instance (f : Feature) : Decidable f.Plain :=
  decidable_of_iff
    ((∀ n ∈ f.signature ++ f.nodes.flatMap Expr.typeNames, n ≠ "SELF_TYPE" ∧ n ≠ "AUTO_TYPE") ∧
      (∀ e ∈ f.nodes, e.isFilled = true) ∧ f.binders.Nodup ∧
        "self" ∉ f.attributeName?.toList ++ f.binders)
    ⟨fun ⟨h₁, h₂, h₃, h₄⟩ => ⟨h₁, h₂, h₃, h₄⟩, fun ⟨h₁, h₂, h₃, h₄⟩ => ⟨h₁, h₂, h₃, h₄⟩⟩

/-- A program that the rules are stated for. -/
def Program.Plain (p : Program) : Prop := ∀ c ∈ p.classes, ∀ f ∈ c.features, f.Plain

instance (p : Program) : Decidable p.Plain :=
  inferInstanceAs (Decidable (∀ c ∈ p.classes, ∀ f ∈ c.features, f.Plain))

end AutoCool.Cool
