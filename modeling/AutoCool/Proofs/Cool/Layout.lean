import Mathlib.Algebra.GroupWithZero.Nat
import Mathlib.Data.List.Forall2
import AutoCool.Cool.Syntax
import AutoCool.Proofs.Types.Scope

/-!
# How scopes lie over a program

The scopes of a program have the shape of the program. The scope of an expression has a child for
each of its parts (`Expr.parts`), in order, and the variables that the expression binds for them
(`Expr.ownNames`) come after those that were in the scope before, if it is the scope of a branch of
a `case`. `Fits` says this of an expression and all below it. It is about the scopes and not about
the types of the variables, save that the variable of a branch has a known type.
-/

namespace AutoCool.Cool

/-- The name that a binding of a `let` binds. -/
def Binding.name : Binding → String
  | .mk name _ _ => name.text

def Binding.value : Binding → Option Expr
  | .mk _ _ value => value

/-- The name that a branch of a `case` binds. -/
def Branch.name : Branch → String
  | .mk name _ _ => name.text

def Branch.body : Branch → Expr
  | .mk _ _ body => body

@[simp] theorem Binding.name_mk {name : Token} {value : Option Expr} :
    (mk name type value).name = name.text := rfl

@[simp] theorem Binding.value_mk {name : Token} {value : Option Expr} :
    (mk name type value).value = value := rfl

@[simp] theorem Branch.name_mk {name : Token} {body : Expr} :
    (mk name type body).name = name.text := rfl

@[simp] theorem Branch.body_mk {name : Token} {body : Expr} : (mk name type body).body = body := rfl

/-- A part of an expression that has a scope of its own: the names that are bound for it alone, and
the expression, which a binding without a value does not have. -/
structure Part where
  names : List String := []
  expr : Option Expr

namespace Expr

/-- The parts of an expression in the order of their scopes. -/
def parts : Expr → List Part
  | .ifThenElse condition ifBody elseBody =>
    [{ expr := some condition }, { expr := some ifBody }, { expr := some elseBody }]
  | .whileLoop condition body => [{ expr := some condition }, { expr := some body }]
  | .block expressions => expressions.map fun e => { expr := some e }
  | .letIn bindings body => bindings.map (fun b => { expr := b.value }) ++ [{ expr := some body }]
  | .caseOf subject branches =>
    { expr := some subject } :: branches.map fun b => { names := [b.name], expr := some b.body }
  | .assign _ value => [{ expr := some value }]
  | .unary _ operand => [{ expr := some operand }]
  | .binary _ left right => [{ expr := some left }, { expr := some right }]
  | .call object _ args _ => { expr := some object } :: args.map fun e => { expr := some e }
  | .selfCall _ args => args.map fun e => { expr := some e }
  | .new _ | .atom _ _ => []

/-- The names that an expression binds in its own scope. -/
def ownNames : Expr → List String
  | .letIn bindings _ => bindings.map Binding.name
  | _ => []

/-- Whether a block has an expression and a `case` a branch. -/
def isFilled : Expr → Bool
  | .block expressions => !expressions.isEmpty
  | .caseOf _ branches => !branches.isEmpty
  | _ => true

end Expr

/-- How many expressions some parts have. -/
def sizeOfParts (parts : List Part) : Nat := (parts.map fun part => part.expr.elim 0 Expr.size).sum

@[simp] theorem sizeOfParts_nil : sizeOfParts [] = 0 := rfl

@[simp] theorem sizeOfParts_cons :
    sizeOfParts (part :: parts) = part.expr.elim 0 Expr.size + sizeOfParts parts := by
  simp [sizeOfParts]

@[simp] theorem sizeOfParts_append :
    sizeOfParts (parts ++ parts') = sizeOfParts parts + sizeOfParts parts' := by
  simp [sizeOfParts]

@[simp] theorem sizeOfParts_exprs : sizeOfParts (es.map fun e => { expr := some e }) =
      Expr.sizeOfExprs es := by
  induction es with
  | nil => rfl
  | cons e es ih => simp [Expr.sizeOfExprs, ih]

@[simp] theorem sizeOfParts_bindings {bs : List Binding} :
    sizeOfParts (bs.map fun b => { expr := b.value }) = Expr.sizeOfBindings bs := by
  induction bs with
  | nil => rfl
  | cons b bs ih =>
    obtain ⟨name, type, value⟩ := b
    cases value <;> simp [Expr.sizeOfBindings, ih]

@[simp] theorem sizeOfParts_branches {bs : List Branch} :
    sizeOfParts (bs.map fun b => { names := [b.name], expr := some b.body }) =
      Expr.sizeOfBranches bs := by
  induction bs with
  | nil => rfl
  | cons b bs ih =>
    obtain ⟨name, type, body⟩ := b
    simp [Expr.sizeOfBranches, ih]

theorem Expr.sizeOfBranches_append :
    Expr.sizeOfBranches (bs ++ bs') = Expr.sizeOfBranches bs + Expr.sizeOfBranches bs' := by
  simp only [← sizeOfParts_branches, List.map_append, sizeOfParts_append]

theorem Expr.size_eq (e : Expr) : e.size = sizeOfParts e.parts + 1 := by
  cases e <;> simp only [Expr.size, Expr.parts, sizeOfParts_nil, sizeOfParts_cons,
    sizeOfParts_append, sizeOfParts_exprs,
    sizeOfParts_bindings, sizeOfParts_branches, Option.elim_some] <;> omega

/-- The expressions of some parts and all below them, in order. -/
def nodesOfParts (parts : List Part) : List Expr :=
  parts.flatMap fun part => part.expr.elim [] Expr.nodes

@[simp] theorem nodesOfParts_nil : nodesOfParts [] = [] := rfl

@[simp] theorem nodesOfParts_cons :
    nodesOfParts (part :: parts) = part.expr.elim [] Expr.nodes ++ nodesOfParts parts := rfl

@[simp] theorem nodesOfParts_append : nodesOfParts (parts ++ parts') = nodesOfParts parts ++
      nodesOfParts parts' := by
  simp [nodesOfParts]

theorem length_nodesOfParts : (nodesOfParts parts).length = sizeOfParts parts := by
  induction parts with
  | nil => rfl
  | cons part parts ih =>
    rw [nodesOfParts_cons, sizeOfParts_cons, List.length_append, ih]
    cases part.expr <;> simp

@[simp] theorem nodesOfParts_exprs : nodesOfParts (es.map fun e => { expr := some e }) =
      Expr.nodesOf es := by
  induction es with
  | nil => rfl
  | cons e es ih => simp [Expr.nodesOf, ih]

@[simp] theorem nodesOfParts_bindings {bs : List Binding} :
    nodesOfParts (bs.map fun b => { expr := b.value }) = Expr.nodesOfBindings bs := by
  induction bs with
  | nil => rfl
  | cons b bs ih =>
    obtain ⟨name, type, value⟩ := b
    cases value <;> simp [Expr.nodesOfBindings, ih]

@[simp] theorem nodesOfParts_branches {bs : List Branch} :
    nodesOfParts (bs.map fun b => { names := [b.name], expr := some b.body }) =
      Expr.nodesOfBranches bs := by
  induction bs with
  | nil => rfl
  | cons b bs ih =>
    obtain ⟨name, type, body⟩ := b
    simp [Expr.nodesOfBranches, ih]

theorem Expr.nodes_eq (e : Expr) : e.nodes = e :: nodesOfParts e.parts := by
  cases e <;> simp only [Expr.nodes, Expr.parts, nodesOfParts_nil, nodesOfParts_cons,
    nodesOfParts_append,
    nodesOfParts_exprs, nodesOfParts_bindings, nodesOfParts_branches, Option.elim_some,
      List.append_nil, List.append_assoc]

theorem Expr.mem_nodes_self (e : Expr) : e ∈ e.nodes := by
  rw [e.nodes_eq]
  exact .head _

theorem nodes_sublist_of_mem {x : Expr} (hp : part ∈ parts) (hx : part.expr = some x) :
    x.nodes.Sublist (nodesOfParts parts) := by
  have hmem : part.expr.elim [] Expr.nodes ∈ parts.map fun part => part.expr.elim [] Expr.nodes :=
    List.mem_map.2 ⟨part, hp, rfl⟩
  have h := List.sublist_flatten_of_mem hmem
  rwa [hx] at h

theorem Expr.size_lt_of_mem_parts {e : Expr} (hp : part ∈ e.parts) (hx : part.expr = some x) :
    x.size < e.size := by
  have hle := (nodes_sublist_of_mem hp hx).length_le
  have hlen := congrArg List.length e.nodes_eq
  simp only [Expr.length_nodes, List.length_cons] at hle hlen
  omega

/-- What holds of an expression whenever it holds of its parts holds of all expressions. -/
theorem Expr.induction_parts {P : Expr → Prop}
    (h : ∀ e, (∀ part ∈ e.parts, ∀ x, part.expr = some x → P x) → P e) (e : Expr) : P e := by
  induction hn : e.size using Nat.strongRecOn generalizing e with
  | ind n ih => exact h e fun part hp x hx => ih x.size (hn ▸ size_lt_of_mem_parts hp hx) x rfl

/-- The same, with one case for each kind of expression. -/
theorem Expr.induction {P : Expr → Prop}
    (ifThenElse : ∀ c x y, P c → P x → P y → P (.ifThenElse c x y))
    (whileLoop : ∀ c x, P c → P x → P (.whileLoop c x))
    (block : ∀ es, (∀ x ∈ es, P x) → P (.block es))
    (letIn : ∀ bs x, (∀ b ∈ bs, ∀ y, b.value = some y → P y) → P x → P (.letIn bs x))
    (caseOf : ∀ x bs, P x → (∀ b ∈ bs, P b.body) → P (.caseOf x bs))
    (assign : ∀ name x, P x → P (.assign name x)) (unary : ∀ op x, P x → P (.unary op x))
    (binary : ∀ op x y, P x → P y → P (.binary op x y))
    (call : ∀ x name es type, P x → (∀ y ∈ es, P y) → P (.call x name es type))
    (selfCall : ∀ name es, (∀ x ∈ es, P x) → P (.selfCall name es)) (new : ∀ type, P (.new type))
    (atom : ∀ kind token, P (.atom kind token)) (e : Expr) : P e := by
  induction e using Expr.induction_parts with
  | h e hparts =>
    have hpart : ∀ x, { expr := some x } ∈ e.parts → P x := fun x hx => hparts _ hx x rfl
    have hmem : ∀ (es : List Expr) x, x ∈ es → { expr := some x } ∈ es.map fun x =>
        ({ expr := some x } : Part) :=
      fun es x hx => List.mem_map.2 ⟨x, hx, rfl⟩
    cases e with
    | ifThenElse c x y =>
      exact ifThenElse c x y (hpart c (.head _)) (hpart x (by simp [parts]))
        (hpart y (by simp [parts]))
    | whileLoop c x => exact whileLoop c x (hpart c (.head _)) (hpart x (by simp [parts]))
    | block es => exact block es fun x hx => hpart x (hmem es x hx)
    | letIn bs x =>
      refine letIn bs x (fun b hb y hy => ?_) (hpart x (by simp [parts]))
      exact hparts _ (List.mem_append_left _ (List.mem_map.2 ⟨b, hb, rfl⟩)) y hy
    | caseOf x bs =>
      refine caseOf x bs (hpart x (.head _)) fun b hb => ?_
      exact hparts { names := [b.name], expr := some b.body }
        (.tail _ (List.mem_map.2 ⟨b, hb, rfl⟩)) _ rfl
    | assign name x => exact assign name x (hpart x (.head _))
    | unary op x => exact unary op x (hpart x (.head _))
    | binary op x y => exact binary op x y (hpart x (.head _)) (hpart y (by simp [parts]))
    | call x name es type =>
      exact call x name es type (hpart x (.head _)) fun y hy => hpart y (.tail _ (hmem es y hy))
    | selfCall name es => exact selfCall name es fun x hx => hpart x (hmem es x hx)
    | new type => exact new type
    | atom kind token => exact atom kind token

mutual

/-- A scope and those below it fit an expression, when the variables `lead` were in the scope
before. -/
inductive Fits (t : ScopeTree) : List String → Nat → Expr → Prop
  | intro {lead s e} : (t.get s).locals.map (·.1) = lead ++ e.ownNames →
      (∀ x ∈ (t.get s).locals.take lead.length, (t.getVar x.2).inferred = true) →
      FitsAll t s (t.get s).children e.parts → Fits t lead s e

/-- Some children of a scope fit some parts, one by one. -/
inductive FitsAll (t : ScopeTree) : Nat → List Nat → List Part → Prop
  | nil {s} : FitsAll t s [] []
  | cons {s i is part parts} : s < i → i < t.scopes.size → (t.get i).parent = some s →
      (∀ e, part.expr = some e → Fits t part.names i e) → FitsAll t s is parts →
      FitsAll t s (i :: is) (part :: parts)

end

variable {t t' : ScopeTree}

mutual

/-- What fits still fits as long as the scopes below stay as they are and no type is forgotten. -/
theorem Fits.congr (hsize : t.scopes.size ≤ t'.scopes.size)
    (hvars : ∀ v, (t.getVar v).inferred = true → (t'.getVar v).inferred = true)
    (h : Fits t lead s e) (hs : s < t.scopes.size)
    (hget : ∀ i, s ≤ i → i < t.scopes.size → t'.get i = t.get i) : Fits t' lead s e :=
  match h with
  | .intro hnames hlead hparts => by
    have hown := hget s (Nat.le_refl s) hs
    refine .intro (hown ▸ hnames) (hown ▸ fun x hx => hvars _ (hlead x hx)) ?_
    rw [hown]
    exact hparts.congr hsize hvars fun i hi => hget i (Nat.le_of_lt hi)

theorem FitsAll.congr (hsize : t.scopes.size ≤ t'.scopes.size)
    (hvars : ∀ v, (t.getVar v).inferred = true → (t'.getVar v).inferred = true)
    (h : FitsAll t s is parts) (hget : ∀ i, s < i → i < t.scopes.size → t'.get i = t.get i) :
    FitsAll t' s is parts :=
  match h with
  | .nil => .nil
  | .cons hlt hsz hparent hpart hrest =>
    .cons hlt (Nat.lt_of_lt_of_le hsz hsize) (by rw [hget _ hlt hsz]; exact hparent)
      (fun e he => (hpart e he).congr hsize hvars hsz fun i hi =>
        hget i (Nat.lt_of_lt_of_le hlt hi))
      (hrest.congr hsize hvars hget)

end

theorem FitsAll.append (h : FitsAll t s is parts) (h' : FitsAll t s js parts') :
    FitsAll t s (is ++ js) (parts ++ parts') := by
  induction is generalizing parts with
  | nil =>
    cases h
    exact h'
  | cons i is ih =>
    cases h with
    | cons hlt hsz hparent hpart hrest => exact .cons hlt hsz hparent hpart (ih hrest)

/-- The parts of a feature: the value of an attribute, or the body of a method. -/
def Feature.parts : Feature → List Part
  | .attribute _ _ value => value.toList.map fun e => { expr := some e }
  | .method _ _ _ body => [{ expr := some body }]

theorem Feature.length_nodes : (f : Feature) → f.nodes.length = sizeOfParts f.parts
  | .attribute _ _ none => by simp [Feature.nodes, Feature.parts]
  | .attribute _ _ (some _) => by simp [Feature.nodes, Feature.parts]
  | .method .. => by simp [Feature.nodes, Feature.parts]

/-- The expressions of a class, in order. -/
def ClassDecl.nodes (c : ClassDecl) : List Expr := c.features.flatMap Feature.nodes

/-- A scope fits a feature of a class whose scope is `s`. It sees all variables of that scope, and
its own first one, which stands for the object itself, has a known type. -/
structure FitsFeature (t : ScopeTree) (s i : Nat) (f : Feature) : Prop where
  lt : s < i
  lt_size : i < t.scopes.size
  parent_eq : (t.get i).parent = some s
  index_eq : (t.get i).index = (t.get s).locals.length
  locals_eq : ∀ name type value, f = .attribute name type value → (t.get i).locals = []
  first : ∀ x ∈ (t.get i).locals.take 1, (t.getVar x.2).inferred = true
  children : FitsAll t i (t.get i).children f.parts

/-- A scope fits a class: its variables are the attributes of the class, and its children fit the
features. -/
structure FitsClass (ts : Types) (t : ScopeTree) (s : Nat) (c : ClassDecl) : Prop where
  root_lt : ScopeTree.root < s
  lt_size : s < t.scopes.size
  parent_eq : (t.get s).parent = some ScopeTree.root
  locals_eq : ∀ cls, ts.find c.name.text = .ok cls → (t.get s).locals.map (·.1) =
    (ts.get cls).attributes.map (·.name)
  features : List.Forall₂ (FitsFeature t s) (t.get s).children c.features

/-- The scopes of a tree fit a program. -/
def FitsProgram (ts : Types) (t : ScopeTree) (p : Program) : Prop :=
  List.Forall₂ (FitsClass ts t) (t.get ScopeTree.root).children p.classes

theorem FitsFeature.congr (hsize : t.scopes.size ≤ t'.scopes.size)
    (hvars : ∀ v, (t.getVar v).inferred = true → (t'.getVar v).inferred = true)
    (h : FitsFeature t s i f) (hlocals : (t'.get s).locals = (t.get s).locals)
    (hget : ∀ j, i ≤ j → j < t.scopes.size → t'.get j = t.get j) : FitsFeature t' s i f := by
  have hown := hget i (Nat.le_refl i) h.lt_size
  exact {
    lt := h.lt
    lt_size := Nat.lt_of_lt_of_le h.lt_size hsize
    parent_eq := by rw [hown, h.parent_eq]
    index_eq := by rw [hown, hlocals, h.index_eq]
    locals_eq := fun name type value hf => by rw [hown, h.locals_eq name type value hf]
    first := by
      rw [hown]
      exact fun x hx => hvars _ (h.first x hx)
    children := by
      rw [hown]
      exact h.children.congr hsize hvars fun j hj => hget j (Nat.le_of_lt hj) }

theorem FitsClass.congr (hsize : t.scopes.size ≤ t'.scopes.size)
    (hvars : ∀ v, (t.getVar v).inferred = true → (t'.getVar v).inferred = true)
    (h : FitsClass ts t s c) (hget : ∀ j, s ≤ j → j < t.scopes.size → t'.get j = t.get j) :
    FitsClass ts t' s c := by
  have hown := hget s (Nat.le_refl s) h.lt_size
  refine ⟨h.root_lt, Nat.lt_of_lt_of_le h.lt_size hsize, by rw [hown, h.parent_eq],
    fun cls hcls => by rw [hown, h.locals_eq cls hcls], ?_⟩
  rw [hown]
  refine h.features.imp fun i f hf => hf.congr hsize hvars (by rw [hown]) fun j hj => ?_
  exact hget j (Nat.le_trans (Nat.le_of_lt hf.lt) hj)

end AutoCool.Cool
