import AutoCool.Cool.Check
import AutoCool.Proofs.Cool.Stuck

/-!
# The types of expressions by those of their parts

`TypeRule` says how the type of an expression follows from the types of its parts in the scope of
the expression, whoever finds it out. Where all expressions below a scope have types that follow in
this way (`Judged`), the types are listed in the order of `Expr.nodes`. Such a list is what a walk
over the expression notes (`Listed`).
-/

namespace AutoCool.Cool

/-- The type that a name stands for, which is wrong when there is none. -/
def typeNamed (ts : Types) (name : String) : TypeId :=
  match ts.find name with
  | .ok t => t
  | .error _ => TypeId.error

/-- The type that a call names to say where the method is. -/
def dispatchNamed (ts : Types) (name : String) : TypeId :=
  match TypeId.kind (typeNamed ts name) with
  | .self | .auto => TypeId.error
  | _ => typeNamed ts name

/-- The type of the variable that a name means in a scope, which is wrong when it means none. -/
def variableType (t : ScopeTree) (s : Nat) (name : String) : TypeId :=
  match t.find s name with
  | some v => (t.getVar v).type
  | none => TypeId.error

/-- The type of a call of a method of a type. -/
inductive CallType (ts : Types) (target : TypeId) (name : String) : TypeId → Prop
  | found {o m} : ts.findMethod target name = .ok (o, m) →
      CallType ts target name (ownType target m.returnType)
  | missing {d} : ts.findMethod target name = .error (.declaration d) →
      CallType ts target name TypeId.error

/-- The type of a `case`, where `total` is the join of the types of some branches and the types of
the others are listed. -/
inductive JoinAll (ts : Types) : (total : Option TypeId) → List (Option TypeId) →
    Option TypeId → Prop
  | nil {total} : JoinAll ts total [] total
  | first {r rs out} : JoinAll ts r rs out → JoinAll ts none (r :: rs) out
  | next {t r rs u out} : ts.join t r = .ok u → JoinAll ts u rs out →
      JoinAll ts (some t) (r :: rs) out

def typeOfUnary : UnaryOp → TypeId
  | .not | .isVoid => Builtin.bool
  | .complement => Builtin.int

/-- The type of an expression follows from the types of its parts. -/
inductive TypeRule (ts : Types) (t : ScopeTree) (cls : TypeId) (s : Nat) :
    Expr → List (Option TypeId) → Option TypeId → Prop
  | ifThenElse {c x y rc u ry r} : ts.join u ry = .ok r → TypeRule ts t cls s (.ifThenElse c x y)
      [rc, some u, ry] r
  | whileLoop {c x rs} : TypeRule ts t cls s (.whileLoop c x) rs (some Builtin.object)
  | block {es rs r} : rs.getLast? = some r → TypeRule ts t cls s (.block es) rs r
  | letIn {bs x rs r} : bs.length ≤ (t.get s).locals.length → rs.getLast? = some r →
      TypeRule ts t cls s (.letIn bs x) rs r
  | caseOf {x bs rx rs r} : JoinAll ts none rs r → TypeRule ts t cls s (.caseOf x bs) (rx :: rs) r
  | assign {name x r} : TypeRule ts t cls s (.assign name x) [r] r
  | unary {op x rs} : TypeRule ts t cls s (.unary op x) rs (some (typeOfUnary op))
  | binary {op x y rs} : TypeRule ts t cls s (.binary op x y) rs
      (some (Checking.typeOfOperation op))
  | call {x name es target rs u} : CallType ts target name.text u →
      TypeRule ts t cls s (.call x name es none) (some target :: rs) (some u)
  | callIn {x name es type rs u} : CallType ts (dispatchNamed ts type.text) name.text u →
      TypeRule ts t cls s (.call x name es (some type)) rs (some u)
  | selfCall {name es rs u} : CallType ts cls name.text u →
      TypeRule ts t cls s (.selfCall name es) rs (some u)
  | new {type rs} : TypeRule ts t cls s (.new type) rs (some (typeNamed ts type.text))
  | integer {token rs} : TypeRule ts t cls s (.atom .integer token) rs (some Builtin.int)
  | string {token rs} : TypeRule ts t cls s (.atom .string token) rs (some Builtin.string)
  | bool {token rs} : TypeRule ts t cls s (.atom .bool token) rs (some Builtin.bool)
  | name {token rs} : TypeRule ts t cls s (.atom .name token) rs
      (some (variableType t s token.text))

mutual

/-- An expression in a scope has a type, and it and all below it have the types that are listed. -/
inductive Judged (ts : Types) (t : ScopeTree) (cls : TypeId) :
    Nat → Expr → Option TypeId → List (Option TypeId) → Prop
  | intro {s e rs r l} : JudgedAll ts t cls s (t.get s).children e.parts rs l →
      TypeRule ts t cls s e rs r →
      Judged ts t cls s e r (r :: l)

/-- Some parts have types, each one in a child of a scope. A part without an expression has none. -/
inductive JudgedAll (ts : Types) (t : ScopeTree) (cls : TypeId) :
    Nat → List Nat → List Part → List (Option TypeId) → List (Option TypeId) → Prop
  | nil {s} : JudgedAll ts t cls s [] [] [] []
  | bare {s i is names parts rs l} : JudgedAll ts t cls s is parts rs l →
      JudgedAll ts t cls s (i :: is) ({ names, expr := none } :: parts) (none :: rs) l
  | cons {s i is names e parts r rs l l'} : s < i → i < t.scopes.size → Judged ts t cls i e r l →
      JudgedAll ts t cls s is parts rs l' →
      JudgedAll ts t cls s (i :: is) ({ names, expr := some e } :: parts) (r :: rs) (l ++ l')

end

variable {ts : Types} {t t' : ScopeTree} {cls : TypeId} {s i n : Nat} {is js : List Nat} {e : Expr}
  {parts parts' : List Part}
  {r : Option TypeId} {rs rs' l l' : List (Option TypeId)} {a a' : Analysis}

theorem JudgedAll.append (h : JudgedAll ts t cls s is parts rs l)
    (h' : JudgedAll ts t cls s js parts' rs' l') :
    JudgedAll ts t cls s (is ++ js) (parts ++ parts') (rs ++ rs') (l ++ l') := by
  induction is generalizing parts rs l with
  | nil =>
    cases h
    exact h'
  | cons i is ih =>
    cases h with
    | bare hrest => exact .bare (ih hrest)
    | cons hlt hsize he hrest =>
      rw [List.append_assoc]
      exact .cons hlt hsize he (ih hrest)

mutual

theorem Judged.length_eq {s : Nat} {e : Expr} {r : Option TypeId} {l : List (Option TypeId)}
    (h : Judged ts t cls s e r l) : l.length = e.size :=
  match h with
  | .intro hparts _ => by rw [List.length_cons, hparts.length_eq, e.size_eq]

theorem JudgedAll.length_eq {s : Nat} {is : List Nat} {parts : List Part}
    {rs l : List (Option TypeId)} (h : JudgedAll ts t cls s is parts rs l) :
    l.length = sizeOfParts parts :=
  match h with
  | .nil => rfl
  | .bare hrest => by rw [sizeOfParts_cons, hrest.length_eq, Option.elim_none, Nat.zero_add]
  | .cons _ _ he hrest =>
    by rw [sizeOfParts_cons, List.length_append, he.length_eq, hrest.length_eq, Option.elim_some]

end

/-- A later stage of a tree, in which the variables are as they were. -/
structure Kept (t t' : ScopeTree) : Prop extends ScopeTree.Grows t t' where
  tidy : t.Tidy
  valid : t.Valid
  getVar_eq : ∀ v < t.vars.size, t'.getVar v = t.getVar v

theorem Kept.variableType_eq (h : Kept t t') (hs : s < t.scopes.size) (hget : t'.get s = t.get s)
    (name : String) : variableType t' s name = variableType t s name := by
  rw [variableType, variableType, h.toGrows.find_eq h.tidy hs (by rw [hget])]
  cases hv : t.find s name with
  | none => rfl
  | some v => exact congrArg Variable.type (h.getVar_eq v (h.valid.find_lt hv))

theorem TypeRule.kept (hk : Kept t t') (hs : s < t.scopes.size) (hget : t'.get s = t.get s)
    (h : TypeRule ts t cls s e rs r) : TypeRule ts t' cls s e rs r := by
  cases h with
  | letIn hlen hlast => exact .letIn (hget ▸ hlen) hlast
  | name =>
    rw [← hk.variableType_eq hs hget]
    exact .name
  | _ => constructor <;> assumption

mutual

theorem Judged.kept {s : Nat} {e : Expr} {r : Option TypeId} {l : List (Option TypeId)}
    (hk : Kept t t') (h : Judged ts t cls s e r l) (hs : s < t.scopes.size)
    (hget : ∀ i, s ≤ i → i < t.scopes.size → t'.get i = t.get i) : Judged ts t' cls s e r l :=
  match h with
  | .intro hparts hrule => by
    have hown := hget s (Nat.le_refl s) hs
    refine .intro ?_ (hrule.kept hk hs hown)
    rw [hown]
    exact hparts.kept hk fun i hi => hget i (Nat.le_of_lt hi)

theorem JudgedAll.kept {s : Nat} {is : List Nat} {parts : List Part} {rs l : List (Option TypeId)}
    (hk : Kept t t') (h : JudgedAll ts t cls s is parts rs l)
    (hget : ∀ i, s < i → i < t.scopes.size → t'.get i = t.get i) :
    JudgedAll ts t' cls s is parts rs l :=
  match h with
  | .nil => .nil
  | .bare hrest => .bare (hrest.kept hk hget)
  | .cons hlt hsize he hrest =>
    .cons hlt (Nat.lt_of_lt_of_le hsize hk.size_le)
      (he.kept hk hsize fun i hi => hget i (Nat.lt_of_lt_of_le hlt hi)) (hrest.kept hk hget)

end

/-! ## Features and classes -/

/-- Some things have types, each one in the scope that stands beside it. -/
inductive Along {β : Type} (R : Nat → β → List (Option TypeId) → Prop) :
    List Nat → List β → List (Option TypeId) → Prop
  | nil : Along R [] [] []
  | cons {i is x xs l l'} : R i x l → Along R is xs l' → Along R (i :: is) (x :: xs) (l ++ l')

theorem Along.imp (h : Along R is xs l)
    (hR : ∀ i x l, R i x l → R' i x l) : Along R' is xs l := by
  induction h with
  | nil => exact .nil
  | cons hx _ ih => exact .cons (hR _ _ _ hx) ih

theorem Along.length_eq {β : Type} {R : Nat → β → List (Option TypeId) → Prop}
    {nodes : β → List Expr} {xs : List β} (h : Along R is xs l)
    (hR : ∀ i x l, R i x l → l.length = (nodes x).length) :
    l.length = (xs.flatMap nodes).length := by
  induction h with
  | nil => rfl
  | cons hx _ ih => rw [List.length_append, hR _ _ _ hx, ih, List.flatMap_cons, List.length_append]

/-- The expressions of a feature have types, in the scopes below that of the feature, which is below
that of the class. -/
structure JudgedFeature (ts : Types) (t : ScopeTree) (cls : TypeId) (s i : Nat) (f : Feature)
    (l : List (Option TypeId)) : Prop where
  lt : s < i
  lt_size : i < t.scopes.size
  judged : ∃ rs, JudgedAll ts t cls i (t.get i).children f.parts rs l

/-- The expressions of a class have types. -/
structure JudgedClass (ts : Types) (t : ScopeTree) (s : Nat) (c : ClassDecl)
    (l : List (Option TypeId)) : Prop where
  root_lt : ScopeTree.root < s
  lt_size : s < t.scopes.size
  features : ∃ cls, ts.find c.name.text = .ok cls ∧ Along (JudgedFeature ts t cls s)
    (t.get s).children c.features l

theorem JudgedFeature.kept (hk : Kept t t') (h : JudgedFeature ts t cls s i f l)
    (hget : ∀ j, s < j → j < t.scopes.size → t'.get j = t.get j) :
    JudgedFeature ts t' cls s i f l := by
  obtain ⟨rs, hparts⟩ := h.judged
  refine ⟨h.lt, Nat.lt_of_lt_of_le h.lt_size hk.size_le, rs, ?_⟩
  rw [hget i h.lt h.lt_size]
  exact hparts.kept hk fun j hj => hget j (Nat.lt_trans h.lt hj)

theorem JudgedClass.kept (hk : Kept t t') (h : JudgedClass ts t s c l)
    (hget : ∀ j, ScopeTree.root < j → j < t.scopes.size → t'.get j = t.get j) :
    JudgedClass ts t' s c l := by
  obtain ⟨cls, hcls, hfeatures⟩ := h.features
  refine ⟨h.root_lt, Nat.lt_of_lt_of_le h.lt_size hk.size_le, cls, hcls, ?_⟩
  rw [hget s h.root_lt h.lt_size]
  exact hfeatures.imp fun i f l hf => hf.kept hk fun j hj => hget j (Nat.lt_trans h.root_lt hj)

theorem JudgedFeature.length_eq (h : JudgedFeature ts t cls s i f l) :
    l.length = f.nodes.length := by
  obtain ⟨rs, hparts⟩ := h.judged
  rw [hparts.length_eq, f.length_nodes]

theorem JudgedClass.length_eq {c : ClassDecl} (h : JudgedClass ts t s c l) :
    l.length = c.nodes.length := by
  obtain ⟨cls, -, hfeatures⟩ := h.features
  exact hfeatures.length_eq fun _ _ _ hf => hf.length_eq

/-! ## Notes -/

/-- The expressions from number `n` on are noted with the types that are listed. -/
def Listed (l : List (Option TypeId)) (n : Nat) (a : Analysis) : Prop :=
  ∀ j < l.length, a.typeAt (n + j) = l[j]?

theorem listed_nil : Listed [] n a := fun _ hj => nomatch hj

theorem Listed.cons (hr : a.typeAt n = some r) (h : Listed l (n + 1) a) : Listed (r :: l) n a := by
  intro j hj
  cases j with
  | zero => exact hr
  | succ j =>
    rw [List.getElem?_cons_succ, ← h j (Nat.lt_of_succ_lt_succ hj), Nat.add_assoc, Nat.add_comm 1 j]

theorem Listed.append (h : Listed l n a) (h' : Listed l' (n + l.length) a) :
    Listed (l ++ l') n a := by
  intro j hj
  rw [List.length_append] at hj
  by_cases hlt : j < l.length
  · rw [h j hlt, List.getElem?_append_left hlt]
  · have hrest := h' (j - l.length) (by omega)
    rwa [Nat.add_assoc, Nat.add_sub_cancel' (by omega),
      ← List.getElem?_append_right (by omega)] at hrest

theorem Listed.congr (h : Listed l n a)
    (heq : ∀ j, n ≤ j → j < n + l.length → a'.typeAt j = a.typeAt j) : Listed l n a' := by
  intro j hj
  rw [heq (n + j) (by omega) (by omega), h j hj]

end AutoCool.Cool
