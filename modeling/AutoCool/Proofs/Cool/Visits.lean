import AutoCool.Proofs.Cool.CheckSteps
import AutoCool.Proofs.Cool.Judgement

/-!
# The steps of the checker

Once the checker has met an expression, it does some errands in the scope of the expression, in
order: it checks the parts of the expression in scopes of their own, defines variables and looks
names up (`Expr.errands`). Between these it may say something or settle a type. `Visits` lists what
happens in the walk over an expression in this way, whatever the rest of the walk does, and
`Checking.visits` is the one lemma that goes through the cases of the walk: what is to be known of
the scopes, the notes and the diagnostics that the checker leaves follows from the steps.
-/

namespace AutoCool.Cool

/-- Neither about a class that stands above itself nor about a name that means no variable. -/
def Complaint.isRoutine : Complaint → Bool
  | .cyclicHeritage _ | .noVariable _ _ => false
  | _ => true

/-- Some routine complaints are made, and nothing else changes. -/
def Routine (a a' : Analysis) : Prop :=
  ∃ ds : Array Diagnostic, (∀ d ∈ ds, d.complaint.isRoutine = true) ∧
  a' = { a with diagnostics := a.diagnostics ++ ds }

variable {a a' a'' a₀ : Analysis} {α β : Type}

theorem Routine.refl : Routine a a := ⟨#[], by simp, by simp⟩

theorem Routine.trans (h : Routine a a') (h' : Routine a' a'') : Routine a a'' := by
  obtain ⟨ds, hds, rfl⟩ := h
  obtain ⟨ds', hds', rfl⟩ := h'
  refine ⟨ds ++ ds', fun d hd => ?_, by simp⟩
  exact (Array.mem_append.1 hd).elim (hds d) (hds' d)

theorem Routine.reported (h : d.complaint.isRoutine = true) : Routine a (a.reported d) := by
  refine ⟨#[d], fun d' hd' => ?_, by simp [Analysis.reported]⟩
  rw [Array.mem_singleton.1 hd', h]

theorem Routine.reports (h : Routine a a') : Reports a a' := by
  obtain ⟨ds, -, rfl⟩ := h
  exact ⟨ds, rfl⟩

theorem Routine.types_eq (h : Routine a a') : a'.types = a.types := by
  obtain ⟨ds, -, rfl⟩ := h
  rfl

theorem Routine.scopes_eq (h : Routine a a') : a'.scopes = a.scopes := by
  obtain ⟨ds, -, rfl⟩ := h
  rfl

namespace Checking

open Analyzing

/-- A check that only makes routine complaints. -/
def Mild (m : Analyzing α) : Prop := ∀ a, Ensures m (fun _ a' => Routine a a') (fun _ _ => True) a

variable {m m' : Analyzing α} {f : α → Analyzing β} {place : Position} {name : Token}
  {scope : ScopeId} {i : Nat} {site : Site}

theorem mild_of_eq {Q : Analysis → α → Prop} {E : Analysis → Failure → Analysis → Prop}
    (h : ∀ a, Ensures m (fun x a' => a' = a ∧ Q a x) (E a) a) : Mild m := fun a => by
  refine (h a).weaken ?_
  rintro _ _ ⟨rfl, -⟩
  exact .refl

theorem mild_pure : Mild (pure x : Analyzing α) := fun _ => Routine.refl

theorem Mild.bind (hm : Mild m) (hf : ∀ x, Mild (f x)) : Mild (m >>= f) := fun a => by
  rw [ensures_bind]
  exact (hm a).imp fun x a₁ h1 => (hf x a₁).imp fun _ _ h2 => h1.trans h2

theorem Mild.ite [Decidable c] (hm : Mild m) (hm' : Mild m') : Mild (if c then m else m') := by
  split
  · exact hm
  · exact hm'

theorem mild_report (h : complaint.isRoutine = true) : Mild (report place complaint) :=
  fun _ => .reported h

theorem mild_present : Mild (present o) := fun _ => by simp [Routine.refl]

theorem mild_conforms : Mild (conforms t u) := fun _ => by simp [Routine.refl]

theorem mild_nameOf : Mild (nameOf t) := fun _ => by simp [Routine.refl]

theorem mild_variableOf : Mild (variableOf v) := fun _ => by simp [Routine.refl]

theorem mild_expect : Mild (expect place source target) := by
  refine mild_present.bind fun s => mild_conforms.bind fun b => .ite mild_pure ?_
  exact mild_nameOf.bind fun _ => mild_nameOf.bind fun _ => mild_report rfl

theorem mild_checkOperands : Mild (checkOperands place op left right) := by
  have hboth : Mild (bothInt left right) := mild_of_eq fun _ => ensures_bothInt
  cases op
  case equal =>
    refine .ite mild_pure (mild_present.bind fun l => mild_present.bind fun r => ?_)
    refine (mild_of_eq fun _ => ensures_differ_loop).bind fun wrong => .ite ?_ mild_pure
    exact mild_nameOf.bind fun _ => mild_nameOf.bind fun _ => mild_report rfl
  case lessEqual | less =>
    refine hboth.bind fun b => .ite mild_pure (mild_present.bind fun _ => ?_)
    exact mild_nameOf.bind fun _ => mild_nameOf.bind fun _ => mild_report rfl
  all_goals
    refine hboth.bind fun b => .ite mild_pure (mild_present.bind fun _ => mild_nameOf.bind fun _ =>
      mild_present.bind fun _ => ?_)
    exact mild_nameOf.bind fun _ => mild_report rfl

theorem routine_typeOrWrong {E : Failure → Analysis → Prop} : Ensures (typeOrWrong name)
    (fun t a' => Routine a a' ∧ t = typeNamed a.types name.text) E a := by
  simp only [typeOrWrong, typeNamed, ensures_bind, ensures_attempt, ensures_pure, ensures_report]
  refine ⟨fun t ht => ⟨.refl, by rw [ht]⟩, fun d hd => ⟨.reported rfl, by rw [hd]⟩,
    fun f hf hne => ?_⟩
  obtain ⟨d, rfl⟩ := find_error hf
  exact absurd rfl (hne d)

theorem routine_concreteOrWrong {complaint : Types → TypeId → Complaint}
    {E : Failure → Analysis → Prop}
    (hc : ∀ ts t, (complaint ts t).isRoutine = true) : Ensures (concreteOrWrong name complaint)
      (fun t a' => Routine a a' ∧ t = dispatchNamed a.types name.text) E a := by
  simp only [concreteOrWrong, dispatchNamed, ensures_bind]
  refine routine_typeOrWrong.imp ?_
  rintro t a' ⟨hsaid, rfl⟩
  cases TypeId.kind (typeNamed a.types name.text) with
  | self | auto => exact ⟨hsaid.trans (.reported (hc _ _)), rfl⟩
  | plain | error => exact ⟨hsaid, rfl⟩

theorem routine_callee : Ensures (callee name target)
    (fun x a' => Routine a a' ∧ CallType a.types target name.text x.1) (fun _ _ => True) a := by
  simp only [callee, ensures_bind, ensures_attempt, ensures_pure, ensures_report]
  exact ⟨fun _ hm => ⟨.refl, .found hm⟩, fun _ hd => ⟨.reported rfl, .missing hd⟩, fun _ _ _ =>
    trivial⟩

theorem mild_expectAll {args : List (Expr × Option TypeId)} : Mild (expectAll args params) := by
  induction args generalizing params with
  | nil => exact mild_pure
  | cons x args ih =>
    cases params with
    | nil => exact mild_pure
    | cons p params => exact mild_expect.bind fun _ => ih

theorem mild_checkCall {args : List (Expr × Option TypeId)} :
    Mild (checkCall name method args) := by
  cases method with
  | none => exact mild_report rfl
  | some m => exact .ite mild_expectAll (mild_report rfl)

theorem mild_checkOverride {cls : TypeId} {m : Method} : Mild (checkOverride cls name m) :=
  fun a => by
  simp only [checkOverride, ensures_bind, ensures_get]
  cases a.types.parent? cls with
  | none => exact Routine.refl
  | some parent =>
    simp only [ensures_bind, ensures_attempt]
    refine ⟨fun x _ => ?_, fun _ _ => .refl, fun _ _ _ => trivial⟩
    exact Mild.ite mild_pure (mild_nameOf.bind fun _ => mild_nameOf.bind fun _ => mild_report rfl) a

end Checking

/-! ## Errands -/

/-- What is to be done in the scope of an expression. -/
inductive Errand
  /-- A part is checked in a new scope. -/
  | visit (part : Expr)
  /-- A new scope is made for a binding without a value. -/
  | bare
  /-- A part is checked in a new scope with a variable. -/
  | branch (name : String) (type : TypeId) (body : Expr)
  | declare (name : String) (type : TypeId)
  | look (name : Token)

/-- The value of a binding is checked before its variable is there. -/
def Binding.errands (ts : Types) (cls : TypeId) : Binding → List Errand
  | .mk name type value =>
    [value.elim .bare .visit, .declare name.text (ownType cls (typeNamed ts type.text))]

def Branch.errand (ts : Types) : Branch → Errand
  | .mk name type body => .branch name.text (dispatchNamed ts type.text) body

/-- The errands of an expression, in order. -/
def Expr.errands (ts : Types) (cls : TypeId) : Expr → List Errand
  | .ifThenElse condition ifBody elseBody => [.visit condition, .visit ifBody, .visit elseBody]
  | .whileLoop condition body => [.visit condition, .visit body]
  | .block expressions => expressions.map .visit
  | .letIn bindings body => bindings.flatMap (Binding.errands ts cls) ++ [.visit body]
  | .caseOf subject branches => .visit subject :: branches.map (Branch.errand ts)
  | .assign name value => [.visit value, .look name]
  | .unary _ operand => [.visit operand]
  | .binary _ left right => [.visit left, .visit right]
  | .call object _ args _ => .visit object :: args.map .visit
  | .selfCall _ args => args.map .visit
  | .new _ => []
  | .atom .name token => [.look token]
  | .atom _ _ => []

/-- What may happen between the errands of the expression of number `i`. -/
inductive Remark (i : Nat) : Analysis → Analysis → Prop
  | said {a a' : Analysis} : Routine a a' → Remark i a a'
  | settled {a : Analysis} {t : Option TypeId} : Remark i a (a.settled i t)

mutual

/-- The walk over an expression in a scope: the expression is met, its errands are done and its type
is settled. This follows from the types of the parts, where a `let` has a variable for each of its
bindings. -/
inductive Visits (site : Site) : ScopeId → Expr → Option TypeId → Analysis → Analysis → Prop
  | intro {scope : ScopeId} {e : Expr} {rs : List (Option TypeId)} {r : Option TypeId}
      {a a' : Analysis} :
      VisitsAll site scope a.cursor (e.errands a.types site.cls) rs (a.entered scope) a' →
      ((∀ bs x, e = .letIn bs x → bs.length ≤ (a'.scopes.get scope).locals.length) →
        TypeRule a.types a'.scopes site.cls scope e rs r) →
      Visits site scope e r a (a'.settled a.cursor r)

/-- Some errands of the expression of number `i` are done in a scope, and the parts get types. A
name that means no variable is complained about. -/
inductive VisitsAll (site : Site) : ScopeId → Nat → List Errand → List (Option TypeId) → Analysis →
    Analysis → Prop
  | nil {scope : ScopeId} {i : Nat} {a : Analysis} : VisitsAll site scope i [] [] a a
  | remark {scope : ScopeId} {i : Nat} {es : List Errand} {rs : List (Option TypeId)}
      {a a₁ a' : Analysis} :
      Remark i a a₁ → VisitsAll site scope i es rs a₁ a' → VisitsAll site scope i es rs a a'
  | bare {scope : ScopeId} {i : Nat} {es : List Errand} {rs : List (Option TypeId)}
      {a a' : Analysis} :
      VisitsAll site scope i es rs (a.withChild scope) a' → VisitsAll site scope i (.bare :: es)
        (none :: rs) a a'
  | visit {scope : ScopeId} {i : Nat} {e : Expr} {r : Option TypeId} {es : List Errand}
      {rs : List (Option TypeId)}
      {a a₁ a' : Analysis} : Visits site a.scopes.scopes.size e r (a.withChild scope) a₁ →
        VisitsAll site scope i es rs a₁ a' →
      VisitsAll site scope i (.visit e :: es) (r :: rs) a a'
  | branch {scope : ScopeId} {i : Nat} {name : String} {t : TypeId} {e : Expr} {r : Option TypeId}
      {es : List Errand}
      {rs : List (Option TypeId)} {a a₁ a' : Analysis} : TypeId.kind t ≠ .auto →
      Visits site a.scopes.scopes.size e r
        ((a.withChild scope).defining a.scopes.scopes.size name t) a₁ →
      VisitsAll site scope i es rs a₁ a' → VisitsAll site scope i (.branch name t e :: es)
        (r :: rs) a a'
  | declare {scope : ScopeId} {i : Nat} {name : String} {t : TypeId} {es : List Errand}
      {rs : List (Option TypeId)}
      {a a' : Analysis} : VisitsAll site scope i es rs (a.defining scope name t) a' →
      VisitsAll site scope i (.declare name t :: es) rs a a'
  | known {scope : ScopeId} {i : Nat} {name : Token} {v : VarId} {es : List Errand}
      {rs : List (Option TypeId)} {a a' : Analysis} :
      a.scopes.find scope name.text = some v → VisitsAll site scope i es rs a a' →
        VisitsAll site scope i (.look name :: es) rs a a'
  | missed {scope : ScopeId} {i : Nat} {name : Token} {method : String} {es : List Errand}
      {rs : List (Option TypeId)}
      {a a' : Analysis} : a.scopes.find scope name.text = none → site.method = some method →
      VisitsAll site scope i es rs (a.reported ⟨position name, .noVariable name.text method⟩) a' →
      VisitsAll site scope i (.look name :: es) rs a a'

end

variable {site : Site} {scope i : Nat} {es : List Errand} {e : Expr} {r : Option TypeId}
  {rs : List (Option TypeId)}

theorem VisitsAll.trans {es es' : List Errand} {rs rs' : List (Option TypeId)} {a a' : Analysis}
    (h : VisitsAll site scope i es rs a a') (h' : VisitsAll site scope i es' rs' a' a'') :
    VisitsAll site scope i (es ++ es') (rs ++ rs') a a'' :=
  match h with
  | .nil => h'
  | .remark hr hrest => .remark hr (hrest.trans h')
  | .bare hrest => .bare (hrest.trans h')
  | .visit he hrest => .visit he (hrest.trans h')
  | .branch ht he hrest => .branch ht he (hrest.trans h')
  | .declare hrest => .declare (hrest.trans h')
  | .known hfind hrest => .known hfind (hrest.trans h')
  | .missed hfind hm hrest => .missed hfind hm (hrest.trans h')

theorem VisitsAll.start : VisitsAll site scope a.cursor [] [] (a.entered scope) (a.entered scope) :=
  .nil

theorem VisitsAll.routine (h : VisitsAll site scope i es rs a a') (h' : Routine a' a'') :
    VisitsAll site scope i es rs a a'' := by
  simpa using h.trans (.remark (.said h') .nil)

theorem VisitsAll.settled (h : VisitsAll site scope i es rs a a') (t : Option TypeId) :
    VisitsAll site scope i es rs a (a'.settled i t) := by
  simpa using h.trans (.remark .settled .nil)

mutual

theorem Visits.types_eq {scope : Nat} {e : Expr} {r : Option TypeId} {a a' : Analysis}
    (h : Visits site scope e r a a') : a'.types = a.types :=
  match h with
  | .intro herrands _ => herrands.types_eq

theorem VisitsAll.types_eq {scope i : Nat} {es : List Errand} {rs : List (Option TypeId)}
    {a a' : Analysis} (h : VisitsAll site scope i es rs a a') : a'.types = a.types :=
  match h with
  | .nil => rfl
  | .remark (.said hr) hrest => hrest.types_eq.trans hr.types_eq
  | .remark .settled hrest => hrest.types_eq
  | .bare hrest => hrest.types_eq
  | .visit he hrest => hrest.types_eq.trans he.types_eq
  | .branch _ he hrest => hrest.types_eq.trans he.types_eq
  | .declare hrest => hrest.types_eq
  | .known _ hrest => hrest.types_eq
  | .missed _ _ hrest => hrest.types_eq

end

theorem dispatchNamed_ne_auto : TypeId.kind (dispatchNamed ts name) ≠ .auto := by
  rw [dispatchNamed]
  cases h : TypeId.kind (typeNamed ts name) with
  | self | auto => exact fun h => nomatch h
  | plain | error =>
    rw [h]
    exact fun h => nomatch h

namespace Checking

open Analyzing

/-- The walk over an expression is made of the steps that it should be made of. -/
def Explores (site : Site) (e : Expr) : Prop := ∀ (scope : Nat) (a : Analysis),
    Ensures (checkExpr site scope e) (fun r a' => Visits site scope e r a a') (fun _ _ => True) a

theorem Explores.child (he : Explores site e) {Q : Option TypeId → Analysis → Prop}
    (h : VisitsAll site scope i es rs a₀ a)
    (hnext : ∀ r a', VisitsAll site scope i (es ++ [.visit e]) (rs ++ [r]) a₀ a' → Q r a') :
    Ensures (checkExpr site a.scopes.scopes.size e) Q (fun _ _ => True) (a.withChild scope) :=
  (he _ _).imp fun r a' hvisit => hnext r a' (h.trans (.visit hvisit .nil))

/-- The walk over some expressions is made of the steps that it should be made of. -/
def ExploresAll (site : Site) (xs : List Expr) : Prop :=
  ∀ (scope i : Nat) (es : List Errand) (rs : List (Option TypeId)) (a₀ a : Analysis),
    VisitsAll site scope i es rs a₀ a →
    Ensures (checkExprs site scope xs)
      (fun l a' => VisitsAll site scope i (es ++ xs.map .visit) (rs ++ l.map (·.2)) a₀ a')
        (fun _ _ => True) a

theorem ExploresAll.dispatch (hxs : ExploresAll site xs) (h : VisitsAll site scope i es rs a₀ a)
    (name : Token)
    (target : TypeId) : Ensures (do
        let (type, method) ← callee name target
        let argTypes ← checkExprs site scope xs
        checkCall name method argTypes
        settle i (some type))
      (fun r a' => ∃ rs' u a₁, VisitsAll site scope i (es ++ xs.map .visit) (rs ++ rs') a₀ a₁ ∧
        a' = a₁.settled i r ∧
        r = some u ∧ CallType a₀.types target name.text u) (fun _ _ => True) a := by
  simp only [ensures_bind, ensures_settle]
  refine routine_callee.imp ?_
  rintro _ a₁ ⟨h1, hcall⟩
  rw [h.types_eq] at hcall
  refine (hxs _ _ _ _ _ _ (h.routine h1)).imp fun _ a2 h2 => ?_
  exact (mild_checkCall a2).imp fun _ a3 h3 => ⟨_, _, a3, h2.routine h3, rfl, rfl, hcall⟩

theorem look_checkAssign (i : Nat) : Ensures (checkAssign site scope name value type)
      (fun _ a' => VisitsAll site scope i [.look name] [] a a') (fun _ _ => True) a := by
  simp only [checkAssign, ensures_bind, ensures_resolve]
  cases hfind : a.scopes.find scope name.text with
  | some v =>
    have hmild : Mild (do
        if name.text == "self" then report (position name) .readOnlySelf
        else expect value.position type (← variableOf v).type) :=
      .ite (mild_report rfl) (mild_variableOf.bind fun _ => mild_expect)
    exact (hmild a).imp fun _ a' h => .known hfind (.remark (.said h) .nil)
  | none =>
    simp only [ensures_bind, ensures_present, ensures_report]
    exact ⟨fun m hm => .missed hfind hm .nil, fun _ => trivial⟩

theorem look_typeOfName (i : Nat) : Ensures (typeOfName site scope name)
      (fun t a' => VisitsAll site scope i [.look name] [] a a' ∧
      t = variableType a'.scopes scope name.text) (fun _ _ => True) a := by
  simp only [typeOfName, variableType, ensures_bind, ensures_resolve]
  cases hfind : a.scopes.find scope name.text with
  | some v =>
    simp only [ensures_bind, ensures_variableOf, ensures_pure]
    exact ⟨.known hfind .nil, by rw [hfind]⟩
  | none =>
    simp only [ensures_bind, ensures_present, ensures_report, ensures_pure]
    exact ⟨fun m hm => ⟨.missed hfind hm .nil, by rw [Analysis.reported, hfind]⟩, fun _ => trivial⟩

mutual

theorem visits (site : Site) : (e : Expr) → Explores site e
  | .ifThenElse c x y, scope, a => by
    rw [checkExpr]
    simp only [ensures_bind, ensures_enter, ensures_newChild, ensures_join, ensures_settle,
      implies_true, and_true]
    refine (visits site c).child .start fun _ a₁ h1 => ?_
    refine (mild_expect a₁).imp fun _ a2 h2 => ?_
    refine (visits site x).child (h1.routine h2) fun _ a3 h3 => ?_
    refine (visits site y).child h3 fun _ a4 h4 => ?_
    rintro u rfl r hr
    rw [h4.types_eq] at hr
    exact .intro h4 fun _ => .ifThenElse hr
  | .whileLoop c x, scope, a => by
    rw [checkExpr]
    simp only [ensures_bind, ensures_enter, ensures_newChild, ensures_settle]
    refine (visits site c).child .start fun _ a₁ h1 => ?_
    refine (mild_expect a₁).imp fun _ a2 h2 => ?_
    refine (visits site x).child (h1.routine h2) fun _ a3 h3 => ?_
    exact .intro h3 fun _ => .whileLoop
  | .block xs, scope, a => by
    rw [checkExpr]
    simp only [ensures_bind, ensures_enter]
    refine (visits_exprs site xs _ _ _ _ _ _ .start).imp fun l a₁ h1 => ?_
    split
    · next hlast =>
      refine .intro h1 fun _ => .block ?_
      rw [List.nil_append, List.getLast?_map, hlast]
      rfl
    · trivial
  | .letIn bs x, scope, a => by
    rw [checkExpr]
    simp only [ensures_bind, ensures_enter, ensures_newChild, ensures_settle]
    refine (visits_bindings site bs .start).imp ?_
    rintro _ a₁ ⟨rs, h1⟩
    refine (visits site x).child h1 fun _ a2 h2 => ?_
    exact .intro h2 fun hlen => .letIn (hlen bs x rfl) List.getLast?_concat
  | .caseOf x bs, scope, a => by
    rw [checkExpr]
    simp only [ensures_bind, ensures_enter, ensures_newChild, ensures_settle]
    refine (visits site x).child .start fun _ a₁ h1 => ?_
    refine (visits_branches site bs none h1).imp ?_
    rintro r _ ⟨rs, a2, h2, rfl, hjoin⟩
    exact .intro h2 fun _ => .caseOf hjoin
  | .assign n x, scope, a => by
    rw [checkExpr]
    simp only [ensures_bind, ensures_enter, ensures_newChild, ensures_settle]
    refine (visits site x).child .start fun _ a₁ h1 => ?_
    refine (look_checkAssign a.cursor).imp fun _ a2 h2 => ?_
    exact .intro (h1.trans h2) fun _ => .assign
  | .unary op x, scope, a => by
    rw [checkExpr]
    simp only [ensures_bind, ensures_enter, ensures_newChild]
    refine (visits site x).child .start fun _ a₁ h1 => ?_
    cases op with
    | isVoid => exact .intro h1 fun _ => .unary
    | not | complement =>
      simp only [ensures_bind, ensures_settle]
      exact (mild_expect a₁).imp fun _ a2 h2 => .intro (h1.routine h2) fun _ => .unary
  | .binary op x y, scope, a => by
    rw [checkExpr]
    simp only [ensures_bind, ensures_enter, ensures_newChild, ensures_settle]
    refine (visits site x).child .start fun _ a₁ h1 => ?_
    refine (visits site y).child h1 fun _ a2 h2 => ?_
    exact (mild_checkOperands a2).imp fun _ a3 h3 => .intro (h2.routine h3) fun _ => .binary
  | .call x n xs t, scope, a => by
    rw [checkExpr]
    simp only [ensures_bind, ensures_enter, ensures_newChild]
    refine (visits site x).child .start fun objectType a₁ h1 => ?_
    cases t with
    | none =>
      rw [ensures_bind, ensures_present]
      refine ⟨fun target htarget => ?_, fun _ => trivial⟩
      subst htarget
      refine ((visits_exprs site xs).dispatch h1 n target).imp ?_
      rintro _ _ ⟨rs, u, a2, h2, rfl, rfl, hcall⟩
      exact .intro h2 fun _ => .call hcall
    | some type =>
      simp only [pure_bind]
      rw [ensures_bind]
      refine (routine_concreteOrWrong fun _ _ => rfl).imp ?_
      rintro target a2 ⟨h2, rfl⟩
      rw [ensures_bind, h1.types_eq]
      refine (mild_expect a2).imp fun _ a3 h3 => ?_
      refine ((visits_exprs site xs).dispatch ((h1.routine h2).routine h3) n _).imp ?_
      rintro _ _ ⟨rs, u, a4, h4, rfl, rfl, hcall⟩
      exact .intro h4 fun _ => .callIn hcall
  | .selfCall n xs, scope, a => by
    rw [checkExpr]
    rw [ensures_bind, ensures_enter]
    refine ((visits_exprs site xs).dispatch .start n site.cls).imp ?_
    rintro _ _ ⟨rs, u, a₁, h1, rfl, rfl, hcall⟩
    exact .intro h1 fun _ => .selfCall hcall
  | .new t, scope, a => by
    rw [checkExpr]
    simp only [ensures_bind, ensures_enter, ensures_settle]
    refine routine_typeOrWrong.imp ?_
    rintro r a₁ ⟨h1, rfl⟩
    exact .intro (VisitsAll.start.routine h1) fun _ => .new
  | .atom k t, scope, a => by
    rw [checkExpr]
    simp only [ensures_bind, ensures_enter]
    cases k with
    | integer => exact .intro .start fun _ => .integer
    | string => exact .intro .start fun _ => .string
    | bool => exact .intro .start fun _ => .bool
    | name =>
      simp only [ensures_bind, ensures_settle]
      refine (look_typeOfName a.cursor).imp ?_
      rintro r a₁ ⟨h1, rfl⟩
      exact .intro h1 fun _ => .name

theorem visits_exprs (site : Site) : (xs : List Expr) → ExploresAll site xs
  | [], _, _, _, _, _, _, h => by
    rw [checkExprs]
    simpa using h
  | x :: xs, _, _, _, _, _, _, h => by
    rw [checkExprs]
    simp only [ensures_bind, ensures_newChild]
    refine (visits site x).child h fun _ a₁ h1 => ?_
    refine (visits_exprs site xs _ _ _ _ _ _ h1).imp fun _ a2 h2 => ?_
    simpa using h2

theorem visits_bindings (site : Site) :
    (bs : List Binding) → ∀ {scope i : Nat} {es : List Errand} {rs : List (Option TypeId)}
      {a₀ a : Analysis}, VisitsAll site scope i es rs a₀ a → Ensures (checkBindings site scope bs)
      (fun _ a' =>
      ∃ rs', VisitsAll site scope i (es ++ bs.flatMap (Binding.errands a₀.types site.cls)) rs' a₀
        a') (fun _ _ => True) a
  | [], _, _, _, _, _, _, h => by
    rw [checkBindings]
    exact ⟨_, by simpa using h⟩
  | .mk n t none :: bs, scope, i, es, _, a₀, a, h => by
    rw [checkBindings]
    simp only [ensures_bind, ensures_newChild, ensures_define]
    refine routine_typeOrWrong.imp ?_
    rintro type a₁ ⟨h1, rfl⟩
    rw [h.types_eq]
    refine (visits_bindings site bs ((h.routine h1).trans (.bare (.declare .nil)))).imp ?_
    rintro _ a2 ⟨rs, h2⟩
    exact ⟨rs, by simpa [Binding.errands] using h2⟩
  | .mk n t (some x) :: bs, scope, i, es, _, a₀, a, h => by
    rw [checkBindings]
    simp only [ensures_bind, ensures_newChild, ensures_define]
    refine routine_typeOrWrong.imp ?_
    rintro type a₁ ⟨h1, rfl⟩
    rw [h.types_eq]
    refine (visits site x).child (h.routine h1) fun _ a2 h2 => ?_
    refine (mild_expect a2).imp fun _ a3 h3 => ?_
    refine (visits_bindings site bs ((h2.routine h3).trans (.declare .nil))).imp ?_
    rintro _ a4 ⟨rs, h4⟩
    exact ⟨rs, by simpa [Binding.errands] using h4⟩

theorem visits_branches (site : Site) :
    (bs : List Branch) → ∀ {scope i : Nat} {es : List Errand} {rs : List (Option TypeId)}
      (total : Option TypeId) {a₀ a : Analysis}, VisitsAll site scope i es rs a₀ a →
      Ensures (checkBranches site scope i total bs)
      (fun r a' => ∃ rs' a₁,
        VisitsAll site scope i (es ++ bs.map (Branch.errand a₀.types)) (rs ++ rs') a₀ a₁ ∧
        a' = a₁.settled i r ∧ JoinAll a₀.types total rs' r) (fun _ _ => True) (a.settled i total)
  | [], _, _, _, _, total, _, a, h => by
    rw [checkBranches]
    exact ⟨[], a, by simpa using h, rfl, .nil⟩
  | .mk n t x :: bs, scope, i, es, rs, total, a₀, a, h => by
    rw [checkBranches]
    simp only [ensures_bind, ensures_newChild, ensures_define]
    refine (routine_concreteOrWrong fun _ _ => rfl).imp ?_
    rintro type a₁ ⟨h1, rfl⟩
    refine (visits site x _ _).imp fun r a2 hvisit => ?_
    have h2 := ((h.settled total).routine h1).trans (.branch dispatchNamed_ne_auto hvisit .nil)
    -- the rest goes on with the join so far
    have hrest (total' : Option TypeId) (hjoin : ∀ rs' out, JoinAll a₀.types total' rs' out →
        JoinAll a₀.types total (r :: rs') out) :
        Ensures (checkBranches site scope i total' bs)
          (fun r a' => ∃ rs' a₁, VisitsAll site scope i
            (es ++ (Branch.mk n t x :: bs).map (Branch.errand a₀.types)) (rs ++ rs') a₀ a₁ ∧
            a' = a₁.settled i r ∧ JoinAll a₀.types total rs' r) (fun _ _ => True)
              (a2.settled i total') := by
      refine (visits_branches site bs total' h2).imp ?_
      rintro r' _ ⟨rs', a3, h3, rfl, hrest⟩
      refine ⟨r :: rs', a3, ?_, rfl, hjoin rs' r' hrest⟩
      have htypes : (a.settled i total).types = a₀.types := h.types_eq
      simpa [Branch.errand, htypes] using h3
    cases total with
    | none =>
      simp only [ensures_bind, ensures_settle]
      exact hrest r fun _ _ => .first
    | some u =>
      simp only [ensures_bind, ensures_join, ensures_settle, implies_true, and_true]
      rintro _ ⟨⟩ total' htotal
      rw [h2.types_eq] at htotal
      exact hrest total' fun _ _ => .next htotal

end

end Checking

/-! ## Features and classes -/

/-- The walk over a feature in its scope, which gives the method that was met last. A feature is no
expression, so that no type is settled for it, whatever number one takes. -/
inductive VisitsFeature (site : Site) (scope : ScopeId) :
    Feature → Option String → Analysis → Analysis → Prop
  | bare {name type : Token} {a : Analysis} :
      VisitsFeature site scope (.attribute name type none) site.method a a
  | value {name type : Token} {e : Expr} {r : Option TypeId} {a a' : Analysis} :
      (∀ i, VisitsAll site scope i [.visit e] [r] a a') →
      VisitsFeature site scope (.attribute name type (some e)) site.method a a'
  | method {name type : Token} {params : List Param} {e : Expr} {o : TypeId} {m : Method}
      {r : Option TypeId} {a a' : Analysis} :
      a.types.findMethod site.cls name.text = .ok (o, m) →
      (∀ i, VisitsAll { site with method := some m.name } scope i
        (.declare "self" site.cls :: (m.paramNames.zip m.paramTypes).map
          (fun x => .declare x.1 x.2) ++ [.visit e]) [r] a a') →
      VisitsFeature site scope (.method name params type e) (some m.name) a a'

/-- The walk over some features, each one in a child of the scope of their class. -/
inductive VisitsFeatures (scope : ScopeId) :
    Site → List Feature → Option String → Analysis → Analysis → Prop
  | nil {site : Site} {a : Analysis} : VisitsFeatures scope site [] site.method a a
  | cons {site : Site} {f : Feature} {fs : List Feature} {m m' : Option String}
      {a a₁ a' : Analysis} :
      VisitsFeature site a.scopes.scopes.size f m (a.withChild scope) a₁ →
      VisitsFeatures scope { site with method := m } fs m' a₁ a' →
        VisitsFeatures scope site (f :: fs) m' a a'

/-- The walk over a class in its scope: it is put under `Object` when it stands above itself, its
attributes are defined, and its features are checked. -/
inductive VisitsClass (method : Option String) (scope : ScopeId) (c : ClassDecl) :
    Option String → Analysis → Analysis → Prop
  | intro {cls : TypeId} {m : Option String} {a a₁ a' : Analysis} : a.types.find c.name.text =
      .ok cls →
      Checking.Breaks c cls a a₁ →
      VisitsFeatures scope { cls, method } c.features m
        (a₁.definingAll scope ((a₁.types.get cls).attributes.map fun x => (x.name, x.type))) a' →
      VisitsClass method scope c m a a'

/-- The walk over some classes, each one in a child of the root. -/
inductive VisitsClasses : Option String → List ClassDecl → Analysis → Analysis → Prop
  | nil {method : Option String} {a : Analysis} : VisitsClasses method [] a a
  | cons {method m : Option String} {c : ClassDecl} {cs : List ClassDecl} {a a₁ a' : Analysis} :
      VisitsClass method a.scopes.scopes.size c m (a.withChild ScopeTree.root) a₁ →
        VisitsClasses m cs a₁ a' →
      VisitsClasses method (c :: cs) a a'

theorem visitsAll_declare (vars : List (String × TypeId)) :
    VisitsAll site scope i (vars.map fun x => .declare x.1 x.2) [] a
      (a.definingAll scope vars) := by
  induction vars generalizing a with
  | nil => exact .nil
  | cons x vars ih => exact .declare ih

namespace Checking

open Analyzing

theorem visits_feature (f : Feature) :
    Ensures (checkFeature site scope f) (fun m a' => VisitsFeature site scope f m a a')
      (fun _ _ => True) a := by
  obtain ⟨name, type, _ | e⟩ | ⟨name, params, type, e⟩ := f
  · exact .bare
  · simp only [checkFeature, ensures_bind, ensures_newChild, ensures_ask, ensures_pure,
      implies_true, and_true]
    refine (visits site e _ _).imp fun r a1 h1 x _ => ?_
    exact (mild_expect a1).imp fun _ a2 h2 => .value fun _ => .visit h1 (VisitsAll.nil.routine h2)
  · simp only [checkFeature, ensures_bind, ensures_newChild, ensures_ask, ensures_pure,
      ensures_define, implies_true, and_true]
    rintro ⟨o, m⟩ hm
    refine (mild_checkOverride a).imp fun _ a1 h1 => ?_
    rw [ensures_forM_define, List.map_id']
    refine (visits { site with method := some m.name } e _ _).imp fun r a2 h2 => ?_
    refine (mild_expect a2).imp fun _ a3 h3 => .method (r := r) hm fun i =>
      .remark (.said h1) (.declare ?_)
    exact (visitsAll_declare (m.paramNames.zip m.paramTypes)).trans
      (.visit h2 (VisitsAll.nil.routine h3))

theorem visits_features (fs : List Feature) :
    Ensures (checkFeatures scope site fs) (fun m a' => VisitsFeatures scope site fs m a a')
      (fun _ _ => True) a := by
  induction fs generalizing site a with
  | nil => exact .nil
  | cons f fs ih =>
    simp only [checkFeatures, ensures_bind, ensures_newChild]
    refine (visits_feature f).imp fun m a1 h1 => ?_
    exact ih.imp fun m' a2 h2 => .cons h1 h2

theorem visits_class (c : ClassDecl) :
    Ensures (checkClass method scope c) (fun m a' => VisitsClass method scope c m a a')
      (fun _ _ => True) a := by
  simp only [checkClass, ensures_bind, ensures_ask, ensures_get, implies_true, and_true]
  intro cls hcls
  refine breakCycle_cases.weaken fun _ a1 h1 => ?_
  rw [ensures_forM_define]
  exact (visits_features c.features).imp fun m a2 h2 => .intro hcls h1 h2

theorem visits_classes (cs : List ClassDecl) :
    Ensures (checkClasses method cs) (fun _ a' => VisitsClasses method cs a a')
      (fun _ _ => True) a := by
  induction cs generalizing method a with
  | nil => exact .nil
  | cons c cs ih =>
    simp only [checkClasses, ensures_bind, ensures_newChild]
    refine (visits_class c).imp fun m a1 h1 => ?_
    exact ih.imp fun _ a2 h2 => .cons h1 h2

end Checking

theorem visitsClasses_of_check (h : (check p).outcome { types := ts } = (none, a)) :
    VisitsClasses none p.classes { types := ts } a := by
  obtain ⟨-, hvisits⟩ := (Checking.visits_classes p.classes).of_outcome h
  exact hvisits

end AutoCool.Cool
