import AutoCool.Cool.Analysis

/-!
# What a part of an analysis ensures

`Ensures m Q E s` says of a computation that may be cut short how it ends when it starts in `s`:
either with a value and a state of which `Q` holds, or with a failure and a state of which `E`
holds. A sequence of computations is taken apart with `ensures_bind`, and each operation of an
analysis has one equation here, so that no proof about the walks over a program unfolds the monad.
The equations are equalities of propositions: `simp` rewrites with them as they stand.
-/

namespace AutoCool.Cool

section

variable {σ α β : Type} {m : ExceptT Failure (StateM σ) α} {f : α → ExceptT Failure (StateM σ) β}
  {s s' : σ}
  {Q Q' : α → σ → Prop} {E E' : Failure → σ → Prop}

/-- How a computation ends: with a value and a state as in `Q`, or cut short as in `E`. -/
def Ensures (m : ExceptT Failure (StateM σ) α) (Q : α → σ → Prop) (E : Failure → σ → Prop) (s : σ) :
    Prop :=
  match m.run.run s with
  | (.ok x, s') => Q x s'
  | (.error e, s') => E e s'

theorem Ensures.mono (h : Ensures m Q E s) (hQ : ∀ x s', Q x s' → Q' x s')
    (hE : ∀ e s', E e s' → E' e s') : Ensures m Q' E' s := by
  unfold Ensures at h ⊢
  split at h
  · exact hQ _ _ h
  · exact hE _ _ h

theorem Ensures.imp (h : Ensures m Q E s) (hQ : ∀ x s', Q x s' → Q' x s') : Ensures m Q' E s :=
  h.mono hQ fun _ _ => id

theorem Ensures.weaken (h : Ensures m Q E s) (hQ : ∀ x s', Q x s' → Q' x s') :
    Ensures m Q' (fun _ _ => True) s :=
  h.mono hQ fun _ _ _ => trivial

theorem Ensures.and (h : Ensures m Q E s) (h' : Ensures m Q' E' s) :
    Ensures m (fun x s' => Q x s' ∧ Q' x s') (fun e s' => E e s' ∧ E' e s') s := by
  unfold Ensures at h h' ⊢
  split at h <;> simp_all only [and_self]

theorem Ensures.of_run (h : Ensures m Q E s) (hrun : m.run.run s = (.ok x, s')) : Q x s' := by
  unfold Ensures at h
  rwa [hrun] at h

theorem Ensures.of_run_error (h : Ensures m Q E s) (hrun : m.run.run s = (.error e, s')) :
    E e s' := by
  unfold Ensures at h
  rwa [hrun] at h

theorem Ensures.exists_run (h : Ensures m Q (fun _ _ => False) s) :
    ∃ x s', m.run.run s = (.ok x, s') ∧ Q x s' := by
  unfold Ensures at h
  split at h
  · next x s' hrun => exact ⟨x, s', hrun, h⟩
  · exact h.elim

theorem run_bind_ok (h : m.run.run s = (.ok x, s')) : (m >>= f).run.run s = (f x).run.run s' := by
  simp only [ExceptT.run_bind, StateT.run_bind, h]
  rfl

theorem run_bind_error (h : m.run.run s = (.error e, s')) :
    (m >>= f).run.run s = (.error e, s') := by
  simp only [ExceptT.run_bind, StateT.run_bind, h]
  rfl

theorem run_bind_inv (h : (m >>= f).run.run s = (.ok y, s')) :
    ∃ x s1, m.run.run s = (.ok x, s1) ∧ (f x).run.run s1 = (.ok y, s') := by
  cases hm : m.run.run s with
  | mk x s1 =>
    cases x with
    | error e => cases (run_bind_error hm).symm.trans h
    | ok x => exact ⟨x, s1, rfl, (run_bind_ok hm).symm.trans h⟩

@[simp] theorem ensures_pure : Ensures (pure x) Q E s = Q x s := rfl

@[simp] theorem ensures_throw : Ensures (throw e : ExceptT Failure (StateM σ) α) Q E s = E e s :=
  rfl

@[simp] theorem ensures_get {Q : σ → σ → Prop} :
    Ensures (get : ExceptT Failure (StateM σ) σ) Q E s = Q s s := rfl

@[simp] theorem ensures_set {Q : PUnit → σ → Prop} :
    Ensures (set s' : ExceptT Failure (StateM σ) PUnit) Q E s = Q ⟨⟩ s' := rfl

@[simp] theorem ensures_modify {Q : PUnit → σ → Prop} :
    Ensures (modify g : ExceptT Failure (StateM σ) PUnit) Q E s = Q ⟨⟩ (g s) := rfl

@[simp] theorem ensures_bind {Q : β → σ → Prop} :
    Ensures (m >>= f) Q E s = Ensures m (fun x s' => Ensures (f x) Q E s') E s := by
  unfold Ensures
  simp only [ExceptT.run_bind, StateT.run_bind]
  generalize m.run.run s = r
  obtain ⟨x | x, s'⟩ := r <;> rfl

@[simp] theorem ensures_ofExcept :
    Ensures (MonadExcept.ofExcept x : ExceptT Failure (StateM σ) α) Q E s =
      ((∀ v, x = .ok v → Q v s) ∧ ∀ e, x = .error e → E e s) := by
  cases x with
  | ok v =>
    simp only [Except.ok.injEq, forall_eq', reduceCtorEq, false_implies, implies_true,
      and_true]; rfl
  | error e =>
    simp only [Except.error.injEq, forall_eq', reduceCtorEq, false_implies, implies_true,
      true_and]; rfl

/-- A loop over a list that keeps an invariant, which may speak of what is still to come. -/
theorem ensures_forM {I : List γ → σ → Prop}
    (hstep : ∀ x rest s, I (x :: rest) s → Ensures (g x) (fun _ s' => I rest s') E s) (hs : I l s) :
    Ensures (l.forM g) (fun _ s' => I [] s') E s := by
  induction l generalizing s with
  | nil => exact hs
  | cons x rest ih =>
    change Ensures (g x >>= fun _ => rest.forM g) _ _ _
    rw [ensures_bind]
    exact (hstep x rest s hs).imp fun _ s' h => ih h

end

namespace Analysis

/-- The state after an expression was met in a scope. -/
def entered (a : Analysis) (scope : ScopeId) : Analysis :=
  { a with
    notes :=
      if a.cursor < a.notes.size then a.notes.modify a.cursor fun n =>
        { n with scope } else a.notes.push { scope }
    cursor := a.cursor + 1 }

/-- The state after the type of the expression of number `i` was settled. -/
def settled (a : Analysis) (i : Nat) (t : Option TypeId) : Analysis :=
  { a with notes := a.notes.modify i fun n => { n with type := some t } }

/-- The state after something was said. -/
def reported (a : Analysis) (d : Diagnostic) : Analysis :=
  { a with diagnostics := a.diagnostics.push d }

/-- The state after a scope got a child, whose number is the number of scopes before. -/
def withChild (a : Analysis) (scope : ScopeId) : Analysis :=
  { a with scopes := (a.scopes.createChild scope).2 }

/-- The state after a variable was defined in a scope. -/
def defining (a : Analysis) (scope : ScopeId) (name : String) (t : TypeId) : Analysis :=
  { a with scopes := (a.scopes.define scope name t).2 }

/-- The state after some variables were defined in a scope. -/
def definingAll (a : Analysis) (scope : ScopeId) (vars : List (String × TypeId)) : Analysis :=
  vars.foldl (fun a x => a.defining scope x.1 x.2) a

@[simp] theorem scopes_withChild {a : Analysis} :
    (a.withChild scope).scopes = (a.scopes.createChild scope).2 := rfl

@[simp] theorem scopes_defining {a : Analysis} :
    (a.defining scope name t).scopes = (a.scopes.define scope name t).2 := rfl

end Analysis

namespace Analyzing

variable {α : Type} {a : Analysis} {E : Failure → Analysis → Prop}

@[simp] theorem ensures_enter : Ensures (enter scope) Q E a = Q a.cursor (a.entered scope) := rfl

@[simp] theorem ensures_settle : Ensures (settle i t) Q E a = Q t (a.settled i t) := rfl

@[simp] theorem ensures_present :
    Ensures (present x) Q E a = ((∀ v, x = some v → Q v a) ∧ (x = none → E .absent a)) := by
  cases x with
  | none => simp only [reduceCtorEq, false_implies, implies_true, true_and, forall_const]; rfl
  | some v => simp only [Option.some.injEq, forall_eq', reduceCtorEq, false_implies, and_true]; rfl

@[simp] theorem ensures_report :
    Ensures (report place complaint) Q E a = Q () (a.reported { place, complaint }) := rfl

@[simp] theorem ensures_found :
    Ensures (found x) Q E a = Q () { a with findings := a.findings.push x } := rfl

@[simp] theorem ensures_ask {f : Types → Except Failure α} :
    Ensures (ask f) Q E a = ((∀ v, f a.types = .ok v → Q v a) ∧ ∀ e, f a.types = .error e →
      E e a) := by
  simp only [ask, ensures_bind, ensures_get, ensures_ofExcept]

@[simp] theorem ensures_attempt {f : Types → Except Failure α} :
    Ensures (attempt f) Q E a = ((∀ v, f a.types = .ok v → Q (.ok v) a) ∧
      (∀ e, f a.types = .error (.declaration e) → Q (.error e) a) ∧
      ∀ e, f a.types = .error e → (∀ d, e ≠ .declaration d) → E e a) := by
  simp only [attempt, ensures_bind, ensures_get]
  cases f a.types with
  | ok v => simp
  | error e => cases e <;> simp

@[simp] theorem ensures_conforms :
    Ensures (conforms t u) Q E a =
      ((∀ b, a.types.conforms t u = .ok b → Q b a) ∧ ∀ e, a.types.conforms t u = .error e →
        E e a) := ensures_ask

@[simp] theorem ensures_join {Q : Option TypeId → Analysis → Prop} :
    Ensures (join t u) Q E a = ((∀ v, t = some v → (∀ w, a.types.join v u = .ok w → Q w a) ∧
      ∀ e, a.types.join v u = .error e → E e a) ∧ (t = none → E .absent a)) := by
  simp only [join, ensures_bind, ensures_present, ensures_ask]

@[simp] theorem ensures_nameOf : Ensures (nameOf t) Q E a = Q (a.types.name t) a := rfl

@[simp] theorem ensures_newChild :
    Ensures (newChild scope) Q E a = Q a.scopes.scopes.size (a.withChild scope) := rfl

@[simp] theorem ensures_define :
    Ensures (define scope name t) Q E a = Q () (a.defining scope name t) := rfl

theorem ensures_forM_define {name : γ → String} {type : γ → TypeId} {l : List γ} :
    Ensures (l.forM fun x => define scope (name x) (type x)) Q E a ↔
      Q ⟨⟩ (a.definingAll scope (l.map fun x => (name x, type x))) := by
  induction l generalizing a with
  | nil => rfl
  | cons x l ih =>
    change Ensures (define scope (name x) (type x) >>= fun _ => l.forM _) _ _ _ ↔ _
    rw [ensures_bind, ensures_define, ih]
    rfl

@[simp] theorem ensures_resolve :
    Ensures (resolve scope name) Q E a = Q (a.scopes.find scope name) a := rfl

@[simp] theorem ensures_variableOf :
    Ensures (variableOf v) Q E a = Q (a.scopes.getVar v) a := rfl

end Analyzing

section

variable {α : Type} {a : Analysis} {E : Failure → Analysis → Prop}

theorem outcome_of_run {m : Analyzing α} (h : m.run.run a = (.ok x, a')) :
    m.outcome a = (none, a') := by
  rw [Analyzing.outcome, h]

theorem run_of_outcome {m : Analyzing α} (h : m.outcome a = (none, a')) :
    ∃ x, m.run.run a = (.ok x, a') := by
  unfold Analyzing.outcome at h
  split at h
  · next x s hs =>
    cases h
    exact ⟨x, hs⟩
  · cases h

theorem Ensures.of_outcome {m : Analyzing α} (h : Ensures m Q E a)
    (hrun : m.outcome a = (none, a')) : ∃ x, Q x a' := by
  obtain ⟨x, hx⟩ := run_of_outcome hrun
  exact ⟨x, h.of_run hx⟩

theorem Ensures.of_outcome_error {m : Analyzing α}
    (h : Ensures m Q E a) (hrun : m.outcome a = (some f, a')) : E f a' := by
  unfold Analyzing.outcome at hrun
  split at hrun
  · cases hrun
  · next e s hs =>
    cases hrun
    exact h.of_run_error hs

end

end AutoCool.Cool
