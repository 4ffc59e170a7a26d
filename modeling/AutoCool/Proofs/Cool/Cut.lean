import AutoCool.Proofs.Cool.CheckClasses

/-!
# The checker at one expression

A block without expressions cuts the checker short as soon as it is met. So the state in which the
checker meets an expression of a program is the one in which it is cut short when an empty block
stands in the place of that expression (`Program.cut`). The scopes at that moment are an earlier
stage of those at the end of the walk (`Moment`), and the scope of the expression has all its
variables already unless the expression is a `let`.
-/

namespace AutoCool.Cool

namespace Expr

mutual

/-- An expression with an empty block in the place of its expression of number `k`. -/
def cut : Expr → (k : Nat) → Expr
  | .ifThenElse c x y, k + 1 =>
    if k < c.size then .ifThenElse (c.cut k) x y
    else if k - c.size < x.size then .ifThenElse c (x.cut (k - c.size)) y
    else .ifThenElse c x (y.cut (k - c.size - x.size))
  | .whileLoop c x, k + 1 =>
    if k < c.size then .whileLoop (c.cut k) x else .whileLoop c (x.cut (k - c.size))
  | .block es, k + 1 => .block (cutExprs es k)
  | .letIn bs x, k + 1 =>
    if k < sizeOfBindings bs then .letIn (cutBindings bs k) x else .letIn bs
      (x.cut (k - sizeOfBindings bs))
  | .caseOf x bs, k + 1 =>
    if k < x.size then .caseOf (x.cut k) bs else .caseOf x (cutBranches bs (k - x.size))
  | .assign name x, k + 1 => .assign name (x.cut k)
  | .unary op x, k + 1 => .unary op (x.cut k)
  | .binary op x y, k + 1 =>
    if k < x.size then .binary op (x.cut k) y else .binary op x (y.cut (k - x.size))
  | .call x name es type, k + 1 =>
    if k < x.size then .call (x.cut k) name es type else .call x name
      (cutExprs es (k - x.size)) type
  | .selfCall name es, k + 1 => .selfCall name (cutExprs es k)
  | _, _ => .block []

def cutExprs : List Expr → (k : Nat) → List Expr
  | [], _ => []
  | e :: es, k => if k < e.size then e.cut k :: es else e :: cutExprs es (k - e.size)

def cutBindings : List Binding → (k : Nat) → List Binding
  | [], _ => []
  | .mk name type none :: bs, k => .mk name type none :: cutBindings bs k
  | .mk name type (some e) :: bs, k =>
    if k < e.size then .mk name type (some (e.cut k)) :: bs else .mk name type (some e) ::
      cutBindings bs (k - e.size)

def cutBranches : List Branch → (k : Nat) → List Branch
  | [], _ => []
  | .mk name type e :: bs, k =>
    if k < e.size then .mk name type (e.cut k) :: bs else .mk name type e :: cutBranches bs
      (k - e.size)

end

theorem cut_zero (e : Expr) : e.cut 0 = .block [] := by
  cases e <;> simp [cut]

end Expr

def Feature.cut : Feature → (k : Nat) → Feature
  | .attribute name type value, k => .attribute name type (value.map (·.cut k))
  | .method name params type body, k => .method name params type (body.cut k)

def cutFeatures : List Feature → (k : Nat) → List Feature
  | [], _ => []
  | f :: fs, k =>
    if k < f.nodes.length then f.cut k :: fs else f :: cutFeatures fs (k - f.nodes.length)

def cutClasses : List ClassDecl → (k : Nat) → List ClassDecl
  | [], _ => []
  | c :: cs, k =>
    if k < c.nodes.length then { c with features := cutFeatures c.features k } :: cs
    else c :: cutClasses cs (k - c.nodes.length)

/-- A program with an empty block in the place of its expression of number `k`. -/
def Program.cut (p : Program) (k : Nat) : Program := { classes := cutClasses p.classes k }

variable {α β : Type} {site : Site} {scope i k n n' lo : Nat} {x y : Expr} {parts : List Part}
  {names : List String}
  {a a' a'' c : Analysis}

/-- A walk that ended in the state `a'` was in the state `c` when it had met its expression of
number `k`, which is `x`. -/
structure Moment (lo k : Nat) (x : Expr) (c a' : Analysis) : Prop where
  cursor_eq : c.cursor = k + 1
  tidy : c.scopes.Tidy
  grows : c.scopes.Grows a'.scopes
  notes : c.noteScopes <+: a'.noteScopes
  scope : ∃ s, lo ≤ s ∧ s < c.scopes.scopes.size ∧ c.noteScopes[k]? = some s ∧
    (x.ownNames = [] → (a'.scopes.get s).locals = (c.scopes.get s).locals)

theorem Moment.later (h : Moment lo k x c a) (hlo : scope < lo) (hl : Later scope a a') :
    Moment lo k x c a' where
  cursor_eq := h.cursor_eq
  tidy := h.tidy
  grows := h.grows.trans hl.grows
  notes := h.notes.trans hl.notes
  scope := by
    obtain ⟨s, hs, hsize, hnote, hlocals⟩ := h.scope
    refine ⟨s, hs, hsize, hnote, fun hx => ?_⟩
    rw [hl.get_eq s (Nat.lt_of_lt_of_le hsize h.grows.size_le) (Nat.lt_of_lt_of_le hlo hs),
      hlocals hx]

theorem Moment.mono (h : Moment lo k x c a) (hlo : lo' ≤ lo) : Moment lo' k x c a :=
  { h with scope := h.scope.imp fun _ hs => ⟨Nat.le_trans hlo hs.1, hs.2⟩ }

/-- A part of a walk in a scope went past `n` expressions. -/
structure Crossed (scope n : Nat) (a a' : Analysis) : Prop where
  ready : Ready scope a'
  cursor_eq : a'.cursor = a.cursor + n
  later : Later scope a a'

theorem Walked.crossed (h : Walked scope i n a a') (hr : Ready scope a) (hl : Later scope a a') :
    Crossed scope n a a' :=
  ⟨h.ready, by rw [h.ready.cursor_eq, h.size_notes, hr.cursor_eq], hl⟩

theorem Laid.crossed (h : Laid scope i parts names a a') (hr : Ready scope a) :
    Crossed scope (sizeOfParts parts) a a' :=
  h.toWalked.crossed hr h.later

namespace Checking

open Analyzing

variable {m m' : Analyzing α} {f f' : α → Analyzing β} {g g' : Option TypeId → Analyzing β}

/-! ## What goes before and after -/

/-- A part of a walk in a scope goes past `n` expressions. -/
def Adds (scope n : Nat) (m : Analyzing α) : Prop :=
  ∀ a, Ready scope a → Ensures m (fun _ a' => Crossed scope n a a') (fun _ _ => True) a

theorem Adds.bind (hm : Adds scope n m) (hf : ∀ r, Adds scope n' (f r)) :
    Adds scope (n + n') (m >>= f) := by
  intro a hr
  rw [ensures_bind]
  refine (hm a hr).imp fun r a1 h1 => (hf r a1 h1.ready).imp fun _ a2 h2 =>
    ⟨h2.ready, ?_, h1.later.trans h2.later⟩
  rw [h2.cursor_eq, h1.cursor_eq, Nat.add_assoc]

/-- Something is said, and the value is as in `P`. -/
def Says (P : α → Prop) (m : Analyzing α) : Prop :=
  ∀ a, Ensures m (fun r a' => Reports a a' ∧ P r) (fun _ _ => True) a

theorem Says.adds (hm : Says P m) : Adds scope 0 m := fun a hr => (hm a).imp fun _ a' h => by
  have hlaid : Laid scope 0 [] [] a a' := .of_reports hr h.1
  exact hlaid.crossed hr

theorem Adds.skip (hm : Says P m) (hf : ∀ r, Adds scope n (f r)) : Adds scope n (m >>= f) := by
  have h := hm.adds.bind hf
  rwa [Nat.zero_add] at h

theorem adds_pure : Adds scope 0 (pure r) := fun _ hr => ⟨hr, rfl, .refl⟩

theorem adds_settle : Adds scope 0 (settle i t) := fun _ hr => ((Laid.refl hr).settled t).crossed hr

theorem adds_define : Adds scope 0 (define scope name t) := fun a hr => by
  have hlaid : Laid scope 0 [] [] a a := .refl hr
  exact (hlaid.defining name t).crossed hr

theorem adds_newChild : Adds scope 0 (newChild scope) := fun a hr => by
  have hlaid : Laid scope 0 _ _ a (a.withChild scope) := .new_child hr
  exact hlaid.crossed hr

theorem adds_forM {γ : Type} {l : List γ} {h : γ → Analyzing PUnit} (hg : ∀ u, Adds scope 0 (h u)) :
    Adds scope 0 (l.forM h) := fun a hr => by
  refine ensures_forM (I := fun _ a' => Crossed scope 0 a a') (fun u _ a1 h1 => ?_) ⟨hr, rfl, .refl⟩
  exact (hg u a1 h1.ready).imp fun _ _ h2 =>
    ⟨h2.ready, h2.cursor_eq.trans h1.cursor_eq, h1.later.trans h2.later⟩

theorem adds_part : Adds scope y.size (newChild scope >>= fun j => checkExpr site j y) := by
  intro a hr
  rw [ensures_bind, ensures_newChild]
  refine (walks site y _ _ hr.createChild).imp fun r a1 hmet => ?_
  have hlaid : Laid scope 0 _ _ a a1 := hmet.new_child hr
  exact hlaid.crossed hr

theorem adds_branch (ht : TypeId.kind t ≠ .auto) :
    Adds scope y.size (newChild scope >>= fun j => define j name t >>= fun _ =>
      checkExpr site j y) := by
  intro a hr
  rw [ensures_bind, ensures_newChild, ensures_bind, ensures_define]
  refine (walks site y _ _ (hr.createChild.defining name t)).imp fun r a1 hmet => ?_
  have hlaid : Laid scope 0 _ _ a a1 := hmet.branch ht hr
  exact hlaid.crossed hr

theorem adds_after_part (hg : ∀ r, Adds scope n (g r)) :
    Adds scope (y.size + n) (newChild scope >>= fun j => checkExpr site j y >>= g) := by
  simpa only [bind_assoc] using adds_part.bind hg

theorem adds_exprs : Adds scope (Expr.sizeOfExprs es) (checkExprs site scope es) := fun a hr =>
  (visits_exprs site es scope 0 [] [] a a .nil).imp fun _ a' h => by
    simpa [filterMap_visit.1] using (h.laid hr).crossed hr

theorem adds_bindings : Adds scope (Expr.sizeOfBindings bs) (checkBindings site scope bs) :=
  fun a hr =>
  (visits_bindings site bs (.nil (i := 0))).imp fun _ a' ⟨_, h⟩ => by
    simpa [filterMap_bindings.1] using (h.laid hr).crossed hr

theorem adds_branches : Adds scope (Expr.sizeOfBranches bs)
      (settle i t >>= fun t => checkBranches site scope i t bs) := by
  intro a hr
  rw [ensures_bind, ensures_settle]
  refine (visits_branches site bs t .nil).imp ?_
  rintro r _ ⟨rs, a1, h, rfl, -⟩
  simpa [filterMap_branches.1] using ((h.laid hr).settled r).crossed hr

/-! ## The moment at which the checker stops -/

/-- Where the first of two computations goes through the expression `x`, which it meets as the one
of number `k` from where it begins, the second one stops. -/
def Stops (lo scope k : Nat) (x : Expr) (m m' : Analyzing α) : Prop := ∀ a, Ready scope a →
  ∀ r a', m.run.run a = (.ok r, a') → ∃ c, m'.run.run a = (.error .outOfRange, c) ∧
    Moment lo (a.cursor + k) x c a'

theorem Stops.mono (h : Stops lo scope k x m m') (hle : lo' ≤ lo) : Stops lo' scope k x m m' :=
  fun a hr r a' hrun => (h a hr r a' hrun).imp fun _ hc => ⟨hc.1, hc.2.mono hle⟩

theorem Stops.left (h : Stops (scope + 1) scope k x m m') (hm : Adds scope n m)
    (hf : ∀ r, Adds scope n' (f r)) : Stops (scope + 1) scope k x (m >>= f) (m' >>= f') := by
  intro a hr r a' hrun
  obtain ⟨q, a1, hrun1, hrun2⟩ := run_bind_inv hrun
  obtain ⟨c, hc, hmoment⟩ := h a hr q a1 hrun1
  have h2 := (hf q a1 ((hm a hr).of_run hrun1).ready).of_run hrun2
  exact ⟨c, run_bind_error hc, hmoment.later (Nat.lt_succ_self scope) h2.later⟩

theorem Stops.right (hm : Adds scope n m) (h : ∀ r, Stops lo scope k x (f r) (f' r)) :
    Stops lo scope (n + k) x (m >>= f) (m >>= f') := by
  intro a hr r a' hrun
  obtain ⟨q, a1, hrun1, hrun2⟩ := run_bind_inv hrun
  have h1 := (hm a hr).of_run hrun1
  obtain ⟨c, hc, hmoment⟩ := h q a1 h1.ready r a' hrun2
  rw [h1.cursor_eq, Nat.add_assoc] at hmoment
  exact ⟨c, (run_bind_ok hrun1).trans hc, hmoment⟩

theorem Stops.next (hm : Adds scope 0 m) (h : ∀ r, Stops lo scope k x (f r) (f' r)) :
    Stops lo scope k x (m >>= f) (m >>= f') := by
  have hstops := Stops.right hm h
  rwa [Nat.zero_add] at hstops

theorem Stops.skip (hm : Says P m) (h : ∀ r, P r → Stops lo scope k x (f r) (f' r)) :
    Stops lo scope k x (m >>= f) (m >>= f') := by
  intro a hr r a' hrun
  obtain ⟨q, a1, hrun1, hrun2⟩ := run_bind_inv hrun
  have h1 := (hm.adds a hr).of_run hrun1
  obtain ⟨c, hc, hmoment⟩ := h q ((hm a).of_run hrun1).2 a1 h1.ready r a' hrun2
  rw [h1.cursor_eq, Nat.add_zero] at hmoment
  exact ⟨c, (run_bind_ok hrun1).trans hc, hmoment⟩

theorem Stops.child (hstops : ∀ j, Stops j j k x (h j) (h' j)) :
    Stops (scope + 1) scope k x (newChild scope >>= h) (newChild scope >>= h') := by
  intro a hr r a' hrun
  have hnew : (newChild scope).run.run a = (.ok a.scopes.scopes.size, a.withChild scope) := rfl
  rw [run_bind_ok hnew] at hrun ⊢
  obtain ⟨c, hc, hmoment⟩ := hstops _ _ hr.createChild r a' hrun
  exact ⟨c, hc, hmoment.mono hr.scope_lt⟩

theorem Stops.enter (h : ∀ i, Stops (scope + 1) scope k x (b i) (b' i)) :
    Stops scope scope (k + 1) x (enter scope >>= b) (enter scope >>= b') := by
  intro a hr r a' hrun
  have henter : (Analyzing.enter scope).run.run a = (.ok a.cursor, a.entered scope) := rfl
  rw [run_bind_ok henter] at hrun ⊢
  obtain ⟨c, hc, hmoment⟩ := h a.cursor (a.entered scope) hr.entered r a' hrun
  have hcursor : (a.entered scope).cursor + k = a.cursor + (k + 1) := by
    rw [Nat.add_comm k, ← Nat.add_assoc]
    rfl
  exact ⟨c, hc, hcursor ▸ hmoment.mono (Nat.le_succ scope)⟩

/-- The walk over an expression stops, in whatever scope. -/
def StopsExpr (site : Site) (y : Expr) (k : Nat) (x y' : Expr) : Prop :=
  ∀ scope, Stops scope scope k x (checkExpr site scope y) (checkExpr site scope y')

variable {y' : Expr}

theorem StopsExpr.part (hy : StopsExpr site y k x y') (hg : ∀ r, Adds scope n (g r)) :
    Stops (scope + 1) scope k x (newChild scope >>= fun j => checkExpr site j y >>= g)
      (newChild scope >>= fun j => checkExpr site j y' >>= g') := by
  have hstops : Stops _ scope k x (_ >>= g) (_ >>= g') := (Stops.child hy).left adds_part hg
  simpa only [bind_assoc] using hstops

theorem StopsExpr.branch (ht : TypeId.kind t ≠ .auto) (hy : StopsExpr site y k x y')
    (hg : ∀ r, Adds scope n (g r)) :
    Stops (scope + 1) scope k x (newChild scope >>= fun j => define j name t >>= fun _ =>
      checkExpr site j y >>= g)
      (newChild scope >>= fun j => define j name t >>= fun _ => checkExpr site j y' >>= g') := by
  have hbody : ∀ j, Stops j j k x (define j name t >>= fun _ => checkExpr site j y)
      (define j name t >>= fun _ => checkExpr site j y') :=
    fun j => .next adds_define fun _ => hy j
  have hstops : Stops _ scope k x (_ >>= g) (_ >>= g') :=
    (Stops.child hbody).left (adds_branch ht) hg
  simpa only [bind_assoc] using hstops

theorem stops_after_part (h : ∀ r, Stops lo scope k x (g r) (g' r)) :
    Stops lo scope (y.size + k) x (newChild scope >>= fun j => checkExpr site j y >>= g)
      (newChild scope >>= fun j => checkExpr site j y >>= g') := by
  simpa only [bind_assoc] using Stops.right adds_part h

theorem stops_after_branch (ht : TypeId.kind t ≠ .auto) (h : ∀ r, Stops lo scope k x (g r) (g' r)) :
    Stops lo scope (y.size + k) x
      (newChild scope >>= fun j => define j name t >>= fun _ => checkExpr site j y >>= g)
      (newChild scope >>= fun j => define j name t >>= fun _ => checkExpr site j y >>= g') := by
  simpa only [bind_assoc] using Stops.right (adds_branch ht) h

theorem stops_here (e : Expr) : StopsExpr site e 0 e (.block []) := by
  intro scope a hr r a' hrun
  have hmet := (walks site e scope a hr).of_run hrun
  have hnotes : (a.entered scope).noteScopes = a.noteScopes ++ [scope] :=
    noteScopes_entered hr.cursor_eq
  refine ⟨a.entered scope, by simp only [checkExpr, checkExprs]; rfl, ⟨rfl, hr.tidy, ?_, ?_, ?_⟩⟩
  · exact hmet.laid.later.grows
  · exact hmet.laid.later.notes
  · refine ⟨scope, Nat.le_refl scope, hr.scope_lt, ?_, fun he => ?_⟩
    · have hlen : a.noteScopes.length = a.cursor := by
        rw [hr.cursor_eq, Analysis.noteScopes, List.length_map, Array.length_toList]
      rw [hnotes, Nat.add_zero, ← hlen, List.getElem?_concat_length]
    · obtain ⟨is, vs, hget, -, hvs⟩ := hmet.laid.laid
      rw [he, List.map_eq_nil_iff] at hvs
      rw [hget, hvs, List.append_nil]

/-! ## Expressions -/

variable {place : Position} {name : Token} {source : Option TypeId} {target : TypeId}

theorem says_expect : Says (fun _ => True) (expect place source target) := fun _ =>
  ensures_expect.weaken fun _ _ h => ⟨h.1, trivial⟩

theorem says_typeOrWrong : Says (fun _ => True) (typeOrWrong name) :=
  fun _ => ensures_typeOrWrong.imp fun _ _ h => ⟨h.1, trivial⟩

theorem says_concreteOrWrong :
    Says (fun t => TypeId.kind t ≠ .auto) (concreteOrWrong name complaint) := fun _ =>
  ensures_concreteOrWrong.imp fun _ _ h => ⟨h.1, h.2.2.2.2⟩

theorem says_callee : Says (fun _ => True) (callee name target) := fun _ =>
  ensures_callee.weaken fun _ _ h => ⟨h.1, trivial⟩

theorem says_checkCall : Says (fun _ => True) (checkCall name method args) := fun _ =>
  ensures_checkCall.weaken fun _ _ h => ⟨h.1, trivial⟩

theorem says_checkAssign : Says (fun _ => True) (checkAssign site scope name value source) :=
  fun _ =>
  ensures_checkAssign.weaken fun _ _ h => ⟨h.1, trivial⟩

theorem says_checkOperands : Says (fun _ => True) (checkOperands place op left right) := fun _ =>
  ensures_checkOperands.weaken fun _ _ h => ⟨h.1, trivial⟩

theorem says_checkOverride {m : Method} : Says (fun _ => True) (checkOverride cls name m) :=
  fun _ =>
  ensures_checkOverride.weaken fun _ _ h => ⟨h.1, trivial⟩

theorem says_join : Says (fun _ => True) (join t u) := fun _ => by
  simp [Reports.refl]

theorem says_present : Says (fun _ => True) (present o) := fun _ => by
  simp [Reports.refl]

theorem adds_dispatch : Adds scope (Expr.sizeOfExprs es) (do
    let (type, method) ← callee name target
    let argTypes ← checkExprs site scope es
    checkCall name method argTypes
    settle i (some type)) :=
  .skip says_callee fun _ => adds_exprs.bind fun _ => .skip says_checkCall fun _ => adds_settle

/-- The checker stops at any expression of a given one. -/
def StopsAt (site : Site) (e : Expr) : Prop :=
  ∀ k x, e.nodes[k]? = some x → StopsExpr site e k x (e.cut k)

theorem stopsAt_of_parts (h : ∀ k x, (nodesOfParts e.parts)[k]? = some x →
      StopsExpr site e (k + 1) x (e.cut (k + 1))) : StopsAt site e := by
  intro k x hx
  rw [e.nodes_eq] at hx
  cases k with
  | zero =>
    cases hx
    rw [Expr.cut_zero]
    exact stops_here e
  | succ k => exact h k x hx

theorem getElem?_nodes_append (hx : (y.nodes ++ l)[k]? = some x) :
    k < y.size ∧ y.nodes[k]? = some x ∨ ∃ k', k = y.size + k' ∧ l[k']? = some x := by
  by_cases hk : k < y.size
  · rw [List.getElem?_append_left (by simpa using hk)] at hx
    exact .inl ⟨hk, hx⟩
  · rw [List.getElem?_append_right (by simpa using hk), Expr.length_nodes] at hx
    exact .inr ⟨k - y.size, by omega, hx⟩

theorem StopsAt.last (hy : StopsAt site y) (hx : (y.nodes ++ [])[k]? = some x)
    (hg : ∀ r, Adds scope n (g r)) :
    Stops (scope + 1) scope k x (newChild scope >>= fun j => checkExpr site j y >>= g)
      (newChild scope >>= fun j => checkExpr site j (y.cut k) >>= g') := by
  rw [List.append_nil] at hx
  exact (hy _ _ hx).part hg

theorem stops_ifThenElse (hu : StopsAt site u) (hv : StopsAt site v) (hw : StopsAt site w) :
    StopsAt site (.ifThenElse u v w) := by
  refine stopsAt_of_parts fun k x hx scope => ?_
  simp only [Expr.parts, nodesOfParts_cons, Option.elim_some] at hx
  have hjoin : ∀ i t t', Adds scope 0 (join t t' >>= settle i) :=
    fun _ _ _ => .skip says_join fun _ => adds_settle
  rw [checkExpr, Expr.cut]
  rcases getElem?_nodes_append hx with ⟨hk, hy⟩ | ⟨k, rfl, hy⟩
  · rw [if_pos hk, checkExpr]
    refine Stops.enter (fun i => ?_)
    exact (hu _ _ hy).part fun _ => .skip says_expect fun _ => adds_after_part fun _ =>
      adds_after_part fun _ => hjoin i _ _
  · rw [if_neg (by omega), Nat.add_sub_cancel_left]
    rcases getElem?_nodes_append hy with ⟨hk, hz⟩ | ⟨k, rfl, hz⟩
    · rw [if_pos hk, checkExpr]
      refine Stops.enter (fun i => stops_after_part fun _ => .skip says_expect fun _ _ => ?_)
      exact (hv _ _ hz).part fun _ => adds_after_part fun _ => hjoin i _ _
    · rw [if_neg (by omega), Nat.add_sub_cancel_left, checkExpr]
      refine Stops.enter (fun i => stops_after_part fun _ => .skip says_expect fun _ _ =>
        stops_after_part fun _ => ?_)
      exact hw.last hz fun _ => hjoin i _ _

theorem stops_whileLoop (hu : StopsAt site u) (hv : StopsAt site v) :
    StopsAt site (.whileLoop u v) := by
  refine stopsAt_of_parts fun k x hx scope => ?_
  simp only [Expr.parts, nodesOfParts_cons, Option.elim_some] at hx
  rw [checkExpr, Expr.cut]
  rcases getElem?_nodes_append hx with ⟨hk, hy⟩ | ⟨k, rfl, hy⟩
  · rw [if_pos hk, checkExpr]
    refine Stops.enter (fun i => ?_)
    exact (hu _ _ hy).part fun _ => .skip says_expect fun _ => adds_after_part fun _ => adds_settle
  · rw [if_neg (by omega), Nat.add_sub_cancel_left, checkExpr]
    refine Stops.enter (fun i => stops_after_part fun _ => .skip says_expect fun _ _ => ?_)
    exact hv.last hy fun _ => adds_settle

theorem stops_assign (hu : StopsAt site u) : StopsAt site (.assign name u) := by
  refine stopsAt_of_parts fun k x hx scope => ?_
  rw [checkExpr, Expr.cut, checkExpr]
  exact Stops.enter (fun i => hu.last hx fun _ => .skip says_checkAssign fun _ => adds_settle)

theorem stops_unary (hu : StopsAt site u) : StopsAt site (.unary op u) := by
  refine stopsAt_of_parts fun k x hx scope => ?_
  rw [checkExpr, Expr.cut, checkExpr]
  refine Stops.enter (fun i => hu.last (n := 0) hx fun _ => ?_)
  cases op with
  | isVoid => exact adds_settle
  | not | complement => exact .skip says_expect fun _ => adds_settle

theorem stops_binary (hu : StopsAt site u) (hv : StopsAt site v) :
    StopsAt site (.binary op u v) := by
  refine stopsAt_of_parts fun k x hx scope => ?_
  simp only [Expr.parts, nodesOfParts_cons, Option.elim_some] at hx
  rw [checkExpr, Expr.cut]
  rcases getElem?_nodes_append hx with ⟨hk, hy⟩ | ⟨k, rfl, hy⟩
  · rw [if_pos hk, checkExpr]
    refine Stops.enter (fun i => ?_)
    exact (hu _ _ hy).part fun _ => adds_after_part fun _ => .skip says_checkOperands fun _ =>
      adds_settle
  · rw [if_neg (by omega), Nat.add_sub_cancel_left, checkExpr]
    refine Stops.enter (fun i => stops_after_part fun _ => ?_)
    exact hv.last hy fun _ => .skip says_checkOperands fun _ => adds_settle

/-! ## Lists of expressions -/

theorem stops_exprs (hes : ∀ e ∈ es, StopsAt site e) (hx : (Expr.nodesOf es)[k]? = some x) :
    Stops (scope + 1) scope k x (checkExprs site scope es)
      (checkExprs site scope (Expr.cutExprs es k)) := by
  induction es generalizing k with
  | nil => cases hx
  | cons e es ih =>
    obtain ⟨he, hes⟩ := List.forall_mem_cons.1 hes
    rw [Expr.nodesOf] at hx
    rw [checkExprs, Expr.cutExprs]
    rcases getElem?_nodes_append hx with ⟨hk, hy⟩ | ⟨k, rfl, hy⟩
    · rw [if_pos hk, checkExprs]
      exact (he _ _ hy).part fun _ => adds_exprs.bind fun _ => adds_pure
    · rw [if_neg (by omega), Nat.add_sub_cancel_left, checkExprs]
      exact stops_after_part fun _ => (ih hes hy).left adds_exprs fun _ => adds_pure

theorem stops_block (hes : ∀ e ∈ es, StopsAt site e) : StopsAt site (.block es) := by
  refine stopsAt_of_parts fun k x hx scope => ?_
  rw [Expr.parts, nodesOfParts_exprs] at hx
  rw [checkExpr, Expr.cut, checkExpr]
  refine Stops.enter (fun i => (stops_exprs hes hx).left adds_exprs fun l => (?_ : Adds scope 0 _))
  split
  · exact adds_settle
  · exact fun _ _ => trivial

theorem stops_dispatch (hes : ∀ e ∈ es, StopsAt site e) (hx : (Expr.nodesOf es)[k]? = some x) :
    Stops (scope + 1) scope k x (do
      let (type, method) ← callee name target
      let argTypes ← checkExprs site scope es
      checkCall name method argTypes
      settle i (some type)) (do
      let (type, method) ← callee name target
      let argTypes ← checkExprs site scope (Expr.cutExprs es k)
      checkCall name method argTypes
      settle i (some type)) :=
  .skip says_callee fun _ _ => (stops_exprs hes hx).left adds_exprs fun _ =>
    .skip says_checkCall fun _ => adds_settle

theorem stops_selfCall (hes : ∀ e ∈ es, StopsAt site e) : StopsAt site (.selfCall name es) := by
  refine stopsAt_of_parts fun k x hx scope => ?_
  rw [Expr.parts, nodesOfParts_exprs] at hx
  rw [checkExpr, Expr.cut, checkExpr]
  exact Stops.enter (fun i => stops_dispatch hes hx)

theorem stops_call (hu : StopsAt site u) (hes : ∀ e ∈ es, StopsAt site e) :
    StopsAt site (.call u name es type) := by
  refine stopsAt_of_parts fun k x hx scope => ?_
  rw [Expr.parts, nodesOfParts_cons, nodesOfParts_exprs, Option.elim_some] at hx
  rw [checkExpr, Expr.cut]
  rcases getElem?_nodes_append hx with ⟨hk, hy⟩ | ⟨k, rfl, hy⟩
  · rw [if_pos hk, checkExpr]
    refine Stops.enter (fun i => (hu _ _ hy).part (n := Expr.sizeOfExprs es) fun _ => ?_)
    cases type with
    | none => exact .skip says_present fun _ => adds_dispatch
    | some type =>
      refine .skip says_concreteOrWrong fun t => .skip says_expect fun _ => ?_
      rw [pure_bind]
      exact adds_dispatch
  · rw [if_neg (by omega), Nat.add_sub_cancel_left, checkExpr]
    refine Stops.enter (fun i => stops_after_part fun _ => ?_)
    cases type with
    | none => exact .skip says_present fun _ _ => stops_dispatch hes hy
    | some type =>
      refine .skip says_concreteOrWrong fun t _ => .skip says_expect fun _ _ => ?_
      rw [pure_bind, pure_bind]
      exact stops_dispatch hes hy

/-! ## Bindings and branches -/

theorem stops_bindings (hbs : ∀ b ∈ bs, ∀ e, b.value = some e → StopsAt site e)
    (hx : (Expr.nodesOfBindings bs)[k]? = some x) :
    Stops (scope + 1) scope k x (checkBindings site scope bs)
      (checkBindings site scope (Expr.cutBindings bs k)) := by
  induction bs generalizing k with
  | nil => cases hx
  | cons b bs ih =>
    obtain ⟨hb, hrest⟩ := List.forall_mem_cons.1 hbs
    obtain ⟨name, type, value⟩ := b
    cases value with
    | none =>
      rw [Expr.nodesOfBindings] at hx
      rw [checkBindings, Expr.cutBindings, checkBindings]
      exact .skip says_typeOrWrong fun _ _ => .next adds_newChild fun _ =>
        .next adds_define fun _ => ih hrest hx
    | some e =>
      rw [Expr.nodesOfBindings] at hx
      rw [checkBindings, Expr.cutBindings]
      have hnext : ∀ t, Adds scope (0 + Expr.sizeOfBindings bs)
          (define scope name.text t >>= fun _ => checkBindings site scope bs) :=
        fun _ => adds_define.bind fun _ => adds_bindings
      rcases getElem?_nodes_append hx with ⟨hk, hy⟩ | ⟨k, rfl, hy⟩
      · rw [if_pos hk, checkBindings]
        refine .skip says_typeOrWrong fun _ _ => ?_
        exact (hb e rfl _ _ hy).part fun _ => .skip says_expect fun _ => hnext _
      · rw [if_neg (by omega), Nat.add_sub_cancel_left, checkBindings]
        refine .skip says_typeOrWrong fun _ _ => stops_after_part fun _ =>
          .skip says_expect fun _ _ => ?_
        exact .next adds_define fun _ => ih hrest hy

theorem stops_letIn (hbs : ∀ b ∈ bs, ∀ e, b.value = some e → StopsAt site e) (hu : StopsAt site u) :
    StopsAt site (.letIn bs u) := by
  refine stopsAt_of_parts fun k x hx scope => ?_
  rw [Expr.parts, nodesOfParts_append, nodesOfParts_bindings, nodesOfParts_cons,
    Option.elim_some] at hx
  rw [checkExpr, Expr.cut]
  by_cases hk : k < Expr.sizeOfBindings bs
  · rw [List.getElem?_append_left (by rwa [Expr.length_nodesOfBindings])] at hx
    rw [if_pos hk, checkExpr]
    exact Stops.enter (fun i => (stops_bindings hbs hx).left adds_bindings fun _ => adds_after_part
      fun _ => adds_settle)
  · rw [List.getElem?_append_right (by rw [Expr.length_nodesOfBindings]; omega),
      Expr.length_nodesOfBindings] at hx
    obtain ⟨k, rfl⟩ := Nat.exists_eq_add_of_le (Nat.le_of_not_lt hk)
    rw [Nat.add_sub_cancel_left] at hx
    rw [if_neg hk, Nat.add_sub_cancel_left, checkExpr]
    exact Stops.enter (fun i => .right adds_bindings fun _ => hu.last hx fun _ => adds_settle)

theorem stops_branches (hbs : ∀ b ∈ bs, StopsAt site b.body)
    (hx : (Expr.nodesOfBranches bs)[k]? = some x) :
    Stops (scope + 1) scope k x (checkBranches site scope i total bs)
      (checkBranches site scope i total (Expr.cutBranches bs k)) := by
  induction bs generalizing k total with
  | nil => cases hx
  | cons b bs ih =>
    obtain ⟨hb, hrest⟩ := List.forall_mem_cons.1 hbs
    obtain ⟨name, type, body⟩ := b
    rw [Expr.nodesOfBranches] at hx
    rw [checkBranches, Expr.cutBranches]
    rcases getElem?_nodes_append hx with ⟨hk, hy⟩ | ⟨k, rfl, hy⟩
    · rw [if_pos hk, checkBranches]
      refine .skip says_concreteOrWrong fun t ht =>
        (hb _ _ hy).branch (n := Expr.sizeOfBranches bs) ht fun _ => ?_
      cases total with
      | none => exact adds_branches
      | some u => exact .skip says_join fun _ => adds_branches
    · rw [if_neg (by omega), Nat.add_sub_cancel_left, checkBranches]
      refine .skip says_concreteOrWrong fun t ht => stops_after_branch ht fun _ => ?_
      cases total with
      | none => exact .next adds_settle fun _ => ih hrest hy
      | some u => exact .skip says_join fun _ _ => .next adds_settle fun _ => ih hrest hy

theorem stops_caseOf (hu : StopsAt site u) (hbs : ∀ b ∈ bs, StopsAt site b.body) :
    StopsAt site (.caseOf u bs) := by
  refine stopsAt_of_parts fun k x hx scope => ?_
  rw [Expr.parts, nodesOfParts_cons, nodesOfParts_branches, Option.elim_some] at hx
  rw [checkExpr, Expr.cut]
  rcases getElem?_nodes_append hx with ⟨hk, hy⟩ | ⟨k, rfl, hy⟩
  · rw [if_pos hk, checkExpr]
    exact Stops.enter (fun i => (hu _ _ hy).part fun _ => adds_branches)
  · rw [if_neg (by omega), Nat.add_sub_cancel_left, checkExpr]
    exact Stops.enter (fun i => stops_after_part fun _ => .next adds_settle fun _ =>
      stops_branches hbs hy)

theorem stops (site : Site) (e : Expr) : StopsAt site e := by
  induction e using Expr.induction with
  | ifThenElse c x y hc hx hy => exact stops_ifThenElse hc hx hy
  | whileLoop c x hc hx => exact stops_whileLoop hc hx
  | block es hes => exact stops_block hes
  | letIn bs x hbs hx => exact stops_letIn hbs hx
  | caseOf x bs hx hbs => exact stops_caseOf hx hbs
  | assign name x hx => exact stops_assign hx
  | unary op x hx => exact stops_unary hx
  | binary op x y hx hy => exact stops_binary hx hy
  | call x name es type hx hes => exact stops_call hx hes
  | selfCall name es hes => exact stops_selfCall hes
  | new type => exact stopsAt_of_parts fun k x hx => by cases hx
  | atom kind token => exact stopsAt_of_parts fun k x hx => by cases hx

/-! ## Features -/

theorem says_ask : Says (fun _ => True) (ask h) := fun _ => by
  simp [Reports.refl]

theorem stops_feature {g : Feature} (hx : g.nodes[k]? = some x) :
    Stops (scope + 1) scope k x (checkFeature site scope g)
      (checkFeature site scope (g.cut k)) := by
  match g with
  | .attribute name type none => cases hx
  | .attribute name type (some e) =>
    rw [checkFeature, Feature.cut, Option.map_some, checkFeature]
    exact (stops site e k x hx).part fun _ => .skip says_ask fun _ => .skip says_expect fun _ =>
      adds_pure
  | .method name params type e =>
    rw [checkFeature, Feature.cut, checkFeature]
    refine .skip says_ask fun u _ => .skip says_checkOverride fun _ _ =>
      .next adds_define fun _ => ?_
    refine .next (adds_forM fun _ => adds_define) fun _ => ?_
    exact (stops _ e k x hx).part fun _ => .skip says_expect fun _ => adds_pure

theorem stops_features {fs : List Feature} (hcls : site.cls ≠ TypeId.auto)
    (hx : (fs.flatMap Feature.nodes)[k]? = some x) :
    Stops (scope + 1) scope k x (checkFeatures scope site fs)
      (checkFeatures scope site (cutFeatures fs k)) := by
  induction fs generalizing k site with
  | nil => cases hx
  | cons g fs ih =>
    rw [List.flatMap_cons] at hx
    have hfirst : Adds scope g.nodes.length
        (newChild scope >>= fun j => checkFeature site j g) := by
      intro a hr
      rw [ensures_bind, ensures_newChild]
      refine (visits_feature g).imp fun _ a' h => ?_
      have hlaid : LaidFeatures site.cls scope 0 [g] a a' := h.laid_child hcls hr
      simpa using hlaid.toWalked.crossed hr hlaid.later
    have hothers : ∀ method, Adds scope (fs.flatMap Feature.nodes).length
        (checkFeatures scope { site with method } fs) :=
      fun method a hr => (visits_features fs).imp fun _ a' h => by
        have hlaid : LaidFeatures site.cls scope 0 fs a a' := h.laid hcls hr
        exact hlaid.toWalked.crossed hr hlaid.later
    rw [checkFeatures, cutFeatures]
    split
    · next hk =>
      rw [List.getElem?_append_left hk] at hx
      rw [checkFeatures]
      have hchild : Stops (scope + 1) scope k x
          (newChild scope >>= fun j => checkFeature site j g) _ :=
        .child fun j => (stops_feature hx).mono (Nat.le_succ j)
      simpa only [bind_assoc] using hchild.left hfirst hothers
    · next hk =>
      rw [List.getElem?_append_right (by omega)] at hx
      rw [checkFeatures]
      have hrest : ∀ method, Stops (scope + 1) scope _ x
          (checkFeatures scope { site with method } fs) _ := fun _ => ih hcls hx
      have hnext := Stops.right hfirst hrest
      rw [Nat.add_sub_cancel' (by omega)] at hnext
      simpa only [bind_assoc] using hnext

/-! ## Classes -/

theorem adds_breakCycle : Adds scope 0 (breakCycle d cls) := by
  refine fun a hr => (ensures_breakCycle fun _ => trivial).imp ?_
  rintro _ a' ⟨⟨ts, ds, _, heq⟩, _⟩
  rw [heq]
  exact ⟨{ hr with }, rfl, { (Later.refl : Later scope a a) with }⟩

theorem stops_class (hd : a.types.find d.name.text ≠ .ok TypeId.auto)
    (hx : d.nodes[k]? = some x) (hr : Ready scope a)
      (hrun : (checkClass method scope d).run.run a = (.ok r, a')) :
    ∃ c, (checkClass method scope { d with features := cutFeatures d.features k }).run.run a =
      (.error .outOfRange, c) ∧
      Moment (scope + 1) (a.cursor + k) x c a' := by
  rw [checkClass] at hrun ⊢
  obtain ⟨cls, a1, hrun1, hrest⟩ := run_bind_inv hrun
  have hask : Ensures (ask (·.find d.name.text))
      (fun u a' => a' = a ∧ a.types.find d.name.text = .ok u) (fun _ _ => True) a := by
    simp only [ensures_ask]
    exact ⟨fun u hu => ⟨trivial, hu⟩, fun _ _ => trivial⟩
  obtain ⟨rfl, hcls⟩ := hask.of_run hrun1
  have hauto : cls ≠ TypeId.auto := fun h => hd (h ▸ hcls)
  have hnext : Stops (scope + 1) scope k x (do
      breakCycle d cls
      ((← get).types.get cls).attributes.forM fun a => define scope a.name a.type
      checkFeatures scope { cls, method } d.features) (do
      breakCycle d cls
      ((← get).types.get cls).attributes.forM fun a => define scope a.name a.type
      checkFeatures scope { cls, method } (cutFeatures d.features k)) := by
    refine .next adds_breakCycle fun _ => .next (fun b hb => ⟨hb, rfl, .refl⟩) fun _ => ?_
    exact .next (adds_forM fun _ => adds_define) fun _ => stops_features hauto hx
  rw [run_bind_ok hrun1]
  exact hnext a1 hr r a' hrest

theorem stops_classes (hcs : ∀ d ∈ cs, a.types.find d.name.text ≠ .ok TypeId.auto)
    (hx : (cs.flatMap ClassDecl.nodes)[k]? = some x) (hr : Ready ScopeTree.root a)
    (hrun : (checkClasses method cs).run.run a = (.ok (), a')) :
    ∃ c, (checkClasses method (cutClasses cs k)).run.run a = (.error .outOfRange, c) ∧
      Moment (ScopeTree.root + 1) (a.cursor + k) x c a' := by
  induction cs generalizing k method a with
  | nil => cases hx
  | cons d cs ih =>
    obtain ⟨hd, hcs⟩ := List.forall_mem_cons.1 hcs
    rw [checkClasses] at hrun
    rw [List.flatMap_cons] at hx
    have hnew : (newChild ScopeTree.root).run.run a =
        (.ok a.scopes.scopes.size, a.withChild ScopeTree.root) := rfl
    rw [run_bind_ok hnew] at hrun
    obtain ⟨method', a1, hrun1, hrun2⟩ := run_bind_inv hrun
    have h1 : LaidClasses [d] a a1 := ((visits_class d).of_run hrun1).laid hd hr
    have hcs1 : ∀ d ∈ cs, a1.types.find d.name.text ≠ .ok TypeId.auto := fun d' hd' => by
      rw [Types.find, h1.types.context_eq]
      exact hcs d' hd'
    rw [cutClasses]
    split
    · next hk =>
      rw [List.getElem?_append_left hk] at hx
      obtain ⟨c, hc, hmoment⟩ :=
          stops_class (a := a.withChild ScopeTree.root) hd hx hr.createChild hrun1
      have h2 : LaidClasses cs a1 a' := ((visits_classes cs).of_run hrun2).laid hcs1 h1.ready
      rw [checkClasses, run_bind_ok hnew]
      refine ⟨c, run_bind_error hc, (hmoment.mono ?_).later (Nat.lt_succ_self _) h2.later⟩
      exact Nat.le_succ_of_le hr.scope_lt
    · next hk =>
      rw [List.getElem?_append_right (by omega)] at hx
      obtain ⟨c, hc, hmoment⟩ := ih hcs1 hx h1.ready hrun2
      have hcursor : a1.cursor + (k - d.nodes.length) = a.cursor + k := by
        rw [h1.ready.cursor_eq, h1.size_notes, hr.cursor_eq]
        simp [ClassDecl.nodes] at hk ⊢
        omega
      rw [checkClasses, run_bind_ok hnew, run_bind_ok hrun1]
      exact ⟨c, hc, hcursor ▸ hmoment⟩

end Checking

/-- With an empty block in the place of one of its expressions, the checker is cut short where it
would have gone through that expression. -/
theorem moment_of_check (hp : ∀ c ∈ p.classes, ts.find c.name.text ≠ .ok TypeId.auto)
    (h : (check p).outcome { types := ts } = (none, a)) (hx : p.nodes[k]? = some x) :
    ∃ c, (check (p.cut k)).outcome { types := ts } = (some .outOfRange, c) ∧
      Moment (ScopeTree.root + 1) k x c a := by
  obtain ⟨r, hrun⟩ := run_of_outcome h
  obtain ⟨c, hc, hmoment⟩ := Checking.stops_classes hp hx ready_start hrun
  rw [Nat.zero_add] at hmoment
  refine ⟨c, ?_, hmoment⟩
  rw [Analyzing.outcome, check]
  exact hc ▸ rfl

end AutoCool.Cool
