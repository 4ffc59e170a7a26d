import AutoCool.Proofs.Cool.CheckClasses
import AutoCool.Proofs.Cool.Declared

/-!
# What cuts the checker short

The checker says what is wrong with a program and goes on, save in three cases: the types of two
branches have no join because one is above the other, an expression has no type because its branches
have none in common, or a name is not known before the first method of the program was met
(`completes`).
-/

namespace AutoCool.Cool

/-- The variable that an expression itself names. -/
def Expr.lookup? : Expr → Option String
  | .atom .name token => some token.text
  | .assign name _ => some name.text
  | _ => none

theorem Expr.ownNames_of_lookup? {x : Expr} (h : x.lookup? = some name) : x.ownNames = [] := by
  cases x with
  | letIn => cases h
  | _ => rfl

/-- What may cut the checker short, where the first `bound` expressions stand before all methods. -/
inductive CheckStuck (nodes : List Expr) (bound : Nat) (a : Analysis) : Failure → Prop
  | stuck {f} : Stuck nodes a f → CheckStuck nodes bound a f
  | unknown {k e name s} : nodes[k]? = some e → k < bound → e.lookup? = some name →
      a.scopeAt k = some s →
      a.scopes.find s name = none → CheckStuck nodes bound a .absent

/-- The checker is cut short for one of the reasons above. -/
abbrev Cuts (nodes : List Expr) (bound : Nat) (f : Failure) (a : Analysis) : Prop :=
  CheckStuck nodes bound a f

variable {nodes : List Expr} {bound k scope : Nat} {a a' : Analysis} {site : Site} {e x : Expr}
  {r : Option TypeId}

theorem Untyped.reports (h : Untyped nodes a) (hr : Reports a a') : Untyped nodes a' := by
  obtain ⟨ds, rfl⟩ := hr
  exact h

/-! ## Walks over expressions -/

/-- A walk over the expression of number `k` in a scope has some parts before it. -/
structure Walking (nodes : List Expr) (bound : Nat) (site : Site) (scope k : Nat) (e : Expr)
    (rest : List Part) (a : Analysis) : Prop where
  ready : Ready scope a
  hierarchy : a.types.Hierarchy
  node : nodes[k]? = some e
  scope_eq : a.scopeAt k = some scope
  placed : Placed nodes a.cursor (nodesOfParts rest)
  early : site.method = none → k < bound ∧ a.cursor + sizeOfParts rest ≤ bound

/-- The checker goes through an expression, or is cut short for one of the reasons above. -/
def Completes (nodes : List Expr) (bound : Nat) (site : Site) (e : Expr) : Prop :=
  ∀ (scope : Nat) (a : Analysis), Ready scope a → a.types.Hierarchy →
    Placed nodes a.cursor e.nodes →
    (site.method = none → a.cursor + e.size ≤ bound) →
    Ensures (Checking.checkExpr site scope e) (fun _ _ => True) (Cuts nodes bound) a

variable {rest : List Part}

theorem Walking.start (hr : Ready scope a) (ha : a.types.Hierarchy)
    (hp : Placed nodes a.cursor e.nodes) (he : site.method = none → a.cursor + e.size ≤ bound) :
    Walking nodes bound site scope a.cursor e e.parts (a.entered scope) := by
  rw [e.nodes_eq] at hp
  have hsize := e.size_eq
  refine ⟨hr.entered, ha, hp.head, ?_, ?_, fun hm => ?_⟩
  · rw [Analysis.scopeAt, notes_entered hr.cursor_eq, hr.cursor_eq, Array.getElem?_push, if_pos rfl]
    rfl
  · exact Placed.right (l := [e]) hp
  · have := he hm
    change a.cursor < bound ∧ a.cursor + 1 + sizeOfParts e.parts ≤ bound
    omega

theorem Walking.reports (h : Walking nodes bound site scope k e rest a) (hr : Reports a a') :
    Walking nodes bound site scope k e rest a' := by
  obtain ⟨ds, rfl⟩ := hr
  exact { h with ready := { h.ready with } }

theorem Walking.lt (h : Walking nodes bound site scope k e rest a) : k < a.cursor := by
  rw [h.ready.cursor_eq]
  by_contra hge
  have hs := h.scope_eq
  rw [Analysis.scopeAt, Array.getElem?_eq_none (by omega)] at hs
  cases hs

/-- What is known after the next part. -/
structure Past (nodes : List Expr) (bound : Nat) (site : Site) (scope k : Nat) (e x : Expr)
    (rest : List Part) (r : Option TypeId) (a a' : Analysis) : Prop where
  walking : Walking nodes bound site scope k e rest a'
  kept : ∀ j < a.cursor, a'.notes[j]? = a.notes[j]?
  cursor_eq : a'.cursor = a.cursor + x.size
  type_eq : a'.typeAt a.cursor = some r
  untyped : r = none → Untyped nodes a'

theorem Completes.met (hx : Completes nodes bound site x) (hr : Ready scope a)
    (ha : a.types.Hierarchy) (hp : Placed nodes a.cursor x.nodes)
    (he : site.method = none → a.cursor + x.size ≤ bound) :
    Ensures (Checking.checkExpr site scope x)
      (fun r a' => Met scope x r a a' ∧ (r = none → Untyped nodes a')) (Cuts nodes bound) a := by
  refine ((Checking.walks site x _ _ hr).and (hx _ _ hr ha hp he)).mono
    (fun r a' ⟨hmet, _⟩ => ⟨hmet, ?_⟩) fun f a' h => h.2
  rintro rfl
  rw [x.nodes_eq] at hp
  refine ⟨a.cursor, x, hp.head, ?_, ?_⟩
  · rw [hmet.laid.ready.cursor_eq, hmet.size_notes hr.cursor_eq, hr.cursor_eq]
  · rw [Analysis.typeAt, hmet.note]
    rfl

theorem Completes.next (hx : Completes nodes bound site x)
    (hw : Walking nodes bound site scope k e (part :: rest) a) (hpart : part.expr = some x)
    (hr : Ready s a₁) (hlaid : ∀ r a', Met s x r a₁ a' → Laid scope a.notes.size [part] [] a a')
    (htypes : a₁.types = a.types) (hcursor : a₁.cursor = a.cursor)
    (hf : ∀ r a', Past nodes bound site scope k e x rest r a a' →
      Ensures (f r) Q (Cuts nodes bound) a') :
    Ensures (Checking.checkExpr site s x >>= f) Q (Cuts nodes bound) a₁ := by
  have hplaced := hw.placed
  rw [nodesOfParts_cons, hpart, Option.elim_some] at hplaced
  have hearly : site.method = none → k < bound ∧ a.cursor + x.size + sizeOfParts rest ≤ bound :=
    fun hm => by
    have := hw.early hm
    rw [sizeOfParts_cons, hpart, Option.elim_some] at this
    omega
  rw [ensures_bind]
  refine (hx.met hr (htypes ▸ hw.hierarchy) (hcursor ▸ hplaced.left) fun hm => ?_).imp
    fun r a' ⟨hmet, huntyped⟩ => hf r a' ?_
  · have := (hearly hm).2
    omega
  have hnext := hlaid r a' hmet
  have hkept : ∀ j < a.cursor, a'.notes[j]? = a.notes[j]? := by
    rw [hw.ready.cursor_eq]
    exact fun j hj => hnext.notes_eq j hj (Nat.ne_of_lt hj)
  have hsize : a'.cursor = a.cursor + x.size := by
    rw [hnext.ready.cursor_eq, hw.ready.cursor_eq, hnext.size_notes]
    simp [hpart]
  refine ⟨⟨hnext.ready, hnext.types_eq ▸ hw.hierarchy, hw.node, ?_, ?_, hsize ▸ hearly⟩, hkept,
    hsize, ?_, huntyped⟩
  · rw [Analysis.scopeAt, hkept k hw.lt]
    exact hw.scope_eq
  · have := hplaced.right
    rwa [Expr.length_nodes, ← hsize] at this
  · rw [Analysis.typeAt, ← hcursor, hmet.note]
    rfl

open Checking Analyzing

section

variable {β : Type} {f : Option TypeId → Analyzing β} {Q : β → Analysis → Prop}

theorem Completes.child (hx : Completes nodes bound site x)
    (hw : Walking nodes bound site scope k e ({ expr := some x } :: rest) a)
    (hf : ∀ r a', Past nodes bound site scope k e x rest r a a' →
      Ensures (f r) Q (Cuts nodes bound) a') :
    Ensures (newChild scope >>= fun j => checkExpr site j x >>= f) Q (Cuts nodes bound) a := by
  rw [ensures_bind, ensures_newChild]
  exact hx.next hw rfl hw.ready.createChild (fun _ _ hmet => hmet.new_child hw.ready) rfl rfl hf

theorem Completes.branch (hx : Completes nodes bound site x) (ht : TypeId.kind t ≠ .auto)
    (hw : Walking nodes bound site scope k e ({ names := [name], expr := some x } :: rest) a)
    (hf : ∀ r a', Past nodes bound site scope k e x rest r a a' →
      Ensures (f r) Q (Cuts nodes bound) a') :
    Ensures (newChild scope >>= fun j => define j name t >>= fun _ => checkExpr site j x >>= f) Q
      (Cuts nodes bound) a := by
  rw [ensures_bind, ensures_newChild, ensures_bind, ensures_define]
  exact hx.next hw rfl (hw.ready.createChild.defining name t)
    (fun _ _ hmet => hmet.branch ht hw.ready) rfl rfl hf

end

/-! ## The single checks -/

section

variable {place : Position} {target : TypeId} {name : Token}

theorem conforms_ne_error {ts : Types} (ha : ts.Acyclic) (h : ts.conforms t u = .error f) :
    False := by
  obtain ⟨b, hb⟩ := ha.conforms t u
  cases hb.symm.trans h

theorem completes_expect (ha : a.types.Acyclic) (hr : r = none → Untyped nodes a) :
    Ensures (expect place r target) (fun _ a' => Reports a a') (Cuts nodes bound) a := by
  refine ensures_expect.mono (fun _ _ h => h.1) fun f a' ⟨heq, hf⟩ => ?_
  subst heq
  rcases hf with ⟨hnone, rfl⟩ | ⟨s, -, hf⟩
  · exact .stuck (.untyped (hr hnone))
  · exact (conforms_ne_error ha hf).elim

theorem Past.expect (h : Past nodes bound site scope k e x rest r a a')
    (hm : ∀ a'', Reports a' a'' → Walking nodes bound site scope k e rest a'' →
      Ensures m Q (Cuts nodes bound) a'') :
    Ensures (expect place r target >>= fun _ => m) Q (Cuts nodes bound) a' := by
  rw [ensures_bind]
  exact (completes_expect h.walking.hierarchy.acyclic h.untyped).imp fun _ a'' hr =>
    hm a'' hr (h.walking.reports hr)

theorem completes_checkOperands {op : BinaryOp} (ha : a.types.Acyclic)
    (hl : l = none → Untyped nodes a) (hr : r = none → Untyped nodes a) :
    Ensures (checkOperands place op l r) (fun _ a' => Reports a a') (Cuts nodes bound) a := by
  refine ensures_checkOperands.mono (fun _ _ h => h.1) fun f a' ⟨heq, hf⟩ => ?_
  subst heq
  rcases hf with ⟨hnone, rfl⟩ | ⟨s, target, -, hf⟩
  · exact .stuck (.untyped (hnone.elim hl hr))
  · exact (conforms_ne_error ha hf).elim

theorem completes_callee (ha : a.types.Acyclic) : Ensures (callee name target)
    (fun _ a' => Reports a a') E a := by
  refine ensures_callee.mono (fun _ _ h => h.1) fun f a' ⟨_, hf, hne⟩ => ?_
  obtain ⟨d, rfl⟩ := ha.findMethod_error hf
  exact absurd rfl (hne d)

theorem completes_checkCall {method : Option Method} (ha : a.types.Acyclic)
    (hargs : ∀ x ∈ args, x.2 = none → Untyped nodes a) : Ensures (checkCall name method args)
    (fun _ a' => Reports a a') (Cuts nodes bound) a := by
  refine ensures_checkCall.mono (fun _ _ h => h.1) fun f a' ⟨hrep, x, hx, hf⟩ => ?_
  rcases hf with ⟨hnone, rfl⟩ | ⟨s, target, -, hf⟩
  · exact .stuck (.untyped ((hargs x hx hnone).reports hrep))
  · exact (conforms_ne_error ha hf).elim

theorem completes_checkAssign {value : Expr} (hw : Walking nodes bound site scope k e rest a)
    (he : e.lookup? = some name.text) (hr : r = none → Untyped nodes a) :
    Ensures (checkAssign site scope name value r) (fun _ a' => Reports a a')
      (Cuts nodes bound) a := by
  refine ensures_checkAssign.mono (fun _ _ h => h.1) fun f a' ⟨heq, hf⟩ => ?_
  subst heq
  rcases hf with ⟨hnone, rfl⟩ | ⟨s, target, -, hf⟩ | ⟨hfind, hmethod, rfl⟩
  · exact .stuck (.untyped (hr hnone))
  · exact (conforms_ne_error hw.hierarchy.acyclic hf).elim
  · exact .unknown hw.node (hw.early hmethod).1 he hw.scope_eq hfind

theorem completes_typeOfName (hw : Walking nodes bound site scope k e rest a)
    (he : e.lookup? = some name.text) :
    Ensures (typeOfName site scope name) (fun _ _ => True) (Cuts nodes bound) a := by
  refine ensures_typeOfName.mono (fun _ _ _ => trivial) fun f a' ⟨heq, hfind, hmethod, hf⟩ => ?_
  subst heq hf
  exact .unknown hw.node (hw.early hmethod).1 he hw.scope_eq hfind

/-! ## Lists of expressions -/

theorem completes_exprs (hes : ∀ x ∈ es, Completes nodes bound site x)
    (hw : Walking nodes bound site scope k e (es.map (fun x => { expr := some x }) ++ rest) a) :
    Ensures (checkExprs site scope es) (fun rs a' => Walking nodes bound site scope k e rest a' ∧
      rs.length = es.length ∧ (∀ j < a.cursor, a'.notes[j]? = a.notes[j]?) ∧ a.cursor ≤ a'.cursor ∧
      ∀ x ∈ rs, x.2 = none → Untyped nodes a') (Cuts nodes bound) a := by
  induction es generalizing a with
  | nil =>
    rw [checkExprs]
    exact ⟨hw, rfl, fun _ _ => rfl, Nat.le_refl _, fun x hx => nomatch hx⟩
  | cons x es ih =>
    rw [checkExprs]
    obtain ⟨hx, hes⟩ := List.forall_mem_cons.1 hes
    refine hx.child hw fun r1 a1 h1 => ?_
    rw [ensures_bind]
    refine (ih hes h1.walking).imp fun rs a2 ⟨hw2, hlen, hkept, hcursor, hrs⟩ => ?_
    have hle := h1.cursor_eq
    refine ⟨hw2, by simp [hlen], fun j hj => ?_, by omega, List.forall_mem_cons.2 ⟨fun hnone =>
      ?_, hrs⟩⟩
    · rw [hkept j (by omega), h1.kept j hj]
    · exact (h1.untyped hnone).mono hkept hcursor

theorem completes_dispatch (hes : ∀ x ∈ es, Completes nodes bound site x)
    (hw : Walking nodes bound site scope k e (es.map (fun x => { expr := some x })) a)
      (name : Token) (target : TypeId) :
    Ensures (do
        let (type, method) ← callee name target
        let argTypes ← checkExprs site scope es
        checkCall name method argTypes
        settle i (some type)) (fun _ _ => True) (Cuts nodes bound) a := by
  simp only [ensures_bind, ensures_settle]
  refine (completes_callee hw.hierarchy.acyclic).imp fun _ a1 h1 => ?_
  have hw1 := hw.reports h1
  rw [← List.append_nil (es.map _)] at hw1
  refine (completes_exprs hes hw1).imp fun rs a2 ⟨hw2, _, _, _, hrs⟩ => ?_
  exact (completes_checkCall hw2.hierarchy.acyclic hrs).imp fun _ _ _ => trivial

theorem Walking.of_eq (h : Walking nodes bound site scope k e rest a) (hr : Ready scope a')
    (htypes : a'.types = a.types) (hnotes : a'.notes = a.notes) (hcursor : a'.cursor = a.cursor) :
    Walking nodes bound site scope k e rest a' where
  ready := hr
  hierarchy := htypes ▸ h.hierarchy
  node := h.node
  scope_eq := by
    rw [Analysis.scopeAt, hnotes]
    exact h.scope_eq
  placed := hcursor ▸ h.placed
  early := hcursor ▸ h.early

theorem Walking.skip (h : Walking nodes bound site scope k e (part :: rest) a)
    (hpart : part.expr = none) : Walking nodes bound site scope k e rest a := by
  have hplaced := h.placed
  have hearly := h.early
  rw [nodesOfParts_cons, hpart, Option.elim_none, List.nil_append] at hplaced
  rw [sizeOfParts_cons, hpart, Option.elim_none, Nat.zero_add] at hearly
  exact { h with placed := hplaced, early := hearly }

theorem completes_bindings (hbs : ∀ b ∈ bs, ∀ x, b.value = some x → Completes nodes bound site x)
    (hw : Walking nodes bound site scope k e (bs.map (fun b => { expr := b.value }) ++ rest) a) :
    Ensures (checkBindings site scope bs) (fun _ a' => Walking nodes bound site scope k e rest a')
      (Cuts nodes bound) a := by
  induction bs generalizing a with
  | nil =>
    rw [checkBindings]
    exact hw
  | cons b bs ih =>
    obtain ⟨name, type, value⟩ := b
    have hrest := (List.forall_mem_cons.1 hbs).2
    rw [checkBindings, ensures_bind]
    refine ensures_typeOrWrong.imp ?_
    rintro declared a1 ⟨h1, _⟩
    have hw1 := hw.reports h1
    cases value with
    | none =>
      have hlaid : Laid scope k [{ expr := none }] [] a1 (a1.withChild scope) :=
        .new_child hw1.ready
      exact ih hrest ((hw1.skip rfl).of_eq (hlaid.ready.defining _ _) rfl rfl rfl)
    | some x =>
      refine (hbs _ (.head _) x rfl).child hw1 fun r2 a2 h2 => h2.expect fun a3 _ hw3 => ?_
      exact ih hrest (hw3.of_eq (hw3.ready.defining _ _) rfl rfl rfl)

theorem Walking.settled (h : Walking nodes bound site scope k e rest a) (t : Option TypeId) :
    Walking nodes bound site scope k e rest (a.settled k t) := by
  refine { h with ready := { h.ready with cursor_eq := ?_ }, scope_eq := ?_ }
  · simpa [Analysis.settled] using h.ready.cursor_eq
  · rw [← h.scope_eq]
    simp [Analysis.scopeAt, Analysis.settled, Array.getElem?_modify, Function.comp_def]

theorem Walking.typeAt_settled (h : Walking nodes bound site scope k e rest a) (t : Option TypeId) :
    (a.settled k t).typeAt k = some t := by
  have hlt : k < a.notes.size := h.ready.cursor_eq ▸ h.lt
  simp only [Analysis.typeAt, Analysis.settled, Array.getElem?_modify, if_true,
    Array.getElem?_eq_getElem hlt,
    Option.map_some, Option.bind_some]

theorem completes_branches
    (hbs : ∀ b ∈ bs, Completes nodes bound site b.body)
    (hw : Walking nodes bound site scope k (.caseOf x (before ++ bs))
      (bs.map fun b => { names := [b.name], expr := some b.body }) a)
    (hcursor : a.cursor = k + (1 + x.size + Expr.sizeOfBranches before))
      (htotal : a.typeAt k = some total) :
    Ensures (checkBranches site scope k total bs) (fun _ _ => True) (Cuts nodes bound) a := by
  induction bs generalizing a before total with
  | nil =>
    rw [checkBranches]
    trivial
  | cons b bs ih =>
    obtain ⟨name, type, body⟩ := b
    obtain ⟨hb, hbs⟩ := List.forall_mem_cons.1 hbs
    rw [checkBranches, ensures_bind]
    refine ensures_concreteOrWrong.imp ?_
    rintro t a1 ⟨h1, _, _, _, hauto⟩
    have hw1 := hw.reports h1
    have hcursor1 : a1.cursor = a.cursor ∧ a1.typeAt k = some total := by
      obtain ⟨ds, rfl⟩ := h1
      exact ⟨rfl, htotal⟩
    refine hb.branch hauto hw1 fun r a2 h2 => ?_
    -- the rest goes on with the join so far
    have hrest : ∀ total', Ensures (checkBranches site scope k total' bs) (fun _ _ => True)
        (Cuts nodes bound) (a2.settled k total') := by
      intro total'
      have hw2 := h2.walking.settled total'
      rw [show before ++ Branch.mk name type body :: bs = (before ++ [.mk name type body]) ++
        bs by simp] at hw2
      refine ih hbs hw2 ?_ (h2.walking.typeAt_settled total')
      change a2.cursor = _
      rw [h2.cursor_eq, hcursor1.1, hcursor, Expr.sizeOfBranches_append]
      simp only [Expr.sizeOfBranches, Branch.body_mk]
      omega
    cases total with
    | none =>
      simp only [ensures_bind, ensures_settle]
      exact hrest r
    | some w =>
      simp only [ensures_bind, ensures_join, ensures_settle]
      refine ⟨fun v hv => ⟨fun total' _ => hrest total', fun f hf => ?_⟩, fun h => (by cases h)⟩
      cases hv
      refine .stuck (.of_join h2.walking.hierarchy h2.walking.node .next ?_ ?_ hf)
      · rw [Nat.add_zero, Analysis.typeAt, h2.kept k hw1.lt]
        exact hcursor1.2
      · rw [← hcursor, ← hcursor1.1]
        exact h2.type_eq

/-! ## Expressions -/

theorem completes (e : Expr) : Completes nodes bound site e := by
  induction e using Expr.induction with
  | ifThenElse c x y hc hx hy =>
    intro scope a hr ha hp he
    rw [checkExpr, ensures_bind, ensures_enter]
    refine hc.child (.start hr ha hp he) fun r1 a1 h1 => h1.expect fun a2 h2 hw2 => ?_
    refine hx.child hw2 fun r3 a3 h3 => hy.child h3.walking fun r4 a4 h4 => ?_
    rw [ensures_bind, ensures_join]
    refine ⟨fun t ht => ⟨fun _ _ => trivial, fun f hf => ?_⟩, fun hnone => ?_⟩
    · have hcursor2 : a2.cursor = a.cursor + (1 + c.size) := by
        obtain ⟨ds, rfl⟩ := h2
        rw [h1.cursor_eq]
        simp only [Analysis.entered]
        omega
      have hcursor3 : a3.cursor = a.cursor + (1 + c.size + x.size) := by
        rw [h3.cursor_eq, hcursor2]
        omega
      have hlt : a2.cursor < a3.cursor := by
        rw [h3.cursor_eq, x.size_eq]
        omega
      refine .stuck (.of_join h4.walking.hierarchy h4.walking.node .branches ?_
        (hcursor3 ▸ h4.type_eq) hf)
      rw [Analysis.typeAt, ← hcursor2, h4.kept _ hlt, ← ht]
      exact h3.type_eq
    · exact .stuck (.untyped ((h3.untyped hnone).mono h4.kept (by rw [h4.cursor_eq]; omega)))
  | whileLoop c x hc hx =>
    intro scope a hr ha hp he
    rw [checkExpr, ensures_bind, ensures_enter]
    refine hc.child (.start hr ha hp he) fun r1 a1 h1 => h1.expect fun a2 _ hw2 => ?_
    exact hx.child hw2 fun _ _ _ => trivial
  | block es hes =>
    intro scope a hr ha hp he
    rw [checkExpr, ensures_bind, ensures_enter, ensures_bind]
    have hw := Walking.start hr ha hp he
    rw [Expr.parts, ← List.append_nil (es.map _)] at hw
    refine (completes_exprs hes hw).imp ?_
    rintro rs a1 ⟨hw1, hlen, _⟩
    split
    · trivial
    · next hlast =>
      rw [List.getLast?_eq_none_iff] at hlast
      subst hlast
      obtain rfl := List.length_eq_zero_iff.1 hlen.symm
      exact .stuck (.emptyBlock hw1.node)
  | letIn bs x hbs hx =>
    intro scope a hr ha hp he
    rw [checkExpr, ensures_bind, ensures_enter, ensures_bind]
    refine (completes_bindings hbs (Walking.start hr ha hp he)).imp fun _ a1 hw1 => ?_
    exact hx.child hw1 fun _ _ _ => trivial
  | caseOf x bs hx hbs =>
    intro scope a hr ha hp he
    rw [checkExpr, ensures_bind, ensures_enter]
    refine hx.child (.start hr ha hp he) fun r1 a1 h1 => ?_
    have hw : Walking nodes bound site scope a.cursor (.caseOf x ([] ++ bs)) _
        (a1.settled a.cursor none) :=
      h1.walking.settled none
    rw [ensures_bind, ensures_settle]
    refine completes_branches hbs hw ?_ (h1.walking.typeAt_settled none)
    change a1.cursor = _
    rw [h1.cursor_eq]
    simp only [Analysis.entered, Expr.sizeOfBranches]
    omega
  | assign name x hx =>
    intro scope a hr ha hp he
    rw [checkExpr, ensures_bind, ensures_enter]
    refine hx.child (.start hr ha hp he) fun r1 a1 h1 => ?_
    rw [ensures_bind]
    exact (completes_checkAssign h1.walking rfl h1.untyped).imp fun _ _ _ => trivial
  | unary op x hx =>
    intro scope a hr ha hp he
    rw [checkExpr, ensures_bind, ensures_enter]
    refine hx.child (.start hr ha hp he) fun r1 a1 h1 => ?_
    cases op with
    | isVoid => trivial
    | not | complement => exact h1.expect fun _ _ _ => trivial
  | binary op x y hx hy =>
    intro scope a hr ha hp he
    rw [checkExpr, ensures_bind, ensures_enter]
    refine hx.child (.start hr ha hp he) fun r1 a1 h1 => hy.child h1.walking fun r2 a2 h2 => ?_
    rw [ensures_bind]
    refine (completes_checkOperands h2.walking.hierarchy.acyclic (fun hnone => ?_) h2.untyped).imp
      fun _ _ _ => trivial
    exact (h1.untyped hnone).mono h2.kept (by rw [h2.cursor_eq]; omega)
  | call x name es type hx hes =>
    intro scope a hr ha hp he
    rw [checkExpr, ensures_bind, ensures_enter]
    refine hx.child (.start hr ha hp he) fun r1 a1 h1 => ?_
    cases type with
    | none =>
      rw [ensures_bind, ensures_present]
      exact ⟨fun target _ => completes_dispatch hes h1.walking name target, fun hnone =>
        .stuck (.untyped (h1.untyped hnone))⟩
    | some type =>
      simp only [pure_bind]
      rw [ensures_bind]
      refine ensures_concreteOrWrong.imp ?_
      rintro target a2 ⟨h2, _⟩
      have hw2 := h1.walking.reports h2
      rw [ensures_bind]
      refine (completes_expect hw2.hierarchy.acyclic fun hnone => (h1.untyped hnone).reports h2).imp
        fun _ a3 h3 => ?_
      exact completes_dispatch hes (hw2.reports h3) name target
  | selfCall name es hes =>
    intro scope a hr ha hp he
    rw [checkExpr, ensures_bind, ensures_enter]
    exact completes_dispatch hes (Walking.start hr ha hp he) name site.cls
  | new type =>
    intro scope a hr ha hp he
    rw [checkExpr, ensures_bind, ensures_enter, ensures_bind]
    exact ensures_typeOrWrong.imp fun _ _ _ => trivial
  | atom kind token =>
    intro scope a hr ha hp he
    rw [checkExpr, ensures_bind, ensures_enter]
    cases kind with
    | integer | string | bool => trivial
    | name =>
      rw [ensures_bind]
      exact (completes_typeOfName (Walking.start hr ha hp he) rfl).imp fun _ _ _ => trivial

end

/-! ## Features -/

def Feature.isMethod : Feature → Bool
  | .attribute .. => false
  | .method .. => true

/-- How many expressions stand before the first method of some features. -/
def leading (fs : List Feature) : Nat := ((fs.takeWhile (!·.isMethod)).flatMap Feature.nodes).length

theorem leading_cons (hf : f.isMethod = false) :
    leading (f :: fs) = f.nodes.length + leading fs := by
  simp [leading, hf]

section

variable {p : Program} {ts : Types} {c : ClassDecl} {f : Feature} {fs later : List Feature}

theorem completes_feature (hc : DeclaredClass ts site.cls c) (hf : f ∈ c.features)
    (ha : ts.Hierarchy) (hr : Ready scope a)
    (htypes : a.types = ts) (hp : Placed nodes a.cursor f.nodes) (he : site.method = none →
      a.cursor + leading (f :: later) ≤ bound) :
    Ensures (checkFeature site scope f) (fun m _ => m = none → site.method = none ∧
      f.isMethod = false)
      (Cuts nodes bound) a := by
  subst htypes
  obtain ⟨name, type, _ | x⟩ | ⟨name, params, type, x⟩ := f
  · exact fun hm => ⟨hm, rfl⟩
  · simp only [checkFeature, ensures_bind, ensures_newChild, ensures_ask, ensures_pure]
    have he' : site.method = none → a.cursor + x.size ≤ bound := fun hm => by
      have := he hm
      rw [leading_cons rfl] at this
      simp only [Feature.nodes, Expr.length_nodes] at this
      omega
    refine ((completes x).met hr.createChild ha hp he').imp ?_
    rintro r a1 ⟨hmet, hr1⟩
    have h1 : a1.types = a.types := hmet.laid.types_eq
    rw [h1, hc.findAttribute_eq hf rfl]
    refine ⟨fun _ _ => ?_, fun _ h => (by cases h)⟩
    exact (completes_expect (h1 ▸ ha.acyclic) hr1).imp fun _ _ _ hm => ⟨hm, rfl⟩
  · simp only [checkFeature, ensures_bind, ensures_newChild, ensures_ask, ensures_pure,
      ensures_define]
    obtain ⟨x', hfind⟩ : ∃ x, a.types.findMethod site.cls name.text = .ok x :=
      ⟨_, hc.findMethod_eq hf rfl⟩
    refine ⟨fun m _ => ?_, fun _ h => (by cases hfind.symm.trans h)⟩
    refine ensures_checkOverride.mono ?_ ?_
    · rintro _ a1 ⟨h1, _⟩
      refine ensures_forM_define.2 ?_
      have h0 : Laid scope a.notes.size [] [] a a := .refl hr
      have h2 := ((h0.reports h1).defining "self" site.cls).definingAll
          (m.2.paramNames.zip m.2.paramTypes)
      have hcursor : ∀ vars, ((a1.defining scope "self" site.cls).definingAll scope vars).cursor =
          a.cursor := by
        intro vars
        obtain ⟨scopes, hdef⟩ := definingAll_eq (a1.defining scope "self" site.cls) scope vars
        obtain ⟨ds, rfl⟩ := h1
        rw [hdef]
        rfl
      simp only [Prod.eta, List.map_id']
      have hbody : Completes nodes bound { site with method := some m.2.name } x := completes x
      refine (hbody.met h2.ready.createChild (h2.types_eq ▸ ha) (hcursor _ ▸ hp)
        fun h => by cases h).imp ?_
      rintro r a2 ⟨hmet, hr3⟩
      have h3 : a2.types = a.types := hmet.laid.types_eq.trans h2.types_eq
      exact (completes_expect (h3 ▸ ha.acyclic) hr3).imp fun _ _ _ hm => by cases hm
    · rintro g a' ⟨_, parent, _, hg, hne⟩
      obtain ⟨d, rfl⟩ := ha.acyclic.findMethod_error hg
      exact absurd rfl (hne d)

theorem completes_features (hc : DeclaredClass ts site.cls c) (hfs : ∀ f ∈ fs, f ∈ c.features)
    (ha : ts.Hierarchy)
    (hcls : site.cls ≠ TypeId.auto) (hr : Ready scope a) (htypes : a.types = ts)
      (hp : Placed nodes a.cursor (fs.flatMap Feature.nodes))
    (he : site.method = none → a.cursor + leading (fs ++ later) ≤ bound) :
    Ensures (checkFeatures scope site fs) (fun m a' => m = none → a'.cursor + leading later ≤ bound)
      (Cuts nodes bound) a := by
  induction fs generalizing site a with
  | nil => exact he
  | cons f fs ih =>
    simp only [checkFeatures, ensures_bind, ensures_newChild]
    obtain ⟨hf, hfs⟩ := List.forall_mem_cons.1 hfs
    rw [List.flatMap_cons] at hp
    rw [List.cons_append] at he
    have hfeature := completes_feature hc hf ha hr.createChild htypes hp.left he
    refine ((visits_feature f).and hfeature).mono ?_ fun g a' h => h.2
    rintro m a₁ ⟨hvisits, hm⟩
    have hlaid : LaidFeatures site.cls scope a.notes.size [f] a a₁ := hvisits.laid_child hcls hr
    have hcursor : a₁.cursor = a.cursor + f.nodes.length := by
      rw [hlaid.ready.cursor_eq, hlaid.size_notes, hr.cursor_eq]
      simp
    have hnext : m = none → a₁.cursor + leading (fs ++ later) ≤ bound := fun h => by
      have := he (hm h).1
      rw [leading_cons (hm h).2] at this
      omega
    have hrest : Ensures (checkFeatures scope { site with method := m } fs) _ _ a₁ :=
      ih hc hfs hcls hlaid.ready (hlaid.types_eq.trans htypes) (hcursor ▸ hp.right) hnext
    exact hrest

/-! ## Programs -/

theorem completes_classes (h : Declared p ts) (ha : ts.Hierarchy) (hcs : p.classes.drop i = cs)
    (hr : Ready ScopeTree.root a) (htypes : a.types = ts)
    (hp : Placed nodes a.cursor (cs.flatMap ClassDecl.nodes))
    (he : method = none → a.cursor + leading (cs.flatMap (·.features)) ≤ bound) :
    Ensures (checkClasses method cs) (fun _ _ => True) (Cuts nodes bound) a := by
  induction cs generalizing method a i with
  | nil => trivial
  | cons c cs ih =>
    have hc : p.classes[i]? = some c := by
      have := congrArg (·[0]?) hcs
      simpa using this
    have hrest : p.classes.drop (i + 1) = cs := by
      rw [← List.drop_drop, hcs]
      rfl
    have hauto := h.find_ne_auto c (List.mem_of_getElem? hc)
    rw [List.flatMap_cons] at hp he
    simp only [checkClasses, ensures_bind, ensures_newChild]
    have hclass : Ensures (checkClass method a.scopes.scopes.size c)
        (fun m a' => m = none → a'.cursor + leading (cs.flatMap (·.features)) ≤ bound)
        (Cuts nodes bound) (a.withChild ScopeTree.root) := by
      simp only [checkClass, ensures_bind, ensures_ask, ensures_get]
      change (∀ v, a.types.find c.name.text = .ok v → _) ∧
        ∀ e, a.types.find c.name.text = .error e → _
      rw [htypes, h.find_class hc]
      refine ⟨?_, fun _ hf => (by cases hf)⟩
      rintro _ ⟨⟩
      have hacyclic : (a.withChild ScopeTree.root).types.Acyclic := htypes.symm ▸ ha.acyclic
      refine (ensures_breakCycle fun h => absurd hacyclic h).imp ?_
      rintro _ a1 ⟨_, heq⟩
      have ha1 := heq hacyclic
      subst ha1
      refine ensures_forM_define.2 ?_
      have h0 : Laid a.scopes.scopes.size a.notes.size [] [] (a.withChild ScopeTree.root)
          (a.withChild ScopeTree.root) :=
        .refl hr.createChild
      have h1 := h0.definingAll (((a.withChild ScopeTree.root).types.get (8 + i)).attributes.map
          fun x => (x.name, x.type))
      obtain ⟨scopes, hdef⟩ := definingAll_eq (a.withChild ScopeTree.root) a.scopes.scopes.size
        (((a.withChild ScopeTree.root).types.get (8 + i)).attributes.map fun x => (x.name, x.type))
      have hcls : 8 + i ≠ TypeId.auto := fun heq => hauto (heq ▸ h.find_class hc)
      have hcursor := congrArg Analysis.cursor hdef
      exact completes_features (h.classes i c hc) (fun _ hf => hf) ha hcls
        h1.ready (h1.types_eq.trans htypes) (hcursor ▸ hp.left) (hcursor ▸ he)
    refine ((visits_class c).and hclass).mono ?_ fun g a' h => h.2
    rintro m a1 ⟨hvisits, hm⟩
    have hlaid := hvisits.laid (htypes ▸ hauto) hr
    have hcursor : a1.cursor = a.cursor + c.nodes.length := by
      rw [hlaid.ready.cursor_eq, hlaid.size_notes, hr.cursor_eq]
      simp [ClassDecl.nodes]
    exact ih hrest hlaid.ready
      ((hlaid.types_eq (htypes ▸ ha.acyclic)).trans htypes) (hcursor ▸ hp.right) hm

/-- How many expressions of a program stand before its first method. -/
def Program.leading (p : Program) : Nat := Cool.leading (p.classes.flatMap (·.features))

/-- The checker goes through a program, or is cut short for one of the reasons that `CheckStuck`
lists. -/
theorem check_completes (h : Declared p ts) (ha : ts.Hierarchy) :
    Ensures (check p) (fun _ _ => True) (fun f a => CheckStuck p.nodes p.leading a f)
      { types := ts } := by
  refine completes_classes h ha (List.drop_zero : p.classes.drop 0 = _) ready_start rfl
    (List.prefix_refl _) fun _ => ?_
  exact Nat.le_of_eq (Nat.zero_add _)

end

end AutoCool.Cool
