import AutoCool.Proofs.Cool.InferSteps

/-!
# Walks of inference over expressions

Inference goes through an expression in the scopes that the checker made. If these fit the
expression, the walk notes a type for it and for all expressions below it, and touches only
variables that are in reach from outside; or it is cut short, and then for one of the reasons that
`InferStuck` lists (`passes`).
-/

namespace AutoCool.Cool

/-- What may cut a walk of inference short. -/
inductive InferStuck (nodes : List Expr) (a : Analysis) : Failure → Prop
  | stuck {f} : Stuck nodes a f → InferStuck nodes a f
  /-- Something is assigned to a name that is not known. -/
  | unknown {k name x s} : nodes[k]? = some (.assign name x) → a.scopeAt k = some s →
      a.scopes.find s name.text = none → InferStuck nodes a .absent
  /-- A variable is bound from above by something without a type. -/
  | untypedBound {v : VarId} : none ∈ (a.scopes.getVar v).upper → InferStuck nodes a .absent
  /-- What is assigned to a variable has no join. -/
  | noLowerJoin {v : VarId} {before bound after t} : (a.scopes.getVar v).lower = before ++ bound ::
      after →
      a.types.joinLower none before = .ok (some t) → a.types.NoJoin t bound →
        InferStuck nodes a .outOfRange
  /-- A `let` that is the body of a branch has one variable more than it binds. -/
  | branchLet {k bindings x s} : nodes[k]? = some (.letIn bindings x) → a.scopeAt k = some s →
      bindings.length < (a.scopes.get s).locals.length → InferStuck nodes a .outOfRange

/-- A walk is cut short for one of the reasons above, unless the types are no hierarchy. -/
def Halts (ts : Types) (nodes : List Expr) (f : Failure) (a : Analysis) : Prop :=
  ts.Hierarchy → InferStuck nodes a f

variable {t : ScopeTree} {ts : Types} {nodes : List Expr} {cls : TypeId} {scope i j : Nat}
  {a a₀ a' : Analysis} {e x : Expr}
  {expected r : Option TypeId} {V : VarId → Prop} {lead : List String} {part : Part}
    {rest : List Part} {is : List Nat}

theorem Fits.children (h : Fits t lead scope e) :
    FitsAll t scope (t.get scope).children e.parts := by
  cases h with
  | intro _ _ h => exact h

theorem Fits.names (h : Fits t lead scope e) :
    (t.get scope).locals.map (·.1) = lead ++ e.ownNames := by
  cases h with
  | intro h _ _ => exact h

theorem Fits.inferred (h : Fits t lead scope e) (he : e.ownNames = []) :
    ∀ v ∈ (t.get scope).locals.map (·.2), (t.getVar v).inferred = true := by
  cases h with
  | intro hnames hlead _ =>
    rw [he, List.append_nil] at hnames
    have hlen := congrArg List.length hnames
    rw [List.length_map] at hlen
    rw [← hlen, List.take_length] at hlead
    intro v hv
    obtain ⟨x, hx, rfl⟩ := List.mem_map.1 hv
    exact hlead x hx

theorem FitsAll.getElem? (h : FitsAll t scope is parts) (hj : parts[j]? = some part) :
    ∃ i, is[j]? = some i ∧ (t.get i).parent = some scope ∧ ∀ x, part.expr = some x →
    Fits t part.names i x := by
  induction parts generalizing is j with
  | nil => cases hj
  | cons p parts ih =>
    cases h with
    | @cons _ i is _ _ _ _ hparent hfits hrest =>
      cases j with
      | zero =>
        cases hj
        exact ⟨i, rfl, hparent, hfits⟩
      | succ j =>
        obtain ⟨k, hk⟩ := ih hrest (by simpa using hj)
        exact ⟨k, hk⟩

theorem FitsAll.append_inv (h : FitsAll t scope is (parts ++ [part])) :
    ∃ is' i, is = is' ++ [i] ∧ FitsAll t scope is' parts ∧ (t.get i).parent = some scope ∧
    ∀ x, part.expr = some x → Fits t part.names i x := by
  induction parts generalizing is with
  | nil =>
    cases h with
    | @cons _ i _ _ _ _ _ hparent hfits hrest =>
      cases hrest
      exact ⟨[], i, rfl, .nil, hparent, hfits⟩
  | cons p parts ih =>
    cases h with
    | @cons _ i _ _ _ hlt hsize hparent hfits hrest =>
      obtain ⟨is', j, rfl, hinit, hlast⟩ := ih hrest
      exact ⟨i :: is', j, rfl, .cons hlt hsize hparent hfits hinit, hlast⟩

/-- A walk is under way in the scopes `t` and with the types `ts`. -/
structure Going (t : ScopeTree) (ts : Types) (nodes : List Expr) (a : Analysis) : Prop where
  types_eq : a.types = ts
  scopes_eq : a.scopes.scopes = t.scopes
  inferred : ∀ v, (t.getVar v).inferred = true → (a.scopes.getVar v).inferred = true
  coherent : a.scopes.Coherent
  size_notes : a.notes.size = nodes.length

theorem Going.get_eq (h : Going t ts nodes a) (s : Nat) : a.scopes.get s = t.get s := by
  rw [ScopeTree.get, ScopeTree.get, h.scopes_eq]

theorem Going.moved (h : Going t ts nodes a) (hm : Moved V a a') (htypes : a'.types = a.types) :
    Going t ts nodes a' where
  types_eq := htypes.trans h.types_eq
  scopes_eq := hm.scopes_eq.trans h.scopes_eq
  inferred v hv := (hm.evolves v).inferred (h.inferred v hv)
  coherent := hm.coherent h.coherent
  size_notes := hm.size_notes.trans h.size_notes

theorem Going.find_eq (h : Going t ts nodes a) (s : Nat) (name : String) :
    a.scopes.find s name = t.find s name := by
  refine ScopeTree.findWithin_congr fun i _ => ?_
  rw [h.get_eq]
  exact ⟨rfl, rfl, rfl⟩

theorem Going.unbounded (h : Going t ts nodes a) (hv : (t.getVar v).inferred = true) :
    (a.scopes.getVar v).Unbounded := by
  have hinferred := h.inferred v hv
  exact (h.coherent v (ScopeTree.lt_size_of_inferred hinferred)).unbounded hinferred

/-- A walk has gone through an expression that it met in the state `a₀`. -/
structure Passed (t : ScopeTree) (ts : Types) (nodes : List Expr) (scope : Nat) (e : Expr)
    (r : Option TypeId) (a₀ a : Analysis) : Prop where
  going : Going t ts nodes a
  moved : Moved (t.VisibleAbove scope) a₀ a
  cursor_eq : a.cursor = a₀.cursor + e.size
  note : a.notes[a₀.cursor]? = some { scope, type := some r }
  kept : ∀ j, j < a₀.cursor ∨ a₀.cursor + e.size ≤ j → a.notes[j]? = a₀.notes[j]?

/-- Walks go through an expression, or are cut short for one of the reasons above. -/
def Passes (t : ScopeTree) (ts : Types) (nodes : List Expr) (cls : TypeId) (e : Expr) : Prop :=
  ∀ (lead : List String) (scope : Nat) (expected : Option TypeId) (a : Analysis),
    Going t ts nodes a → Fits t lead scope e →
    Placed nodes a.cursor e.nodes → Ensures (Inferring.inferExpr cls scope expected e)
      (fun r a' => Passed t ts nodes scope e r a a') (Halts ts nodes) a

/-- A walk that met an expression in the state `a₀` has some of its parts before it. -/
structure Visiting (t : ScopeTree) (ts : Types) (nodes : List Expr) (scope : Nat) (e : Expr)
    (rest : List Part) (a₀ a : Analysis) : Prop where
  going : Going t ts nodes a
  moved : Moved (t.Visible scope) a₀ a
  fits : ∃ lead, Fits t lead scope e
  node : nodes[a₀.cursor]? = some e
  scope_eq : a.scopeAt a₀.cursor = some scope
  placed : Placed nodes a.cursor (nodesOfParts rest)
  lt : a₀.cursor < a.cursor
  cursor_eq : a.cursor + sizeOfParts rest = a₀.cursor + e.size
  kept : ∀ j, j < a₀.cursor ∨ a₀.cursor + e.size ≤ j → a.notes[j]? = a₀.notes[j]?

theorem Placed.lt_length (h : Placed nodes k e.nodes) : k < nodes.length := by
  rw [e.nodes_eq] at h
  exact (List.getElem?_eq_some_iff.1 h.head).1

theorem Visiting.start (hg : Going t ts nodes a) (hf : Fits t lead scope e)
    (hp : Placed nodes a.cursor e.nodes) :
    Visiting t ts nodes scope e e.parts a (a.entered scope) := by
  have hlt : a.cursor < a.notes.size := hg.size_notes ▸ hp.lt_length
  have hmoved : ∀ {V}, Moved V a (a.entered scope) := moved_entered hlt
  have hnotes : (a.entered scope).notes = a.notes.modify a.cursor fun n => { n with scope } :=
    if_pos hlt
  have hsize := e.size_eq
  have hcursor : (a.entered scope).cursor = a.cursor + 1 := rfl
  rw [e.nodes_eq] at hp
  refine ⟨hg.moved (V := fun _ => True) hmoved rfl, hmoved, ⟨lead, hf⟩, hp.head, ?_,
    Placed.right (l := [e]) hp, by omega, by omega, ?_⟩
  · rw [Analysis.scopeAt, hnotes, Array.getElem?_modify, if_pos rfl, Array.getElem?_eq_getElem hlt]
    rfl
  · intro j hj
    rw [hnotes, Array.getElem?_modify, if_neg (by omega)]

theorem Visiting.step (h : Visiting t ts nodes scope e rest a₀ a)
    (hm : Moved (t.Visible scope) a a') (htypes : a'.types = a.types) (hnotes : a'.notes = a.notes)
    (hcursor : a'.cursor = a.cursor) : Visiting t ts nodes scope e rest a₀ a' where
  going := h.going.moved hm htypes
  moved := h.moved.trans hm
  fits := h.fits
  node := h.node
  scope_eq := by
    rw [Analysis.scopeAt, hnotes]
    exact h.scope_eq
  placed := hcursor ▸ h.placed
  lt := hcursor ▸ h.lt
  cursor_eq := hcursor ▸ h.cursor_eq
  kept j hj := by rw [hnotes, h.kept j hj]

theorem Visiting.skip (h : Visiting t ts nodes scope e (part :: rest) a₀ a)
    (hpart : part.expr = none) : Visiting t ts nodes scope e rest a₀ a := by
  have hplaced := h.placed
  have hcursor := h.cursor_eq
  rw [nodesOfParts_cons, hpart, Option.elim_none, List.nil_append] at hplaced
  rw [sizeOfParts_cons, hpart, Option.elim_none, Nat.zero_add] at hcursor
  exact { h with placed := hplaced, cursor_eq := hcursor }

theorem Visiting.settled (h : Visiting t ts nodes scope e rest a₀ a) (r : Option TypeId) :
    Visiting t ts nodes scope e rest a₀ (a.settled a₀.cursor r) :=
  { h with
    going := h.going.moved (V := fun _ => True) moved_settled rfl
    moved := h.moved.trans moved_settled
    scope_eq := by
      rw [← h.scope_eq]
      simp [Analysis.scopeAt, Analysis.settled, Array.getElem?_modify, Function.comp_def]
    kept j hj := by
      have hpos := e.size_eq
      rw [← h.kept j hj, Analysis.settled, Array.getElem?_modify, if_neg (by omega)] }

theorem Visiting.note_settled (h : Visiting t ts nodes scope e rest a₀ a) (r : Option TypeId) :
    (a.settled a₀.cursor r).notes[a₀.cursor]? = some { scope, type := some r } := by
  have hs := h.scope_eq
  rw [Analysis.scopeAt, Option.map_eq_some_iff] at hs
  obtain ⟨n, hn, rfl⟩ := hs
  rw [Analysis.settled, Array.getElem?_modify, if_pos rfl, hn]
  rfl

/-- What is known after the next part. -/
structure Visited (t : ScopeTree) (ts : Types) (nodes : List Expr) (scope : Nat) (e x : Expr)
    (rest : List Part) (r : Option TypeId) (a₀ a a' : Analysis) : Prop where
  visiting : Visiting t ts nodes scope e rest a₀ a'
  kept : ∀ j < a.cursor, a'.notes[j]? = a.notes[j]?
  cursor_eq : a'.cursor = a.cursor + x.size
  type_eq : a'.typeAt a.cursor = some r
  untyped : r = none → Untyped nodes a'

theorem Passed.visited (h : Passed t ts nodes i x r a a')
    (hv : Visiting t ts nodes scope e (part :: rest) a₀ a) (hpart : part.expr = some x)
    (hparent : (t.get i).parent = some scope) : Visited t ts nodes scope e x rest r a₀ a a' := by
  have hkept : ∀ j < a.cursor, a'.notes[j]? = a.notes[j]? := fun j hj => h.kept j (.inl hj)
  have htype : a'.typeAt a.cursor = some r := by
    rw [Analysis.typeAt, h.note]
    rfl
  have hplaced := hv.placed
  have hsize := hv.cursor_eq
  have hlt := hv.lt
  have hcursor := h.cursor_eq
  rw [nodesOfParts_cons, hpart, Option.elim_some] at hplaced
  rw [sizeOfParts_cons, hpart, Option.elim_some] at hsize
  have hmoved : Moved (t.Visible scope) a a' := h.moved.mono fun v hV => by
    obtain ⟨p, hp, hV⟩ := hV
    cases hparent.symm.trans hp
    exact hV
  refine ⟨⟨h.going, hv.moved.trans hmoved, hv.fits, hv.node, ?_, ?_, by omega, by omega, ?_⟩, hkept,
    hcursor, htype, ?_⟩
  · rw [Analysis.scopeAt, hkept _ hlt]
    exact hv.scope_eq
  · have := hplaced.right
    rwa [Expr.length_nodes, ← hcursor] at this
  · intro j hj
    rw [h.kept j (by omega), hv.kept j hj]
  · rintro rfl
    have hnode := hplaced.left
    rw [x.nodes_eq] at hnode
    exact ⟨a.cursor, x, hnode.head, by omega, htype⟩

open Inferring Analyzing

theorem Passes.next (hx : Passes t ts nodes cls x)
    (hv : Visiting t ts nodes scope e (part :: rest) a₀ a) (hpart : part.expr = some x)
    (hparent : (t.get i).parent = some scope)
    (hfits : ∀ x, part.expr = some x → Fits t part.names i x)
    (hf : ∀ r a', Visited t ts nodes scope e x rest r a₀ a a' →
      Ensures (f r) Q (Halts ts nodes) a') :
    Ensures (inferExpr cls i expected x >>= f) Q (Halts ts nodes) a := by
  have hplaced := hv.placed
  rw [nodesOfParts_cons, hpart, Option.elim_some] at hplaced
  rw [ensures_bind]
  exact (hx _ i expected a hv.going (hfits x hpart) hplaced.left).imp fun r a' h =>
    hf r a' (h.visited hv hpart hparent)

theorem Passes.childAt (hx : Passes t ts nodes cls x)
    (hv : Visiting t ts nodes scope e (part :: rest) a₀ a) (hj : e.parts[j]? = some part)
    (hpart : part.expr = some x) (hf : ∀ r a', Visited t ts nodes scope e x rest r a₀ a a' →
      Ensures (f r) Q (Halts ts nodes) a') :
    Ensures (childAt scope j >>= fun i => inferExpr cls i expected x >>= f) Q
      (Halts ts nodes) a := by
  obtain ⟨lead, hfits⟩ := hv.fits
  obtain ⟨i, hi, hparent, hfit⟩ := hfits.children.getElem? hj
  rw [ensures_bind, ensures_childAt, hv.going.get_eq, hi]
  refine ⟨?_, fun h => (nomatch h)⟩
  rintro _ ⟨⟩
  exact hx.next hv hpart hparent hfit hf

theorem Visiting.passed (h : Visiting t ts nodes scope e [] a₀ a)
    (hnote : a.notes[a₀.cursor]? = some { scope, type := some r })
    (hlocals : ∀ v ∈ (t.get scope).locals.map (·.2), (a.scopes.getVar v).Unbounded) :
    Passed t ts nodes scope e r a₀ a where
  going := h.going
  moved := h.moved.shrink fun v hv => by
    cases hv with
    | own hv => exact .inr (hlocals v hv)
    | above hp hv => exact .inl ⟨_, hp, hv⟩
  cursor_eq := h.cursor_eq
  note := hnote
  kept := h.kept

theorem Visiting.unbounded (h : Visiting t ts nodes scope e rest a₀ a) (he : e.ownNames = []) :
    ∀ v ∈ (t.get scope).locals.map (·.2), (a.scopes.getVar v).Unbounded := by
  obtain ⟨lead, hf⟩ := h.fits
  exact fun v hv => h.going.unbounded (hf.inferred he v hv)

theorem Visiting.done (h : Visiting t ts nodes scope e [] a₀ a) (he : e.ownNames = []) :
    Ensures (settle a₀.cursor r) (fun r a' => Passed t ts nodes scope e r a₀ a')
      (Halts ts nodes) a := by
  rw [ensures_settle]
  exact (h.settled r).passed (h.note_settled r) ((h.settled r).unbounded he)

/-! ## Lists of expressions -/

theorem passes_block_exprs (hes : ∀ x ∈ es, Passes t ts nodes cls x) (hne : es ≠ [])
    (hfits : FitsAll t scope is (es.map fun x => { expr := some x }))
    (hv : Visiting t ts nodes scope e (es.map fun x => { expr := some x }) a₀ a) :
    Ensures (inferBlock cls expected is.getLast? is.dropLast es)
      (fun _ a' => Visiting t ts nodes scope e [] a₀ a')
      (Halts ts nodes) a := by
  induction es generalizing is a with
  | nil => exact absurd rfl hne
  | cons x es ih =>
    obtain ⟨hx, hes⟩ := List.forall_mem_cons.1 hes
    cases hfits with
    | cons _ _ hparent hfit hrest =>
      cases es with
      | nil =>
        cases hrest
        rw [inferBlock_last, ← bind_pure (inferExpr _ _ _ _)]
        exact hx.next hv rfl hparent hfit fun _ _ h => h.visiting
      | cons y es =>
        rw [inferBlock_next (by rintro rfl; cases hrest)]
        exact hx.next hv rfl hparent hfit fun _ _ h => ih hes (by simp) hrest h.visiting

theorem passes_args (hes : ∀ x ∈ es, Passes t ts nodes cls x) (hlen : xs.length = es.length)
    (hfits : FitsAll t scope is (es.map fun x => { expr := some x }))
    (hv : Visiting t ts nodes scope e (es.map fun x => { expr := some x }) a₀ a) :
    Ensures (inferArgs cls is xs es) (fun _ a' => Visiting t ts nodes scope e [] a₀ a')
      (Halts ts nodes) a := by
  induction es generalizing is xs a with
  | nil =>
    cases hfits
    rw [inferArgs]
    · exact hv
    · simp
  | cons x es ih =>
    obtain ⟨hx, hes⟩ := List.forall_mem_cons.1 hes
    cases xs with
    | nil => cases hlen
    | cons u xs =>
      cases hfits with
      | cons _ _ hparent hfit hrest =>
        rw [inferArgs]
        exact hx.next hv rfl hparent hfit fun _ _ h => ih hes (Nat.succ.inj hlen) hrest h.visiting

theorem passes_dispatch (hts : ts.WellFormed) (hes : ∀ x ∈ es, Passes t ts nodes cls x)
    (he : e.ownNames = [])
    (hfits : FitsAll t scope ((t.get scope).children.drop i) (es.map fun x => { expr := some x }))
    (hv : Visiting t ts nodes scope e (es.map fun x => { expr := some x }) a₀ a) :
    Ensures (do
        let (type, method) ← callee name target
        inferArgs cls ((← childrenOf scope).drop i) (expectations es method) es
        settle a₀.cursor (some type)) (fun r a' => Passed t ts nodes scope e r a₀ a')
          (Halts ts nodes) a := by
  rw [ensures_bind]
  refine ensures_callee.mono (fun m a' ⟨heq, hm⟩ => ?_) fun f a' h ha => ?_
  · subst heq
    rw [ensures_bind, ensures_childrenOf, hv.going.get_eq, ensures_bind]
    have hlen := length_expectations es fun m' (hm' : m.2 = some m') => by
      obtain ⟨o, ho⟩ := hm m' hm'
      rw [hv.going.types_eq] at ho
      exact hts o m' ho
    exact (passes_args hes hlen hfits hv).imp fun _ _ h => h.done he
  · rw [hv.going.types_eq] at h
    exact absurd ha.acyclic h

theorem FitsAll.drop_one (h : FitsAll t scope is (part :: parts)) :
    FitsAll t scope (is.drop 1) parts := by
  cases h with
  | cons _ _ _ _ hrest => exact hrest

/-! ## Variables -/

theorem halts_infer (htypes : a.types = ts) (h : a.types.infer (a.scopes.getVar v) = .error f) :
    Halts ts nodes f a := by
  subst htypes
  intro ha
  rcases ha.inferred_eq_error (Types.infer_eq_error h).2 with ⟨rfl, hnone⟩ | ⟨rfl, before, bound,
    after, t, hlower, ht, hno⟩
  · exact .untypedBound hnone
  · exact .noLowerJoin hlower ht hno

theorem Visiting.cleared (h : Visiting t ts nodes scope e rest a₀ a) (hc : Cleared v known a a') :
    Visiting t ts nodes scope e rest a₀ a' :=
  h.step (hc.moved.mono fun _ => False.elim) hc.types_eq hc.notes_eq hc.cursor_eq

theorem passes_bindings (hbs : ∀ b ∈ bs, ∀ x, b.value = some x → Passes t ts nodes cls x)
    (hvs : ∀ v ∈ vs, v ∈ (t.get scope).locals.map (·.2)) (hlen : bs.length ≤ vs.length)
    (hfits : FitsAll t scope is (bs.map fun b => { expr := b.value }))
    (hv : Visiting t ts nodes scope e (bs.map (fun b => { expr := b.value }) ++ rest) a₀ a) :
    Ensures (inferBindings cls is vs bs) (fun _ a' => Visiting t ts nodes scope e rest a₀ a')
      (Halts ts nodes) a := by
  induction bs generalizing is vs a with
  | nil =>
    rw [inferBindings]
    · exact hv
    · simp
  | cons b bs ih =>
    obtain ⟨name, type, value⟩ := b
    cases vs with
    | nil => cases hlen
    | cons v vs =>
      obtain ⟨hown, hvs'⟩ := List.forall_mem_cons.1 hvs
      have hrest : ∀ {is a}, FitsAll t scope is _ → Visiting t ts nodes scope e _ a₀ a →
          Ensures (inferBindings cls is vs bs) _ _ a :=
        ih (fun b hb => hbs b (.tail _ hb)) hvs' (Nat.le_of_succ_le_succ hlen)
      cases hfits with
      | cons _ _ hparent hfit hfits =>
        cases value with
        | none =>
          rw [inferBindings]
          exact hrest hfits (hv.skip rfl)
        | some x =>
          rw [inferBindings, ensures_bind, ensures_variableOf]
          refine (hbs _ (.head _) x rfl).next hv rfl hparent hfit fun r1 a1 h1 => ?_
          rw [ensures_bind, ensures_modifyVariable, ensures_bind]
          have hv1 := h1.visiting.step (moved_addUpper (t := r1) (.own hown)) rfl rfl rfl
          refine cleared_inferVariable.mono (fun known a2 h2 => ?_) fun f a2 ⟨heq, hf⟩ => ?_
          · cases known with
            | false => exact hrest hfits (hv1.cleared h2)
            | true =>
              exact ensures_bind.mpr (ensures_foundBinding fun _ =>
                hrest hfits (hv1.cleared (h2.found rfl)))
          · subst heq
            exact halts_infer hv1.going.types_eq hf

theorem passes_locals (hlen : vs.length + bindings.length ≤ (t.get scope).locals.length + bs.length)
    (hv : Visiting t ts nodes scope (.letIn bindings x) [] a₀ a) : Ensures (inferLocals vs bs)
      (fun _ a' => Visiting t ts nodes scope (.letIn bindings x) [] a₀ a' ∧
        Moved (fun _ => False) a a' ∧
        ∀ v ∈ vs, (a'.scopes.getVar v).Unbounded) (Halts ts nodes) a := by
  induction vs generalizing bs a with
  | nil => exact ⟨hv, .refl, fun _ h => (nomatch h)⟩
  | cons v vs ih =>
    rw [List.length_cons] at hlen
    have htail : vs.length + bindings.length ≤ (t.get scope).locals.length + bs.tail.length := by
      rw [List.length_tail]
      omega
    simp only [inferLocals, ensures_bind]
    refine cleared_inferVariable.mono (fun known a1 h1 => ?_) fun f a1 ⟨heq, hf⟩ => ?_
    · have hnext : ∀ a2, Cleared v known a a2 → Ensures (inferLocals vs bs.tail)
          (fun _ a' => Visiting t ts nodes scope (.letIn bindings x) [] a₀ a' ∧
            Moved (fun _ => False) a a' ∧
            ∀ u ∈ v :: vs, (a'.scopes.getVar u).Unbounded) (Halts ts nodes) a2 := by
        intro a2 h2
        refine (ih htail (hv.cleared h2)).imp fun _ a3 ⟨hv3, hm3, hvs⟩ =>
          ⟨hv3, h2.moved.trans hm3, ?_⟩
        exact List.forall_mem_cons.2 ⟨hm3.untouched v id (h2.unbounded hv.going.coherent), hvs⟩
      cases known with
      | false => exact hnext a1 h1
      | true =>
        cases bs with
        | nil =>
          have hv1 := hv.cleared h1
          refine fun _ => .branchLet hv1.node hv1.scope_eq ?_
          rw [hv1.going.get_eq]
          simp only [List.length_nil] at hlen
          omega
        | cons b bs =>
          obtain ⟨name, type, value⟩ := b
          exact ensures_bind.mpr (ensures_foundBinding fun findings => hnext _ (h1.found rfl))
    · subst heq
      exact halts_infer hv.going.types_eq hf

/-! ## Branches -/

theorem passes_branches
    (hbs : ∀ b ∈ bs, Passes t ts nodes cls b.body)
    (hfits : FitsAll t scope is (bs.map fun b => { names := [b.name], expr := some b.body }))
    (hv : Visiting t ts nodes scope (.caseOf x (before ++ bs))
      (bs.map fun b => { names := [b.name], expr := some b.body }) a₀ a)
    (hcursor : a.cursor = a₀.cursor + (1 + x.size + Expr.sizeOfBranches before))
    (hnote : a.notes[a₀.cursor]? = some { scope, type := some total }) :
    Ensures (inferBranches cls a₀.cursor total is bs)
      (fun r a' => Visiting t ts nodes scope (.caseOf x (before ++ bs)) [] a₀ a' ∧
        a'.notes[a₀.cursor]? = some { scope, type := some r }) (Halts ts nodes) a := by
  induction bs generalizing a before total is with
  | nil =>
    rw [inferBranches]
    · exact ⟨hv, hnote⟩
    · simp
  | cons b bs ih =>
    obtain ⟨name, type, body⟩ := b
    obtain ⟨hb, hbs⟩ := List.forall_mem_cons.1 hbs
    cases hfits with
    | @cons _ i is _ _ _ _ hparent hfit hrest =>
      rw [inferBranches]
      refine hb.next hv rfl hparent hfit fun r a1 h1 => ?_
      have hsplit : before ++ Branch.mk name type body :: bs = (before ++ [.mk name type body]) ++
          bs := by simp
      -- the rest goes on with the join so far
      have hnext : ∀ total', Ensures (inferBranches cls a₀.cursor total' is bs)
          (fun r a' => Visiting t ts nodes scope
            (.caseOf x (before ++ Branch.mk name type body :: bs)) [] a₀ a' ∧
            a'.notes[a₀.cursor]? = some { scope, type := some r }) (Halts ts nodes)
              (a1.settled a₀.cursor total') := by
        intro total'
        have hv1 := h1.visiting.settled total'
        rw [hsplit] at hv1 ⊢
        refine ih hbs hrest hv1 ?_ (h1.visiting.note_settled total')
        change a1.cursor = _
        rw [h1.cursor_eq, hcursor, Expr.sizeOfBranches_append]
        simp only [Expr.sizeOfBranches, Branch.body_mk]
        omega
      cases total with
      | none => exact hnext r
      | some w =>
        simp only [ensures_bind, ensures_join, ensures_settle]
        refine ⟨fun v hv' => ⟨fun total' _ => hnext total', fun f hjoin ha => ?_⟩, fun h =>
          (nomatch h)⟩
        cases hv'
        rw [← h1.visiting.going.types_eq] at ha
        refine .stuck (.of_join ha h1.visiting.node .next ?_ ?_ hjoin)
        · rw [Nat.add_zero, Analysis.typeAt, h1.kept _ hv.lt, hnote]
          rfl
        · rw [← hcursor]
          exact h1.type_eq

/-! ## Expressions -/

theorem passes (hts : ts.WellFormed) (e : Expr) : Passes t ts nodes cls e := by
  induction e using Expr.induction with
  | ifThenElse c x y hc hx hy =>
    intro lead scope expected a hg hf hp
    rw [inferExpr, ensures_bind, ensures_enter]
    refine hc.childAt (.start hg hf hp) rfl rfl fun r1 a1 h1 =>
      hx.childAt h1.visiting rfl rfl fun r2 a2 h2 => ?_
    refine hy.childAt h2.visiting rfl rfl fun r3 a3 h3 => ?_
    rw [ensures_bind, ensures_join]
    refine ⟨fun u hu => ⟨fun w _ => h3.visiting.done rfl, fun f hjoin ha => ?_⟩, fun hnone _ => ?_⟩
    · have hcursor1 : a1.cursor = a.cursor + (1 + c.size) := by
        rw [h1.cursor_eq]
        simp only [Analysis.entered]
        omega
      have hcursor2 : a2.cursor = a.cursor + (1 + c.size + x.size) := by
        rw [h2.cursor_eq, hcursor1]
        omega
      have hlt : a1.cursor < a2.cursor := by
        rw [h2.cursor_eq, x.size_eq]
        omega
      rw [← h3.visiting.going.types_eq] at ha
      refine .stuck (.of_join ha h3.visiting.node .branches ?_ (hcursor2 ▸ h3.type_eq) hjoin)
      rw [Analysis.typeAt, ← hcursor1, h3.kept _ hlt, ← hu]
      exact h2.type_eq
    · exact .stuck (.untyped ((h2.untyped hnone).mono h3.kept (by rw [h3.cursor_eq]; omega)))
  | whileLoop c x hc hx =>
    intro lead scope expected a hg hf hp
    rw [inferExpr, ensures_bind, ensures_enter]
    refine hc.childAt (.start hg hf hp) rfl rfl fun _ _ h1 => ?_
    exact hx.childAt h1.visiting rfl rfl fun _ _ h2 => h2.visiting.done rfl
  | block es hes =>
    intro lead scope expected a hg hf hp
    have hv := Visiting.start hg hf hp
    rw [inferExpr, ensures_bind, ensures_enter, ensures_bind, ensures_childrenOf, ensures_bind,
      hv.going.get_eq]
    by_cases hne : es = []
    · subst hne
      rw [inferBlock]
      exact fun _ => .stuck (.emptyBlock hv.node)
    · exact (passes_block_exprs hes hne hf.children hv).imp fun _ _ h => h.done rfl
  | letIn bs x hbs hx =>
    intro lead scope expected a hg hf hp
    have hv := Visiting.start hg hf hp
    have hlen : (t.get scope).locals.length = lead.length + bs.length := by
      have := congrArg List.length hf.names
      simpa [Expr.ownNames] using this
    obtain ⟨is, last, hchildren, hbindings, hparent, hlast⟩ := hf.children.append_inv
    rw [inferExpr]
    simp only [ensures_bind, ensures_enter, ensures_childrenOf, ensures_localsOf]
    rw [hv.going.get_eq, hchildren, List.dropLast_concat, List.getLast?_concat]
    refine (passes_bindings hbs (fun _ h => h) (by simp; omega) hbindings hv).imp fun _ a1 h1 => ?_
    refine hx.next h1 rfl hparent hlast fun r2 a2 h2 => ?_
    rw [ensures_bind, ensures_localsOf, h2.visiting.going.get_eq, ensures_bind]
    refine (passes_locals (by simp) h2.visiting).imp ?_
    rintro _ a3 ⟨h3, _, hunbounded⟩
    rw [ensures_settle]
    exact (h3.settled r2).passed (h3.note_settled r2) hunbounded
  | caseOf x bs hx hbs =>
    intro lead scope expected a hg hf hp
    rw [inferExpr, ensures_bind, ensures_enter]
    refine hx.childAt (.start hg hf hp) rfl rfl fun r1 a1 h1 => ?_
    have hv : Visiting t ts nodes scope (.caseOf x ([] ++ bs)) _ a _ := h1.visiting.settled none
    rw [ensures_bind, ensures_settle, ensures_bind, ensures_childrenOf, hv.going.get_eq]
    refine (passes_branches hbs hf.children.drop_one hv ?_ (h1.visiting.note_settled none)).imp ?_
    · change a1.cursor = _
      rw [h1.cursor_eq]
      simp only [Analysis.entered, Expr.sizeOfBranches]
      omega
    · rintro r a' ⟨hv', hnote⟩
      exact hv'.passed hnote (hv'.unbounded rfl)
  | assign name x hx =>
    intro lead scope expected a hg hf hp
    have hv := Visiting.start hg hf hp
    have hfind := hv.going.find_eq scope name.text
    rw [inferExpr, ensures_bind, ensures_enter, ensures_bind, ensures_resolve]
    cases hv' : (a.entered scope).scopes.find scope name.text with
    | none =>
      refine hx.childAt hv rfl rfl fun r1 a1 h1 => ?_
      rw [ensures_bind, ensures_present]
      refine ⟨fun v h => (by cases h), fun _ _ => .unknown h1.visiting.node h1.visiting.scope_eq ?_⟩
      rw [h1.visiting.going.find_eq, ← hfind, hv']
    | some v =>
      refine hx.childAt hv rfl rfl fun r1 a1 h1 => ?_
      refine (h1.visiting.step (moved_addLower ?_) rfl rfl rfl).done rfl
      exact ScopeTree.visible_of_find (hfind.symm.trans hv')
  | unary op x hx =>
    intro lead scope expected a hg hf hp
    rw [inferExpr, ensures_bind, ensures_enter]
    cases op <;> exact hx.childAt (.start hg hf hp) rfl rfl fun _ _ h1 => h1.visiting.done rfl
  | binary op x y hx hy =>
    intro lead scope expected a hg hf hp
    rw [inferExpr, ensures_bind, ensures_enter]
    cases op with
    | equal =>
      rw [ensures_bind, ensures_typeSoFar]
      refine hx.childAt (.start hg hf hp) rfl rfl fun _ _ h1 => ?_
      exact hy.childAt h1.visiting rfl rfl fun _ _ h2 => h2.visiting.done rfl
    | _ =>
      refine hx.childAt (.start hg hf hp) rfl rfl fun _ _ h1 => ?_
      exact hy.childAt h1.visiting rfl rfl fun _ _ h2 => h2.visiting.done rfl
  | call x name es type hx hes =>
    intro lead scope expected a hg hf hp
    rw [inferExpr, ensures_bind, ensures_enter, ensures_bind]
    refine ensures_dispatchType.imp ?_
    rintro named _ ⟨rfl, _⟩
    refine hx.childAt (.start hg hf hp) rfl rfl fun r1 a1 h1 => ?_
    rw [ensures_bind, ensures_present]
    refine ⟨fun target _ => passes_dispatch hts hes rfl hf.children.drop_one h1.visiting,
      fun hnone _ => ?_⟩
    exact .stuck (.untyped (h1.untyped (Option.or_eq_none_iff.1 hnone).2))
  | selfCall name es hes =>
    intro lead scope expected a hg hf hp
    rw [inferExpr, ensures_bind, ensures_enter]
    exact passes_dispatch (i := 0) hts hes rfl hf.children (.start hg hf hp)
  | new type =>
    intro lead scope expected a hg hf hp
    rw [inferExpr, ensures_bind, ensures_enter, ensures_bind]
    refine ensures_typeOrWrong.imp fun _ a' heq => ?_
    subst heq
    exact (Visiting.start hg hf hp).done rfl
  | atom kind token =>
    intro lead scope expected a hg hf hp
    have hv := Visiting.start hg hf hp
    have hfind := hv.going.find_eq scope token.text
    rw [inferExpr, ensures_bind, ensures_enter]
    cases kind with
    | integer | string | bool => exact hv.done rfl
    | name =>
      simp only [inferName, ensures_bind, ensures_resolve]
      cases hv' : (a.entered scope).scopes.find scope token.text with
      | none => exact hv.done rfl
      | some v =>
        have hvisible : t.Visible scope v := ScopeTree.visible_of_find (hfind.symm.trans hv')
        cases expected with
        | none => exact hv.done rfl
        | some u => exact (hv.step (moved_addUpper hvisible) rfl rfl rfl).done rfl

end AutoCool.Cool
