import AutoCool.Proofs.Cool.ScopeOrder
import AutoCool.Proofs.Cool.Visits

/-!
# The scopes and notes that the checker makes

The checker only adds: to the scope it is given it adds children and variables, and to the notes it
adds those of the expressions it meets (`Laid`). What it adds to the scopes fits the program, and
the notes name these scopes in the order of the expressions. A walk that goes on after another one
keeps what that one did (`Laid.trans`), so the lemma about an expression follows from those about
its parts.
-/

namespace AutoCool.Cool

/-- A walk of the checker may go on in a scope: all notes are of expressions that were met, all
scopes and variables are there, and no variable has bounds. -/
structure Ready (scope : Nat) (a : Analysis) : Prop where
  cursor_eq : a.cursor = a.notes.size
  valid : a.scopes.Valid
  tidy : a.scopes.Tidy
  unbounded : a.scopes.Unbounded
  coherent : a.scopes.Coherent
  scope_lt : scope < a.scopes.scopes.size

/-- What a walk in a scope does that meets `n` expressions: it changes no scope but this one, and
notes the expressions. Of the notes before, only the type in the one of number `i` may change. -/
structure Walked (scope i n : Nat) (a a' : Analysis) : Prop where
  ready : Ready scope a'
  types_eq : a'.types = a.types
  scopes : ScopeTree.Extends scope a.scopes a'.scopes
  notes_eq : ∀ j < a.notes.size, j ≠ i → a'.notes[j]? = a.notes[j]?
  own_scope : i < a.notes.size → (a'.notes[i]?).map (·.scope) = (a.notes[i]?).map (·.scope)
  size_notes : a'.notes.size = a.notes.size + n
  diagnostics_le : a.diagnostics.size ≤ a'.diagnostics.size
  findings_eq : a'.findings = a.findings
  changed_eq : a'.changed = a.changed

/-- The scopes of the expressions that were met, in order. -/
def Analysis.noteScopes (a : Analysis) : List Nat := a.notes.toList.map (·.scope)

/-- What a walk over some parts of an expression in a scope does: it lays their scopes and some
variables after those that are there. -/
structure Laid (scope i : Nat) (parts : List Part) (names : List String) (a a' : Analysis) : Prop
    extends Walked scope i (sizeOfParts parts) a a' where
  laid : ∃ is vs, a'.scopes.get scope = { a.scopes.get scope with
      children := (a.scopes.get scope).children ++ is, locals :=
        (a.scopes.get scope).locals ++ vs } ∧
    (FitsAll a'.scopes scope is parts ∧
      a'.noteScopes = a.noteScopes ++ scopesOfParts a'.scopes is parts) ∧
      vs.map (·.1) = names

variable {scope i n n' : Nat} {parts parts' : List Part} {names names' : List String}
  {a a' a'' : Analysis}

theorem Walked.refl (hr : Ready scope a) : Walked scope i 0 a a where
  ready := hr
  types_eq := rfl
  scopes := .refl
  notes_eq _ _ _ := rfl
  own_scope _ := rfl
  size_notes := rfl
  diagnostics_le := Nat.le_refl _
  findings_eq := rfl
  changed_eq := rfl

theorem Walked.trans (h : Walked scope i n a a') (h' : Walked scope i n' a' a'') :
    Walked scope i (n + n') a a'' where
  ready := h'.ready
  types_eq := h'.types_eq.trans h.types_eq
  scopes := h.scopes.trans h'.scopes
  notes_eq j hj hji := by
    have := h.size_notes
    rw [h'.notes_eq j (by omega) hji, h.notes_eq j hj hji]
  own_scope hi := by
    have := h.size_notes
    rw [h'.own_scope (by omega), h.own_scope hi]
  size_notes := by rw [h'.size_notes, h.size_notes]; omega
  diagnostics_le := Nat.le_trans h.diagnostics_le h'.diagnostics_le
  findings_eq := h'.findings_eq.trans h.findings_eq
  changed_eq := h'.changed_eq.trans h.changed_eq

theorem Walked.of_reports (hr : Ready scope a) (h : Reports a a') : Walked scope i 0 a a' := by
  obtain ⟨ds, rfl⟩ := h
  exact { Walked.refl hr with
    ready := { hr with }
    diagnostics_le := by simp }

theorem Laid.refl (hr : Ready scope a) : Laid scope i [] [] a a :=
  { Walked.refl hr with laid := ⟨[], [], by simp, ⟨.nil, by simp⟩, rfl⟩ }

theorem Laid.trans (h : Laid scope i parts names a a') (h' : Laid scope i parts' names' a' a'') :
    Laid scope i (parts ++ parts') (names ++ names') a a'' where
  toWalked := by simpa using h.toWalked.trans h'.toWalked
  laid := by
    obtain ⟨is, vs, hget, ⟨hfits, hnotes⟩, hnames⟩ := h.laid
    obtain ⟨is', vs', hget', ⟨hfits', hnotes'⟩, hnames'⟩ := h'.laid
    have hbelow : ∀ j, scope < j → j < a'.scopes.scopes.size → a''.scopes.get j = a'.scopes.get j :=
      fun j hj hsize =>
      h'.scopes.get_eq j hsize (Nat.ne_of_gt hj)
    refine ⟨is ++ is', vs ++ vs', ?_, ⟨?_, ?_⟩, ?_⟩
    · rw [hget', hget]
      simp only [List.append_assoc]
    · exact (hfits.congr h'.scopes.size_le (fun v hv => h'.scopes.inferred hv) hbelow).append hfits'
    · rw [hnotes', hnotes, scopesOfParts_append hfits.length_eq, hfits.scopes_congr hbelow,
        List.append_assoc]
    · rw [List.map_append, hnames, hnames']

theorem Laid.andThen (h : Laid scope i parts names a a')
    (h' : Ready scope a' → Laid scope i parts' names' a' a'') :
    Laid scope i (parts ++ parts') (names ++ names') a a'' := h.trans (h' h.ready)

theorem Laid.of_reports (hr : Ready scope a) (h : Reports a a') : Laid scope i [] [] a a' := by
  obtain ⟨ds, rfl⟩ := h
  exact { Walked.of_reports hr ⟨ds, rfl⟩ with laid := ⟨[],
    [], by simp, ⟨.nil, by simp [Analysis.noteScopes]⟩, rfl⟩ }

theorem Laid.reports (h : Laid scope i parts names a a') (h' : Reports a' a'') :
    Laid scope i parts names a a'' := by
  simpa using h.trans (.of_reports h.ready h')

theorem noteScopes_settled : (a.settled i t).noteScopes = a.noteScopes := by
  refine List.ext_getElem? fun j => ?_
  simp only [Analysis.noteScopes, Analysis.settled, List.getElem?_map, Array.getElem?_toList,
    Array.getElem?_modify]
  split
  · rw [Option.map_map]
    rfl
  · rfl

theorem Laid.settled (h : Laid scope i parts names a a') (t : Option TypeId) :
    Laid scope i parts names a (a'.settled i t) :=
  { h with
    ready := { h.ready with cursor_eq := by simpa [Analysis.settled] using h.ready.cursor_eq }
    notes_eq := fun j hj hji => by
      rw [← h.notes_eq j hj hji]
      simp [Analysis.settled, Array.getElem?_modify, Ne.symm hji]
    own_scope := fun hi => by
      rw [← h.own_scope hi]
      simp [Analysis.settled, Array.getElem?_modify, Function.comp_def]
    size_notes := by simpa [Analysis.settled] using h.size_notes
    laid := by
      rw [noteScopes_settled]
      exact h.laid }

theorem Ready.defining (hr : Ready scope a) (name : String) (t : TypeId) :
    Ready scope (a.defining scope name t) where
  cursor_eq := hr.cursor_eq
  valid := hr.valid.define hr.scope_lt
  tidy := hr.tidy.define hr.valid hr.scope_lt
  unbounded := hr.unbounded.define
  coherent := hr.coherent.define
  scope_lt := by simpa using hr.scope_lt

theorem Laid.defining (h : Laid scope i parts names a a') (name : String) (t : TypeId) :
    Laid scope i parts (names ++ [name]) a (a'.defining scope name t) := by
  have hs := h.ready.scope_lt
  have hstep : Laid scope i [] [name] a' (a'.defining scope name t) :=
    { Walked.refl h.ready with
      ready := h.ready.defining name t
      scopes := ScopeTree.extends_define hs
      laid := by
        refine ⟨[], [(name, a'.scopes.vars.size)], by simp [ScopeTree.get_define hs], ⟨.nil,
          ?_⟩, rfl⟩
        simp [Analysis.noteScopes, Analysis.defining] }
  simpa using h.trans hstep

theorem notes_entered (hc : a.cursor = a.notes.size) :
    (a.entered scope).notes = a.notes.push { scope } := by
  simp [Analysis.entered, hc]

theorem noteScopes_entered (hc : a.cursor = a.notes.size) :
    (a.entered scope).noteScopes = a.noteScopes ++ [scope] := by
  simp [Analysis.noteScopes, notes_entered hc]

theorem Ready.entered (h : Ready scope a) : Ready scope (a.entered scope) :=
  { h with cursor_eq := by rw [notes_entered h.cursor_eq]; simp [Analysis.entered, h.cursor_eq] }

/-- What the walk over an expression does: it meets the expression, then its parts, and settles its
type. -/
structure Met (scope : Nat) (e : Expr) (type : Option TypeId) (a a' : Analysis) : Prop where
  laid : Laid scope a.cursor e.parts e.ownNames (a.entered scope) a'
  note : a'.notes[a.cursor]? = some { scope, type := some type }

variable {e : Expr} {r : Option TypeId}

theorem Met.notes_eq (h : Met scope e r a a') (hc : a.cursor = a.notes.size)
    (hj : j < a.notes.size) : a'.notes[j]? = a.notes[j]? := by
  rw [h.laid.notes_eq j ?_ (by omega)]
  · rw [notes_entered hc, Array.getElem?_push, if_neg (Nat.ne_of_lt hj)]
  · rw [notes_entered hc, Array.size_push]
    omega

theorem Met.size_notes (h : Met scope e r a a') (hc : a.cursor = a.notes.size) :
    a'.notes.size = a.notes.size + e.size := by
  rw [h.laid.size_notes, notes_entered hc, Array.size_push, e.size_eq]
  omega

/-- In the scopes `t` the variables `vs`, of known types, are those of a new child of a scope. -/
structure NewChild (scope : ScopeId) (vs : List (String × VarId)) (a : Analysis) (t : ScopeTree) :
    Prop where
  ready : Ready scope a
  scopes : ScopeTree.Extends a.scopes.scopes.size (a.scopes.createChild scope).2 t
  get_eq : t.get a.scopes.scopes.size =
    { parent := some scope, index := (a.scopes.get scope).locals.length, locals := vs }
  inferred : ∀ x ∈ vs, (t.getVar x.2).inferred = true

theorem Met.child (hv : NewChild scope vs a t)
    (h : Met a.scopes.scopes.size e r { a with scopes := t } a') :
    Laid scope i [{ names := vs.map (·.1), expr := some e }] [] a a' where
  ready := { h.laid.ready with scope_lt := Nat.lt_trans hv.ready.scope_lt h.laid.ready.scope_lt }
  types_eq := h.laid.types_eq
  scopes := (hv.scopes.trans h.laid.scopes).of_child hv.ready.scope_lt
  laid := by
    obtain ⟨is, us, hchild, ⟨hfits, hnotes⟩, hnames⟩ := h.laid.laid
    have hparent := (hv.scopes.trans h.laid.scopes).get_parent hv.ready.scope_lt
    simp only [Analysis.entered, hv.get_eq, List.nil_append] at hchild
    refine ⟨[a.scopes.scopes.size], [], by simpa using hparent, ⟨?_, ?_⟩, rfl⟩
    · refine .cons hv.ready.scope_lt h.laid.ready.scope_lt (by rw [hchild]) (fun e' he' => ?_) .nil
      cases he'
      refine .intro ?_ ?_ ?_
      · simp only [hchild, List.map_append, hnames]
      · simp only [hchild, List.length_map, List.take_left]
        exact fun x hx => h.laid.scopes.inferred (hv.inferred x hx)
      · rw [hchild]
        exact hfits
    · rw [hnotes, noteScopes_entered (a := { a with scopes := t }) hv.ready.cursor_eq,
        scopesOfParts_cons, scopesOfParts_nil,
        Option.elim_some, Expr.scopes_eq, hchild]
      simp [Analysis.noteScopes]
  notes_eq j hj _ := h.notes_eq hv.ready.cursor_eq hj
  own_scope hi := by rw [h.notes_eq hv.ready.cursor_eq hi]
  size_notes := by
    rw [h.size_notes hv.ready.cursor_eq]
    simp
  diagnostics_le := h.laid.diagnostics_le
  findings_eq := h.laid.findings_eq
  changed_eq := h.laid.changed_eq

theorem Ready.createChild (hr : Ready scope a) :
    Ready a.scopes.scopes.size (a.withChild scope) where
  cursor_eq := hr.cursor_eq
  valid := hr.valid.createChild hr.scope_lt
  tidy := hr.tidy.createChild hr.scope_lt
  unbounded := hr.unbounded
  coherent := hr.coherent
  scope_lt := by simp

theorem Ready.get_createChild (hr : Ready scope a) :
    (a.scopes.createChild scope).2.get a.scopes.scopes.size =
      { parent := some scope, index := (a.scopes.get scope).locals.length } := by
  rw [ScopeTree.get_createChild hr.scope_lt, if_pos rfl]

theorem Ready.newChild (hr : Ready scope a) : NewChild scope [] a (a.scopes.createChild scope).2 :=
  ⟨hr, .refl, hr.get_createChild, fun _ hx => nomatch hx⟩

theorem Ready.newChild_define (hr : Ready scope a) (ht : TypeId.kind t ≠ .auto) :
    NewChild scope [(name, a.scopes.vars.size)] a
      ((a.withChild scope).defining a.scopes.scopes.size name t).scopes := by
  have hlt : a.scopes.scopes.size < (a.scopes.createChild scope).2.scopes.size := by simp
  refine ⟨hr, ScopeTree.extends_define hlt, ?_, ?_⟩
  · rw [Analysis.scopes_defining, Analysis.scopes_withChild, ScopeTree.get_define hlt, if_pos rfl,
      hr.get_createChild]
    simp
  · intro x hx
    cases List.mem_singleton.1 hx
    rw [Analysis.scopes_defining, ScopeTree.getVar_define, Analysis.scopes_withChild,
      ScopeTree.vars_createChild, if_pos rfl]
    simp only [Variable.ofType, bne_iff_ne]
    rintro rfl
    exact ht (by decide)

theorem Met.new_child (hr : Ready scope a)
    (h : Met a.scopes.scopes.size e r (a.withChild scope) a') :
    Laid scope i [{ expr := some e }] [] a a' :=
  h.child hr.newChild

theorem Met.branch (ht : TypeId.kind t ≠ .auto) (hr : Ready scope a)
    (h : Met a.scopes.scopes.size e r ((a.withChild scope).defining a.scopes.scopes.size name t)
      a') : Laid scope i [{ names := [name], expr := some e }] [] a a' :=
  h.child (hr.newChild_define ht)

theorem Laid.new_child (hr : Ready scope a) :
    Laid scope i [{ expr := none }] [] a (a.withChild scope) :=
  { Walked.refl hr with
    ready := { hr.createChild with scope_lt := Nat.lt_trans hr.scope_lt hr.createChild.scope_lt }
    scopes := ScopeTree.Extends.refl.of_child hr.scope_lt
    laid := by
      refine ⟨[a.scopes.scopes.size], [], ?_, ⟨?_, ?_⟩, rfl⟩
      · simpa using ScopeTree.Extends.refl.get_parent hr.scope_lt
      · refine .cons hr.scope_lt (by simp) ?_ (fun _ he => nomatch he) .nil
        rw [Analysis.scopes_withChild, hr.get_createChild]
      · simp [Analysis.noteScopes, Analysis.withChild] }

variable {a₀ : Analysis} {site : Site}

theorem cursor_lt_entered (hc : a.cursor = a.notes.size) :
    a.cursor < (a.entered scope).notes.size := by
  rw [notes_entered hc, Array.size_push, hc]
  exact Nat.lt_succ_self _

theorem Laid.type_settled (h : Laid scope i parts names a a') (hi : i < a.notes.size)
    (t : Option TypeId) : ((a'.settled i t).notes[i]?).bind (·.type) = some t := by
  have hlt : i < a'.notes.size := by
    rw [h.size_notes]
    omega
  simp only [Analysis.settled, Array.getElem?_modify, if_true, Array.getElem?_eq_getElem hlt,
    Option.map_some,
    Option.bind_some]

theorem Laid.met (h : Laid scope a.cursor e.parts e.ownNames (a.entered scope) a')
    (hc : a.cursor = a.notes.size) (htype : (a'.notes[a.cursor]?).bind (·.type) = some r) :
    Met scope e r a a' where
  laid := h
  note := by
    have hscope := h.own_scope (cursor_lt_entered hc)
    simp only [notes_entered hc, hc, Array.getElem?_push, if_true, Option.map_some,
      Option.map_eq_some_iff] at hscope
    obtain ⟨⟨s, t⟩, hn, rfl⟩ := hscope
    rw [hc, hn] at htype
    cases htype
    rw [hc, hn]

theorem Laid.met_settled (h : Laid scope a.cursor e.parts e.ownNames (a.entered scope) a')
    (hc : a.cursor = a.notes.size) (t : Option TypeId) : Met scope e t a (a'.settled a.cursor t) :=
  (h.settled t).met hc (h.type_settled (cursor_lt_entered hc) t)

/-! ## From steps to scopes and notes -/

/-- The part that an errand makes a scope for. -/
def Errand.part? : Errand → Option Part
  | .visit e => some { expr := some e }
  | .bare => some { expr := none }
  | .branch name _ body => some { names := [name], expr := some body }
  | _ => none

/-- The name that an errand defines in the scope of the expression. -/
def Errand.name? : Errand → Option String
  | .declare name _ => some name
  | _ => none

variable {ts : Types} {cls : TypeId}

theorem filterMap_visit {xs : List Expr} :
    (xs.map Errand.visit).filterMap Errand.part? = xs.map (fun x => { expr := some x }) ∧
      (xs.map Errand.visit).filterMap Errand.name? = [] := by
  induction xs with
  | nil => exact ⟨rfl, rfl⟩
  | cons x xs ih =>
    rw [List.map_cons, List.filterMap_cons, List.filterMap_cons, ih.1, ih.2]
    exact ⟨rfl, rfl⟩

theorem filterMap_bindings {bs : List Binding} :
    (bs.flatMap (Binding.errands ts cls)).filterMap Errand.part? = bs.map
      (fun b => { expr := b.value }) ∧
      (bs.flatMap (Binding.errands ts cls)).filterMap Errand.name? = bs.map Binding.name := by
  induction bs with
  | nil => exact ⟨rfl, rfl⟩
  | cons b bs ih =>
    obtain ⟨name, type, value⟩ := b
    rw [List.flatMap_cons, List.filterMap_append, List.filterMap_append, ih.1, ih.2]
    cases value <;> exact ⟨rfl, rfl⟩

theorem filterMap_branches {bs : List Branch} :
    (bs.map (Branch.errand ts)).filterMap Errand.part? = bs.map
      (fun b => { names := [b.name], expr := some b.body }) ∧
      (bs.map (Branch.errand ts)).filterMap Errand.name? = [] := by
  induction bs with
  | nil => exact ⟨rfl, rfl⟩
  | cons b bs ih =>
    obtain ⟨name, type, body⟩ := b
    rw [List.map_cons, List.filterMap_cons, List.filterMap_cons, ih.1, ih.2]
    exact ⟨rfl, rfl⟩

theorem Expr.filterMap_errands (e : Expr) :
    (e.errands ts cls).filterMap Errand.part? = e.parts ∧
    (e.errands ts cls).filterMap Errand.name? = e.ownNames := by
  cases e with
  | letIn bs x =>
    rw [Expr.errands, List.filterMap_append, List.filterMap_append, filterMap_bindings.1,
      filterMap_bindings.2]
    exact ⟨rfl, List.append_nil _⟩
  | caseOf x bs =>
    rw [Expr.errands, List.filterMap_cons, List.filterMap_cons, filterMap_branches.1,
      filterMap_branches.2]
    exact ⟨rfl, rfl⟩
  | block xs | selfCall name xs => exact filterMap_visit
  | call x name xs type =>
    rw [Expr.errands, List.filterMap_cons, List.filterMap_cons, filterMap_visit.1,
      filterMap_visit.2]
    exact ⟨rfl, rfl⟩
  | atom kind token => cases kind <;> exact ⟨rfl, rfl⟩
  | _ => exact ⟨rfl, rfl⟩

mutual

theorem Visits.met {scope : Nat} {e : Expr} {r : Option TypeId} {a a' : Analysis}
    (h : Visits site scope e r a a') (hr : Ready scope a) : Met scope e r a a' :=
  match h with
  | .intro herrands _ => by
    have hlaid := herrands.laid hr.entered
    rw [e.filterMap_errands.1, e.filterMap_errands.2] at hlaid
    exact hlaid.met_settled hr.cursor_eq r

theorem VisitsAll.laid {scope i : Nat} {es : List Errand} {rs : List (Option TypeId)}
    {a a' : Analysis} (h : VisitsAll site scope i es rs a a') (hr : Ready scope a) :
    Laid scope i (es.filterMap Errand.part?) (es.filterMap Errand.name?) a a' :=
  match h with
  | .nil => .refl hr
  | .remark (.said hsaid) hrest => (Laid.of_reports hr hsaid.reports).andThen hrest.laid
  | .remark .settled hrest => ((Laid.refl hr).settled _).andThen hrest.laid
  | .bare hrest => (Laid.new_child hr).andThen hrest.laid
  | .visit he hrest => ((he.met hr.createChild).new_child hr).andThen hrest.laid
  | .branch ht he hrest => ((he.met (hr.createChild.defining _ _)).branch ht hr).andThen hrest.laid
  | .declare hrest => ((Laid.refl hr).defining _ _).andThen hrest.laid
  | .known _ hrest => hrest.laid hr
  | .missed _ _ hrest => (Laid.of_reports hr (.reported _)).andThen hrest.laid

end

namespace Checking

open Analyzing

/-- The walk over an expression is as it should be, in every scope. -/
def Walks (site : Site) (e : Expr) : Prop := ∀ (scope : Nat) (a : Analysis), Ready scope a →
    Ensures (checkExpr site scope e) (fun r a' => Met scope e r a a') (fun _ _ => True) a

theorem walks (site : Site) (e : Expr) : Walks site e :=
  fun scope a hr => (visits site e scope a).imp fun _ _ h => h.met hr

end Checking

end AutoCool.Cool
