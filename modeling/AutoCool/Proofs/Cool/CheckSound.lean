import Mathlib.Data.List.Flatten
import AutoCool.Proofs.Cool.CheckClasses
import AutoCool.Proofs.Cool.PlainTable

/-!
# What the checker lets pass

When the checker says nothing about an expression, the expression is typed by the rules and the
types that it notes are those of the derivation (`sound`). The walk over an expression stands in a
scope, of which the environment says at least what is known there (`Within`); what was noted before
stays, so the derivations of the parts are put together as the walk goes on (`Staged`).
-/

namespace AutoCool.Cool

variable {ts : Types} {Γ : Env} {e : Expr} {t : TypeId} {name : String}

/-! ## What scopes know and environments say -/

/-- The variables that are known in a scope have the types that an environment gives. -/
def Knows (t : ScopeTree) (s : Nat) (Γ : Env) : Prop :=
  ∀ name v, t.find s name = some v → Γ.lookup name = some (t.getVar v).type

/-- A walk stands in a scope, over a table of types, in an environment. -/
structure Within (ts : Types) (Γ : Env) (scope : Nat) (a : Analysis) : Prop where
  ready : Ready scope a
  types_eq : a.types = ts
  knows : Knows a.scopes scope Γ

variable {scope i n : Nat} {parts : List Part} {names : List String} {a a' a'' a₀ : Analysis}

theorem Within.child (h : Within ts Γ scope a) :
    Within ts Γ a.scopes.scopes.size (a.withChild scope) where
  ready := h.ready.createChild
  types_eq := h.types_eq
  knows name v hv := by
    rw [Analysis.scopes_withChild, ScopeTree.find_createChild h.ready.scope_lt] at hv
    exact h.knows name v hv

theorem Within.entered (h : Within ts Γ scope a) : Within ts Γ scope (a.entered scope) where
  ready := h.ready.entered
  types_eq := h.types_eq
  knows := h.knows

theorem Within.defining (h : Within ts Γ scope a)
    (hnew : name ∉ (a.scopes.get scope).locals.map (·.1)) :
    Within ts ((name, t) :: Γ) scope (a.defining scope name t) where
  ready := h.ready.defining name t
  types_eq := h.types_eq
  knows n v hv := by
    rw [Analysis.scopes_defining, ScopeTree.find_define h.ready.scope_lt] at hv
    rw [Analysis.scopes_defining, ScopeTree.getVar_define, List.lookup_cons]
    by_cases hn : n = name
    · subst hn
      rw [if_pos ⟨rfl, ScopeTree.isLocal_eq_false_iff.2
        (ScopeTree.lookup_eq_none_iff.2 hnew)⟩] at hv
      cases hv
      simp [Variable.ofType]
    · rw [if_neg fun h => hn h.1] at hv
      have hlt := h.ready.valid.find_lt hv
      rw [beq_eq_false_iff_ne.2 hn, if_neg (Nat.ne_of_lt hlt)]
      exact h.knows n v hv

theorem Within.walked (h : Within ts Γ scope a) (hw : Walked scope i n a a')
    (hlocals : (a'.scopes.get scope).locals = (a.scopes.get scope).locals) :
    Within ts Γ scope a' where
  ready := hw.ready
  types_eq := hw.types_eq.trans h.types_eq
  knows name v hv := by
    rw [hw.scopes.find_eq h.ready.scope_lt hlocals] at hv
    rw [hw.scopes.getVar_eq v (h.ready.valid.find_lt hv)]
    exact h.knows name v hv

theorem Laid.locals_eq (h : Laid scope i parts [] a a') :
    (a'.scopes.get scope).locals = (a.scopes.get scope).locals := by
  obtain ⟨is, vs, hget, -, hvs⟩ := h.laid
  rw [hget, List.map_eq_nil_iff.1 hvs]
  exact List.append_nil _

theorem Within.laid (h : Within ts Γ scope a) (hl : Laid scope i parts [] a a') :
    Within ts Γ scope a' :=
  h.walked hl.toWalked hl.locals_eq

/-! ## The types that are noted -/

/-- The notes from number `k` on give some types. -/
def TypesAt (a : Analysis) (k : Nat) (types : List TypeId) : Prop :=
  ∀ j t, types[j]? = some t → (a.notes[k + j]?).bind (·.type) = some (some t)

variable {k : Nat} {types types' : List TypeId}

theorem TypesAt.nil : TypesAt a k [] := fun _ _ hj => nomatch hj

theorem TypesAt.append (h : TypesAt a k types) (h' : TypesAt a k' types')
    (hk : k' = k + types.length) : TypesAt a k (types ++ types') := by
  intro j t hj
  rw [List.getElem?_append] at hj
  split at hj
  · exact h j t hj
  · next hlt =>
    have := h' (j - types.length) t hj
    rwa [show k' + (j - types.length) = k + j by omega] at this

theorem TypesAt.lt (h : TypesAt a k types) (hj : j < types.length) : k + j < a.notes.size := by
  have := h j _ (List.getElem?_eq_getElem hj)
  by_contra hge
  rw [Array.getElem?_eq_none (by omega)] at this
  cases this

/-- The expressions that were met since the one of number `k` have the types that are listed. -/
structure Noted (k : Nat) (types : List TypeId) (a : Analysis) : Prop where
  types_at : TypesAt a k types
  cursor_eq : a.cursor = k + types.length

theorem Noted.append (h : Noted k types a) (hkeep : ∀ j < a.notes.size, a'.notes[j]? = a.notes[j]?)
    (h' : Noted a.cursor types' a') : Noted k (types ++ types') a' where
  types_at := by
    refine .append (fun j t hj => ?_) h'.types_at h.cursor_eq
    rw [hkeep _ (h.types_at.lt (List.getElem?_eq_some_iff.1 hj).1)]
    exact h.types_at j t hj
  cursor_eq := by
    rw [h'.cursor_eq, h.cursor_eq, List.length_append]
    omega

theorem Noted.settled (h : Noted k types a) (hi : i < k) (r : Option TypeId) :
    Noted k types (a.settled i r) where
  types_at j u hj := by
    have := h.types_at j u hj
    simpa [Analysis.settled, Array.getElem?_modify, show i ≠ k + j by omega] using this
  cursor_eq := h.cursor_eq

theorem Noted.met (h : Noted (a.cursor + 1) types a') (hm : Met scope e (some t) a a') :
    Noted a.cursor (t :: types) a' where
  types_at := by
    rintro (_ | j) u hj
    · cases hj
      rw [Nat.add_zero, hm.note]
      rfl
    · have := h.types_at j u hj
      rwa [show a.cursor + 1 + j = a.cursor + (j + 1) by omega] at this
  cursor_eq := by
    rw [h.cursor_eq, List.length_cons]
    omega

variable {u w cls : TypeId} {m : Method}

/-! ## The checker is sound -/

/-- All names of an environment have declared types. -/
def EnvDeclared (ts : Types) (Γ : Env) : Prop := ∀ x ∈ Γ, IsDeclared ts x.2

theorem EnvDeclared.lookup (h : EnvDeclared ts Γ) (hl : Γ.lookup name = some t) :
    IsDeclared ts t := by
  obtain ⟨l₁, l₂, rfl, -⟩ := List.lookup_eq_some_iff.1 hl
  exact h (name, t) (by simp)

theorem EnvDeclared.cons (h : EnvDeclared ts Γ) (ht : IsDeclared ts t) :
    EnvDeclared ts ((name, t) :: Γ) :=
  List.forall_mem_cons.2 ⟨ht, h⟩

theorem Within.reports (h : Within ts Γ scope a) (hr : Reports a a') : Within ts Γ scope a' := by
  obtain ⟨ds, rfl⟩ := hr
  exact { ready := { h.ready with }, types_eq := h.types_eq, knows := h.knows }

theorem Within.settled (h : Within ts Γ scope a) (i : Nat) (r : Option TypeId) :
    Within ts Γ scope (a.settled i r) where
  ready := { h.ready with cursor_eq := by simpa [Analysis.settled] using h.ready.cursor_eq }
  types_eq := h.types_eq
  knows := h.knows

/-- A walk stands in an environment, in a scope with variables of some names. If nothing was said so
far, the types that were noted from number `k` on are as in `G`. -/
structure Staged (ts : Types) (Γ : Env) (scope : Nat) (names : List String) (k : Nat)
    (G : List TypeId → Prop) (a : Analysis) : Prop where
  within : Within ts Γ scope a
  names_eq : (a.scopes.get scope).locals.map (·.1) = names
  quiet : a.diagnostics = #[] → EnvDeclared ts Γ ∧ ∃ l, G l ∧ Noted k l a

/-- An expression of number `k` has a type by the rules, and the types below it are noted after
it. -/
def TypedAs (ts : Types) (cls : TypeId) (Γ : Env) (e : Expr) (r : Option TypeId) (k : Nat)
    (a : Analysis) : Prop :=
  ∃ t l, r = some t ∧ IsDeclared ts t ∧ HasType ts asNamed cls Γ e t l ∧ Noted (k + 1) l a

/-- The checker says nothing about an expression in a scope only if it is typed by the rules. -/
def Sound (ts : Types) (site : Site) (e : Expr) : Prop :=
  ∀ (scope : Nat) (a : Analysis) (Γ : Env), Within ts Γ scope a →
    (a.diagnostics = #[] → EnvDeclared ts Γ) →
    (∀ n ∈ e.ownNames, n ∉ (a.scopes.get scope).locals.map (·.1)) →
    Ensures (Checking.checkExpr site scope e) (fun r a' => a'.diagnostics = #[] →
      TypedAs ts site.cls Γ e r a.cursor a')
      (fun _ _ => True) a

/-- After some types come that of an expression and those below it. -/
def Adds (ts : Types) (cls : TypeId) (Γ : Env) (e : Expr) (r : Option TypeId)
    (G : List TypeId → Prop) (l : List TypeId) : Prop :=
  ∃ l₁ t l₂, l = l₁ ++ t :: l₂ ∧ G l₁ ∧ r = some t ∧ IsDeclared ts t ∧
    HasType ts asNamed cls Γ e t l₂

variable {site : Site} {r : Option TypeId} {G G' : List TypeId → Prop}

theorem Reports.silent (h : Reports a a') (hd : a'.diagnostics = #[]) : a' = a := by
  obtain ⟨ds, rfl⟩ := h
  obtain rfl := (Array.append_eq_empty_iff.1 hd).2
  rw [Array.append_empty]

theorem Walked.silent (h : Walked scope i n a a') (hd : a'.diagnostics = #[]) :
    a.diagnostics = #[] := by
  have hle := h.diagnostics_le
  rw [hd] at hle
  exact Array.eq_empty_of_size_eq_zero (Nat.le_zero.1 hle)

namespace Staged

theorem start (hw : Within ts Γ scope a) (hΓ : a.diagnostics = #[] → EnvDeclared ts Γ) :
    Staged ts Γ scope ((a.scopes.get scope).locals.map (·.1)) (a.cursor + 1) (· = [])
      (a.entered scope) :=
  ⟨hw.entered, rfl, fun hd => ⟨hΓ hd, [], rfl, .nil, rfl⟩⟩

section Stage

variable (h : Staged ts Γ scope names k G a)

include h

theorem imp (hG : a.diagnostics = #[] → ∀ l, G l → G' l) : Staged ts Γ scope names k G' a :=
  ⟨h.within, h.names_eq, fun hd => ⟨(h.quiet hd).1, by
    obtain ⟨l, hl, hn⟩ := (h.quiet hd).2
    exact ⟨l, hG hd l hl, hn⟩⟩⟩

theorem said (hr : Reports a a') (hP : a' = a → P) :
    Staged ts Γ scope names k (fun l => G l ∧ P) a' := by
  refine ⟨h.within.reports hr, ?_, fun hd => ?_⟩
  · obtain ⟨ds, rfl⟩ := hr
    exact h.names_eq
  · have heq := hr.silent hd
    subst heq
    obtain ⟨hΓ, l, hl, hn⟩ := h.quiet hd
    exact ⟨hΓ, l, ⟨hl, hP rfl⟩, hn⟩

theorem settled (hi : i < k) (r : Option TypeId) : Staged ts Γ scope names k G (a.settled i r) := by
  refine ⟨h.within.settled i r, h.names_eq, fun hd => ?_⟩
  obtain ⟨hΓ, l, hl, hn⟩ := h.quiet hd
  exact ⟨hΓ, l, hl, hn.settled hi r⟩

theorem defining (hnew : name ∉ names) (ht : ∀ l, G l → IsDeclared ts t) :
    Staged ts ((name, t) :: Γ) scope (names ++ [name]) k G (a.defining scope name t) := by
  have hnames := h.names_eq
  subst hnames
  refine ⟨h.within.defining hnew, ?_, fun hd => ?_⟩
  · rw [Analysis.scopes_defining, ScopeTree.get_define h.within.ready.scope_lt, if_pos rfl,
      List.map_append]
    rfl
  · obtain ⟨hΓ, l, hl, hn⟩ := h.quiet hd
    exact ⟨hΓ.cons (ht l hl), l, hl, hn.types_at, hn.cursor_eq⟩

theorem bare : Staged ts Γ scope names k G (a.withChild scope) := by
  have hlaid : Laid scope a.notes.size [{ expr := none }] [] a (a.withChild scope) :=
    .new_child h.within.ready
  refine ⟨h.within.laid hlaid, by rw [hlaid.locals_eq, h.names_eq], fun hd => ?_⟩
  obtain ⟨hΓ, l, hl, hn⟩ := h.quiet hd
  exact ⟨hΓ, l, hl, hn.types_at, hn.cursor_eq⟩

theorem opened : Staged ts Γ a.scopes.scopes.size [] k G (a.withChild scope) :=
  ⟨h.within.child, by rw [Analysis.scopes_withChild,
    h.within.ready.get_createChild]; rfl, h.bare.quiet⟩

theorem laid (hl : Laid scope a.notes.size [part] [] a a') (hmet : Met s e r a1 a')
    (hcursor : a1.cursor = a.cursor) (htyped : a'.diagnostics = #[] →
      TypedAs ts cls Γ' e r a1.cursor a') :
    Staged ts Γ scope names k (Adds ts cls Γ' e r G) a' := by
  refine ⟨h.within.laid hl, by rw [hl.locals_eq, h.names_eq], fun hd => ?_⟩
  obtain ⟨hΓ, l, hG, hn⟩ := h.quiet (hl.silent hd)
  obtain ⟨t, l', rfl, ht, htype, hn'⟩ := htyped hd
  have hkeep : ∀ j < a.notes.size, a'.notes[j]? = a.notes[j]? :=
    fun j hj => hl.notes_eq j hj (Nat.ne_of_lt hj)
  exact ⟨hΓ, _, ⟨l, t, l', rfl, hG, rfl, ht, htype⟩, hn.append hkeep (hcursor ▸ hn'.met hmet)⟩

end Stage

theorem typed (h : Staged ts Γ scope names (k + 1) G a)
    (hG : EnvDeclared ts Γ → ∀ l, G l → ∃ t, r = some t ∧ IsDeclared ts t ∧
      HasType ts asNamed cls Γ0 e t l) (hd : a.diagnostics = #[]) : TypedAs ts cls Γ0 e r k a := by
  obtain ⟨hΓ, l, hl, hn⟩ := h.quiet hd
  obtain ⟨t, hr, ht, htype⟩ := hG hΓ l hl
  exact ⟨t, l, hr, ht, htype, hn⟩

theorem ends (h : Staged ts Γ scope names (k + 1) G a)
    (hG : EnvDeclared ts Γ → ∀ l, G l → ∃ t, r = some t ∧ IsDeclared ts t ∧
      HasType ts asNamed cls Γ0 e t l) :
    (a.settled k r).diagnostics = #[] → TypedAs ts cls Γ0 e r k (a.settled k r) :=
      (h.settled (Nat.lt_succ_self k) r).typed hG

end Staged

theorem Sound.child (he : Sound ts site e) (h : Staged ts Γ scope names k G a) :
    Ensures (Checking.checkExpr site a.scopes.scopes.size e)
      (fun r a' => Staged ts Γ scope names k (Adds ts site.cls Γ e r G) a') (fun _ _ => True)
        (a.withChild scope) := by
  have hw := h.opened.within
  have hsound := he _ _ _ hw (fun hd => (h.quiet hd).1) fun n _ => by
    rw [h.opened.names_eq]
    exact List.not_mem_nil
  refine ((Checking.walks site e _ _ hw.ready).and hsound).weaken fun r a' ⟨hmet, htyped⟩ => ?_
  exact h.laid (hmet.new_child h.within.ready) hmet rfl htyped

theorem Sound.branch (he : Sound ts site e) (h : Staged ts Γ scope names k G a)
    (hauto : TypeId.kind t ≠ .auto)
    (hname : name ∉ e.ownNames) (ht : ∀ l, G l → IsDeclared ts t) :
    Ensures (Checking.checkExpr site a.scopes.scopes.size e)
      (fun r a' => Staged ts Γ scope names k (Adds ts site.cls ((name, t) :: Γ) e r G) a')
        (fun _ _ => True)
      ((a.withChild scope).defining a.scopes.scopes.size name t) := by
  have hbranch : Staged ts ((name, t) :: Γ) _ ([] ++ [name]) k G _ :=
    h.opened.defining List.not_mem_nil ht
  have hsound := he _ _ _ hbranch.within (fun hd => (hbranch.quiet hd).1) fun n hn hmem => by
    rw [hbranch.names_eq] at hmem
    cases List.mem_singleton.1 hmem
    exact hname hn
  refine ((Checking.walks site e _ _ hbranch.within.ready).and hsound).weaken
    fun r a' ⟨hmet, htyped⟩ => ?_
  exact h.laid (hmet.branch hauto h.within.ready) hmet rfl htyped

open Checking Analyzing

theorem sound_ifThenElse (hts : PlainTable ts) (hc : Sound ts site c) (hx : Sound ts site x)
    (hy : Sound ts site y) : Sound ts site (.ifThenElse c x y) := by
  intro scope a Γ hw hΓ _
  rw [checkExpr]
  simp only [ensures_bind, ensures_enter, ensures_newChild, ensures_join, ensures_settle,
    implies_true, and_true]
  refine (hc.child (.start hw hΓ)).imp fun r1 a1 h1 => ?_
  refine ensures_expect.weaken fun _ a2 ⟨hr2, hbool⟩ => ?_
  refine (hx.child (h1.said hr2 hbool)).imp fun r3 a3 h3 => ?_
  refine (hy.child h3).imp fun r4 a4 h4 v hv r hjoin => h4.ends ?_
  rintro - _ ⟨_, t4, l4, rfl, ⟨_, t3, l3, rfl,
    ⟨⟨_, t1, l1, rfl, rfl, rfl, ht1, htype1⟩, _, ⟨⟩, hbool⟩, rfl, ht3, htype3⟩, rfl, ht4, htype4⟩
  cases hv
  obtain rfl := hts.eq_basic_of_conforms ht1 (by simp) (h1.within.types_eq ▸ hbool)
  obtain ⟨w, rfl, hleast⟩ := hts.leastAbove_of_join ht3 ht4 (h4.within.types_eq ▸ hjoin)
  exact ⟨w, rfl, hts.sub_declared (hleast.above _ (.head _)) ht3,
    .ifThenElse htype1 htype3 htype4 hleast⟩

theorem sound_whileLoop (hts : PlainTable ts) (hc : Sound ts site c) (hx : Sound ts site x) :
    Sound ts site (.whileLoop c x) := by
  intro scope a Γ hw hΓ _
  rw [checkExpr]
  simp only [ensures_bind, ensures_enter, ensures_newChild, ensures_settle]
  refine (hc.child (.start hw hΓ)).imp fun r1 a1 h1 => ?_
  refine ensures_expect.weaken fun _ a2 ⟨hr2, hbool⟩ => ?_
  refine (hx.child (h1.said hr2 hbool)).imp fun r3 a3 h3 => h3.ends ?_
  rintro - _ ⟨_, t3, l3, rfl, ⟨⟨_, t1, l1, rfl, rfl, rfl, ht1, htype1⟩, _, ⟨⟩, hbool⟩, rfl,
    ht3, htype3⟩
  obtain rfl := hts.eq_basic_of_conforms ht1 (by simp) (h1.within.types_eq ▸ hbool)
  exact ⟨_, rfl, hts.builtin_declared _ (by simp), .whileLoop htype1 htype3⟩

theorem sound_assign {name : Token} (hts : PlainTable ts) (hx : Sound ts site x) :
    Sound ts site (.assign name x) := by
  intro scope a Γ hw hΓ _
  rw [checkExpr]
  simp only [ensures_bind, ensures_enter, ensures_newChild, ensures_settle]
  refine (hx.child (.start hw hΓ)).imp fun r1 a1 h1 => ?_
  refine ensures_checkAssign.weaken fun _ a2 ⟨hr2, hassign⟩ => (h1.said hr2 hassign).ends ?_
  rintro hΓ _ ⟨⟨_, t1, l1, rfl, rfl, rfl, ht1, htype1⟩, v, _, hv, hself, ⟨⟩, hconf⟩
  have hlookup := h1.within.knows _ _ hv
  have hsub := hts.sub_of_conforms ht1 (hΓ.lookup hlookup) (h1.within.types_eq ▸ hconf)
  exact ⟨_, rfl, ht1, .assign hlookup hself htype1 hsub⟩

theorem sound_unary (hts : PlainTable ts) (hx : Sound ts site x) : Sound ts site (.unary op x) := by
  intro scope a Γ hw hΓ _
  rw [checkExpr]
  simp only [ensures_bind, ensures_enter, ensures_newChild]
  refine (hx.child (.start hw hΓ)).imp fun r1 a1 h1 => ?_
  cases op
  case isVoid =>
    refine h1.ends ?_
    rintro - _ ⟨_, t1, l1, rfl, rfl, rfl, ht1, htype1⟩
    exact ⟨_, rfl, hts.builtin_declared _ (by simp), .isVoid htype1⟩
  all_goals
    simp only [ensures_bind, ensures_settle]
    refine ensures_expect.weaken fun _ a2 h => (h1.said h.1 h.2).ends ?_
    rintro - _ ⟨⟨_, t1, l1, rfl, rfl, rfl, ht1, htype1⟩, _, ⟨⟩, hconf⟩
    obtain rfl := hts.eq_basic_of_conforms ht1 (by simp) (h1.within.types_eq ▸ hconf)
  case not => exact ⟨_, rfl, ht1, .not htype1⟩
  case complement => exact ⟨_, rfl, ht1, .complement htype1⟩

theorem PlainTable.comparable_of_agree (hts : PlainTable ts) (ht : IsDeclared ts t)
    (hu : IsDeclared ts u) (h : ∀ target ∈ [Builtin.int, Builtin.string, Builtin.bool],
      Agree ts t u target) : Comparable t u := by
  intro b hb
  obtain ⟨c, hc, hc'⟩ := h b hb
  have hb' := hts.builtin_declared b (.tail _ hb)
  have hl := Types.reaches_iff hts.plainParents ht.1 hb'.1 hc
  have hr := Types.reaches_iff hts.plainParents hu.1 hb'.1 hc'
  constructor
  · rintro rfl
    exact hts.eq_of_sub_basic hb (hr.1 (hl.2 .refl))
  · rintro rfl
    exact hts.eq_of_sub_basic hb (hl.1 (hr.2 .refl))

/-- When the checker finds that two operands fit, the rule for the operation applies. -/
theorem hasType_binary (hts : PlainTable ts) (ht : IsDeclared ts t) (hu : IsDeclared ts u)
    (hx : HasType ts asNamed cls Γ x t l) (hy : HasType ts asNamed cls Γ y u l')
    (hfit : OperandsFit ts (some t) (some u) op) :
    HasType ts asNamed cls Γ (.binary op x y) (typeOfOperation op) (t :: l ++ u :: l') := by
  have hint : BothInt ts (some t) (some u) → t = Builtin.int ∧ u = Builtin.int := by
    rintro ⟨_, _, ⟨⟩, ⟨⟩, hl, hr⟩
    exact ⟨hts.eq_basic_of_conforms ht (by simp) hl, hts.eq_basic_of_conforms hu (by simp) hr⟩
  cases op
  case equal =>
    have hauto : ∀ v, IsDeclared ts v → some v ≠ some TypeId.auto := by
      rintro v hv ⟨⟩
      exact absurd hv.1 (by decide)
    rcases hfit with hl | hr | ⟨_, _, ⟨⟩, ⟨⟩, hagree⟩
    · exact absurd hl (hauto t ht)
    · exact absurd hr (hauto u hu)
    · exact .equal hx hy (hts.comparable_of_agree ht hu hagree)
  case less | lessEqual =>
    obtain ⟨rfl, rfl⟩ := hint hfit
    exact .comparison (by simp) hx hy
  all_goals
    obtain ⟨rfl, rfl⟩ := hint hfit
    exact .arithmetic (by simp) hx hy

theorem sound_binary (hts : PlainTable ts) (hx : Sound ts site x) (hy : Sound ts site y) :
    Sound ts site (.binary op x y) := by
  intro scope a Γ hw hΓ _
  rw [checkExpr]
  simp only [ensures_bind, ensures_enter, ensures_newChild, ensures_settle]
  refine (hx.child (.start hw hΓ)).imp fun r1 a1 h1 => ?_
  refine (hy.child h1).imp fun r2 a2 h2 => ?_
  refine ensures_checkOperands.weaken fun _ a3 ⟨hr3, hfit⟩ => (h2.said hr3 hfit).ends ?_
  rintro - _ ⟨⟨_, t2, l2, rfl, ⟨_, t1, l1, rfl, rfl, rfl, ht1, htype1⟩, rfl, ht2, htype2⟩, hfit⟩
  have hop : IsDeclared ts (typeOfOperation op) :=
    hts.builtin_declared _ (by cases op <;> simp [typeOfOperation])
  exact ⟨_, rfl, hop, hasType_binary hts ht1 ht2 htype1 htype2 (h2.within.types_eq ▸ hfit)⟩

/-- After some types come those of some expressions, each one with those below it. -/
def AddsAll (ts : Types) (cls : TypeId) (Γ : Env) (es : List Expr) (rs : List (Option TypeId))
    (G : List TypeId → Prop) (l : List TypeId) : Prop :=
  ∃ l₁ types l₂, l = l₁ ++ l₂ ∧ G l₁ ∧ rs = types.map some ∧ (∀ t ∈ types, IsDeclared ts t) ∧
    HaveTypes ts asNamed cls Γ es types l₂

theorem sound_exprs (hes : ∀ e ∈ es, Sound ts site e) (h : Staged ts Γ scope names k G a) :
    Ensures (checkExprs site scope es)
      (fun rs a' => Staged ts Γ scope names k (AddsAll ts site.cls Γ es (rs.map (·.2)) G) a')
        (fun _ _ => True) a := by
  induction es generalizing a G with
  | nil =>
    rw [checkExprs]
    exact h.imp fun _ l hl => ⟨l, [], [], by simp, hl, rfl, fun t ht => (nomatch ht), .nil⟩
  | cons e es ih =>
    rw [checkExprs]
    simp only [ensures_bind, ensures_newChild, ensures_pure]
    obtain ⟨he, hes⟩ := List.forall_mem_cons.1 hes
    refine (he.child h).imp fun r1 a1 h1 => (ih hes h1).imp fun rs a2 h2 => h2.imp ?_
    rintro - _ ⟨_, types, l2, rfl, ⟨l, t, l1, rfl, hl, rfl, ht, htype⟩, hrs, htypes, hhave⟩
    exact ⟨l, t :: types, t :: l1 ++ l2, by simp, hl, by simp [hrs], List.forall_mem_cons.2 ⟨ht,
      htypes⟩, .cons htype hhave⟩

theorem sound_block (hes : ∀ e ∈ es, Sound ts site e) : Sound ts site (.block es) := by
  intro scope a Γ hw hΓ _
  rw [checkExpr]
  simp only [ensures_bind, ensures_enter]
  refine (sound_exprs hes (.start hw hΓ)).imp fun rs a1 h1 => ?_
  split
  · next e r hlast =>
    refine h1.ends ?_
    rintro - _ ⟨_, types, l, rfl, rfl, hrs, htypes, hhave⟩
    have hr : types.getLast?.map some = some r := by
      rw [← List.getLast?_map, ← hrs, List.getLast?_map, hlast]
      rfl
    obtain ⟨t, ht, rfl⟩ := Option.map_eq_some_iff.1 hr
    exact ⟨t, rfl, htypes t (List.mem_of_getLast? ht), .block hhave ht⟩
  · trivial

theorem forall₂_sub_of_argFits (hts : PlainTable ts) (hrs : rs.map (·.2) = types.map some)
    (htypes : ∀ t ∈ types, IsDeclared ts t) (hparams : ∀ u ∈ params, IsDeclared ts u)
    (h : List.Forall₂ (ArgFits ts) rs params) : List.Forall₂ ts.Sub types params := by
  induction h generalizing types with
  | nil =>
    cases types with
    | nil => exact .nil
    | cons => cases hrs
  | cons hfit _ ih =>
    cases types with
    | nil => cases hrs
    | cons t types =>
      rw [List.map_cons, List.map_cons, List.cons.injEq] at hrs
      obtain ⟨s, hs, hconf⟩ := hfit
      cases hs.symm.trans hrs.1
      rw [List.forall_mem_cons] at htypes hparams
      exact .cons (hts.sub_of_conforms htypes.1 hparams.1 hconf) (ih hrs.2 htypes.2 hparams.2)

/-- After some types come those of the arguments of a call, which fit the parameters of the
method. -/
def AddsCall (ts : Types) (cls target : TypeId) (name : String) (Γ : Env) (es : List Expr)
    (r : Option TypeId) (G : List TypeId → Prop) (l : List TypeId) : Prop :=
  ∃ l₁ m types l₂, l = l₁ ++ l₂ ∧ G l₁ ∧ r = some (ownType target m.returnType) ∧
    HasMethod ts target name m ∧
    HaveTypes ts asNamed cls Γ es types l₂ ∧ List.Forall₂ ts.Sub types m.paramTypes

theorem sound_dispatch {name : Token} (hts : PlainTable ts)
    (hes : ∀ e ∈ es, Sound ts site e) (h : Staged ts Γ scope names (i + 1) G a) :
    Ensures (do
        let (type, method) ← callee name target
        let argTypes ← checkExprs site scope es
        checkCall name method argTypes
        settle i (some type))
      (fun r a' => Staged ts Γ scope names (i + 1) (AddsCall ts site.cls target name.text Γ es r G)
        a') (fun _ _ => True) a := by
  simp only [ensures_bind, ensures_settle]
  refine ensures_callee.weaken fun x a1 ⟨hr1, hx⟩ => ?_
  -- a method that is not found is complained about
  have hfound : a1 = a → ∃ o m, ts.findMethod target name.text = .ok (o, m) ∧
      x = (ownType target m.returnType, some m) := by
    intro heq
    rcases hx with ⟨-, -, hne⟩ | ⟨o, m, hfind, rfl⟩
    · exact absurd heq hne
    · exact ⟨o, m, h.within.types_eq ▸ hfind, rfl⟩
  refine (sound_exprs hes (h.said hr1 hfound)).imp fun rs a2 h2 => ?_
  refine ensures_checkCall.weaken fun _ a3 ⟨hr3, hcall⟩ => ?_
  refine ((h2.said hr3 hcall).settled (Nat.lt_succ_self i) _).imp ?_
  rintro - _ ⟨⟨l1, types, l2, rfl, ⟨hl1, o, m, hfind, rfl⟩, hrs, htypes, hhave⟩, _, ⟨⟩, hargs⟩
  have hmethod := hasMethod_of_findMethod hfind
  obtain ⟨u, hu⟩ := hmethod.mem
  rw [h2.within.types_eq] at hargs
  exact ⟨l1, m, types, l2, rfl, hl1, rfl, hmethod, hhave, forall₂_sub_of_argFits hts hrs htypes
    (hts.param_declared hu) hargs⟩

theorem sound_selfCall {name : Token} (hts : PlainTable ts) (hcls : IsDeclared ts site.cls)
    (hes : ∀ e ∈ es, Sound ts site e) : Sound ts site (.selfCall name es) := by
  intro scope a Γ hw hΓ _
  rw [checkExpr, ensures_bind, ensures_enter]
  refine (sound_dispatch hts hes (.start hw hΓ)).imp fun r a1 h1 => h1.typed ?_
  rintro - _ ⟨_, m, types, l, rfl, rfl, rfl, hm, hhave, hsub⟩
  exact ⟨_, rfl, hts.ownType_declared hm hcls, .selfCall hm hhave hsub⟩

theorem sound_call {es : List Expr} {name : Token} (hts : PlainTable ts) (hx : Sound ts site x)
    (hes : ∀ e ∈ es, Sound ts site e) : Sound ts site (.call x name es none) := by
  intro scope a Γ hw hΓ _
  rw [checkExpr, ensures_bind, ensures_enter, ensures_bind, ensures_newChild, ensures_bind]
  refine (hx.child (.start hw hΓ)).imp fun r1 a1 h1 => ?_
  rw [ensures_bind, ensures_present]
  refine ⟨fun target htarget => ?_, fun _ => trivial⟩
  refine (sound_dispatch hts hes h1).imp fun r a2 h2 => h2.typed ?_
  rintro - _ ⟨_, m, types, l', rfl, ⟨_, t, l, rfl, rfl, rfl, ht, htype⟩, rfl, hm, hhave, hsub⟩
  cases htarget
  exact ⟨_, rfl, hts.ownType_declared hm ht, .call htype hm hhave hsub⟩

theorem sound_namedCall {es : List Expr} {name : Token} (hts : PlainTable ts) (hx : Sound ts site x)
    (hes : ∀ e ∈ es, Sound ts site e) (hself : type.text ≠ "SELF_TYPE")
    (hauto : type.text ≠ "AUTO_TYPE") : Sound ts site (.call x name es (some type)) := by
  intro scope a Γ hw hΓ _
  rw [checkExpr, ensures_bind, ensures_enter, ensures_bind, ensures_newChild, ensures_bind]
  refine (hx.child (.start hw hΓ)).imp fun r1 a1 h1 => ?_
  simp only [pure_bind]
  rw [ensures_bind]
  refine ensures_concreteOrWrong.imp fun target a2 ⟨hr2, hfind, _⟩ => ?_
  have h2 := h1.said hr2 hfind
  rw [ensures_bind]
  refine ensures_expect.weaken fun _ a3 ⟨hr3, hconf⟩ => ?_
  refine (sound_dispatch hts hes (h2.said hr3 hconf)).imp fun r a4 h4 => h4.typed ?_
  rintro - _ ⟨_, m, types, l', rfl, ⟨⟨⟨_, t, l, rfl, rfl, rfl, ht, htype⟩, hfind⟩, _, ⟨⟩, hconf⟩,
    rfl, hm, hhave, hsub⟩
  rw [h1.within.types_eq] at hfind
  rw [h2.within.types_eq] at hconf
  have htarget := hts.find_declared hfind hself hauto
  exact ⟨_, rfl, hts.ownType_declared hm htarget,
    .namedCall htype hfind (hts.sub_of_conforms ht htarget hconf) hm hhave hsub⟩

theorem sound_new (hts : PlainTable ts) (hself : type.text ≠ "SELF_TYPE")
    (hauto : type.text ≠ "AUTO_TYPE") : Sound ts site (.new type) := by
  intro scope a Γ hw hΓ _
  rw [checkExpr]
  simp only [ensures_bind, ensures_enter, ensures_settle]
  refine ensures_typeOrWrong.imp fun t a1 ⟨hr1, hfind, _⟩ =>
    ((Staged.start hw hΓ).said hr1 hfind).ends ?_
  rintro - _ ⟨rfl, hfind⟩
  rw [hw.entered.types_eq] at hfind
  exact ⟨t, rfl, hts.find_declared hfind hself hauto, .new hfind⟩

theorem sound_atom (hts : PlainTable ts) : Sound ts site (.atom kind token) := by
  intro scope a Γ hw hΓ _
  have h0 := Staged.start hw hΓ
  rw [checkExpr]
  simp only [ensures_bind, ensures_enter]
  cases kind
  case name =>
    simp only [ensures_bind, ensures_settle]
    refine ensures_typeOfName.weaken ?_
    rintro t a1 ⟨hr1, ht⟩
    refine (h0.said hr1 fun heq => ht.resolve_left fun h => h.1 heq).ends ?_
    rintro hΓ _ ⟨rfl, v, hv, rfl⟩
    have hlookup := hw.entered.knows _ _ hv
    exact ⟨_, rfl, hΓ.lookup hlookup, .name hlookup⟩
  all_goals
    refine h0.ends ?_
    rintro - _ rfl
  case integer => exact ⟨_, rfl, hts.builtin_declared _ (by simp), .integer⟩
  case string => exact ⟨_, rfl, hts.builtin_declared _ (by simp), .string⟩
  case bool => exact ⟨_, rfl, hts.builtin_declared _ (by simp), .bool⟩

/-- The types of some bindings may be used: they are not special, and the names are new. -/
structure Bindable (names : List String) (bs : List Binding) : Prop where
  types : ∀ b ∈ bs, b.type ≠ "SELF_TYPE" ∧ b.type ≠ "AUTO_TYPE"
  nodup : (bs.map Binding.name).Nodup
  new : ∀ n ∈ bs.map Binding.name, n ∉ names

theorem Bindable.tail (h : Bindable names (b :: bs)) : Bindable (names ++ [b.name]) bs := by
  have hnodup := h.nodup
  rw [List.map_cons, List.nodup_cons] at hnodup
  refine ⟨(List.forall_mem_cons.1 h.types).2, hnodup.2, fun n hn hmem => ?_⟩
  rcases List.mem_append.1 hmem with hmem | hmem
  · exact h.new n (.tail _ hn) hmem
  · cases List.mem_singleton.1 hmem
    exact hnodup.1 hn

theorem sound_bindings (hts : PlainTable ts)
    (hbs : ∀ b ∈ bs, ∀ e, b.value = some e → Sound ts site e)
    (h : Staged ts Γ scope names k G a) (hb : Bindable names bs) :
    Ensures (checkBindings site scope bs) (fun _ a' => ∃ Γ' names', Staged ts Γ' scope names' k
      (fun l => ∃ l₁ l₂, l = l₁ ++ l₂ ∧ G l₁ ∧ Binds ts asNamed site.cls Γ bs Γ' l₂) a')
        (fun _ _ => True) a := by
  induction bs generalizing a Γ names G with
  | nil =>
    rw [checkBindings]
    exact ⟨Γ, names, h.imp fun _ l hl => ⟨l, [], by simp, hl, .nil⟩⟩
  | cons b bs ih =>
    obtain ⟨name, type, value⟩ := b
    obtain ⟨hself, hauto⟩ := hb.types _ (.head _)
    rw [checkBindings]
    simp only [ensures_bind, ensures_newChild]
    refine ensures_typeOrWrong.imp ?_
    rintro u a1 ⟨hr1, hfind, _⟩
    have hdeclared : a1 = a → ts.find type.text = .ok u ∧ IsDeclared ts u ∧
        ownType site.cls u = u := fun heq => by
      have hfind := h.within.types_eq ▸ hfind heq
      have hu := hts.find_declared hfind hself hauto
      exact ⟨hfind, hu, hu.ownType_eq⟩
    have h1 := h.said hr1 hdeclared
    -- what is left when the value was checked: to define the name, and to go on
    have hrest : ∀ {G' a2}, Staged ts Γ scope names k G' a2 →
        (∀ l, G' l → IsDeclared ts (ownType site.cls u)) →
        Ensures (do
          define scope name.text (ownType site.cls u)
          checkBindings site scope bs)
            (fun _ a' => ∃ Γ' names', Staged ts Γ' scope names' k (fun l => ∃ l₁ l₂, l = l₁ ++ l₂ ∧
            G' l₁ ∧ Binds ts asNamed site.cls ((name.text, ownType site.cls u) :: Γ) bs Γ' l₂) a')
              (fun _ _ => True) a2 := by
      intro G' a2 h2 hu
      rw [ensures_bind, ensures_define]
      exact ih (List.forall_mem_cons.1 hbs).2 (h2.defining (hb.new _ (.head _)) hu) hb.tail
    cases value with
    | none =>
      refine (hrest h1.bare fun _ hl => by rw [hl.2.2.2]; exact hl.2.2.1).imp ?_
      rintro _ a' ⟨Γ', names', h'⟩
      refine ⟨Γ', names', h'.imp ?_⟩
      rintro - _ ⟨l₁, l₂, rfl, ⟨hl, hfind, -, hown⟩, hbinds⟩
      exact ⟨l₁, l₂, rfl, hl, .bare hfind (hown ▸ hbinds)⟩
    | some e =>
      simp only [ensures_bind]
      refine ((hbs _ (.head _) e rfl).child h1).imp fun r a2 h2 => ?_
      refine ensures_expect.weaken ?_
      rintro _ a3 ⟨hr3, hconf⟩
      rw [← ensures_bind]
      refine (hrest (h2.said hr3 hconf) ?_).imp ?_
      · rintro _ ⟨⟨_, _, _, _, hl, _⟩, _⟩
        rw [hl.2.2.2]
        exact hl.2.2.1
      rintro _ a' ⟨Γ', names', h'⟩
      refine ⟨Γ', names', h'.imp ?_⟩
      rintro - _ ⟨_, l₂, rfl, ⟨⟨l₁, t, l, rfl, ⟨hl, hfind, hu, hown⟩, rfl, ht, htype⟩, _, ⟨⟩,
        hconf⟩, hbinds⟩
      rw [hown] at hconf hbinds
      have hsub := hts.sub_of_conforms ht hu (h2.within.types_eq ▸ hconf)
      exact ⟨l₁, t :: l ++ l₂, by simp, hl, .value hfind htype hsub hbinds⟩

theorem sound_letIn (hts : PlainTable ts) (hbs : ∀ b ∈ bs, ∀ e, b.value = some e → Sound ts site e)
    (hx : Sound ts site x) (htypes : ∀ b ∈ bs, b.type ≠ "SELF_TYPE" ∧ b.type ≠ "AUTO_TYPE")
    (hnodup : (bs.map Binding.name).Nodup) : Sound ts site (.letIn bs x) := by
  intro scope a Γ hw hΓ hnew
  rw [checkExpr]
  simp only [ensures_bind, ensures_enter, ensures_newChild, ensures_settle]
  refine (sound_bindings hts hbs (.start hw hΓ) ⟨htypes, hnodup, hnew⟩).imp ?_
  rintro _ a1 ⟨Γ', names', h1⟩
  refine (hx.child h1).imp fun r a2 h2 => h2.ends ?_
  rintro - _ ⟨_, t, l', rfl, ⟨_, l, rfl, rfl, hbinds⟩, rfl, ht, htype⟩
  exact ⟨t, rfl, ht, .letIn hbinds htype⟩

/-- The join of the types of some branches: none without a branch. -/
def JoinSoFar (ts : Types) (types : List TypeId) (total : Option TypeId) : Prop :=
  types = [] ∧ total = none ∨ ∃ w, total = some w ∧ IsDeclared ts w ∧ ts.LeastAbove types w

theorem JoinSoFar.first (h : JoinSoFar ts types none) (ht : IsDeclared ts t) :
    JoinSoFar ts (types ++ [t]) (some t) := by
  rcases h with ⟨rfl, -⟩ | ⟨w, hw, -⟩
  · exact .inr ⟨t, rfl, ht, Types.leastAbove_singleton⟩
  · cases hw

theorem JoinSoFar.next (hts : PlainTable ts) (h : JoinSoFar ts types (some w))
    (ht : IsDeclared ts t) (hjoin : ts.join w (some t) = .ok r) :
    JoinSoFar ts (types ++ [t]) r := by
  rcases h with ⟨-, hw⟩ | ⟨v, hv, hv', hleast⟩
  · cases hw
  · cases hv
    obtain ⟨x, rfl, hx⟩ := hts.leastAbove_of_join hv' ht hjoin
    exact .inr ⟨x, rfl, hts.sub_declared (hx.above _ (.head _)) hv', hleast.snoc hx⟩

theorem JoinSoFar.all (hts : PlainTable ts) (h : JoinSoFar ts before total)
    (htypes : ∀ t ∈ types, IsDeclared ts t) (hjoin : JoinAll ts total (types.map some) r) :
    JoinSoFar ts (before ++ types) r := by
  induction types generalizing before total with
  | nil =>
    cases hjoin
    simpa using h
  | cons t types ih =>
    obtain ⟨ht, htypes⟩ := List.forall_mem_cons.1 htypes
    have hmore : before ++ t :: types = (before ++ [t]) ++ types := by simp
    rw [hmore]
    cases hjoin with
    | first hrest => exact ih (h.first ht) htypes hrest
    | next hu hrest => exact ih (h.next hts ht hu) htypes hrest

theorem sound_branches (hts : PlainTable ts) (hbs : ∀ b ∈ bs, Sound ts site b.body)
    (htypes : ∀ b ∈ bs, b.type ≠ "SELF_TYPE" ∧ b.type ≠ "AUTO_TYPE")
      (hnames : ∀ b ∈ bs, b.name ∉ b.body.ownNames)
    (total : Option TypeId) (h : Staged ts Γ scope names (i + 1) G a) :
    Ensures (checkBranches site scope i total bs)
      (fun r a' => Staged ts Γ scope names (i + 1) (fun l => ∃ l₁ types l₂,
      l = l₁ ++ l₂ ∧ G l₁ ∧ (∀ t ∈ types, IsDeclared ts t) ∧
        BranchTypes ts asNamed site.cls Γ bs types l₂ ∧
        JoinAll ts total (types.map some) r) a') (fun _ _ => True) a := by
  induction bs generalizing a total G with
  | nil =>
    rw [checkBranches]
    exact h.imp fun _ l hl => ⟨l, [], [], by simp, hl, fun _ h => (nomatch h), .nil, .nil⟩
  | cons b bs ih =>
    obtain ⟨name, type, body⟩ := b
    rw [checkBranches]
    simp only [ensures_bind, ensures_newChild, ensures_define]
    obtain ⟨hbody, hbs⟩ := List.forall_mem_cons.1 hbs
    obtain ⟨⟨hself, hauto'⟩, htypes⟩ := List.forall_mem_cons.1 htypes
    obtain ⟨hname, hnames⟩ := List.forall_mem_cons.1 hnames
    refine ensures_concreteOrWrong.imp ?_
    rintro u a1 ⟨hr1, hfind, _, _, hauto⟩
    have h1 := h.said hr1 fun heq => h.within.types_eq ▸ hfind heq
    refine (hbody.branch h1 hauto hname fun l hl => hts.find_declared hl.2 hself hauto').imp
      fun r a2 h2 => ?_
    -- the rest goes on with the join so far
    have hrest : ∀ total', (∀ rs out, JoinAll ts total' rs out → JoinAll ts total (r :: rs) out) →
        Ensures (checkBranches site scope i total' bs)
          (fun r a' => Staged ts Γ scope names (i + 1) (fun l => ∃ l₁ types l₂,
          l = l₁ ++ l₂ ∧ G l₁ ∧ (∀ t ∈ types, IsDeclared ts t) ∧ BranchTypes ts asNamed site.cls Γ
            (.mk name type body :: bs) types l₂ ∧
            JoinAll ts total (types.map some) r) a') (fun _ _ => True) (a2.settled i total') := by
      intro total' hjoin
      refine (ih hbs htypes hnames total' (h2.settled (Nat.lt_succ_self i) total')).imp
        fun r' a' h' => h'.imp ?_
      rintro - _ ⟨_, types, l₂, rfl, ⟨l₁, t, l, rfl, ⟨hl, hfind⟩, rfl, ht, htype⟩, hdeclared,
        hbranches, hjoined⟩
      exact ⟨l₁, t :: types, t :: l ++ l₂, by simp, hl, List.forall_mem_cons.2 ⟨ht,
        hdeclared⟩, .cons hfind htype hbranches,
        hjoin _ _ hjoined⟩
    cases total with
    | none =>
      simp only [ensures_bind, ensures_settle]
      exact hrest r fun _ _ => .first
    | some w =>
      simp only [ensures_bind, ensures_join, ensures_settle, implies_true, and_true]
      rintro _ ⟨⟩ r' hr'
      exact hrest r' fun _ _ => .next (h2.within.types_eq ▸ hr')

theorem sound_caseOf (hts : PlainTable ts) (hx : Sound ts site x)
    (hbs : ∀ b ∈ bs, Sound ts site b.body)
    (htypes : ∀ b ∈ bs, b.type ≠ "SELF_TYPE" ∧ b.type ≠ "AUTO_TYPE")
    (hnames : ∀ b ∈ bs, b.name ∉ b.body.ownNames) (hne : bs ≠ []) :
    Sound ts site (.caseOf x bs) := by
  intro scope a Γ hw hΓ _
  rw [checkExpr]
  simp only [ensures_bind, ensures_enter, ensures_newChild, ensures_settle]
  refine (hx.child (.start hw hΓ)).imp fun r1 a1 h1 => ?_
  refine (sound_branches hts hbs htypes hnames none (h1.settled (Nat.lt_succ_self _) none)).imp
    fun r a2 h2 => h2.typed ?_
  rintro - _ ⟨_, types, l', rfl, ⟨_, t, l, rfl, rfl, rfl, ht, htype⟩, hdeclared, hbranches, hjoin⟩
  rcases JoinSoFar.all hts (.inl ⟨rfl, rfl⟩) hdeclared hjoin with ⟨hnil, -⟩ | ⟨w, rfl, hw', hleast⟩
  · rw [List.nil_append] at hnil
    subst hnil
    cases hbranches
    exact absurd rfl hne
  · exact ⟨w, rfl, hw', .caseOf htype hbranches hleast⟩

/-- An expression names no special type, its blocks and cases are not empty, and no two of its names
are the same. -/
structure Tame (e : Expr) : Prop where
  types : ∀ x ∈ e.nodes, ∀ n ∈ x.typeNames, n ≠ "SELF_TYPE" ∧ n ≠ "AUTO_TYPE"
  filled : ∀ x ∈ e.nodes, x.isFilled = true
  distinct : (e.nodes.flatMap Expr.binders).Nodup

theorem Expr.ownNames_subset_binders {n : String} (h : n ∈ e.ownNames) :
    n ∈ e.nodes.flatMap Expr.binders := by
  refine List.mem_flatMap.2 ⟨e, e.mem_nodes_self, ?_⟩
  cases e <;> first | exact h | cases h

theorem Tame.part {part : Part} (h : Tame e) (hp : part ∈ e.parts) (hx : part.expr = some x) :
    Tame x := by
  have hsub : x.nodes.Sublist e.nodes := by
    rw [e.nodes_eq]
    exact .cons _ (nodes_sublist_of_mem hp hx)
  exact {
    types := fun y hy => h.types y (hsub.subset hy)
    filled := fun y hy => h.filled y (hsub.subset hy)
    distinct := (hsub.flatMap _).nodup h.distinct }

theorem Tame.not_mem_ownNames {part : Part} {n : String} (h : Tame e) (hn : n ∈ e.binders)
    (hp : part ∈ e.parts) (hx : part.expr = some x) : n ∉ x.ownNames := by
  have hdistinct := h.distinct
  rw [e.nodes_eq, List.flatMap_cons, List.nodup_append] at hdistinct
  intro hown
  exact hdistinct.2.2 n hn n (((nodes_sublist_of_mem hp hx).flatMap _).subset
    (x.ownNames_subset_binders hown)) rfl

/-- What the checker lets pass is typed by the rules, whatever the expression. -/
theorem sound (hts : PlainTable ts) (hcls : IsDeclared ts site.cls) (he : Tame e) :
    Sound ts site e := by
  induction e using Expr.induction_parts with
  | h e ih =>
    have hparts : ∀ part ∈ e.parts, ∀ x, part.expr = some x → Sound ts site x :=
      fun part hp x hx => ih part hp x hx (he.part hp hx)
    have hpart : ∀ x, { expr := some x } ∈ e.parts → Sound ts site x :=
      fun x hx => hparts _ hx x rfl
    have htypes := he.types e e.mem_nodes_self
    have hfilled := he.filled e e.mem_nodes_self
    cases e with
    | ifThenElse c x y =>
      simp only [Expr.parts, List.forall_mem_cons] at hparts
      exact sound_ifThenElse hts (hparts.1 c rfl) (hparts.2.1 x rfl) (hparts.2.2.1 y rfl)
    | whileLoop c x =>
      simp only [Expr.parts, List.forall_mem_cons] at hparts
      exact sound_whileLoop hts (hparts.1 c rfl) (hparts.2.1 x rfl)
    | block es => exact sound_block fun x hx => hpart x (List.mem_map.2 ⟨x, hx, rfl⟩)
    | letIn bs x =>
      refine sound_letIn hts (fun b hb y hy => ?_) (hpart x (by simp [Expr.parts]))
        (fun b hb => ?_) ?_
      · exact hparts _ (List.mem_append_left _ (List.mem_map.2 ⟨b, hb, rfl⟩)) y hy
      · exact htypes _ (List.mem_map.2 ⟨b, hb, rfl⟩)
      · have hdistinct := he.distinct
        rw [Expr.nodes_eq, List.flatMap_cons, List.nodup_append] at hdistinct
        exact hdistinct.1
    | caseOf x bs =>
      have hbranch : ∀ b ∈ bs, { names := [b.name], expr := some b.body } ∈
          (Expr.caseOf x bs).parts :=
        fun b hb => .tail _ (List.mem_map.2 ⟨b, hb, rfl⟩)
      refine sound_caseOf hts (hpart x (.head _)) (fun b hb => hparts _ (hbranch b hb) _ rfl)
        (fun b hb => ?_) (fun b hb => ?_) ?_
      · exact htypes _ (List.mem_map.2 ⟨b, hb, rfl⟩)
      · exact he.not_mem_ownNames (List.mem_map.2 ⟨b, hb, rfl⟩) (hbranch b hb) rfl
      · simpa [Expr.isFilled] using hfilled
    | assign name x => exact sound_assign hts (hpart x (.head _))
    | unary op x => exact sound_unary hts (hpart x (.head _))
    | binary op x y =>
      simp only [Expr.parts, List.forall_mem_cons] at hparts
      exact sound_binary hts (hparts.1 x rfl) (hparts.2.1 y rfl)
    | call x name es type =>
      have hes : ∀ y ∈ es, Sound ts site y :=
        fun y hy => hpart y (.tail _ (List.mem_map.2 ⟨y, hy, rfl⟩))
      cases type with
      | none => exact sound_call hts (hpart x (.head _)) hes
      | some type =>
        obtain ⟨hself, hauto⟩ := htypes _ (.head _)
        exact sound_namedCall hts (hpart x (.head _)) hes hself hauto
    | selfCall name es =>
      exact sound_selfCall hts hcls fun y hy => hpart y (List.mem_map.2 ⟨y, hy, rfl⟩)
    | new type =>
      obtain ⟨hself, hauto⟩ := htypes _ (.head _)
      exact sound_new hts hself hauto
    | atom kind token => exact sound_atom hts

end AutoCool.Cool
