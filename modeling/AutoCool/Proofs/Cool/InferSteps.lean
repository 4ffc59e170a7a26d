import Mathlib.Algebra.Order.BigOperators.Group.List
import Mathlib.Algebra.Order.Ring.Nat
import AutoCool.Cool.Inference
import AutoCool.Proofs.Cool.Ensures
import AutoCool.Proofs.Cool.Stuck
import AutoCool.Proofs.Types.Refines

/-!
# The steps of inference

A step of inference adds a bound to a variable, infers the type of a variable from its bounds, or
notes something. What any number of steps do is said by one relation (`Moved`): the scopes stay as
they are, known types stay known, the bounds of the variables that were out of reach stay empty, and
each type that was inferred leaves one less to infer (`Analysis.pending`).
-/

namespace AutoCool

/-- One if the type of a variable is still to be inferred. -/
def Variable.pending (x : Variable) : Nat := if x.inferred then 0 else 1

/-- How many methods of a type have a result whose type is still to be inferred. -/
def TypeEntry.pending (e : TypeEntry) : Nat := (e.methods.map (·.result.pending)).sum

def Types.pending (ts : Types) : Nat := (ts.entries.toList.map TypeEntry.pending).sum

namespace Cool

/-- How many types of variables and of results are still to be inferred. -/
def Analysis.pending (a : Analysis) : Nat :=
  (a.scopes.vars.toList.map Variable.pending).sum + a.types.pending

variable {a a' a'' : Analysis} {v : VarId} {V W : VarId → Prop}

theorem Variable.pending_le_one {x : Variable} : x.pending ≤ 1 := by
  unfold Variable.pending
  split <;> omega

theorem Analysis.pending_lt_walks : a.pending < a.walks := by
  have hvars : (a.scopes.vars.toList.map Variable.pending).sum ≤ a.scopes.vars.size := by
    have := List.sum_le_card_nsmul (a.scopes.vars.toList.map Variable.pending) 1 fun n hn => by
      obtain ⟨x, -, rfl⟩ := List.mem_map.1 hn
      exact Variable.pending_le_one
    simpa using this
  have hentries : a.types.pending ≤ (a.types.entries.toList.map (·.methods.length)).sum := by
    refine List.sum_le_sum fun e _ => ?_
    have := List.sum_le_card_nsmul (e.methods.map (·.result.pending)) 1 fun n hn => by
      obtain ⟨m, -, rfl⟩ := List.mem_map.1 hn
      exact Variable.pending_le_one
    simpa [TypeEntry.pending] using this
  have hsum : (a.types.entries.toList.map (·.methods.length)).foldr (· + ·) 0 =
    (a.types.entries.toList.map (·.methods.length)).sum := rfl
  rw [Analysis.pending, Analysis.walks, hsum]
  omega

theorem sum_modify {g : α → Nat} {l : List α} (hx : l[i]? = some x) :
    ((l.modify i f).map g).sum + g x = (l.map g).sum + g (f x) := by
  induction l generalizing i with
  | nil => cases hx
  | cons y l ih =>
    cases i with
    | zero =>
      cases hx
      simp only [List.modify_zero_cons, List.map_cons, List.sum_cons]
      omega
    | succ i =>
      have := ih hx
      simp only [List.modify_succ_cons, List.map_cons, List.sum_cons]
      omega

section

variable {ts : Types} {t : TypeId} {f : TypeEntry → TypeEntry}

theorem pending_modify_type (ht : t < ts.entries.size) :
    (ts.modify t f).pending + (ts.get t).pending = ts.pending + (f (ts.get t)).pending := by
  have hget : ts.entries.toList[t]? = some (ts.get t) := by simp [Types.get, Array.getD, ht]
  rw [Types.pending, Types.modify, Array.toList_modify]
  exact sum_modify hget

theorem pending_modify_le (h : (f (ts.get t)).pending ≤ (ts.get t).pending) :
    (ts.modify t f).pending ≤ ts.pending := by
  by_cases ht : t < ts.entries.size
  · have := pending_modify_type (f := f) ht
    omega
  · rw [Types.modify_of_not_lt ht]

theorem pending_modify_lt (h : (f (ts.get t)).pending < (ts.get t).pending) :
    (ts.modify t f).pending < ts.pending := by
  have ht : t < ts.entries.size := by
    refine Types.lt_size_of_ne_default fun hdefault => ?_
    rw [hdefault] at h
    exact absurd h (Nat.not_lt_zero _)
  have := pending_modify_type (f := f) ht
  omega

end

/-- What some steps of inference do, where bounds were added only to the variables `V`. -/
structure Moved (V : VarId → Prop) (a a' : Analysis) : Prop where
  types : a.types.Refines a'.types
  scopes_eq : a'.scopes.scopes = a.scopes.scopes
  size_vars : a'.scopes.vars.size = a.scopes.vars.size
  size_notes : a'.notes.size = a.notes.size
  diagnostics_eq : a'.diagnostics = a.diagnostics
  evolves : ∀ v, (a.scopes.getVar v).Evolves (a'.scopes.getVar v)
  untouched : ∀ v, ¬ V v → (a.scopes.getVar v).Unbounded → (a'.scopes.getVar v).Unbounded
  pending_le : a'.pending ≤ a.pending
  pending_lt : a'.changed = true → a.changed = true ∨ a'.pending < a.pending
  quiet : a'.changed = false → a.changed = false ∧ a'.types = a.types ∧ a'.findings = a.findings ∧
    ∀ v, (a'.scopes.getVar v).inferred = (a.scopes.getVar v).inferred

theorem Moved.refl : Moved V a a where
  types := .refl
  scopes_eq := rfl
  size_vars := rfl
  size_notes := rfl
  diagnostics_eq := rfl
  evolves _ := .refl
  untouched _ _ := id
  pending_le := Nat.le_refl _
  pending_lt := .inl
  quiet h := ⟨h, rfl, rfl, fun _ => rfl⟩

theorem Moved.trans (h : Moved V a a') (h' : Moved V a' a'') : Moved V a a'' where
  types := h.types.trans h'.types
  scopes_eq := h'.scopes_eq.trans h.scopes_eq
  size_vars := h'.size_vars.trans h.size_vars
  size_notes := h'.size_notes.trans h.size_notes
  diagnostics_eq := h'.diagnostics_eq.trans h.diagnostics_eq
  evolves v := (h.evolves v).trans (h'.evolves v)
  untouched v hv hu := h'.untouched v hv (h.untouched v hv hu)
  pending_le := Nat.le_trans h'.pending_le h.pending_le
  pending_lt hc := by
    have hle := h.pending_le
    have hle' := h'.pending_le
    rcases h'.pending_lt hc with hc' | hlt
    · exact (h.pending_lt hc').imp_right fun hlt => by omega
    · exact .inr (by omega)
  quiet hc := by
    obtain ⟨hc', htypes', hfindings', hvars'⟩ := h'.quiet hc
    obtain ⟨hc, htypes, hfindings, hvars⟩ := h.quiet hc'
    exact ⟨hc, htypes'.trans htypes, hfindings'.trans hfindings, fun v =>
      (hvars' v).trans (hvars v)⟩

theorem Moved.shrink (h : Moved V a a') (hV : ∀ v, V v → W v ∨ (a'.scopes.getVar v).Unbounded) :
    Moved W a a' := by
  refine { h with untouched := fun v hv hu => ?_ }
  by_cases hVv : V v
  · exact (hV v hVv).resolve_left hv
  · exact h.untouched v hVv hu

theorem Moved.mono (h : Moved V a a') (hV : ∀ v, V v → W v) : Moved W a a' :=
  h.shrink fun v hv => .inl (hV v hv)

theorem Moved.coherent (h : Moved V a a') (hc : a.scopes.Coherent) : a'.scopes.Coherent :=
  fun v hv =>
  (h.evolves v).coherent (hc v (h.size_vars ▸ hv))

theorem Moved.get_eq (h : Moved V a a') (s : Nat) : a'.scopes.get s = a.scopes.get s := by
  rw [ScopeTree.get, ScopeTree.get, h.scopes_eq]

theorem moved_notes (h : notes.size = a.notes.size) :
    Moved V a { a with notes, cursor } :=
  { Moved.refl (a := a) with size_notes := h }

theorem moved_entered (h : a.cursor < a.notes.size) : Moved V a (a.entered scope) :=
  moved_notes (by simp [h])

theorem moved_settled : Moved V a (a.settled i t) := moved_notes (by simp)

theorem pending_modify (changed : Bool) (hv : v < a.scopes.vars.size) :
    Analysis.pending { a with scopes := a.scopes.modify v f, changed } +
      (a.scopes.getVar v).pending =
      a.pending + (f (a.scopes.getVar v)).pending := by
  have hget : a.scopes.vars.toList[v]? = some (a.scopes.getVar v) := by
    simp [ScopeTree.getVar, Array.getD, hv]
  have := sum_modify (g := Variable.pending) (f := f) hget
  simp only [Analysis.pending, ScopeTree.modify, Array.toList_modify]
  omega

theorem moved_modify (hf : (a.scopes.getVar v).Evolves (f (a.scopes.getVar v)))
    (hV : V v ∨ ((a.scopes.getVar v).Unbounded → (f (a.scopes.getVar v)).Unbounded))
    (hinferred : (f (a.scopes.getVar v)).inferred = ((a.scopes.getVar v).inferred || known))
    (hknown : known = true → (a.scopes.getVar v).inferred = false ∧ v < a.scopes.vars.size) :
    Moved V a { a with scopes := a.scopes.modify v f, changed := a.changed || known } := by
  have hpending : Analysis.pending { a with scopes := a.scopes.modify v f, changed := a.changed ||
      known } +
      known.toNat ≤ a.pending := by
    by_cases hv : v < a.scopes.vars.size
    · have := pending_modify (f := f) (a.changed || known) hv
      cases known with
      | false =>
        have heq : (f (a.scopes.getVar v)).pending = (a.scopes.getVar v).pending := by
          rw [Variable.pending, Variable.pending, hinferred, Bool.or_false]
        simp only [Bool.toNat_false]
        omega
      | true =>
        have hx : (a.scopes.getVar v).pending = 1 := by simp [Variable.pending, (hknown rfl).1]
        have hy : (f (a.scopes.getVar v)).pending = 0 := by simp [Variable.pending, hinferred]
        simp only [Bool.toNat_true]
        omega
    · have hsame : a.scopes.modify v f = a.scopes := by
        rw [ScopeTree.modify]
        congr 1
        ext i hi hi'
        · simp
        · rw [Array.getElem_modify, if_neg]
          rintro rfl
          exact hv hi'
      have hfalse : known = false := by
        by_contra h
        exact hv (hknown (by simpa using h)).2
      rw [hsame, hfalse]
      exact Nat.le_refl _
  exact {
    types := .refl
    scopes_eq := rfl
    size_vars := ScopeTree.size_vars_modify
    size_notes := rfl
    diagnostics_eq := rfl
    evolves := ScopeTree.forall_modify (fun _ => .refl) hf
    untouched := fun u hu hx => by
      rw [ScopeTree.getVar_modify]
      split
      · next huv =>
        rw [huv.1] at hu hx ⊢
        exact hV.resolve_left hu hx
      · exact hx
    pending_le := by omega
    pending_lt := fun hc => by
      rcases (Bool.or_eq_true _ _).mp hc with hc | rfl
      · exact .inl hc
      · exact .inr hpending
    quiet := fun hc => by
      obtain ⟨hc, hk⟩ := Bool.or_eq_false_iff.1 hc
      refine ⟨hc, rfl, rfl,
        ScopeTree.forall_modify (R := fun x y => y.inferred = x.inferred) (fun _ => rfl) ?_⟩
      rw [hinferred, hk, Bool.or_false] }

theorem moved_bound (hf : (a.scopes.getVar v).Evolves (f (a.scopes.getVar v))) (hV : V v)
    (hinferred : (f (a.scopes.getVar v)).inferred = (a.scopes.getVar v).inferred) :
    Moved V a { a with scopes := a.scopes.modify v f } := by
  have h : Moved V a { a with scopes := a.scopes.modify v f, changed := a.changed || false } :=
    moved_modify hf (.inl hV) (by rw [hinferred, Bool.or_false]) (fun h => nomatch h)
  rwa [Bool.or_false] at h

theorem moved_addUpper (hV : V v) :
    Moved V a { a with scopes := a.scopes.modify v (·.addUpper t) } :=
  moved_bound Variable.evolves_addUpper hV Variable.addUpper_inferred

theorem moved_addLower (hV : V v) :
    Moved V a { a with scopes := a.scopes.modify v (·.addLower t) } :=
  moved_bound Variable.evolves_addLower hV Variable.addLower_inferred

/-! ## The operations of inference -/

theorem moved_found (h : a.changed = true) (ht : a.types.Refines types)
    (hpending : types.pending ≤ a.types.pending) : Moved V a { a with types, findings } :=
  { Moved.refl (a := a) with
    types := ht
    pending_le := Nat.add_le_add_left hpending _
    pending_lt := .inl
    quiet hc := nomatch h.symm.trans hc }

theorem moved_known (ht : a.types.Refines types) (hpending : types.pending < a.types.pending) :
    Moved V a { a with types, findings, changed := true } :=
  { Moved.refl (a := a) with
    types := ht
    pending_le := Nat.le_of_lt (Nat.add_lt_add_left hpending _)
    pending_lt _ := .inr (Nat.add_lt_add_left hpending _)
    quiet hc := nomatch hc }

namespace Inferring

open Analyzing

variable {α : Type} {E : Failure → Analysis → Prop} {scope i : Nat}

@[simp] theorem ensures_modifyVariable :
    Ensures (modifyVariable v f) Q E a = Q () { a with scopes := a.scopes.modify v f } := rfl

@[simp] theorem ensures_childAt : Ensures (childAt scope i) Q E a =
    ((∀ s, (a.scopes.get scope).children[i]? = some s → Q s a) ∧
      ((a.scopes.get scope).children[i]? = none → E .outOfRange a)) := by
  simp only [childAt, ensures_bind, ensures_get]
  cases (a.scopes.get scope).children[i]? <;> simp

@[simp] theorem ensures_childrenOf :
    Ensures (childrenOf scope) Q E a = Q (a.scopes.get scope).children a := rfl

@[simp] theorem ensures_localsOf :
    Ensures (localsOf scope) Q E a = Q ((a.scopes.get scope).locals.map (·.2)) a := rfl

@[simp] theorem ensures_typeSoFar :
    Ensures (typeSoFar i) Q E a = Q (a.typeAt i).join a := by
  simp only [typeSoFar, ensures_bind, ensures_get, ensures_pure, Analysis.typeAt]
  cases a.notes[i]? <;> simp

/-- What is left when the type of a variable was inferred. -/
def inferredTo (a : Analysis) (v : VarId) (known : Bool) (y : Variable) : Analysis :=
  { a with scopes := a.scopes.modify v fun _ => y, changed := a.changed || known }

theorem ensures_inferVariable : Ensures (inferVariable v)
      (fun known a' => ∃ y, a.types.infer (a.scopes.getVar v) = .ok (known, y) ∧
      a' = inferredTo a v known y) (fun f a' => a' = a ∧
      a.types.infer (a.scopes.getVar v) = .error f) a := by
  simp only [inferVariable, ensures_bind, ensures_variableOf, ensures_ask]
  refine ⟨fun x hx => ?_, fun f hf => ⟨trivial, hf⟩⟩
  obtain ⟨known, y⟩ := x
  simp only [ensures_modifyVariable]
  cases known with
  | false =>
    refine ⟨y, hx, ?_⟩
    rw [inferredTo, Bool.or_false]
  | true =>
    refine ⟨y, hx, ?_⟩
    rw [inferredTo, Bool.or_true]

/-- Without bounds no type becomes known, so one that became known belongs to a variable of the
tree. -/
theorem lt_size_of_known (h : a.types.infer (a.scopes.getVar v) = .ok (true, y)) :
    v < a.scopes.vars.size := by
  by_contra hv
  have hdefault : a.scopes.getVar v = default := by simp [ScopeTree.getVar, Array.getD, hv]
  rw [hdefault, Types.infer, Types.inferred_of_unbounded ⟨rfl, rfl⟩] at h
  cases h

theorem moved_inferredTo (h : a.types.infer (a.scopes.getVar v) = .ok (known, y)) :
    Moved V a (inferredTo a v known y) := by
  obtain ⟨hevolves, hinferred, hknown, hunbounded⟩ := Types.infer_eq_ok h
  refine moved_modify hevolves (.inr fun hx => ?_) hinferred fun hk => ?_
  · exact Types.unbounded_of_infer h hx
  · subst hk
    exact ⟨hknown rfl, lt_size_of_known h⟩

theorem ensures_typeOrWrong : Ensures (typeOrWrong name) (fun _ a' => a' = a) E a := by
  simp only [typeOrWrong, ensures_bind, ensures_attempt, ensures_pure, implies_true, true_and]
  intro f hf hne
  unfold Types.find at hf
  split at hf
  · cases hf
  · cases hf
    exact absurd rfl (hne _)

theorem ensures_dispatchType : Ensures (dispatchType type)
    (fun r a' => a' = a ∧ (r = none → type = none)) E a := by
  cases type with
  | none => exact ⟨rfl, fun _ => rfl⟩
  | some name =>
    simp only [dispatchType, ensures_bind]
    refine ensures_typeOrWrong.imp fun t a' h => ?_
    split <;> exact ⟨h, fun h => nomatch h⟩

theorem ensures_callee : Ensures (callee name target)
      (fun x a' => a' = a ∧ ∀ m, x.2 = some m → ∃ o, m ∈ (a.types.get o).methods)
      (fun _ _ => ¬ a.types.Acyclic) a := by
  simp only [callee, ensures_bind, ensures_attempt, ensures_pure]
  refine ⟨fun x hx => ⟨trivial, fun m hm => ?_⟩, fun _ _ => ⟨trivial, fun _ h => (nomatch h)⟩,
    fun f hf hne ha => ?_⟩
  · cases hm
    exact ⟨_, Types.mem_of_findMethod hx⟩
  · obtain ⟨d, rfl⟩ := ha.findMethod_error hf
    exact hne d rfl

theorem length_expectations (args : List Expr) (h : ∀ m, method = some m → m.WellFormed) :
    (expectations args method).length = args.length := by
  cases method with
  | none => simp [expectations]
  | some m =>
    rw [expectations]
    split
    · next hlen =>
      rw [List.length_map, (h m rfl).length_eq]
      exact (beq_iff_eq.1 hlen).symm
    · rw [List.length_map]

/-- The type of a variable was inferred, whether it became known or not. -/
structure Cleared (v : VarId) (known : Bool) (a a' : Analysis) : Prop where
  moved : Moved (fun _ => False) a a'
  types_eq : a'.types = a.types
  notes_eq : a'.notes = a.notes
  cursor_eq : a'.cursor = a.cursor
  unbounded : a.scopes.Coherent → (a'.scopes.getVar v).Unbounded
  unknown : known = true → (a.scopes.getVar v).inferred = false
  changed : known = true → a'.changed = true

theorem cleared_inferVariable : Ensures (inferVariable v) (fun known a' => Cleared v known a a')
    (fun f a' => a' = a ∧ a.types.infer (a.scopes.getVar v) = .error f) a := by
  refine ensures_inferVariable.imp fun known a' ⟨y, hy, heq⟩ => ?_
  subst heq
  obtain ⟨-, -, hknown, hunbounded⟩ := Types.infer_eq_ok hy
  refine ⟨moved_inferredTo hy, rfl, rfl, rfl, fun hc => ?_, hknown,
    fun hk => by simp [inferredTo, hk]⟩
  rw [inferredTo, ScopeTree.getVar_modify]
  split
  · next hv => exact hunbounded (hc v hv.2)
  · next hv =>
    have hdefault : a.scopes.getVar v = default := by
      have hge : ¬ v < a.scopes.vars.size := fun h => hv ⟨rfl, h⟩
      simp [ScopeTree.getVar, Array.getD, hge]
    rw [hdefault]
    exact ⟨rfl, rfl⟩

theorem Cleared.found (h : Cleared v known a a') (hk : known = true) :
    Cleared v known a { a' with findings } :=
  { h with moved := h.moved.trans (moved_found (h.changed hk) .refl (Nat.le_refl _)) }

theorem ensures_foundBinding (h : ∀ findings, Q () { a with findings }) :
    Ensures (foundBinding name v) Q E a := by
  simp only [foundBinding, ensures_bind, ensures_variableOf, ensures_nameOf, ensures_found]
  exact h _

/-! ## Blocks -/

theorem inferBlock_last {i : ScopeId} {x : Expr} :
    inferBlock cls expected [i].getLast? [i].dropLast [x] = inferExpr cls i expected x := by
  rw [List.getLast?_singleton, inferBlock]

theorem inferBlock_next {i : ScopeId} {is : List ScopeId} {x y : Expr} {es : List Expr}
    (h : is ≠ []) :
    inferBlock cls expected (i :: is).getLast? (i :: is).dropLast (x :: y :: es) =
      inferExpr cls i none x >>= fun _ => inferBlock cls expected is.getLast? is.dropLast
        (y :: es) := by
  obtain ⟨j, is, rfl⟩ := List.exists_cons_of_ne_nil h
  rw [List.getLast?_cons_cons, List.dropLast_cons_cons, inferBlock]
  simp

end Inferring

end Cool

end AutoCool
