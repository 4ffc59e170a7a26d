import AutoCool.Proofs.Cool.InferSteps

/-!
# Walks that go the way of an earlier one

Of what is noted about expressions a walk of inference reads one thing only: the type of the right
operand of a comparison, which it expects of the left one before it has come to the right one. So
two walks that start in states which differ in nothing but notes, and agree on these types, do the
same and make the same notes (`Mirrors`, `Echo`). Everything that does not meet an expression is
blind to notes (`Blind`).
-/

namespace AutoCool.Cool

variable {α β : Type} {m : Analyzing α} {f : α → Analyzing β} {a a' b b' c : Analysis}

/-! ## Two runs -/

/-- Where a computation ends with a value when it starts in `a`, it ends with the same value when it
starts in `b`. -/
def Mirrors (m : Analyzing α) (Q : α → Analysis → Analysis → Prop) (a b : Analysis) : Prop :=
  ∀ x a', m.run.run a = (.ok x, a') → ∃ b', m.run.run b = (.ok x, b') ∧ Q x a' b'

section

variable {Q Q' : α → Analysis → Analysis → Prop} {P : α → Analysis → Prop}
  {E : Failure → Analysis → Prop}

theorem Mirrors.imp (h : Mirrors m Q a b) (hQ : ∀ x a' b', Q x a' b' → Q' x a' b') :
    Mirrors m Q' a b := fun x a' hrun => by
  obtain ⟨b', hrun', hq⟩ := h x a' hrun
  exact ⟨b', hrun', hQ x a' b' hq⟩

theorem Mirrors.and (h : Mirrors m Q a b) (he : Ensures m P E a) :
    Mirrors m (fun x a' b' => Q x a' b' ∧ P x a') a b :=
  fun x a' hrun => by
    obtain ⟨b', hrun', hq⟩ := h x a' hrun
    exact ⟨b', hrun', hq, he.of_run hrun⟩

theorem Mirrors.congr (ha : m'.run.run a = m.run.run a) (hb : m'.run.run b = m.run.run b)
    (h : Mirrors m Q a b) :
    Mirrors m' Q a b := fun x a' hrun => by
  rw [hb]
  exact h x a' (ha.symm.trans hrun)

theorem mirrors_throw : Mirrors (throw e) Q a b := fun _ _ hrun => nomatch hrun

theorem Mirrors.bind {Q' : β → Analysis → Analysis → Prop} (h : Mirrors m Q a b)
    (hf : ∀ x a' b', Q x a' b' → Mirrors (f x) Q' a' b') : Mirrors (m >>= f) Q' a b := by
  intro y a'' hrun
  obtain ⟨x, a', hm, hy⟩ := run_bind_inv hrun
  obtain ⟨b', hm', hq⟩ := h x a' hm
  rw [run_bind_ok hm']
  exact hf x a' b' hq y a'' hy

end

/-- A computation that neither meets an expression nor looks at what is noted of one. -/
def Blind (m : Analyzing α) : Prop :=
  ∀ a notes cursor, m.run.run { a with notes, cursor } =
    ((m.run.run a).1, { (m.run.run a).2 with notes, cursor })

theorem blind_pure : Blind (pure x) := fun _ _ _ => rfl

theorem blind_throw : Blind (throw e : Analyzing α) := fun _ _ _ => rfl

theorem Blind.bind (hm : Blind m) (hf : ∀ x, Blind (f x)) : Blind (m >>= f) := by
  intro a notes cursor
  simp only [ExceptT.run_bind, StateT.run_bind]
  rw [hm a notes cursor]
  cases m.run.run a with
  | mk x a' =>
    cases x with
    | error e => rfl
    | ok x => exact hf x a' notes cursor

theorem blind_modify (hg : ∀ a notes cursor, g { a with notes, cursor } =
      { g a with notes, cursor }) :
    Blind (modify g) := fun a notes cursor => by
  change (Except.ok PUnit.unit, g { a with notes, cursor }) =
    (Except.ok PUnit.unit, { g a with notes, cursor })
  rw [hg]

theorem blind_ite {c : Prop} [Decidable c] (h : Blind m) (h' : Blind m') :
    Blind (if c then m else m') := by
  split
  · exact h
  · exact h'

theorem blind_get (hg : ∀ a notes cursor, g { a with notes, cursor } = g a)
    (h : ∀ a, Blind (g a)) : Blind (get >>= g) := fun a notes cursor => by
  change (g { a with notes, cursor }).run.run _ = (((g a).run.run a).1, _)
  rw [hg]
  exact h a a notes cursor

namespace Analyzing

theorem blind_present : Blind (present x) := by
  cases x with
  | none => exact blind_throw
  | some x => exact blind_pure

theorem blind_ask : Blind (ask g) := blind_get (fun _ _ _ => rfl) fun a => by
  cases g a.types with
  | ok x => exact blind_pure
  | error e => exact blind_throw

theorem blind_attempt : Blind (attempt g) := blind_get (fun _ _ _ => rfl) fun a => by
  split
  · exact blind_pure
  · exact blind_pure
  · exact blind_throw

theorem blind_join : Blind (join t u) := blind_present.bind fun _ => blind_ask

theorem blind_nameOf : Blind (nameOf t) := fun _ _ _ => rfl

theorem blind_found : Blind (found x) := blind_modify fun _ _ _ => rfl

theorem blind_resolve : Blind (resolve scope name) := fun _ _ _ => rfl

theorem blind_variableOf : Blind (variableOf v) := fun _ _ _ => rfl

end Analyzing

namespace Inferring

open Analyzing

variable {v : VarId} {scope i : Nat}

theorem blind_modifyVariable : Blind (modifyVariable v g) := blind_modify fun _ _ _ => rfl

theorem blind_inferVariable : Blind (inferVariable v) := by
  refine blind_variableOf.bind fun _ => blind_ask.bind fun _ => blind_modifyVariable.bind fun _ =>
    blind_ite ?_ blind_pure
  exact (blind_modify fun _ _ _ => rfl).bind fun _ => blind_pure

theorem blind_typeOrWrong : Blind (typeOrWrong name) := blind_attempt.bind fun x => by
  cases x <;> exact blind_pure

theorem blind_dispatchType : Blind (dispatchType type) := by
  cases type with
  | none => exact blind_pure
  | some name =>
    refine blind_typeOrWrong.bind fun t => ?_
    split <;> exact blind_pure

theorem blind_callee : Blind (callee name target) := blind_attempt.bind fun x => by
  cases x <;> exact blind_pure

theorem blind_foundBinding : Blind (foundBinding name v) :=
  blind_variableOf.bind fun _ => blind_nameOf.bind fun _ => blind_found

theorem blind_foundAttribute : Blind (foundAttribute cls owner name v) :=
  blind_variableOf.bind fun _ => (blind_modify fun _ _ _ => rfl).bind fun _ =>
    blind_nameOf.bind fun _ => blind_nameOf.bind fun _ => blind_found

theorem blind_inferResult {m : Method} : Blind (inferResult cls owner m r) := by
  refine (blind_modify fun _ _ _ => rfl).bind fun _ => blind_ask.bind fun _ =>
    (blind_modify fun _ _ _ => rfl).bind fun _ =>
    blind_ite ?_ blind_pure
  exact (blind_modify fun _ _ _ => rfl).bind fun _ => blind_nameOf.bind fun _ =>
    blind_nameOf.bind fun _ => blind_found

end Inferring

/-! ## States that differ in notes -/

theorem getElem?_entered (h : a.cursor < a.notes.size) (j : Nat) :
    (a.entered s).notes[j]? =
      if a.cursor = j then a.notes[j]?.map fun n => { n with scope := s } else a.notes[j]? := by
  have hnotes : (a.entered s).notes = a.notes.modify a.cursor fun n => { n with scope := s } :=
    if_pos h
  rw [hnotes, Array.getElem?_modify]

section

variable {i j s : Nat} {r : Option TypeId}

theorem scopeAt_entered (h : a.cursor < a.notes.size) :
    (a.entered s).scopeAt j = if a.cursor = j then some s else a.scopeAt j := by
  rw [Analysis.scopeAt, getElem?_entered h, Analysis.scopeAt]
  split
  · next heq =>
    subst heq
    rw [Array.getElem?_eq_getElem h]
    rfl
  · rfl

theorem typeAt_entered (h : a.cursor < a.notes.size) : (a.entered s).typeAt j = a.typeAt j := by
  rw [Analysis.typeAt, getElem?_entered h, Analysis.typeAt]
  split
  · cases a.notes[j]? <;> rfl
  · rfl

theorem scopeAt_settled : (a.settled i r).scopeAt j = a.scopeAt j := by
  rw [Analysis.scopeAt, Analysis.settled, Array.getElem?_modify, Analysis.scopeAt]
  split
  · rw [Option.map_map]
    rfl
  · rfl

theorem typeAt_settled : (a.settled i r).typeAt j = if i = j ∧
    j < a.notes.size then some r else a.typeAt j := by
  rw [Analysis.typeAt, Analysis.settled, Array.getElem?_modify, Analysis.typeAt]
  by_cases hij : i = j
  · by_cases hj : j < a.notes.size <;> simp [hij, hj]
  · simp [hij]

end

/-- Number `j` is that of the right operand of a comparison. Its type is looked up when the walk
meets the comparison. -/
def Foreseen (nodes : List Expr) (j : Nat) : Prop :=
  ∃ k x y, nodes[k]? = some (.binary .equal x y) ∧ j = k + 1 + x.size

/-- Two states differ in notes only, and agree on the types that are looked up. What is noted in the
second one is the same as in the first one, or has been there since the state `c`. -/
structure Echo (nodes : List Expr) (c a b : Analysis) : Prop where
  eq : b = { a with notes := b.notes }
  size_eq : b.notes.size = a.notes.size
  foreseen : ∀ j, Foreseen nodes j → b.typeAt j = a.typeAt j
  type_eq : ∀ j, b.typeAt j = a.typeAt j ∨ b.typeAt j = c.typeAt j
  scope_eq : ∀ j, b.scopeAt j = a.scopeAt j ∨ b.scopeAt j = c.scopeAt j

namespace Echo

variable {nodes : List Expr} {i s : Nat} {r : Option TypeId}

theorem refl : Echo nodes c a a := ⟨rfl, rfl, fun _ _ => rfl, fun _ => .inl rfl, fun _ => .inl rfl⟩

theorem cursor_eq (h : Echo nodes c a b) : b.cursor = a.cursor := by
  rw [h.eq]

theorem types_eq (h : Echo nodes c a b) : b.types = a.types := by
  rw [h.eq]

theorem scopes_eq (h : Echo nodes c a b) : b.scopes = a.scopes := by
  rw [h.eq]

theorem blind (h : Echo nodes c a b) (hm : Blind m) : Mirrors m (fun _ a' b' => Echo nodes c a' b' ∧
    a'.notes = a.notes ∧ a'.cursor = a.cursor) a b := by
  intro x a' hrun
  have hself := hm a a.notes a.cursor
  rw [hrun] at hself
  have hnotes : a'.notes = a.notes := congrArg (fun s => s.2.notes) hself
  have hcursor : a'.cursor = a.cursor := congrArg (fun s => s.2.cursor) hself
  have hother := hm a b.notes a.cursor
  rw [hrun] at hother
  have htype : ∀ j, a'.typeAt j = a.typeAt j :=
    fun j => by rw [Analysis.typeAt, hnotes, Analysis.typeAt]
  have hscope : ∀ j, a'.scopeAt j = a.scopeAt j :=
    fun j => by rw [Analysis.scopeAt, hnotes, Analysis.scopeAt]
  refine ⟨{ a' with notes := b.notes }, ?_, ⟨rfl, ?_, fun j => ?_, fun j => ?_, fun j => ?_⟩,
    hnotes, hcursor⟩
  · rw [h.eq]
    refine hother.trans ?_
    rw [← hcursor]
  · exact h.size_eq.trans (congrArg Array.size hnotes).symm
  · rw [htype]
    exact h.foreseen j
  · rw [htype]
    exact h.type_eq j
  · rw [hscope]
    exact h.scope_eq j

theorem entered (h : Echo nodes c a b) (hlt : a.cursor < a.notes.size) :
    Echo nodes c (a.entered s) (b.entered s) := by
  have hlt' : b.cursor < b.notes.size := by rwa [h.cursor_eq, h.size_eq]
  refine ⟨?_, ?_, fun j => ?_, fun j => ?_, fun j => ?_⟩
  · have heq := h.eq
    obtain ⟨types, scopes, notes, cursor, diagnostics, findings, changed⟩ := b
    cases heq
    rfl
  · simp [Analysis.entered, hlt, h.cursor_eq, h.size_eq]
  · rw [typeAt_entered hlt, typeAt_entered hlt']
    exact h.foreseen j
  · rw [typeAt_entered hlt, typeAt_entered hlt']
    exact h.type_eq j
  · rw [scopeAt_entered hlt, scopeAt_entered hlt', h.cursor_eq]
    split
    · exact .inl rfl
    · exact h.scope_eq j

theorem settled (h : Echo nodes c a b) : Echo nodes c (a.settled i r) (b.settled i r) := by
  refine ⟨?_, ?_, fun j hj => ?_, fun j => ?_, fun j => ?_⟩
  · have heq := h.eq
    obtain ⟨types, scopes, notes, cursor, diagnostics, findings, changed⟩ := b
    cases heq
    rfl
  · simp [Analysis.settled, h.size_eq]
  · rw [typeAt_settled, typeAt_settled, h.size_eq, h.foreseen j hj]
  · rw [typeAt_settled, typeAt_settled, h.size_eq]
    split
    · exact .inl rfl
    · exact h.type_eq j
  · rw [scopeAt_settled, scopeAt_settled]
    exact h.scope_eq j

theorem notes_eq (h : Echo nodes a a b) : b = a := by
  have hnotes : b.notes = a.notes := by
    refine Array.ext_getElem? fun j => ?_
    have htype := (h.type_eq j).elim id id
    have hscope := (h.scope_eq j).elim id id
    rw [Analysis.typeAt, Analysis.typeAt] at htype
    rw [Analysis.scopeAt, Analysis.scopeAt] at hscope
    cases hb : b.notes[j]? with
    | none =>
      rw [hb, Option.map_none, eq_comm, Option.map_eq_none_iff] at hscope
      exact hscope.symm
    | some n =>
      rw [hb, Option.map_some, eq_comm, Option.map_eq_some_iff] at hscope
      obtain ⟨n', hn', hs⟩ := hscope
      rw [hb, hn'] at htype
      obtain ⟨s, t⟩ := n
      obtain ⟨s', t'⟩ := n'
      cases hs
      cases htype
      exact hn'.symm
  rw [h.eq, hnotes]

end Echo

end AutoCool.Cool
