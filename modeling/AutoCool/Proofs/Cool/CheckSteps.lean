import Mathlib.Data.List.Forall2
import AutoCool.Cool.Check
import AutoCool.Proofs.Cool.Ensures
import AutoCool.Proofs.Types.Cycle

/-!
# The single checks

Each check of the checker, apart from the walk over the expressions, only adds to what is said about
the program (`Reports`). For each one there is one lemma here, which says what the types are like
when it says nothing, and what cuts it short.
-/

namespace AutoCool.Cool

/-- Something may have been said about the program, and nothing else has changed. -/
def Reports (a a' : Analysis) : Prop := ∃ ds, a' = { a with diagnostics := a.diagnostics ++ ds }

variable {a a' a'' : Analysis}

theorem Reports.refl : Reports a a := ⟨#[], by simp⟩

theorem Reports.trans (h : Reports a a') (h' : Reports a' a'') : Reports a a'' := by
  obtain ⟨ds, rfl⟩ := h
  obtain ⟨ds', rfl⟩ := h'
  exact ⟨ds ++ ds', by simp⟩

theorem Reports.reported (d : Diagnostic) : Reports a (a.reported d) :=
  ⟨#[d], by simp [Analysis.reported]⟩

theorem Reports.size_le (h : Reports a a') : a.diagnostics.size ≤ a'.diagnostics.size := by
  obtain ⟨ds, rfl⟩ := h
  simp

theorem Reports.eq (h : Reports a a') (hsize : a'.diagnostics.size = a.diagnostics.size) :
    a' = a := by
  obtain ⟨ds, rfl⟩ := h
  simp_all

theorem Reports.left_eq (h : Reports a a') (h' : Reports a' a'') (he : a'' = a) : a' = a := by
  have := h.size_le
  have := h'.size_le
  rw [he] at this
  exact h.eq (by omega)

theorem reported_ne : a.reported d ≠ a := by
  intro h
  have := congrArg (fun a => a.diagnostics.size) h
  simp [Analysis.reported] at this

namespace Checking

open Analyzing

variable {place : Position} {source left right type : Option TypeId} {target t : TypeId}
  {site : Site} {scope : ScopeId}

theorem ensures_expect : Ensures (expect place source target)
      (fun _ a' => Reports a a' ∧ (a' = a → ∃ s, source = some s ∧
      a.types.conforms s target = .ok true))
    (fun f a' => a' = a ∧
      (source = none ∧ f = .absent ∨ ∃ s, source = some s ∧
        a.types.conforms s target = .error f)) a := by
  cases source with
  | none => simp [expect]
  | some s =>
    simp only [expect, conforms, ensures_bind, ensures_present, ensures_ask, Option.some.injEq,
      forall_eq',
      reduceCtorEq, false_implies, and_true]
    refine ⟨fun b hb => ?_, fun e he => by simp [he]⟩
    cases b with
    | true => simp [hb, Reports.refl]
    | false => simp [Reports.reported, reported_ne]

/-- Two types conform to the type of integers. -/
def BothInt (ts : Types) (left right : Option TypeId) : Prop :=
  ∃ l r, left = some l ∧ right = some r ∧ ts.conforms l Builtin.int = .ok true ∧
    ts.conforms r Builtin.int = .ok true

/-- What cuts a question about operands short: one of them has no type, or a chain has no end. -/
def OperandFailure (ts : Types) (left right : Option TypeId) (f : Failure) : Prop :=
  (left = none ∨ right = none) ∧ f = .absent ∨
    ∃ s target, (left = some s ∨ right = some s) ∧ ts.conforms s target = .error f

theorem ensures_bothInt : Ensures (bothInt left right)
    (fun b a' => a' = a ∧ (b = true → BothInt a.types left right))
    (fun f a' => a' = a ∧ OperandFailure a.types left right f) a := by
  cases left with
  | none => simp [bothInt, OperandFailure]
  | some l =>
    simp only [bothInt, conforms, ensures_bind, ensures_present, ensures_ask, Option.some.injEq,
      forall_eq',
      reduceCtorEq, false_implies, and_true]
    refine ⟨fun b hb => ?_, fun e he => ⟨trivial, .inr ⟨l, _, .inl rfl, he⟩⟩⟩
    cases b with
    | false => simp
    | true =>
      cases right with
      | none => simp [OperandFailure]
      | some r =>
        simp only [if_true, ensures_bind, ensures_present, ensures_ask, Option.some.injEq,
          forall_eq',
          reduceCtorEq, false_implies, and_true]
        exact ⟨fun b hb' => ⟨trivial, fun h => ⟨l, r, rfl, rfl, hb, h ▸ hb'⟩⟩,
          fun e he => ⟨trivial, .inr ⟨r, _, .inr rfl, he⟩⟩⟩

/-- Two types both conform to a third one or both do not. -/
def Agree (ts : Types) (l r target : TypeId) : Prop :=
  ∃ b, ts.conforms l target = .ok b ∧ ts.conforms r target = .ok b

theorem ensures_differ : Ensures (differ l r target)
    (fun b a' => a' = a ∧ (b = false → Agree a.types l r target))
    (fun f a' => a' = a ∧ ∃ s, (s = l ∨ s = r) ∧ a.types.conforms s target = .error f) a := by
  simp only [differ, conforms, ensures_bind, ensures_ask, ensures_pure]
  refine ⟨fun b hb => ⟨fun c hc => ⟨trivial, fun h => ⟨b, hb, ?_⟩⟩, fun e he =>
    ⟨trivial, r, .inr rfl, he⟩⟩,
    fun e he => ⟨trivial, l, .inl rfl, he⟩⟩
  simp only [bne_eq_false_iff_eq] at h
  exact h ▸ hc

/-- The types of two operands fit an operation. -/
def OperandsFit (ts : Types) (left right : Option TypeId) : BinaryOp → Prop
  | .equal => left = some TypeId.auto ∨ right = some TypeId.auto ∨
      ∃ l r, left = some l ∧ right = some r ∧
        ∀ target ∈ [Builtin.int, Builtin.string, Builtin.bool], Agree ts l r target
  | _ => BothInt ts left right

/-- The loop that asks about one type after the other until two types differ. -/
theorem ensures_differ_loop {targets : List TypeId} :
    Ensures (forIn targets wrong fun target wrong =>
        if wrong = true then pure (ForInStep.yield wrong)
        else do
          let wrong ← differ l r target
          pure (ForInStep.yield wrong))
      (fun b a' => a' = a ∧ (b = false → wrong = false ∧ ∀ target ∈ targets,
        Agree a.types l r target))
      (fun f a' => a' = a ∧ ∃ s target, (s = l ∨ s = r) ∧
        a.types.conforms s target = .error f) a := by
  induction targets generalizing wrong with
  | nil => simp
  | cons target targets ih =>
    rw [List.forIn_cons]
    cases wrong with
    | true =>
      simp only [if_true, pure_bind]
      exact ih.imp fun b a' ⟨ha, h⟩ => ⟨ha, fun hb => nomatch (h hb).1⟩
    | false =>
      simp only [Bool.false_eq_true, if_false, bind_assoc, pure_bind, ensures_bind]
      refine ensures_differ.mono (fun b a' ⟨ha, hb⟩ => ?_) fun f a' ⟨ha, s, hs⟩ => ⟨ha, s, _, hs⟩
      subst ha
      refine ih.imp fun c a' ⟨ha, h⟩ => ⟨ha, fun hc => ⟨trivial, ?_⟩⟩
      obtain ⟨hfalse, hrest⟩ := h hc
      exact List.forall_mem_cons.2 ⟨hb hfalse, hrest⟩

theorem ensures_checkOperands : Ensures (checkOperands place op left right)
    (fun _ a' => Reports a a' ∧ (a' = a → OperandsFit a.types left right op))
    (fun f a' => a' = a ∧ OperandFailure a.types left right f) a := by
  cases op
  case equal =>
    simp only [checkOperands]
    split
    · next hauto =>
      simp only [Bool.or_eq_true, beq_iff_eq] at hauto
      exact ⟨.refl, fun _ => hauto.imp_right .inl⟩
    · cases left with
      | none => simp [OperandFailure]
      | some l =>
        cases right with
        | none => simp [OperandFailure]
        | some r =>
          simp only [ensures_bind, ensures_present, Option.some.injEq, forall_eq', reduceCtorEq,
            false_implies, and_true]
          refine ensures_differ_loop.mono (fun wrong a' ⟨ha, h⟩ => ?_) ?_
          · subst ha
            cases wrong with
            | true => simp [Reports.reported, reported_ne]
            | false => exact ⟨.refl, fun _ => .inr (.inr ⟨l, r, rfl, rfl, (h rfl).2⟩)⟩
          · rintro f a' ⟨ha, s, target, hs, hf⟩
            exact ⟨ha, .inr ⟨s, target, by simpa [eq_comm] using hs, hf⟩⟩
  all_goals
    simp only [checkOperands, ensures_bind]
    refine ensures_bothInt.imp fun b a' ⟨ha, hb⟩ => ?_
    subst ha
    cases b with
    | true => exact ⟨.refl, fun _ => hb rfl⟩
    | false => cases left <;> cases right <;> simp [Reports.reported, reported_ne, OperandFailure]

variable {name : Token} {complaint : Types → TypeId → Complaint}

theorem find_error {ts : Types} {name : String} (h : ts.find name = .error f) :
    ∃ d, f = .declaration d := by
  unfold Types.find at h
  split at h <;> cases h
  exact ⟨_, rfl⟩

theorem ensures_typeOrWrong {E : Failure → Analysis → Prop} : Ensures (typeOrWrong name)
    (fun t a' => Reports a a' ∧ (a' = a → a.types.find name.text = .ok t) ∧
      (t = TypeId.error ∨ a.types.find name.text = .ok t)) E a := by
  simp only [typeOrWrong, ensures_bind, ensures_attempt, ensures_pure, ensures_report]
  refine ⟨fun t ht => ⟨.refl, fun _ => ht, .inr ht⟩, fun e _ =>
    ⟨.reported _, fun h => (reported_ne h).elim, .inl trivial⟩, fun f hf hne => ?_⟩
  obtain ⟨d, rfl⟩ := find_error hf
  exact absurd rfl (hne d)

theorem ensures_concreteOrWrong : Ensures (concreteOrWrong name complaint)
    (fun t a' => Reports a a' ∧ (a' = a → a.types.find name.text = .ok t) ∧
      (t = TypeId.error ∨ a.types.find name.text = .ok t) ∧ TypeId.kind t ≠ .self ∧
        TypeId.kind t ≠ .auto) E a := by
  simp only [concreteOrWrong, ensures_bind]
  refine ensures_typeOrWrong.imp fun t a' ⟨hr, hq, ht⟩ => ?_
  have hwrong : TypeId.kind TypeId.error ≠ .self ∧ TypeId.kind TypeId.error ≠ .auto := by decide
  split
  · simp only [ensures_bind, ensures_get, ensures_report, ensures_pure]
    exact ⟨hr.trans (.reported _), fun h => (reported_ne (hr.left_eq (.reported _) h ▸ h)).elim,
      .inl trivial, hwrong⟩
  · simp only [ensures_bind, ensures_get, ensures_report, ensures_pure]
    exact ⟨hr.trans (.reported _), fun h => (reported_ne (hr.left_eq (.reported _) h ▸ h)).elim,
      .inl trivial, hwrong⟩
  · next hself hauto => exact ⟨hr, hq, ht, hself, hauto⟩

theorem ensures_callee : Ensures (callee name target)
    (fun r a' => Reports a a' ∧
      (r.1 = TypeId.error ∧ r.2 = none ∧ a' ≠ a ∨ ∃ o m, a.types.findMethod target name.text =
        .ok (o, m) ∧
        r = (ownType target m.returnType, some m)))
      (fun f a' => a' = a ∧ a.types.findMethod target name.text = .error f ∧
      ∀ d, f ≠ .declaration d) a := by
  simp only [callee, ensures_bind, ensures_attempt, ensures_pure, ensures_report]
  exact ⟨fun ⟨o, m⟩ hm => ⟨.refl, .inr ⟨o, m, hm, rfl⟩⟩, fun e _ =>
    ⟨.reported _, .inl ⟨trivial, trivial, reported_ne⟩⟩,
    fun f hf hne => ⟨trivial, hf, hne⟩⟩

/-- The type of an argument conforms to that of its parameter. -/
def ArgFits (ts : Types) (arg : Expr × Option TypeId) (param : TypeId) : Prop :=
  ∃ s, arg.2 = some s ∧ ts.conforms s param = .ok true

/-- What cuts the check of arguments short: one has no type, or a chain has no end. -/
def ArgFailure (ts : Types) (args : List (Expr × Option TypeId)) (f : Failure) : Prop :=
  ∃ arg ∈ args, arg.2 = none ∧ f = .absent ∨ ∃ s target, arg.2 = some s ∧
    ts.conforms s target = .error f

theorem ensures_expectAll (hlen : args.length = params.length) :
    Ensures (expectAll args params)
    (fun _ a' => Reports a a' ∧ (a' = a → List.Forall₂ (ArgFits a.types) args params))
    (fun f a' => Reports a a' ∧ ArgFailure a.types args f) a := by
  induction args generalizing params a with
  | nil =>
    cases params with
    | nil => exact ⟨.refl, fun _ => .nil⟩
    | cons => cases hlen
  | cons arg args ih =>
    obtain ⟨e, t⟩ := arg
    cases params with
    | nil => cases hlen
    | cons p params =>
      simp only [expectAll, ensures_bind]
      refine ensures_expect.mono (fun _ a1 ⟨hr, hq⟩ => ?_) ?_
      · obtain ⟨ds, rfl⟩ := hr
        refine (ih (Nat.succ.inj hlen)).mono (fun _ a' ⟨hr', hq'⟩ => ?_) ?_
        · refine ⟨.trans ⟨ds, rfl⟩ hr', fun h => ?_⟩
          have heq := Reports.left_eq ⟨ds, rfl⟩ hr' h
          exact .cons (hq heq) (hq' (h.trans heq.symm))
        · rintro f a' ⟨hr', arg, harg, hf⟩
          exact ⟨.trans ⟨ds, rfl⟩ hr', arg, .tail _ harg, hf⟩
      · rintro f a' ⟨rfl, hf⟩
        refine ⟨.refl, (e, t), .head _, ?_⟩
        exact hf.imp_right fun ⟨s, hs, he⟩ => ⟨s, p, hs, he⟩

theorem ensures_checkCall :
    Ensures (checkCall name method args)
      (fun _ a' => Reports a a' ∧ (a' = a → ∃ m, method = some m ∧
        List.Forall₂ (ArgFits a.types) args m.paramTypes))
      (fun f a' => Reports a a' ∧ ArgFailure a.types args f) a := by
  cases method with
  | none => simp [checkCall, Reports.reported, reported_ne]
  | some m =>
    simp only [checkCall, beq_iff_eq]
    split
    · next hlen =>
        exact (ensures_expectAll hlen).imp fun _ a' ⟨hr, hq⟩ => ⟨hr, fun h => ⟨m, rfl, hq h⟩⟩
    · simp [Reports.reported, reported_ne]

theorem ensures_checkAssign : Ensures (checkAssign site scope name value type)
      (fun _ a' => Reports a a' ∧ (a' = a → ∃ v s, a.scopes.find scope name.text = some v ∧
      name.text ≠ "self" ∧
      type = some s ∧ a.types.conforms s (a.scopes.getVar v).type = .ok true))
    (fun f a' => a' = a ∧ (type = none ∧ f = .absent ∨
      (∃ s target, type = some s ∧ a.types.conforms s target = .error f) ∨
      a.scopes.find scope name.text = none ∧ site.method = none ∧ f = .absent)) a := by
  simp only [checkAssign, ensures_bind, ensures_resolve]
  cases hfind : a.scopes.find scope name.text with
  | none =>
    cases hmethod : site.method with
    | none => simp
    | some m => simp [Reports.reported, reported_ne]
  | some v =>
    dsimp only
    split
    · next hself => simp [Reports.reported, reported_ne]
    · next hself =>
      simp only [beq_iff_eq] at hself
      simp only [ensures_bind, ensures_variableOf]
      refine ensures_expect.mono ?_ ?_
      · rintro _ a' ⟨hr, hq⟩
        refine ⟨hr, fun h => ?_⟩
        obtain ⟨s, hs, hc⟩ := hq h
        exact ⟨v, s, rfl, hself, hs, hc⟩
      · rintro f a' ⟨rfl, hf | ⟨s, hs, he⟩⟩
        · exact ⟨rfl, .inl hf⟩
        · exact ⟨rfl, .inr (.inl ⟨s, _, hs, he⟩)⟩

theorem ensures_typeOfName : Ensures (typeOfName site scope name)
    (fun t a' => Reports a a' ∧ (a' ≠ a ∧ t = TypeId.error ∨
      ∃ v, a.scopes.find scope name.text = some v ∧ t = (a.scopes.getVar v).type))
      (fun f a' => a' = a ∧ a.scopes.find scope name.text = none ∧ site.method = none ∧
      f = .absent) a := by
  simp only [typeOfName, ensures_bind, ensures_resolve]
  cases hfind : a.scopes.find scope name.text with
  | none =>
    cases hmethod : site.method with
    | none => simp
    | some m =>
      simp only [ensures_bind, ensures_report, ensures_pure]; exact ⟨.reported _,
        .inl ⟨reported_ne, trivial⟩⟩
  | some v =>
    simp only [ensures_bind, ensures_variableOf, ensures_pure]; exact ⟨.refl, .inr ⟨v, rfl, rfl⟩⟩

/-- A method has the signature that it has above the class, if it is there. -/
def OverridesWell (ts : Types) (cls : TypeId) (name : String) (m : Method) : Prop :=
  ∀ parent o n, ts.parent? cls = some parent → ts.findMethod parent name = .ok (o, n) →
    sameTypes n.paramTypes m.paramTypes = true ∧ TypeId.same n.returnType m.returnType = true

theorem ensures_checkOverride : Ensures (checkOverride cls name m)
    (fun _ a' => Reports a a' ∧ (a' = a → OverridesWell a.types cls name.text m))
    (fun f a' => a' = a ∧ ∃ parent, a.types.parent? cls = some parent ∧
      a.types.findMethod parent name.text = .error f ∧ ∀ d, f ≠ .declaration d) a := by
  simp only [checkOverride, ensures_bind, ensures_get]
  cases hparent : a.types.parent? cls with
  | none => exact ⟨.refl, fun _ parent o n h => nomatch hparent.symm.trans h⟩
  | some parent =>
    simp only [ensures_bind, ensures_attempt]
    refine ⟨fun ⟨o, n⟩ hn => ?_, fun e he => ⟨.refl, fun _ parent' o n h hn => ?_⟩,
      fun f hf hne => ?_⟩
    · dsimp only
      split
      · next hsame =>
        refine ⟨.refl, fun _ parent' o' n' h hn' => ?_⟩
        cases hparent.symm.trans h
        cases hn.symm.trans hn'
        exact Bool.and_eq_true_iff.1 hsame
      · simp [Reports.reported, reported_ne]
    · cases hparent.symm.trans h
      cases he.symm.trans hn
    · exact ⟨trivial, parent, rfl, hf, hne⟩

/-- Only parents of types have changed. -/
structure Reparented (ts ts' : Types) : Prop where
  context_eq : ts'.context = ts.context
  get_eq : ∀ t, { ts'.get t with parent := none } = { ts.get t with parent := none }

theorem Reparented.refl : Reparented ts ts := ⟨rfl, fun _ => rfl⟩

theorem Reparented.trans (h : Reparented ts ts') (h' : Reparented ts' ts'') : Reparented ts ts'' :=
  ⟨h'.context_eq.trans h.context_eq, fun t => (h'.get_eq t).trans (h.get_eq t)⟩

theorem Reparented.symm (h : Reparented ts ts') : Reparented ts' ts :=
  ⟨h.context_eq.symm, fun t => (h.get_eq t).symm⟩

theorem Reparented.attributes_eq (h : Reparented ts ts') (t : TypeId) :
    (ts'.get t).attributes = (ts.get t).attributes := by
  have hattributes := congrArg TypeEntry.attributes (h.get_eq t)
  exact hattributes

theorem Reparented.methods_eq (h : Reparented ts ts') (t : TypeId) :
    (ts'.get t).methods = (ts.get t).methods := by
  have hmethods := congrArg TypeEntry.methods (h.get_eq t)
  exact hmethods

theorem Reparented.name_eq (h : Reparented ts ts') (t : TypeId) : ts'.name t = ts.name t := by
  have hname := congrArg TypeEntry.name (h.get_eq t)
  exact hname

theorem Reparented.find_eq (h : Reparented ts ts') (name : String) :
    ts'.find name = ts.find name := by
  rw [Types.find, Types.find, h.context_eq]

theorem Reparented.named_eq (h : Reparented ts ts') : ts'.named = ts.named := by
  funext name
  rw [Types.named, Types.named, h.context_eq]

theorem reparented_modify : Reparented ts (ts.modify t fun e => { e with parent }) := by
  refine ⟨rfl, fun u => ?_⟩
  simp only [Types.get, Types.modify, Array.getD_eq_getD_getElem?, Array.getElem?_modify]
  by_cases h : t = u
  · simp only [h, if_true]
    cases ts.entries[u]? <;> rfl
  · simp only [h, if_false]

theorem closesCycle_eq_ok (h : closesCycle ts t fuel (some p) = .ok b) : b = true ↔ ts.Sub p t := by
  induction fuel generalizing p with
  | zero => cases h
  | succ fuel ih =>
    simp only [closesCycle, beq_iff_eq] at h
    split at h
    · next heq =>
      cases h
      exact heq ▸ ⟨fun _ => .refl, fun _ => rfl⟩
    · next hne =>
      cases hp : ts.parent? p with
      | none =>
        rw [hp, closesCycle] at h
        cases h
        exact ⟨fun hb => (nomatch hb), fun hs => absurd ((Types.sub_iff_of_top hp).1 hs) hne⟩
      | some q =>
        rw [hp] at h
        rw [ih h, Types.sub_iff_of_parent hp hne]

/-- A walk that is cut short has not come to the end of a chain. -/
theorem closesCycle_eq_error (h : closesCycle ts t fuel (some p) = .error e) :
    e = .cyclic ∧ ∀ n, (ts.cut t).Depth p n → fuel ≤ n := by
  induction fuel generalizing p with
  | zero =>
    cases h
    exact ⟨rfl, fun n _ => Nat.zero_le n⟩
  | succ fuel ih =>
    simp only [closesCycle, beq_iff_eq] at h
    split at h
    · cases h
    · next hne =>
      have hcut : (ts.cut t).parent? p = ts.parent? p := by rw [Types.parent?_cut, if_neg hne]
      cases hp : ts.parent? p with
      | none =>
        rw [hp, closesCycle] at h
        cases h
      | some q =>
        rw [hp] at h hcut
        obtain ⟨he, hle⟩ := ih h
        refine ⟨he, fun n hd => ?_⟩
        cases hd with
        | top htop => cases htop.symm.trans hcut
        | under hq hd =>
          cases hq.symm.trans hcut
          exact Nat.succ_le_succ (hle _ hd)

/-- A class that stands above itself is put under `Object`, which is said once. -/
inductive Breaks (c : ClassDecl) (t : TypeId) (a : Analysis) : Analysis → Prop
  | broken : a.types.OnCycle t → Breaks c t a
      { a.reported ⟨position c.name, .cyclicHeritage (a.types.name t)⟩ with
      types := a.types.modify t fun e => { e with parent := some Builtin.object } }
  | kept : ¬ a.types.OnCycle t → Breaks c t a a

/-- The walk that finds out whether a class stands above itself ends, unless the types above the
class go round without the class. -/
theorem breakCycle_cases : Ensures (breakCycle c t) (fun _ a' => Breaks c t a a')
    (fun f a' => (¬ a.types.OnCycle t ∧ ∀ n, ¬ a.types.Depth t n) ∧ f = .cyclic ∧ a' = a) a := by
  simp only [breakCycle, ensures_bind, ensures_ask]
  constructor
  · intro b hb
    have hiff : b = true ↔ a.types.OnCycle t := by
      cases hp : a.types.parent? t with
      | none =>
        rw [hp, closesCycle] at hb
        cases hb
        exact ⟨fun h => (nomatch h), fun h => absurd h (Types.not_onCycle_of_top hp)⟩
      | some p =>
        rw [hp] at hb
        rw [closesCycle_eq_ok hb]
        exact ⟨.head' hp, fun h => Types.OnCycle.sub_symm h (.of_parent hp)⟩
    split
    · next h =>
      simp only [ensures_bind, ensures_nameOf, ensures_report, ensures_modify]
      exact .broken (hiff.1 h)
    · next h => exact .kept fun hc => h (hiff.2 hc)
  · intro e he
    cases hp : a.types.parent? t with
    | none =>
      rw [hp, closesCycle] at he
      cases he
    | some p =>
      rw [hp] at he
      obtain ⟨hf, hlong⟩ := closesCycle_eq_error he
      -- the walk is longer than any chain that ends at the class or at a type without a parent
      have hdepth (n : Nat) : ¬ (a.types.cut t).Depth p n := fun hd => by
        have hsize := hd.le_size
        rw [Types.size_cut] at hsize
        exact Nat.not_succ_le_self _ (Nat.le_trans (hlong n hd) hsize)
      refine ⟨⟨fun hc => ?_, fun n hd => ?_⟩, hf, trivial⟩
      · obtain ⟨n, hn⟩ := (hc.sub_symm (.of_parent hp)).exists_depth_cut
        exact hdepth n hn
      · cases hd with
        | top htop => cases htop.symm.trans hp
        | under hq hd =>
          cases hq.symm.trans hp
          obtain ⟨n, hn⟩ := hd.exists_depth_cut
          exact hdepth n hn

theorem Breaks.eq (h : Breaks c t a a') :
    (∃ ts' ds, Reparented a.types ts' ∧
      a' = { a with types := ts', diagnostics := a.diagnostics ++ ds }) ∧
      (a.types.Acyclic → a' = a) := by
  cases h with
  | broken hc =>
    refine ⟨⟨a.types.modify t fun e => { e with parent := some Builtin.object },
      #[⟨position c.name, .cyclicHeritage (a.types.name t)⟩], reparented_modify, by
        simp [Analysis.reported]⟩, fun ha => ?_⟩
    exact absurd hc (ha t)
  | kept => exact ⟨⟨a.types, #[], .refl, by simp⟩, fun _ => rfl⟩

theorem ensures_breakCycle (hE : ¬ a.types.Acyclic → E .cyclic a) :
    Ensures (breakCycle c t)
      (fun _ a' => (∃ ts' ds, Reparented a.types ts' ∧
        a' = { a with types := ts', diagnostics := a.diagnostics ++ ds }) ∧
        (a.types.Acyclic → a' = a)) E a := by
  refine breakCycle_cases.mono (fun _ a' h => h.eq) ?_
  rintro _ _ ⟨⟨-, hd⟩, rfl, rfl⟩
  refine hE fun ha => ?_
  obtain ⟨n, -, hn⟩ := ha.exists_depth t
  exact hd n hn

end Checking

end AutoCool.Cool
