import AutoCool.Proofs.Cool.Aligned
import AutoCool.Proofs.Cool.CheckCount

/-!
# The end of inference

What is to be inferred are the types of variables and of results of methods (`Slot`). Each step of
inference that makes one known says so once (`Step.told`), so in the end exactly those that became
known were told (`Steps.told`). A walk that says it changed something made at least one type known.
So the walks end after at most as many of them as there are types to be inferred (`inference_ends`).
-/

namespace AutoCool.Cool

/-- Something whose type may be left to be inferred: a variable of some scope or the result of a
method. -/
inductive Slot
  | var (v : VarId)
  | result (t : TypeId) (method : String)
deriving DecidableEq

/-- The type of what may be inferred. -/
def Analysis.typeOf (a : Analysis) : Slot → Option TypeId
  | .var v => some (a.scopes.getVar v).type
  | .result t method => a.types.cell (.result t method)

/-- What is said about the type of a variable or a result. For a variable of a `let` the place is
that of some binding of the `let`. -/
inductive Tells (p : Program) (a : Analysis) : Slot → Finding → Prop
  | binding {v s place} : Inner a.scopes s → v ∈ (a.scopes.get s).locals.map (·.2) →
      Tells p a (.var v) (.binding place (a.scopes.getVar v).name
        (a.types.name (a.scopes.getVar v).type))
  | attribute {v cls name} : Home p a.scopes (.attribute cls name) v →
      Tells p a (.var v) (.attribute (a.types.name cls) name
        (a.types.name (a.scopes.getVar v).type))
  | param {v cls method i} : Home p a.scopes (.param cls method i) v →
      Tells p a (.var v) (.param method (a.types.name cls) (a.scopes.getVar v).name
        (a.types.name (a.scopes.getVar v).type))
  | result {cls method u} : a.types.cell (.result cls method) = some u →
      Tells p a (.result cls method) (.result method (a.types.name cls) (a.types.name u))

variable {p : Program} {ts : Types} {a a' a'' b : Analysis} {x : Slot} {f : Finding} {k fuel : Nat}

theorem Keeps.name_eq (h : Keeps a a') (t : TypeId) : a'.types.name t = a.types.name t := by
  have hname := congrArg Prod.fst (h.outline_eq t)
  exact hname

theorem Keeps.typeOf (h : Keeps a a') (x : Slot) :
    Option.Rel Settles (a.typeOf x) (a'.typeOf x) := by
  cases x with
  | var v => exact .some (h.vars v)
  | result t method => exact h.cells (.result t method)

theorem Keeps.typeOf_auto (h : Keeps a a') (hx : a'.typeOf x = some TypeId.auto) :
    a.typeOf x = some TypeId.auto := by
  have hrel := h.typeOf x
  rw [hx] at hrel
  generalize a.typeOf x = o at hrel
  cases hrel with
  | some hs =>
    rcases hs with heq | ⟨-, hne, -⟩
    · rw [← heq]
    · exact absurd rfl hne

theorem Tells.keeps (h : Tells p a x f) (hk : Keeps a a') (hx : a.typeOf x ≠ some TypeId.auto) :
    Tells p a' x f := by
  have hvar : ∀ v, a.typeOf (.var v) ≠ some TypeId.auto →
      (a.scopes.getVar v).type = (a'.scopes.getVar v).type ∧
      (a.scopes.getVar v).name = (a'.scopes.getVar v).name := fun v hv =>
    ⟨((hk.vars v).eq_of_ne fun h => hv (congrArg some h)).symm, (hk.evolves v).name_eq.symm⟩
  match h with
  | .binding hs hmem =>
    obtain ⟨htype, hname⟩ := hvar _ hx
    rw [htype, hname, ← hk.name_eq]
    refine .binding (hs.congr hk.get_eq) ?_
    rwa [hk.get_eq]
  | .attribute hhome =>
    obtain ⟨htype, hname⟩ := hvar _ hx
    rw [htype, ← hk.name_eq, ← hk.name_eq]
    exact .attribute (hhome.congr hk.get_eq)
  | .param hhome =>
    obtain ⟨htype, hname⟩ := hvar _ hx
    rw [htype, hname, ← hk.name_eq, ← hk.name_eq]
    exact .param (hhome.congr hk.get_eq)
  | .result hcell =>
    rw [← hk.name_eq, ← hk.name_eq]
    exact .result (hk.cell_eq hcell fun h => hx (hcell.trans (congrArg some h)))

open Inferring

variable {v : VarId} {y : Variable} {types : Types}

theorem Learned.frame (h : Learned p a v y types f) : (∀ t, types.name t = a.types.name t) ∧
    ∀ t method, types.cell (.result t method) = a.types.cell (.result t method) := by
  match h with
  | .binding .. => exact ⟨fun _ => rfl, fun _ _ => rfl⟩
  | .attribute .. =>
    exact ⟨fun _ => Types.name_modifyAttribute, fun _ _ => Types.cell_modifyAttribute⟩
  | .param .. => exact ⟨fun _ => Types.name_modifyMethod, fun _ _ => Types.cell_modifyParam⟩

theorem Learned.tells (h : Learned p a v y types f) (hvar : a'.scopes.getVar v = y)
    (hget : ∀ s, a'.scopes.get s = a.scopes.get s) (hname : ∀ t, a'.types.name t = a.types.name t) :
    Tells p a' (.var v) f := by
  subst hvar
  match h with
  | .binding hs hmem =>
    rw [← hname]
    refine .binding (hs.congr hget) ?_
    rwa [hget]
  | .attribute hhome =>
    rw [← hname, ← hname]
    exact .attribute (hhome.congr hget)
  | .param hhome =>
    rw [← hname, ← hname]
    exact .param (hhome.congr hget)

theorem typeOf_eq (htypes : a'.types = a.types)
    (hvars : ∀ v, (a'.scopes.getVar v).type = (a.scopes.getVar v).type) (x : Slot) :
    a'.typeOf x = a.typeOf x := by
  cases x with
  | var v => exact congrArg some (hvars v)
  | result t method => rw [Analysis.typeOf, Analysis.typeOf, htypes]

/-- One type was made known and told, or all types were left and nothing was told. -/
def Told (p : Program) (a a' : Analysis) : Prop :=
  a'.findings = a.findings ∧ (∀ x, a'.typeOf x = a.typeOf x) ∨
    ∃ x f, a'.findings = a.findings.push f ∧ a.typeOf x = some TypeId.auto ∧
      a'.typeOf x ≠ some TypeId.auto ∧ (∀ y, y ≠ x → a'.typeOf y = a.typeOf y) ∧ Tells p a' x f

theorem Infers.told (ha : Aligned p a) (h : Infers p a a') : Told p a a' := by
  cases h with
  | forget hy => exact .inl ⟨rfl, typeOf_eq rfl (type_inferredTo ha.coherent hy)⟩
  | @learn v y types f hy hl =>
    have hv : v < a.scopes.vars.size := lt_size_of_known hy
    have hvar : (inferredTo a v true y).scopes.getVar v = y := getVar_inferredTo hy
    obtain ⟨hne, -⟩ := Types.infer_eq_known hy
    obtain ⟨hname, hresult⟩ := hl.frame
    refine .inr ⟨.var v, f, rfl, ?_, ?_, fun z hz => ?_, hl.tells hvar (fun _ => rfl) hname⟩
    · rw [Analysis.typeOf, Types.type_of_infer_true (ha.coherent v hv) hy]
    · rw [Analysis.typeOf, hvar]
      exact fun h => hne (Option.some.inj h)
    · cases z with
      | var w =>
        rw [Analysis.typeOf, Analysis.typeOf, inferredTo, ScopeTree.getVar_modify, if_neg]
        rintro ⟨rfl, -⟩
        exact hz rfl
      | result t method => exact hresult t method
  | @result cls m r y hm hy =>
    have hwf := ha.wellFormed cls m (List.mem_of_find?_eq_some hm)
    obtain ⟨hne, -⟩ := Types.infer_eq_known hy
    have hcoherent := (Variable.evolves_addLower (t := r)).coherent hwf.coherent
    have hauto : a.types.cell (.result cls m.name) = some TypeId.auto := by
      rw [Types.cell, hm, Option.map_some, ← hwf.type_eq, ← Variable.addLower_type m.result r,
        Types.type_of_infer_true hcoherent hy]
    have hcell : (a.types.modifyMethod cls m.name fun m =>
        { m with result := y, returnType := y.type }).cell (.result cls m.name) =
        some y.type := by
      rw [Types.cell_modifyResult, if_pos rfl, hauto]
      rfl
    refine .inr ⟨.result cls m.name, _, rfl, hauto, ?_, fun z hz => ?_, ?_⟩
    · rw [Analysis.typeOf, hcell]
      exact fun h => hne (Option.some.inj h)
    · cases z with
      | var w => rfl
      | result t method =>
        rw [Analysis.typeOf, Analysis.typeOf, Types.cell_modifyResult, if_neg]
        rintro ⟨⟩
        exact hz rfl
    · have htells := Tells.result (p := p) (a := { a with
        types := a.types.modifyMethod cls m.name fun m =>
          { m with result := y, returnType := y.type }
        findings := a.findings.push (.result m.name (a.types.name cls) (a.types.name y.type))
        changed := true }) hcell
      simpa only [Types.name_modifyMethod] using htells

theorem Step.told (ha : Aligned p a) (h : Step p a a') : Told p a a' := by
  cases h with
  | restart => exact .inl ⟨rfl, fun _ => rfl⟩
  | note => exact .inl ⟨rfl, fun _ => rfl⟩
  | upper => exact .inl ⟨rfl, typeOf_eq rfl (type_modify fun x => x.addUpper_type _)⟩
  | lower => exact .inl ⟨rfl, typeOf_eq rfl (type_modify fun x => x.addLower_type _)⟩
  | infers h => exact h.told ha

/-- Exactly those types that became known were told, each one once. -/
theorem Steps.told (hp : DistinctMethods p) (ha : Aligned p a) (h : Steps p a a') :
    ∃ told fs, a'.findings.toList = a.findings.toList ++ fs ∧ told.Nodup ∧
      (∀ x, x ∈ told ↔ a.typeOf x = some TypeId.auto ∧ a'.typeOf x ≠ some TypeId.auto) ∧
        List.Forall₂ (Tells p a') told fs := by
  induction h with
  | refl => exact ⟨[], [], by simp, .nil, fun x => ⟨nofun, fun h => absurd h.1 h.2⟩, .nil⟩
  | @tail a1 a2 hsteps hstep ih =>
    obtain ⟨told, fs, hfs, hnodup, hmem, htells⟩ := ih
    obtain ⟨hk, ha1⟩ := Steps.keeps hp ha hsteps
    have hk1 := (hstep.keeps hp ha1).1
    have htells1 : List.Forall₂ (Tells p a2) told fs := by
      refine ((List.forall₂_and_left _ _).2 ⟨fun x hx => ((hmem x).1 hx).2, htells⟩).imp
        fun x f ⟨hx, h⟩ => h.keeps hk1 hx
    rcases hstep.told ha1 with ⟨hfindings, hsame⟩ | ⟨x, f, hfindings, hauto, hknown, hrest, hx⟩
    · refine ⟨told, fs, by rw [hfindings, hfs], hnodup, fun x => ?_, htells1⟩
      rw [hsame x]
      exact hmem x
    · have hnew : x ∉ told := fun h => ((hmem x).1 h).2 hauto
      refine ⟨told ++ [x], fs ++ [f], by simp [hfindings,
        hfs], ?_, fun z => ?_, List.rel_append htells1 (.cons hx .nil)⟩
      · refine List.nodup_append.2 ⟨hnodup, by simp, fun z hz w hw => ?_⟩
        cases List.mem_singleton.1 hw
        rintro rfl
        exact hnew hz
      · rw [List.mem_append, List.mem_singleton, hmem z]
        by_cases hz : z = x
        · subst hz
          exact ⟨fun _ => ⟨hk.typeOf_auto hauto, hknown⟩, fun _ => .inr rfl⟩
        · rw [hrest z hz, or_iff_left hz]

/-! ## What the checker leaves to be inferred -/

theorem vars_eq (t : ScopeTree) : t.vars.toList = (List.range t.vars.size).map t.getVar := by
  refine List.ext_getElem (by simp) fun i hi hi' => ?_
  rw [Array.length_toList] at hi
  simp [ScopeTree.getVar, Array.getElem?_eq_getElem hi]

theorem length_untyped (t : ScopeTree) :
    ((List.range t.vars.size).filter fun v => (t.getVar v).type == TypeId.auto).length =
      untyped t := by
  rw [untyped, vars_eq, List.countP_map, List.countP_eq_length_filter]
  rfl

theorem lt_size_of_auto {t : ScopeTree} (h : (t.getVar v).type = TypeId.auto) :
    v < t.vars.size := by
  by_contra hv
  rw [ScopeTree.getVar, Array.getD_eq_getD_getElem?,
    Array.getElem?_eq_none (Nat.le_of_not_lt hv)] at h
  cases h

/-- The methods of a type whose results are left to be inferred. -/
def openResults (ts : Types) (t : TypeId) : List Slot :=
  ((ts.get t).methods.filter (·.returnType == TypeId.auto)).map fun m => .result t m.name

theorem mem_openResults (hd : Declared p ts) :
    x ∈ openResults ts t ↔ ∃ method, x = .result t method ∧
    ts.cell (.result t method) = some TypeId.auto := by
  simp only [openResults, List.mem_map, List.mem_filter, beq_iff_eq, Types.cell,
    Option.map_eq_some_iff]
  constructor
  · rintro ⟨m, ⟨hm, hauto⟩, rfl⟩
    exact ⟨m.name, rfl, m, find?_of_nodup (hd.distinct t).2 hm, hauto⟩
  · rintro ⟨method, rfl, m, hm, hauto⟩
    have hname := List.find?_some hm
    exact ⟨m, ⟨List.mem_of_find?_eq_some hm, hauto⟩, by rw [beq_iff_eq.1 hname]⟩

theorem Declared.nodup_openResults (hd : Declared p ts) (t : TypeId) :
    (openResults ts t).Nodup := by
  have hnames : (((ts.get t).methods.filter (·.returnType == TypeId.auto)).map (·.name)).Nodup :=
    (hd.distinct t).2.sublist (List.filter_sublist.map _)
  have hslots := hnames.map (f := Slot.result t) fun _ _ h => (Slot.result.inj h).2
  rwa [List.map_map] at hslots

theorem length_openResults (t : TypeId) :
    (openResults ts t).length =
      ((ts.get t).methods.map fun m => if m.returnType = TypeId.auto then 1 else 0).sum := by
  rw [openResults, List.length_map]
  induction (ts.get t).methods with
  | nil => rfl
  | cons m ms ih =>
    rw [List.map_cons, List.sum_cons, List.filter_cons, ← ih]
    by_cases hm : m.returnType = TypeId.auto
    · simp [hm, Nat.add_comm]
    · simp [hm]

theorem Declared.length_openResults (hd : Declared p ts) :
    ((List.range ts.entries.size).flatMap (openResults ts)).length =
      (p.classes.map fun c => (c.features.flatMap Feature.resultTypes).count "AUTO_TYPE").sum := by
  have hbuiltin : ∀ t ∈ List.range 8, (openResults ts t).length = 0 := by
    intro t ht
    have ht := List.mem_range.1 ht
    have hall : ∀ t < 8, ((Builtin.built.get t).methods.map fun m =>
        if m.returnType = TypeId.auto then 1 else 0).sum = 0 := by
      decide +kernel
    rw [Cool.length_openResults, hd.builtin t ht, hall t ht]
  have hclass : ∀ i c, p.classes[i]? = some c →
      (openResults ts (8 + i)).length =
        (c.features.flatMap Feature.resultTypes).count "AUTO_TYPE" := by
    intro i c hc
    have hdc := hd.classes i c hc
    rw [Cool.length_openResults, hdc.get_eq, ← sum_results hd.names hdc.resolved]
    rfl
  rw [hd.size_eq, List.range_add, List.flatMap_append, List.length_append, List.length_flatMap,
    List.length_flatMap]
  rw [List.map_congr_left hbuiltin, List.map_map]
  have hclasses : (List.range p.classes.length).map ((fun t => (openResults ts t).length) ∘ fun i =>
      8 + i) =
      p.classes.map fun c => (c.features.flatMap Feature.resultTypes).count "AUTO_TYPE" := by
    refine List.ext_getElem (by simp) fun i hi hi' => ?_
    simp only [List.getElem_map, List.getElem_range, Function.comp_apply]
    exact hclass i _ (List.getElem?_eq_getElem _)
  rw [hclasses]
  simp

theorem Declared.exists_slots (hd : Declared p ts)
    (hcheck : (check p).outcome { types := ts } = (none, a)) :
    ∃ slots : List Slot, slots.Nodup ∧ slots.length = p.autos ∧ ∀ x, x ∈ slots ↔
      a.typeOf x = some TypeId.auto := by
  have hlaid := laidClasses_of_check hd.find_ne_auto hcheck
  refine ⟨((List.range a.scopes.vars.size).filter fun v =>
    (a.scopes.getVar v).type == TypeId.auto).map .var ++
    (List.range ts.entries.size).flatMap (openResults ts), ?_, ?_, fun x => ?_⟩
  · refine List.nodup_append.2 ⟨?_, ?_, ?_⟩
    · exact (List.nodup_range.filter _).map fun _ _ h => Slot.var.inj h
    · refine List.nodup_flatMap.2 ⟨fun t _ => hd.nodup_openResults t, ?_⟩
      refine List.nodup_range.imp fun {t u} htu x hx hx' => ?_
      obtain ⟨_, rfl, -⟩ := (mem_openResults hd).1 hx
      obtain ⟨_, heq, -⟩ := (mem_openResults hd).1 hx'
      exact htu (Slot.result.inj heq).1
    · intro x hx y hy
      obtain ⟨v, -, rfl⟩ := List.mem_map.1 hx
      obtain ⟨t, -, hy⟩ := List.mem_flatMap.1 hy
      obtain ⟨_, rfl, -⟩ := (mem_openResults hd).1 hy
      exact nofun
  · rw [List.length_append, List.length_map, length_untyped, untyped_of_check hd hcheck,
      hd.length_openResults, ← autos_eq]
  · rw [List.mem_append]
    cases x with
    | var v =>
      rw [or_iff_left, Analysis.typeOf, Option.some.injEq]
      · simp only [List.mem_map, List.mem_filter, List.mem_range, beq_iff_eq, Slot.var.injEq,
          exists_eq_right]
        exact and_iff_right_of_imp lt_size_of_auto
      · intro h
        obtain ⟨t, -, h⟩ := List.mem_flatMap.1 h
        obtain ⟨_, heq, -⟩ := (mem_openResults hd).1 h
        cases heq
    | result t method =>
      have hcell : a.typeOf (.result t method) = ts.cell (.result t method) := by
        rw [Analysis.typeOf, hlaid.types.cell_eq]
      rw [or_iff_right, hcell, List.mem_flatMap]
      · constructor
        · rintro ⟨u, -, h⟩
          obtain ⟨_, heq, hauto⟩ := (mem_openResults hd).1 h
          cases heq
          exact hauto
        · intro h
          refine ⟨t, List.mem_range.2 (Types.lt_size_of_ne_default fun hdefault => ?_),
            (mem_openResults hd).2 ⟨method, rfl, h⟩⟩
          rw [Types.cell, hdefault] at h
          cases h
      · intro h
        obtain ⟨v, -, heq⟩ := List.mem_map.1 h
        cases heq

/-! ## The walks -/

/-- Walks of inference until one says that it changed nothing, after `k` that did. -/
inductive Loops (p : Program) : Nat → Analysis → Analysis → Prop
  | done {a b : Analysis} : (infer p).run.run a = (.ok false, b) → Loops p 0 a b
  | again {k : Nat} {a a' b : Analysis} : (infer p).run.run a = (.ok true, a') → Loops p k a' b →
      Loops p (k + 1) a b

/-- What is known after some walks that each said that they changed something. -/
abbrev Goes (p : Program) : Analysis → Analysis → Prop :=
  Relation.ReflTransGen fun a a' => (infer p).run.run a = (.ok true, a')

theorem After.trans (h : After p a a') (h' : After p a' a'') : After p a a'' := by
  induction h' with
  | refl => exact h
  | step _ hrun ih => exact .step ih hrun

theorem Loops.inferAll_eq (h : Loops p k a b) (hk : k < fuel) :
    (Analysis.inferAll p fuel).run.run a = (.ok (), b) := by
  induction h generalizing fuel with
  | done hrun =>
    cases fuel with
    | zero => cases hk
    | succ fuel =>
      simp only [Analysis.inferAll, ExceptT.run_bind, StateT.run_bind, hrun]
      rfl
  | again hrun _ ih =>
    cases fuel with
    | zero => cases hk
    | succ fuel =>
      simp only [Analysis.inferAll, ExceptT.run_bind, StateT.run_bind, hrun]
      exact ih (Nat.lt_of_succ_lt_succ hk)

theorem Step.findings_le (h : Step p a a') : a.findings.size ≤ a'.findings.size ∧
    (a'.changed = true → a.changed = true ∨ a.findings.size < a'.findings.size) := by
  cases h with
  | restart => exact ⟨Nat.le_refl _, nofun⟩
  | note => exact ⟨Nat.le_refl _, .inl⟩
  | upper => exact ⟨Nat.le_refl _, .inl⟩
  | lower => exact ⟨Nat.le_refl _, .inl⟩
  | infers h =>
    cases h with
    | forget => exact ⟨Nat.le_refl _, fun h => .inl (by simpa [inferredTo] using h)⟩
    | learn | result => exact ⟨by simp, fun _ => .inr (by simp)⟩

theorem Steps.findings_le (h : Steps p a a') : a.findings.size ≤ a'.findings.size ∧
    (a'.changed = true → a.changed = true ∨ a.findings.size < a'.findings.size) := by
  induction h with
  | refl => exact ⟨Nat.le_refl _, .inl⟩
  | tail _ hstep ih =>
    obtain ⟨hle, hlt⟩ := hstep.findings_le
    refine ⟨Nat.le_trans ih.1 hle, fun hc => ?_⟩
    rcases hlt hc with hc | hlt
    · exact (ih.2 hc).imp_right fun h => Nat.lt_of_lt_of_le h hle
    · exact .inr (Nat.lt_of_le_of_lt ih.1 hlt)

/-- Each walk that changes something leaves less to be inferred, so there is a last one. -/
theorem exists_loops (hw : Walkable p a)
    (hruns : ∀ a', Goes p a a' → ((infer p).outcome a').1 = none) :
    ∃ k b, Loops p k a b ∧ After p a b ∧ k ≤ a.pending ∧ a.findings.size + k ≤ b.findings.size := by
  induction hn : a.pending using Nat.strongRecOn generalizing a with
  | ind n ih =>
    subst hn
    obtain ⟨a', hout⟩ : ∃ a', (infer p).outcome a = (none, a') := ⟨_, outcome_eq (hruns a .refl)⟩
    obtain ⟨changed, hrun⟩ := run_of_outcome hout
    obtain ⟨hchanged, hmoved, -⟩ := (infer_walks hw).of_run hrun
    obtain ⟨hle, hlt⟩ := (steps_of_infer hw hout).findings_le
    have hafter : After p a a' := .step .refl hout
    cases changed with
    | false => exact ⟨0, a', .done hrun, hafter, Nat.zero_le _, hle⟩
    | true =>
      have hpending : a'.pending < a.pending := (hmoved.pending_lt hchanged.symm).resolve_left nofun
      have hfindings : a.findings.size < a'.findings.size := (hlt hchanged.symm).resolve_left nofun
      obtain ⟨k, b, hloops, hb, hk, hsize⟩ :=
        ih _ hpending (hw.moved hmoved) (fun c hc => hruns c (.head hrun hc)) rfl
      exact ⟨k + 1, b, .again hrun hloops, hafter.trans hb, by omega, by omega⟩

/-- Where no walk of inference is cut short, the walks end: after at most as many that change
something as there are types to be inferred, and one that does not. In the end each type that became
known was told once, and nothing else was. -/
theorem inference_ends {ts₀ : Types} (hcollect : (collect p.classes).outcome Builtin.types =
      (none, ts₀))
    (hbuild : (build p).outcome ts₀ = (none, ts))
      (hcheck : (check p).outcome { types := ts } = (none, a))
    (hruns : ∀ a', Goes p a a' → ((infer p).outcome a').1 = none) :
    ∃ (k : Nat) (b : Analysis) (slots told : List Slot), Loops p k a b ∧ k ≤ p.autos ∧
      (Analysis.inferAll p a.walks).run.run a = (.ok (), b) ∧
      (slots.Nodup ∧ slots.length = p.autos ∧ ∀ x, x ∈ slots ↔ a.typeOf x = some TypeId.auto) ∧
      (told.Nodup ∧ ∀ x, x ∈ told ↔ x ∈ slots ∧ b.typeOf x ≠ some TypeId.auto) ∧
      List.Forall₂ (Tells p b) told b.findings.toList ∧ b.findings.size ≤ p.autos := by
  have hd := declared_of_build hcollect hbuild
  have hlaid := laidClasses_of_check hd.find_ne_auto hcheck
  have hw := hd.walkable hlaid
  obtain ⟨k, b, hloops, hafter, hk, hsize⟩ := exists_loops hw hruns
  obtain ⟨slots, hnodup, hlen, hmem⟩ := hd.exists_slots hcheck
  obtain ⟨told, fs, hfs, htold, hiff, htells⟩ :=
    (hafter.steps hw).told hd.distinctMethods (hd.aligned hlaid)
  have hfindings : a.findings = #[] := hlaid.findings_eq
  rw [hfindings, List.nil_append] at hfs
  rw [hfindings, Array.size_empty, Nat.zero_add] at hsize
  have hsub : told.Subset slots := fun x hx => (hmem x).2 ((hiff x).1 hx).1
  have hle : b.findings.size ≤ p.autos := by
    have hlength := (htold.subperm hsub).length_le
    rw [hlen, htells.length_eq, ← hfs, Array.length_toList] at hlength
    exact hlength
  refine ⟨k, b, slots, told, hloops, Nat.le_trans hsize hle,
    hloops.inferAll_eq (Nat.lt_of_le_of_lt hk a.pending_lt_walks),
    ⟨hnodup, hlen, hmem⟩, ⟨htold, fun x => ?_⟩, hfs ▸ htells, hle⟩
  rw [hiff, hmem]

theorem completes_of_two (h : (infer p).run.run a = (.ok true, a'))
    (h' : (infer p).run.run a' = (.ok false, b)) :
    ∀ c, Goes p a c → ((infer p).outcome c).1 = none := by
  intro c hc
  have hcases : c = a ∨ c = a' := by
    induction hc with
    | refl => exact .inl rfl
    | tail _ hrun ih =>
      rcases ih with rfl | rfl
      · exact .inr (Prod.mk.inj (hrun.symm.trans h)).2
      · cases (Prod.mk.inj (hrun.symm.trans h')).1
  rcases hcases with rfl | rfl
  · rw [outcome_of_run h]
  · rw [outcome_of_run h']

set_option maxRecDepth 10000 in
theorem inference_ends_untyped :
    (∀ a, Goes Sample.untyped Sample.untyped.checked a →
      ((infer Sample.untyped).outcome a).1 = none) ∧
    ∃ (k : Nat) (b : Analysis) (slots told : List Slot),
      Loops Sample.untyped k Sample.untyped.checked b ∧ k ≤ 4 ∧
      (Analysis.inferAll Sample.untyped Sample.untyped.checked.walks).run.run
        Sample.untyped.checked = (.ok (), b) ∧
      (slots.Nodup ∧ slots.length = 4 ∧ ∀ x, x ∈ slots ↔
        Sample.untyped.checked.typeOf x = some TypeId.auto) ∧
      (told.Nodup ∧ ∀ x, x ∈ told ↔ x ∈ slots ∧ b.typeOf x ≠ some TypeId.auto) ∧
      List.Forall₂ (Tells Sample.untyped b) told b.findings.toList ∧ b.findings.size ≤ 4 := by
  obtain ⟨hcollect, hbuild, hcheck⟩ := Sample.untyped.checks (by decide +kernel)
  have hruns := completes_of_two Sample.untyped_runs.1 Sample.untyped_runs.2
  have hautos : Sample.untyped.autos = 4 := by decide +kernel
  have hends := inference_ends hcollect hbuild hcheck hruns
  rw [hautos] at hends
  exact ⟨hruns, hends⟩

end AutoCool.Cool
