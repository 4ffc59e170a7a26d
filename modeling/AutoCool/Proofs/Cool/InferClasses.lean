import AutoCool.Proofs.Cool.CheckClasses
import AutoCool.Proofs.Cool.Declared
import AutoCool.Proofs.Cool.InferWalk
import AutoCool.Proofs.Types.Cell

/-!
# Walks of inference over programs

After the body of a method the types of its parameters and of its result are inferred, and after the
features of a class the types of its attributes. So a walk over a program leaves no bounds behind,
and the next one starts as it did (`Walkable`). If a walk infers nothing it leaves the types and the
variables as they were (`infer_walks`).
-/

namespace AutoCool.Cool

variable {t : ScopeTree} {ts ts' : Types} {nodes : List Expr} {cls : TypeId} {s i : Nat}
  {a a' a'' : Analysis} {e x : Expr}
  {r : Option TypeId} {V W : VarId → Prop} {c : ClassDecl} {f : Feature} {name type : Token}
    {value : Option Expr}
  {params : List Param} {E : Failure → Analysis → Prop}

/-- The type of a class has the features of the class, by name. -/
structure Hosts (ts : Types) (cls : TypeId) (c : ClassDecl) : Prop where
  find_eq : ts.find c.name.text = .ok cls
  distinct : Distinct (ts.get cls)
  attributes : ∀ name type value, Feature.attribute name type value ∈ c.features →
    name.text ∈ (ts.get cls).attributes.map (·.name)
  methods : ∀ name params type body, Feature.method name params type body ∈ c.features →
    name.text ∈ (ts.get cls).methods.map (·.name)

theorem Hosts.refines (h : Hosts ts cls c) (hr : ts.Refines ts') : Hosts ts' cls c where
  find_eq := (hr.find_eq _).trans h.find_eq
  distinct := by
    rw [Distinct, (hr.entry cls).attributes_eq, (hr.entry cls).methods_eq]
    exact h.distinct
  attributes := by
    rw [(hr.entry cls).attributes_eq]
    exact h.attributes
  methods := by
    rw [(hr.entry cls).methods_eq]
    exact h.methods

theorem Hosts.findAttribute (h : Hosts ts cls c) (hf : .attribute name type value ∈ c.features) :
    ∃ y, ts.findAttribute cls name.text = .ok (cls, y) ∧ y.name = name.text := by
  obtain ⟨y, hy, hn⟩ := List.mem_map.1 (h.attributes name type value hf)
  exact ⟨y, hn ▸ findAttribute_own h.distinct hy, hn⟩

theorem Hosts.findMethod (h : Hosts ts cls c) (hf : .method name params type e ∈ c.features) :
    ∃ m, ts.findMethod cls name.text = .ok (cls, m) ∧ m ∈ (ts.get cls).methods ∧
    m.name = name.text := by
  obtain ⟨m, hm, hn⟩ := List.mem_map.1 (h.methods name params type e hf)
  exact ⟨m, hn ▸ findMethod_own h.distinct hm, hm, hn⟩

theorem Halts.refines {f : Failure} (h : Halts ts' nodes f a) (hr : ts.Refines ts') :
    Halts ts nodes f a :=
  fun ha => h (hr.hierarchy ha)

theorem Going.onward (h : Going t ts nodes a) (hm : Moved V a a') : Going t a'.types nodes a' where
  types_eq := rfl
  scopes_eq := hm.scopes_eq.trans h.scopes_eq
  inferred v hv := (hm.evolves v).inferred (h.inferred v hv)
  coherent := hm.coherent h.coherent
  size_notes := hm.size_notes.trans h.size_notes

/-! ## Changes of the table -/

section

variable {name : String} {g : Method → Method}

theorem pending_modifyMethod_le (h : ∀ m ∈ (ts.get cls).methods, m.name = name →
      (g m).result.pending ≤ m.result.pending) :
    (ts.modifyMethod cls name g).pending ≤ ts.pending := by
  refine pending_modify_le ?_
  rw [TypeEntry.pending, TypeEntry.pending, List.map_map]
  refine List.sum_le_sum fun m hm => ?_
  simp only [Function.comp_apply]
  split
  · next hn => exact h m hm (by simpa using hn)
  · exact Nat.le_refl _

theorem pending_modifyMethod_lt (h : ∀ m ∈ (ts.get cls).methods, m.name = name →
      (g m).result.pending < m.result.pending) (hm : m ∈ (ts.get cls).methods)
    (hn : m.name = name) : (ts.modifyMethod cls name g).pending < ts.pending := by
  refine pending_modify_lt ?_
  rw [TypeEntry.pending, TypeEntry.pending, List.map_map]
  refine List.sum_lt_sum _ _ (fun m hm => ?_) ⟨m, hm, ?_⟩
  · simp only [Function.comp_apply]
    split
    · next hn => exact Nat.le_of_lt (h m hm (by simpa using hn))
    · exact Nat.le_refl _
  · simp only [Function.comp_apply, hn, beq_self_eq_true, if_true]
    exact h m hm hn

end

/-- A step that met no expression. -/
structure Still (a a' : Analysis) : Prop where
  moved : Moved (fun _ => False) a a'
  notes_eq : a'.notes = a.notes
  cursor_eq : a'.cursor = a.cursor

theorem Still.refl : Still a a := ⟨.refl, rfl, rfl⟩

theorem Still.trans (h : Still a a') (h' : Still a' a'') : Still a a'' :=
  ⟨h.moved.trans h'.moved, h'.notes_eq.trans h.notes_eq, h'.cursor_eq.trans h.cursor_eq⟩

open Inferring Analyzing

theorem still_found (h : Cleared v true a a') (ht : a'.types.Refines types)
    (hpending : types.pending ≤ a'.types.pending) : Still a { a' with types, findings } :=
  ⟨h.moved.trans (moved_found (h.changed rfl) ht hpending), h.notes_eq, h.cursor_eq⟩

/-- The methods of a type are those of another one up to what is known of their parameters. -/
def SameResults (e e' : TypeEntry) : Prop :=
  e'.methods.map (fun m => (m.name, m.result)) = e.methods.map fun m => (m.name, m.result)

theorem infers_params (hg : Going t ts nodes a) :
    Ensures (inferParams cls cls method i vs) (fun _ a' => Still a a' ∧
      SameResults (a.types.get cls) (a'.types.get cls) ∧
      ∀ v ∈ vs, (a'.scopes.getVar v).Unbounded) (Halts a.types nodes) a := by
  induction vs generalizing i a ts with
  | nil => exact ⟨.refl, rfl, fun _ h => (nomatch h)⟩
  | cons v vs ih =>
    simp only [inferParams, ensures_bind]
    refine cleared_inferVariable.mono (fun known a1 h1 => ?_) fun f a1 ⟨heq, hf⟩ => ?_
    · have hv := h1.unbounded hg.coherent
      have hnext : ∀ a2, Still a a2 → SameResults (a.types.get cls) (a2.types.get cls) →
          (a2.scopes.getVar v).Unbounded →
          Ensures (inferParams cls cls method (i + 1) vs) (fun _ a' => Still a a' ∧
            SameResults (a.types.get cls) (a'.types.get cls) ∧ ∀ u ∈ v :: vs,
              (a'.scopes.getVar u).Unbounded)
            (Halts a.types nodes) a2 := by
        intro a2 h2 hr2 hv2
        refine (ih (hg.onward h2.moved)).mono
          (fun _ a3 ⟨h3, hr3, hvs⟩ => ⟨h2.trans h3, hr3.trans hr2, ?_⟩)
          fun f a3 h => h.refines h2.moved.types
        exact List.forall_mem_cons.2 ⟨h3.moved.untouched v id hv2, hvs⟩
      cases known with
      | false => exact hnext a1 ⟨h1.moved, h1.notes_eq, h1.cursor_eq⟩ (by rw [h1.types_eq]; rfl) hv
      | true =>
        simp only [if_true, ensures_bind, ensures_variableOf, ensures_modify, ensures_nameOf,
          ensures_found]
        refine hnext _ (still_found h1 (Types.refines_modifyMethod fun m _ _ => ⟨rfl, fun hm => ?_⟩)
          ?_) ?_ hv
        · exact { hm with length_eq := by rw [List.length_set]; exact hm.length_eq }
        · exact pending_modifyMethod_le fun _ _ _ => Nat.le_refl _
        · rw [← h1.types_eq]
          refine Types.forall_modify (R := SameResults) (fun _ => rfl) ?_ cls
          rw [SameResults, List.map_map]
          refine List.map_congr_left fun m _ => ?_
          simp only [Function.comp_apply]
          split <;> rfl
    · subst heq
      exact halts_infer rfl hf

/-- What inference of the result of a method from the type of its body does: nothing, or the result
gets its type and this is told. -/
theorem ensures_inferResult (hts : a.types.WellFormed) (hd : Distinct (a.types.get cls))
    (hm0 : m0 ∈ (a.types.get cls).methods)
    (hm : (m0.name, m0.result) = (m.name, m.result)) : Ensures (inferResult cls cls m r)
      (fun _ a' => a' = a ∨
      ∃ y, a.types.infer (m0.result.addLower r) = .ok (true, y) ∧ a' = { a with
        types := a.types.modifyMethod cls m0.name fun m =>
          { m with result := y, returnType := y.type }
        findings := a.findings.push (.result m0.name (a.types.name cls) (a.types.name y.type))
        changed := true }) E a := by
  obtain ⟨hname, hresult⟩ := Prod.mk.inj hm
  have hwf := hts cls m0 hm0
  rw [inferResult, ← hname, ← hresult]
  simp only [ensures_bind, ensures_modify, ensures_ask]
  refine ⟨fun y hy => ?_, fun f hf => absurd hf (Types.infer_addLower_ne_error hwf.unbounded)⟩
  obtain ⟨known, y⟩ := y
  cases known with
  | false =>
    obtain rfl := Types.eq_of_infer_addLower hwf.coherent hwf.unbounded hy
    simp only [Bool.false_eq_true, if_false, ensures_pure]
    -- methods of one name are one and the same
    rw [Types.modifyMethod_modifyMethod (fun _ => by rfl),
      Types.modifyMethod_eq_self fun m' hm' hn => by
      rw [List.inj_on_of_nodup_map hd.2 hm' hm0 hn]]
    exact .inl rfl
  | true =>
    simp only [if_true, ensures_bind, ensures_modify, ensures_nameOf, ensures_found]
    rw [Types.modifyMethod_modifyMethod (fun _ => by rfl),
      Types.modifyMethod_modifyMethod (fun _ => by rfl)]
    simp only [Types.name_modifyMethod]
    exact .inr ⟨y, (Types.infer_addLower_eq hwf.unbounded).trans hy, rfl⟩

theorem infers_result (hts : a.types.WellFormed) (hd : Distinct (a.types.get cls))
    (hm0 : m0 ∈ (a.types.get cls).methods) (hm : (m0.name, m0.result) = (m.name, m.result)) :
    Ensures (inferResult cls cls m r) (fun _ a' => Still a a') E a := by
  refine (ensures_inferResult hts hd hm0 hm).imp ?_
  rintro _ a' (rfl | ⟨y, hy, rfl⟩)
  · exact .refl
  · have hwf := hts cls m0 hm0
    have heq : ∀ m' ∈ (a.types.get cls).methods, m'.name = m0.name → m' = m0 := fun m' hm' =>
      List.inj_on_of_nodup_map hd.2 hm' hm0
    obtain ⟨hevolves, hinferred, hknown, hunbounded⟩ := Types.infer_eq_ok hy
    have hbounded : Variable.Evolves m0.result (m0.result.addLower r) := Variable.evolves_addLower
    have hcoherent := hbounded.coherent hwf.coherent
    have hx : m0.result.inferred = false := by simpa using hknown rfl
    have hy' : y.inferred = true := by simp [hinferred]
    refine ⟨moved_known (Types.refines_modifyMethod fun m' hm' hn => ⟨rfl, fun _ => ?_⟩) ?_,
      rfl, rfl⟩
    · rw [heq m' hm' hn]
      exact ⟨hwf.length_eq, rfl, hevolves.coherent hcoherent, hunbounded hcoherent⟩
    · refine pending_modifyMethod_lt (fun m' hm' hn => ?_) hm0 rfl
      rw [heq m' hm' hn]
      simp [Variable.pending, hx, hy']

/-! ## Features -/

/-- A walk has gone through `n` expressions. -/
structure Gone (t : ScopeTree) (nodes : List Expr) (V : VarId → Prop) (n : Nat) (a a' : Analysis) :
    Prop where
  going : Going t a'.types nodes a'
  moved : Moved V a a'
  cursor_eq : a'.cursor = a.cursor + n

theorem Gone.still (h : Gone t nodes V n a a') (hs : Still a' a'') : Gone t nodes V n a a'' where
  going := h.going.onward hs.moved
  moved := h.moved.trans (hs.moved.mono fun _ => False.elim)
  cursor_eq := hs.cursor_eq.trans h.cursor_eq

theorem Gone.trans (h : Gone t nodes V n a a') (h' : Gone t nodes V m a' a'') :
    Gone t nodes V (n + m) a a'' where
  going := h'.going
  moved := h.moved.trans h'.moved
  cursor_eq := by rw [h'.cursor_eq, h.cursor_eq, Nat.add_assoc]

theorem Gone.shrink (h : Gone t nodes V n a a')
    (hV : ∀ v, V v → W v ∨ (a'.scopes.getVar v).Unbounded) :
    Gone t nodes W n a a' := ⟨h.going, h.moved.shrink hV, h.cursor_eq⟩

theorem infers_value (hts : ts.WellFormed) (hg : Going t ts nodes a) (hfit : FitsFeature t s i f)
    (hparts : f.parts = [{ expr := some x }]) (hp : Placed nodes a.cursor x.nodes) :
    Ensures (childAt i 0) (fun j a' => Ensures (inferExpr cls j expected x)
      (fun _ a' => Gone t nodes (t.Visible i) x.size a a' ∧ a'.types = ts) (Halts ts nodes) a')
        (Halts ts nodes) a := by
  have hchildren := hfit.children
  rw [hparts] at hchildren
  obtain ⟨j, hj, hparent, hfits⟩ := hchildren.getElem? (j := 0) rfl
  rw [ensures_childAt, hg.get_eq, hj]
  refine ⟨?_, fun h => (nomatch h)⟩
  rintro _ ⟨⟩
  refine (passes hts x _ _ _ _ hg (hfits x rfl) hp).imp fun r a' h =>
    ⟨⟨hg.onward h.moved, ?_, h.cursor_eq⟩, h.going.types_eq⟩
  refine h.moved.mono fun v hv => ?_
  obtain ⟨p, hp, hv⟩ := hv
  cases hparent.symm.trans hp
  exact hv

theorem FitsFeature.find (hfit : FitsFeature t s i (.attribute name type value))
    (hname : name.text ∈ (t.get s).locals.map (·.1)) :
    ∃ v, t.find i name.text = some v ∧ (t.get s).locals.lookup name.text = some v := by
  have hlocals := hfit.locals_eq name type value rfl
  rw [ScopeTree.find_eq_or, hlocals, List.lookup_nil, Option.none_or, ScopeTree.findAbove,
    hfit.parent_eq]
  simp only [if_pos hfit.lt, ScopeTree.findWithin_eq_or, hfit.index_eq, Option.elim_some,
    List.take_length]
  cases hlookup : (t.get s).locals.lookup name.text with
  | some v => exact ⟨v, rfl, rfl⟩
  | none => exact absurd hname (ScopeTree.lookup_eq_none_iff.1 hlookup)

/-- What was touched in the scope of a feature is out of reach from outside, save what the class
has. -/
theorem FitsFeature.shrink (hfit : FitsFeature t s i f) (h : Gone t nodes (t.Visible i) n a a')
    (hlocals : ∀ v ∈ (t.get i).locals.map (·.2), (a'.scopes.getVar v).Unbounded) :
    Gone t nodes (t.Visible s) n a a' := by
  refine h.shrink fun v hv => ?_
  cases hv with
  | own hv => exact .inr (hlocals v hv)
  | above hp hv =>
    cases hfit.parent_eq.symm.trans hp
    exact .inl hv

theorem infers_feature (hts : a.types.WellFormed) (hg : Going t a.types nodes a)
    (hc : Hosts a.types cls c) (hf : f ∈ c.features)
    (hfit : FitsFeature t s i f) (hlocals : (t.get s).locals.map (·.1) =
      (a.types.get cls).attributes.map (·.name))
    (hp : Placed nodes a.cursor f.nodes) : Ensures (inferFeature cls i f)
      (fun _ a' => Gone t nodes (t.Visible s) f.nodes.length a a') (Halts a.types nodes) a := by
  obtain ⟨name, type, _ | x⟩ | ⟨name, params, type, x⟩ := f
  · exact ⟨hg, .refl, rfl⟩
  · obtain ⟨y, hfind, -⟩ := hc.findAttribute hf
    obtain ⟨v, hv, -⟩ := hfit.find (hlocals ▸ hc.attributes name type _ hf)
    have hempty : ∀ v ∈ (t.get i).locals.map (·.2), ∀ a' : Analysis,
        (a'.scopes.getVar v).Unbounded := by
      rw [hfit.locals_eq name type _ rfl]
      exact fun _ h => by cases h
    simp only [inferFeature, ensures_bind, ensures_ask, hfind]
    refine ⟨?_, fun _ h => (by cases h)⟩
    rintro _ ⟨⟩
    refine (infers_value hts hg hfit rfl hp).imp fun _ _ h => h.imp ?_
    rintro r a1 ⟨h1, htypes⟩
    simp only [ensures_resolve, ensures_present, h1.going.find_eq, hv, ensures_modifyVariable]
    refine ⟨?_, fun h => (by cases h)⟩
    rintro _ ⟨⟩
    have hm2 : Moved (t.Visible i) a1 _ := moved_addUpper (t := r) (ScopeTree.visible_of_find hv)
    have h2 : Gone t nodes (t.Visible i) x.size a _ :=
      ⟨h1.going.onward hm2, h1.moved.trans hm2, h1.cursor_eq⟩
    refine cleared_inferVariable.mono (fun known a3 h3 => ?_) ?_
    · rw [Feature.nodes, Expr.length_nodes]
      cases known with
      | false =>
        exact hfit.shrink (h2.still ⟨h3.moved, h3.notes_eq, h3.cursor_eq⟩) fun v hv => hempty v hv _
      | true =>
        simp only [if_true, foundAttribute, ensures_bind, ensures_variableOf, ensures_modify,
          ensures_nameOf, ensures_found]
        refine hfit.shrink (h2.still (still_found h3 (Types.refines_modifyAttribute fun _ => rfl)
          ?_)) fun v hv => hempty v hv _
        exact pending_modify_le (Nat.le_refl _)
    · rintro g a3 ⟨rfl, hg'⟩
      exact halts_infer htypes hg'
  · obtain ⟨m, hfind, hm, -⟩ := hc.findMethod hf
    simp only [inferFeature, ensures_bind, ensures_ask, hfind]
    refine ⟨?_, fun _ h => (by cases h)⟩
    rintro _ ⟨⟩
    refine (infers_value hts hg hfit rfl hp).imp fun _ _ h => h.imp ?_
    rintro r a1 ⟨h1, htypes⟩
    simp only [ensures_localsOf]
    rw [h1.going.get_eq]
    refine (infers_params h1.going).mono ?_ fun g a2 h => h.refines h1.moved.types
    rintro _ a2 ⟨h2, hresults, hvs⟩
    have hrefines := h1.moved.types.trans h2.moved.types
    have hmem : (m.name, m.result) ∈ (a2.types.get cls).methods.map fun m =>
        (m.name, m.result) := by
      rw [hresults, htypes]
      exact List.mem_map.2 ⟨m, hm, rfl⟩
    obtain ⟨m0, hm0, heq⟩ := List.mem_map.1 hmem
    refine (infers_result (hrefines.wellFormed hts) (hc.refines hrefines).distinct hm0 heq).imp
      fun _ a3 h3 => ?_
    have h4 := h1.still (h2.trans h3)
    rw [Feature.nodes, Expr.length_nodes]
    refine hfit.shrink h4 fun v hv => ?_
    -- the first variable is that of the object itself, the others are the parameters
    rw [← List.take_append_drop 1 ((t.get i).locals.map (·.2)), List.mem_append] at hv
    rcases hv with hv | hv
    · rw [← List.map_take] at hv
      obtain ⟨y, hy, rfl⟩ := List.mem_map.1 hv
      exact h4.going.unbounded (hfit.first y hy)
    · exact h3.moved.untouched v id (hvs v hv)

theorem infers_features (hts : a.types.WellFormed) (hg : Going t a.types nodes a)
    (hc : Hosts a.types cls c)
    (hfs : ∀ f ∈ fs, f ∈ c.features) (hfits : List.Forall₂ (FitsFeature t s) is fs)
    (hlocals : (t.get s).locals.map (·.1) = (a.types.get cls).attributes.map (·.name))
    (hp : Placed nodes a.cursor (fs.flatMap Feature.nodes)) : Ensures (inferFeatures cls is fs)
      (fun _ a' => Gone t nodes (t.Visible s) (fs.flatMap Feature.nodes).length a a')
        (Halts a.types nodes) a := by
  induction hfits generalizing a with
  | nil => exact ⟨hg, .refl, rfl⟩
  | @cons i f is fs hfit _ ih =>
    obtain ⟨hf, hfs⟩ := List.forall_mem_cons.1 hfs
    rw [List.flatMap_cons] at hp
    rw [List.flatMap_cons, List.length_append]
    simp only [inferFeatures, ensures_bind]
    refine (infers_feature hts hg hc hf hfit hlocals hp.left).imp fun _ a1 h1 => ?_
    have hr := h1.moved.types
    refine (ih (hr.wellFormed hts) h1.going (hc.refines hr) hfs
      (hlocals.trans (hr.entry cls).attributes_eq.symm)
      (h1.cursor_eq ▸ hp.right)).mono (fun _ a2 h2 => h1.trans h2) fun _ _ h => h.refines hr

/-! ## Classes -/

theorem infers_attributes (hg : Going t ts nodes a) (hlen : vs.length = as.length) :
    Ensures (inferAttributes cls as vs) (fun _ a' => Still a a' ∧ ∀ v ∈ vs,
      (a'.scopes.getVar v).Unbounded)
      (Halts a.types nodes) a := by
  induction vs generalizing as a ts with
  | nil =>
    rw [inferAttributes]
    · exact ⟨.refl, fun _ h => (nomatch h)⟩
    · simp
  | cons v vs ih =>
    cases as with
    | nil => cases hlen
    | cons x as =>
      simp only [inferAttributes, ensures_bind]
      refine cleared_inferVariable.mono (fun known a1 h1 => ?_) fun f a1 ⟨heq, hf⟩ => ?_
      · have hv := h1.unbounded hg.coherent
        have hnext : ∀ a2, Still a a2 → (a2.scopes.getVar v).Unbounded →
            Ensures (inferAttributes cls as vs)
            (fun _ a' => Still a a' ∧ ∀ u ∈ v :: vs, (a'.scopes.getVar u).Unbounded)
              (Halts a.types nodes) a2 := by
          intro a2 h2 hv2
          refine (ih (hg.onward h2.moved) (Nat.succ.inj hlen)).mono
            (fun _ a3 ⟨h3, hvs⟩ => ⟨h2.trans h3, ?_⟩)
            fun f a3 h => h.refines h2.moved.types
          exact List.forall_mem_cons.2 ⟨h3.moved.untouched v id hv2, hvs⟩
        cases known with
        | false => exact hnext a1 ⟨h1.moved, h1.notes_eq, h1.cursor_eq⟩ hv
        | true =>
          simp only [if_true, foundAttribute, ensures_bind, ensures_variableOf, ensures_modify,
            ensures_nameOf, ensures_found]
          refine hnext _ (still_found h1 (Types.refines_modifyAttribute fun _ => rfl) ?_) hv
          exact pending_modify_le (Nat.le_refl _)
      · subst heq
        exact halts_infer rfl hf

theorem FitsClass.refines (h : FitsClass ts t s c) (hr : ts.Refines ts') : FitsClass ts' t s c := by
  refine { h with locals_eq := fun cls hcls => ?_ }
  rw [h.locals_eq cls ((hr.find_eq _).symm.trans hcls), (hr.entry cls).attributes_eq]

theorem infers_class (hts : a.types.WellFormed) (hg : Going t a.types nodes a)
    (hc : Hosts a.types cls c) (hfit : FitsClass a.types t s c)
    (hroot : ∀ v, ¬ t.Visible ScopeTree.root v) (hp : Placed nodes a.cursor c.nodes) :
    Ensures (inferClass s c) (fun _ a' => Gone t nodes (fun _ => False) c.nodes.length a a')
      (Halts a.types nodes) a := by
  have hlocals := hfit.locals_eq cls hc.find_eq
  simp only [inferClass, ensures_bind, ensures_ask, hc.find_eq]
  refine ⟨?_, fun _ h => (nomatch h)⟩
  rintro _ ⟨⟩
  simp only [ensures_childrenOf]
  rw [hg.get_eq]
  refine (infers_features hts hg hc (fun _ h => h) hfit.features hlocals hp).imp fun _ a1 h1 => ?_
  simp only [ensures_get, ensures_localsOf]
  rw [h1.going.get_eq]
  have hlen : ((t.get s).locals.map (·.2)).length = (a1.types.get cls).attributes.length := by
    have := congrArg List.length (hlocals.trans (h1.moved.types.entry cls).attributes_eq.symm)
    simpa using this
  refine (infers_attributes h1.going hlen).mono (fun _ a2 ⟨h2, hvs⟩ => ?_) fun _ _ h =>
    h.refines h1.moved.types
  refine (h1.still h2).shrink fun v hv => ?_
  cases hv with
  | own hv => exact .inr (hvs v hv)
  | above hparent hv =>
    cases hfit.parent_eq.symm.trans hparent
    exact absurd hv (hroot v)

theorem infers_classes (hts : a.types.WellFormed) (hg : Going t a.types nodes a)
    (hc : ∀ c ∈ cs, ∃ cls, Hosts a.types cls c)
    (hfits : List.Forall₂ (FitsClass a.types t) is cs) (hroot : ∀ v, ¬ t.Visible ScopeTree.root v)
    (hp : Placed nodes a.cursor (cs.flatMap ClassDecl.nodes)) :
    Ensures (inferClasses is cs) (fun _ a' => Gone t nodes (fun _ => False)
      (cs.flatMap ClassDecl.nodes).length a a')
      (Halts a.types nodes) a := by
  induction cs generalizing is a with
  | nil =>
    cases hfits
    exact ⟨hg, .refl, rfl⟩
  | cons c cs ih =>
    obtain ⟨⟨cls, hcls⟩, hc⟩ := List.forall_mem_cons.1 hc
    rw [List.flatMap_cons] at hp
    rw [List.flatMap_cons, List.length_append]
    cases hfits with
    | cons hfit hfits =>
      simp only [inferClasses, ensures_bind]
      refine (infers_class hts hg hcls hfit hroot hp.left).imp fun _ a1 h1 => ?_
      have hr := h1.moved.types
      refine (ih (hr.wellFormed hts) h1.going (fun c hmem => (hc c hmem).imp fun _ h =>
        h.refines hr)
        (hfits.imp fun _ _ h => h.refines hr) (h1.cursor_eq ▸ hp.right)).mono
          (fun _ a2 h2 => h1.trans h2) fun _ _ h => h.refines hr

/-! ## Programs -/

/-- What holds of a checked program between two walks of inference. -/
structure Walkable (p : Program) (a : Analysis) : Prop where
  wellFormed : a.types.WellFormed
  hosts : ∀ n c, p.classes[n]? = some c → Hosts a.types (8 + n) c
  fits : FitsProgram a.types a.scopes p
  root : ∀ v, ¬ a.scopes.Visible ScopeTree.root v
  tidy : a.scopes.Tidy
  coherent : a.scopes.Coherent
  unbounded : a.scopes.Unbounded
  size_notes : a.notes.size = p.nodes.length

/-- A walk begins anew. -/
def Analysis.restarted (a : Analysis) : Analysis := { a with cursor := 0, changed := false }

variable {p : Program}

theorem visible_congr {t t' : ScopeTree} (h : ∀ s, t'.get s = t.get s) {s v : Nat}
    (hv : t'.Visible s v) : t.Visible s v := by
  induction hv with
  | own hv => exact .own (by rwa [h] at hv)
  | above hp _ ih => exact .above (by rwa [h] at hp) ih

theorem Walkable.moved (h : Walkable p a) (hm : Moved (fun _ => False) a.restarted a') :
    Walkable p a' := by
  have hget : ∀ s, a'.scopes.get s = a.scopes.get s := hm.get_eq
  have hsize : a'.scopes.scopes.size = a.scopes.scopes.size := congrArg Array.size hm.scopes_eq
  refine ⟨hm.types.wellFormed h.wellFormed, fun n c hc => (h.hosts n c hc).refines hm.types, ?_,
    fun v hv => h.root v (visible_congr hget hv), h.tidy.congr hget, hm.coherent h.coherent,
      fun v => hm.untouched v id (h.unbounded v),
    hm.size_notes.trans h.size_notes⟩
  rw [FitsProgram, hget]
  refine h.fits.imp fun s c hfit => (hfit.congr (Nat.le_of_eq hsize.symm) (fun v hv => ?_)
    fun j _ _ => hget j).refines hm.types
  exact (hm.evolves v).inferred hv

theorem Walkable.exists_hosts (h : Walkable p a) : ∀ c ∈ p.classes, ∃ cls, Hosts a.types cls c := by
  intro c hc
  obtain ⟨n, hn⟩ := List.mem_iff_getElem?.1 hc
  exact ⟨8 + n, h.hosts n c hn⟩

theorem Walkable.going (h : Walkable p a) : Going a.scopes a.types p.nodes a.restarted :=
  ⟨rfl, rfl, fun _ hv => hv, h.coherent, h.size_notes⟩

/-- Walks go through a program and leave it such that the next one can start. -/
theorem infer_walks (h : Walkable p a) :
    Ensures (infer p) (fun changed a' => changed = a'.changed ∧
      Moved (fun _ => False) a.restarted a' ∧ a'.cursor = p.nodes.length)
    (Halts a.types p.nodes) a := by
  simp only [infer, ensures_bind, ensures_modify, ensures_get, ensures_pure]
  have hp : Placed p.nodes 0 (p.classes.flatMap ClassDecl.nodes) := List.prefix_refl _
  have hwalk : Ensures (inferClasses (a.scopes.get ScopeTree.root).children p.classes) _ _
      a.restarted :=
    infers_classes h.wellFormed h.going h.exists_hosts h.fits h.root hp
  exact hwalk.imp fun _ a' h => ⟨trivial, h.moved, h.cursor_eq.trans (Nat.zero_add _)⟩

/-- A walk that infers nothing leaves everything but the notes. -/
theorem Walkable.eq_of_quiet (h : Walkable p a) (hm : Moved (fun _ => False) a.restarted a')
    (hc : a'.changed = false) :
    a' = { a.restarted with notes := a'.notes, cursor := a'.cursor } := by
  obtain ⟨-, htypes, hfindings, hinferred⟩ := hm.quiet hc
  have hvar : ∀ v < a.scopes.vars.size, a'.scopes.getVar v = a.scopes.getVar v := fun v hv => by
    have hevolves := hm.evolves v
    have hx := h.coherent v hv
    cases hi : (a.scopes.getVar v).inferred with
    | true => exact hevolves.known hi
    | false =>
      exact hx.eq_of_unknown (hevolves.coherent hx) hevolves.name_eq hi ((hinferred v).trans hi)
        (h.unbounded v)
        (hm.untouched v id (h.unbounded v))
  have hscopes : a'.scopes = a.scopes := by
    have hvars : a'.scopes.vars = a.scopes.vars := by
      refine Array.ext hm.size_vars fun v hv hv' => ?_
      have := hvar v hv'
      rwa [ScopeTree.getVar, ScopeTree.getVar, ← Array.getElem_eq_getD (h := hv),
        ← Array.getElem_eq_getD (h := hv')] at this
    cases hs : a'.scopes with
    | mk scopes vars =>
      have h1 := hm.scopes_eq
      rw [hs] at hvars h1
      cases h1
      cases hvars
      rfl
  obtain ⟨types, scopes, notes, cursor, diagnostics, findings, changed⟩ := a'
  have hdiagnostics := hm.diagnostics_eq
  cases htypes
  cases hscopes
  cases hdiagnostics
  cases hfindings
  cases hc
  rfl

end AutoCool.Cool
