import AutoCool.Proofs.Cool.CheckSound

/-!
# Programs that the checker lets pass

The lemma about expressions (`sound`) extends to features, classes and whole programs: a program
about which the checker says nothing is typed by the rules, and every expression has the type that
the rules give it.
-/

namespace AutoCool.Cool

variable {p : Program} {ts : Types} {Γ Γ' : Env} {c : ClassDecl} {f : Feature} {t cls : TypeId}
  {m : Method}
  {name : String} {scope : Nat} {a a' : Analysis} {site : Site}

/-! ## Environments of classes and methods -/

theorem Knows.mono (h : Knows s scope Γ) (hΓ : ∀ n t, Γ.lookup n = some t → Γ'.lookup n = some t) :
    Knows s scope Γ' := fun n v hv => hΓ n _ (h n v hv)

theorem Within.mono (h : Within ts Γ scope a)
    (hΓ : ∀ n t, Γ.lookup n = some t → Γ'.lookup n = some t) :
    Within ts Γ' scope a := ⟨h.ready, h.types_eq, h.knows.mono hΓ⟩

theorem lookup_append_cons (hx : x.1 ∉ vars.map (·.1)) (n : String) :
    (vars ++ x :: Γ).lookup n = (x :: vars ++ Γ).lookup n := by
  induction vars with
  | nil => rfl
  | cons y vars ih =>
    obtain ⟨k, u⟩ := y
    obtain ⟨l, v⟩ := x
    simp only [List.map_cons, List.mem_cons, not_or] at hx
    simp only [List.cons_append, List.lookup_cons] at ih ⊢
    rw [ih hx.2]
    by_cases hnk : n = k
    · subst hnk
      rw [beq_self_eq_true, beq_eq_false_iff_ne.2 (Ne.symm hx.1)]
    · rw [beq_eq_false_iff_ne.2 hnk]

theorem Within.definingAll (h : Within ts Γ scope a) (hvars : (vars.map (·.1)).Nodup)
    (hnew : ∀ n ∈ vars.map (·.1), n ∉ (a.scopes.get scope).locals.map (·.1)) :
    Within ts (vars ++ Γ) scope (a.definingAll scope vars) := by
  induction vars generalizing a Γ with
  | nil => exact h
  | cons x vars ih =>
    rw [List.map_cons, List.nodup_cons] at hvars
    rw [List.map_cons, List.forall_mem_cons] at hnew
    have hdef : Within ts (x :: Γ) scope (a.defining scope x.1 x.2) := h.defining hnew.1
    refine (ih hdef hvars.2 fun n hn hmem => ?_).mono fun n t hn => ?_
    · rw [Analysis.scopes_defining, ScopeTree.get_define h.ready.scope_lt, if_pos rfl,
        List.map_append,
        List.mem_append] at hmem
      rcases hmem with hmem | hmem
      · exact hnew.2 n hn hmem
      · cases List.mem_singleton.1 hmem
        exact hvars.1 hn
    · rw [← lookup_append_cons hvars.1]
      exact hn

theorem Within.method (h : Within ts (classEnv ts cls) scope a)
    (hlocals : (a.scopes.get scope).locals = []) (hvars : (vars.map (·.1)).Nodup)
    (hself : "self" ∉ vars.map (·.1)) :
    Within ts (vars ++ classEnv ts cls) scope
      ((a.defining scope "self" cls).definingAll scope vars) := by
  have hdef : Within ts (("self", cls) :: classEnv ts cls) scope (a.defining scope "self" cls) :=
    h.defining (by simp [hlocals])
  refine (hdef.definingAll hvars fun n hn hmem => ?_).mono fun n t hn => ?_
  · rw [Analysis.scopes_defining, ScopeTree.get_define h.ready.scope_lt, if_pos rfl,
      hlocals] at hmem
    cases List.mem_singleton.1 hmem
    exact hself hn
  · -- the object itself is there twice, and the first time is enough
    unfold classEnv at hn ⊢
    rw [lookup_append_cons hself] at hn ⊢
    rw [List.cons_append, List.lookup_cons] at hn ⊢
    split at hn
    · exact hn
    · next hne =>
      rw [lookup_append_cons hself, List.cons_append, List.lookup_cons, hne] at hn
      exact hn

/-! ## Methods -/

theorem climb_of_hasMethod (hts : ∀ t, Distinct (ts.get t)) (h : HasMethod ts t name m)
    (hr : ts.climb (fun e => e.methods.find? (·.name == name)) fuel t = .ok r) :
    ∃ o, r = some (o, m) := by
  induction h generalizing fuel with
  | @own t m hm =>
    cases fuel with
    | zero => cases hr
    | succ fuel =>
      rw [Types.climb, find?_of_nodup (hts t).2 hm] at hr
      cases hr
      exact ⟨t, rfl⟩
  | @inherited t u name m hnone hparent _ ih =>
    cases fuel with
    | zero => cases hr
    | succ fuel =>
      rw [Types.climb, List.find?_eq_none.2 (by simpa using hnone), hparent] at hr
      exact ih hr

theorem Declared.findMethod_of_hasMethod (h : Declared p ts) (ha : ts.Acyclic)
    (hm : HasMethod ts t name m) : ∃ o, ts.findMethod t name = .ok (o, m) := by
  obtain ⟨r, hr⟩ := ha.climb (fun e => e.methods.find? (·.name == name)) t
  obtain ⟨o, rfl⟩ := climb_of_hasMethod h.distinct hm hr
  exact ⟨o, by rw [Types.findMethod, hr]; rfl⟩

theorem eq_of_same (h : TypeId.same u t = true) (hu : IsDeclared ts u ∨ TypeId.kind u = .self)
    (ht : IsDeclared ts t) : u = t := by
  rcases hu with hu | hu
  · rw [TypeId.same_of_plain hu.1 ht.1] at h
    simpa using h
  · simp [TypeId.same, hu, ht.1] at h

theorem eq_of_sameTypes (h : Checking.sameTypes us types = true) (hus : ∀ u ∈ us, IsDeclared ts u)
    (htypes : ∀ t ∈ types, IsDeclared ts t) : us = types := by
  simp only [Checking.sameTypes, Bool.and_eq_true, beq_iff_eq] at h
  obtain ⟨hlen, hall⟩ := h
  induction us generalizing types with
  | nil =>
    cases types with
    | nil => rfl
    | cons => cases hlen
  | cons u us ih =>
    cases types with
    | nil => cases hlen
    | cons t types =>
      simp only [List.zip_cons_cons, List.all_cons, Bool.and_eq_true] at hall
      rw [List.forall_mem_cons] at hus htypes
      rw [eq_of_same hall.1 (.inl hus.1) htypes.1, ih hus.2 htypes.2 (Nat.succ.inj hlen) hall.2]

theorem Declared.signature_eq (h : Declared p ts) (ha : ts.Acyclic) (hts : PlainTable ts)
    (hover : Checking.OverridesWell ts cls name m) (hparams : ∀ u ∈ m.paramTypes, IsDeclared ts u)
    (hresult : IsDeclared ts m.returnType) (hparent : ts.parent? cls = some parent)
    (hn : HasMethod ts parent name n) :
    n.paramTypes = m.paramTypes ∧ n.returnType = m.returnType := by
  obtain ⟨o, hfind⟩ := h.findMethod_of_hasMethod ha hn
  obtain ⟨hsame, hresult'⟩ := hover parent o n hparent hfind
  obtain ⟨u, hu⟩ := hn.mem
  exact ⟨eq_of_sameTypes hsame (hts.param_declared hu) hparams,
    eq_of_same hresult' (hts.result_declared hu) hresult⟩

/-! ## Features -/

theorem Feature.Plain.tame (h : f.Plain) (hp : part ∈ f.parts) (he : part.expr = some e) :
    Tame e := by
  have hnodes : f.nodes = e.nodes := by
    match f with
    | .attribute name type none => cases hp
    | .attribute name type (some value) =>
      cases List.mem_singleton.1 hp
      cases he
      rfl
    | .method name params type body =>
      cases List.mem_singleton.1 hp
      cases he
      rfl
  have hdistinct := h.distinct
  rw [Feature.binders, hnodes, List.nodup_append] at hdistinct
  refine ⟨fun x hx n hn => h.types n (List.mem_append_right _
    (List.mem_flatMap.2 ⟨x, hnodes ▸ hx, hn⟩)), ?_, hdistinct.2.1⟩
  rw [← hnodes]
  exact h.filled

theorem Feature.Plain.params_ne_self (h : f.Plain) : "self" ∉ f.paramNames := fun hmem =>
  h.no_self (List.mem_append_right _ (List.mem_append_left _ hmem))

theorem Feature.Plain.params_nodup (h : f.Plain) : f.paramNames.Nodup :=
  (List.nodup_append.1 h.distinct).1

/-- What is noted after a feature when nothing was said. -/
def FeatureSound (ts : Types) (cls : TypeId) (f : Feature) (k : Nat) (G : List TypeId → Prop)
    (a : Analysis) : Prop :=
  a.diagnostics = #[] → ∃ l types, G l ∧ FeatureTyped ts asNamed cls f types ∧
    Noted k (l ++ types) a

theorem Declared.isDeclared_class (h : Declared p ts) (hc : p.classes[i]? = some c) :
    IsDeclared ts (8 + i) :=
  ⟨kind_class i, by
    rw [h.size_eq]
    exact Nat.add_lt_add_left (List.getElem?_eq_some_iff.1 hc).1 8⟩

theorem Declared.classEnv_declared (h : Declared p ts) (hp : p.Plain) (hcls : IsDeclared ts cls) :
    EnvDeclared ts (classEnv ts cls) := by
  refine List.forall_mem_cons.2 ⟨hcls, fun x hx => ?_⟩
  obtain ⟨y, hy, rfl⟩ := List.mem_map.1 hx
  exact h.attribute_declared hp hy

open Checking Analyzing

section

variable {i k : Nat} {name type : Token} {names : List String} {G : List TypeId → Prop}

theorem Staged.redefined (h : Staged ts Γ scope names k G a) (hw : Within ts Γ' s a')
    (hΓ : EnvDeclared ts Γ') (ha : ∃ scopes, a' = { a with scopes }) :
    Staged ts Γ' s ((a'.scopes.get s).locals.map (·.1)) k G a' := by
  refine ⟨hw, rfl, fun hd => ⟨hΓ, ?_⟩⟩
  obtain ⟨scopes, rfl⟩ := ha
  obtain ⟨-, l, hl, hn⟩ := h.quiet hd
  exact ⟨l, hl, hn.types_at, hn.cursor_eq⟩

theorem sound_attribute (h : Declared p ts) (hp : p.Plain) (hc : p.classes[i]? = some c)
    (hcls : site.cls = 8 + i)
    (hf : .attribute name type (some e) ∈ c.features)
      (hs : Staged ts (classEnv ts site.cls) scope names k G a) :
    Ensures (checkFeature site scope (.attribute name type (some e)))
      (fun _ a' => FeatureSound ts site.cls (.attribute name type (some e)) k G a')
        (fun _ _ => True) a := by
  have hclass : DeclaredClass ts site.cls c := hcls ▸ h.classes i c hc
  have hdecl : IsDeclared ts site.cls := hcls ▸ h.isDeclared_class hc
  have hsound : Sound ts site e :=
    sound (h.plainTable hp) hdecl ((hp c (List.mem_of_getElem? hc) _ hf).tame (.head _) rfl)
  obtain ⟨u, hu⟩ := hclass.resolved _ hf type.text (.head _)
  have hud : IsDeclared ts u := Types.named_of_find hu ▸ h.isDeclared_named hp hc hf (.head _)
  simp only [checkFeature, ensures_bind, ensures_newChild, ensures_ask, ensures_pure, implies_true,
    and_true]
  refine (hsound.child hs).imp fun r a1 h1 x hx => ?_
  have hfind : ts.findAttribute site.cls name.text = .ok
      (site.cls, ⟨name.text, ts.named type.text⟩) :=
    hclass.findAttribute_eq hf rfl
  rw [h1.within.types_eq, hfind, Types.named_of_find hu] at hx
  cases hx
  refine ensures_expect.weaken ?_
  rintro _ a2 ⟨hr2, hconf⟩ hd
  obtain ⟨-, _, ⟨⟨l, t, l', rfl, hl, rfl, ht, htype⟩, _, ⟨⟩, hconf⟩, hn⟩ :=
    (h1.said hr2 hconf).quiet hd
  rw [hud.ownType_eq, h1.within.types_eq] at hconf
  exact ⟨l, t :: l', hl, .value hu htype ((h.plainTable hp).sub_of_conforms ht hud hconf), hn⟩

theorem sound_method (h : Declared p ts) (hp : p.Plain) (ha : ts.Acyclic)
    (hc : p.classes[i]? = some c)
    (hcls : site.cls = 8 + i) (hf : .method name params type e ∈ c.features)
    (hs : Staged ts (classEnv ts site.cls) scope [] k G a) :
      Ensures (checkFeature site scope (.method name params type e))
      (fun _ a' => FeatureSound ts site.cls (.method name params type e) k G a')
        (fun _ _ => True) a := by
  have hclass : DeclaredClass ts site.cls c := hcls ▸ h.classes i c hc
  have hdecl : IsDeclared ts site.cls := hcls ▸ h.isDeclared_class hc
  have hts := h.plainTable hp
  have hplain := hp c (List.mem_of_getElem? hc) _ hf
  have hsound : ∀ method, Sound ts { site with method } e :=
    fun _ => sound hts hdecl (hplain.tame (.head _) rfl)
  have hnamed : ∀ n ∈ (Feature.method name params type e).signature, ts.find n = .ok (ts.named n) ∧
      IsDeclared ts (ts.named n) := by
    intro n hn
    obtain ⟨u, hu⟩ := hclass.resolved _ hf n hn
    exact ⟨by rw [Types.named_of_find hu, hu], h.isDeclared_named hp hc hf hn⟩
  have hparams : ∀ q ∈ params, ts.find q.type.text = .ok (ts.named q.type.text) ∧
      IsDeclared ts (ts.named q.type.text) :=
    fun q hq => hnamed _ (List.mem_append_left _ (List.mem_map.2 ⟨q, hq, rfl⟩))
  obtain ⟨hfind, hresult⟩ := hnamed type.text (List.mem_append_right _ (.head _))
  -- the parameters as the checker defines them
  obtain ⟨types, htypes⟩ : ∃ types, types = params.map fun q => ts.named q.type.text := ⟨_, rfl⟩
  have htypes' : ∀ t ∈ types, IsDeclared ts t := by
    rw [htypes]
    rintro t ht
    obtain ⟨q, hq, rfl⟩ := List.mem_map.1 ht
    exact (hparams q hq).2
  have hnames : ((params.map (·.name.text)).zip types).map (·.1) = params.map (·.name.text) :=
    List.map_fst_zip (by simp [htypes])
  have hmethod : ts.findMethod site.cls name.text =
      .ok (site.cls, .ofSignature name.text (params.map (·.name.text)) types
        (ts.named type.text)) :=
    htypes ▸ hclass.findMethod_eq hf rfl
  simp only [checkFeature, ensures_bind, ensures_newChild, ensures_ask, ensures_pure,
    ensures_define, implies_true, and_true]
  intro x hx
  rw [hs.within.types_eq, hmethod] at hx
  cases hx
  refine ensures_checkOverride.weaken ?_
  rintro _ a1 ⟨hr1, hover⟩
  have h1 := hs.said hr1 hover
  refine ensures_forM_define.2 ?_
  have hw2 := h1.within.method (List.map_eq_nil_iff.1 h1.names_eq)
      (by rw [hnames]; exact hplain.params_nodup)
    (by rw [hnames]; exact hplain.params_ne_self)
  have hΓ : EnvDeclared ts ((params.map (·.name.text)).zip types ++ classEnv ts site.cls) := by
    rintro ⟨n, t⟩ hx
    rcases List.mem_append.1 hx with hx | hx
    · exact htypes' t (List.of_mem_zip hx).2
    · exact h.classEnv_declared hp hdecl _ hx
  simp only [Method.ofSignature, Prod.eta, List.map_id']
  refine ((hsound _).child (h1.redefined hw2 hΓ
    (definingAll_eq (a1.defining scope "self" site.cls) _ _))).imp fun r a2 h2 => ?_
  refine ensures_expect.weaken ?_
  rintro _ a3 ⟨hr3, hconf⟩ hd
  obtain ⟨-, _, ⟨⟨l, t, l', rfl, ⟨hl, hover⟩, rfl, ht, htype⟩, _, ⟨⟩, hconf⟩, hn⟩ :=
    (h2.said hr3 hconf).quiet hd
  rw [hresult.ownType_eq, h2.within.types_eq] at hconf
  rw [hs.within.types_eq] at hover
  have hforall : List.Forall₂ (fun (q : Param) v => ts.find q.type.text = .ok v) params types := by
    rw [htypes, List.forall₂_map_right_iff, List.forall₂_same]
    exact fun q hq => (hparams q hq).1
  refine ⟨l, t :: l', hl, .method hforall hfind htype (hts.sub_of_conforms ht hresult hconf) ?_, hn⟩
  exact fun parent n hparent hn => h.signature_eq ha hts hover htypes' hresult hparent hn

theorem sound_feature (h : Declared p ts) (hp : p.Plain) (ha : ts.Acyclic)
    (hc : p.classes[i]? = some c) (hcls : site.cls = 8 + i) (hf : f ∈ c.features)
    (hs : Staged ts (classEnv ts site.cls) scope [] k G a) :
    Ensures (checkFeature site scope f) (fun _ a' => FeatureSound ts site.cls f k G a')
      (fun _ _ => True) a := by
  match f with
  | .attribute name type none =>
    obtain ⟨u, hu⟩ := (h.classes i c hc).resolved _ hf type.text (.head _)
    intro hd
    obtain ⟨-, l, hl, hn⟩ := hs.quiet hd
    exact ⟨l, [], hl, .bare hu, by simpa using hn⟩
  | .attribute name type (some e) => exact sound_attribute h hp hc hcls hf hs
  | .method name params type e => exact sound_method h hp ha hc hcls hf hs

theorem sound_features (h : Declared p ts) (hp : p.Plain) (ha : ts.Acyclic)
    (hc : p.classes[i]? = some c)
    (hcls : site.cls = 8 + i) (hfs : ∀ f ∈ fs, f ∈ c.features)
      (hs : Staged ts (classEnv ts site.cls) scope names k G a) :
    Ensures (checkFeatures scope site fs) (fun _ a' => a'.diagnostics = #[] → ∃ l parts, G l ∧
      List.Forall₂ (FeatureTyped ts asNamed site.cls) fs parts ∧ Noted k (l ++ parts.flatten) a')
        (fun _ _ => True) a := by
  induction fs generalizing site a G with
  | nil =>
    intro hd
    obtain ⟨-, l, hl, hn⟩ := hs.quiet hd
    exact ⟨l, [], hl, .nil, by simpa using hn⟩
  | cons f fs ih =>
    obtain ⟨hf, hfs⟩ := List.forall_mem_cons.1 hfs
    simp only [checkFeatures, ensures_bind, ensures_newChild]
    have hauto : site.cls ≠ TypeId.auto := by
      rw [hcls]
      exact Nat.ne_of_gt (Nat.lt_of_lt_of_le (by decide) (Nat.le_add_right 8 i))
    refine ((visits_feature f).and (sound_feature h hp ha hc hcls hf hs.opened)).weaken ?_
    rintro method a1 ⟨hvisits, h1⟩
    have hlaid : LaidFeatures site.cls scope a.notes.size [f] a a1 :=
      hvisits.laid_child hauto hs.within.ready
    obtain ⟨is, hget, -⟩ := hlaid.laid
    have hs1 : Staged ts (classEnv ts site.cls) scope names k
        (fun l => ∃ l1 types, l = l1 ++ types ∧ G l1 ∧
        FeatureTyped ts asNamed site.cls f types) a1 := by
      refine ⟨hs.within.walked hlaid.toWalked
        (by rw [hget]), by rw [hget]; exact hs.names_eq, fun hd => ?_⟩
      obtain ⟨l, types, hl, htyped, hn⟩ := h1 hd
      exact ⟨(hs.quiet (hlaid.silent hd)).1, _, ⟨l, types, rfl, hl, htyped⟩, hn⟩
    have hrest : Ensures (checkFeatures scope { site with method } fs) _ _ a1 := ih hcls hfs hs1
    refine hrest.imp fun _ a2 h2 hd => ?_
    obtain ⟨_, parts, ⟨l, types, rfl, hl, htyped⟩, hall, hn⟩ := h2 hd
    exact ⟨l, types :: parts, hl, .cons htyped hall, by simpa using hn⟩

/-! ## Classes -/

theorem Declared.attribute_ne_self (h : Declared p ts) (hp : p.Plain)
    (hx : x ∈ (ts.get t).attributes) : x.name ≠ "self" := by
  obtain ⟨i, c, hc, rfl, f, hf, hfx⟩ := h.attribute_cases hx
  have hself := (hp c (List.mem_of_getElem? hc) f hf).no_self
  match f, hfx with
  | .attribute name type value, rfl =>
    intro heq
    exact hself (List.mem_append_left _ (by simpa [Feature.attributeName?] using heq.symm))

theorem Within.classEnv (h : Declared p ts) (hp : p.Plain) (hw : Within ts [] scope a)
    (hlocals : (a.scopes.get scope).locals = []) :
    Within ts (classEnv ts cls) scope
      (a.definingAll scope ((ts.get cls).attributes.map fun x => (x.name, x.type))) := by
  have hnames : ((ts.get cls).attributes.map fun x => (x.name, x.type)).map (·.1) =
      (ts.get cls).attributes.map (·.name) := by
    simp
  refine (hw.definingAll (hnames ▸ (h.distinct cls).1) (by simp [hlocals])).mono fun n t hn => ?_
  rw [List.append_nil] at hn
  have hmem : (n, t) ∈ (ts.get cls).attributes.map fun x => (x.name, x.type) := by
    obtain ⟨l1, l2, hl, -⟩ := List.lookup_eq_some_iff.1 hn
    simp [hl]
  obtain ⟨x, hx, hxn⟩ := List.mem_map.1 hmem
  cases hxn
  rw [Cool.classEnv, List.lookup_cons, beq_eq_false_iff_ne.2 (h.attribute_ne_self hp hx), hn]

theorem sound_class (h : Declared p ts) (hp : p.Plain) (ha : ts.Acyclic)
    (hc : p.classes[i]? = some c)
    (hs : Staged ts [] ScopeTree.root names k G a) :
    Ensures (checkClass method a.scopes.scopes.size c) (fun _ a' => a'.diagnostics = #[] →
      ∃ l types, G l ∧
      ClassTyped ts asNamed c types ∧ Noted k (l ++ types) a') (fun _ _ => True)
        (a.withChild ScopeTree.root) := by
  have hw := hs.within
  simp only [checkClass, ensures_bind, ensures_ask, ensures_get, implies_true, and_true]
  intro cls hcls
  have hfind := h.find_class hc
  change a.types.find c.name.text = .ok cls at hcls
  rw [hw.types_eq, hfind] at hcls
  cases hcls
  refine (ensures_breakCycle fun _ => trivial).imp ?_
  rintro _ a1 ⟨_, hacyclic⟩
  have ha1 := hacyclic (show a.types.Acyclic from hw.types_eq ▸ ha)
  subst ha1
  refine ensures_forM_define.2 ?_
  have hw1 : Within ts (classEnv ts (8 + i)) _ _ :=
    hw.child.classEnv h hp (List.map_eq_nil_iff.1 hs.opened.names_eq)
  change Ensures (checkFeatures _ { cls := 8 + i, method } _) _ _
    (Analysis.definingAll _ _ ((a.types.get (8 + i)).attributes.map _))
  rw [hw.types_eq]
  have hs1 := hs.opened.redefined hw1 (h.classEnv_declared hp (h.isDeclared_class hc))
      (definingAll_eq _ _ _)
  refine (sound_features h hp ha hc rfl (fun f hf => hf) hs1).imp fun _ a2 h2 hd => ?_
  obtain ⟨l, parts, hl, hall, hn⟩ := h2 hd
  exact ⟨l, parts.flatten, hl, ⟨8 + i, parts, hfind, hall, rfl⟩, hn⟩

theorem LaidClasses.within (hl : LaidClasses cs a a') (ha : ts.Acyclic)
    (hw : Within ts Γ ScopeTree.root a) : Within ts Γ ScopeTree.root a' where
  ready := hl.ready
  types_eq := (hl.types_eq (hw.types_eq ▸ ha)).trans hw.types_eq
  knows name v hv := by
    obtain ⟨is, hget, -⟩ := hl.laid
    rw [hl.scopes.find_eq hw.ready.scope_lt (by rw [hget])] at hv
    rw [hl.scopes.getVar_eq v (hw.ready.valid.find_lt hv)]
    exact hw.knows name v hv

theorem sound_classes (h : Declared p ts) (hp : p.Plain) (ha : ts.Acyclic)
    (hcs : p.classes.drop i = cs)
    (hs : Staged ts [] ScopeTree.root names k G a) :
    Ensures (checkClasses method cs) (fun _ a' => a'.diagnostics = #[] → ∃ l parts, G l ∧
      List.Forall₂ (ClassTyped ts asNamed) cs parts ∧ Noted k (l ++ parts.flatten) a')
        (fun _ _ => True) a := by
  induction cs generalizing method a i G with
  | nil =>
    intro hd
    obtain ⟨-, l, hl, hn⟩ := hs.quiet hd
    exact ⟨l, [], hl, .nil, by simpa using hn⟩
  | cons c cs ih =>
    have hc : p.classes[i]? = some c := by
      have := congrArg (·[0]?) hcs
      simpa using this
    have hrest : p.classes.drop (i + 1) = cs := by
      rw [← List.drop_drop, hcs]
      rfl
    simp only [checkClasses, ensures_bind, ensures_newChild]
    have hauto := h.find_ne_auto c (List.mem_of_getElem? hc)
    refine ((visits_class c).and (sound_class h hp ha hc hs)).weaken ?_
    rintro method' a1 ⟨hvisits, h1⟩
    have hlaid := hvisits.laid (hs.within.types_eq ▸ hauto) hs.within.ready
    obtain ⟨is, hget, -⟩ := hlaid.laid
    have hs1 : Staged ts [] ScopeTree.root names k (fun l => ∃ l1 types, l = l1 ++ types ∧ G l1 ∧
        ClassTyped ts asNamed c types) a1 := by
      refine ⟨hlaid.within ha hs.within, by rw [hget]; exact hs.names_eq, fun hd => ?_⟩
      obtain ⟨l, types, hl, htyped, hn⟩ := h1 hd
      exact ⟨fun _ h => (by cases h), _, ⟨l, types, rfl, hl, htyped⟩, hn⟩
    refine (ih hrest hs1).imp fun _ a2 h2 hd => ?_
    obtain ⟨_, parts, ⟨l, types, rfl, hl, htyped⟩, hall, hn⟩ := h2 hd
    exact ⟨l, types :: parts, hl, .cons htyped hall, by simpa using hn⟩

end

/-! ## Programs -/

theorem within_start (ts : Types) : Within ts [] ScopeTree.root { types := ts } where
  ready := ready_start
  types_eq := rfl
  knows name v hv := by
    unfold ScopeTree.find ScopeTree.findWithin at hv
    cases hv

theorem Noted.annotated (h : Noted 0 types a) (hlen : types.length = p.nodes.length) :
    (a.annotated p).map (·.2) = types.map fun t => some (some t) := by
  refine List.ext_getElem? fun i => ?_
  simp only [Analysis.annotated, List.map_map, List.getElem?_map]
  rcases Nat.lt_or_ge i types.length with hi | hi
  · have hnode : i < p.nodes.length := hlen ▸ hi
    have htype := h.types_at i _ (List.getElem?_eq_getElem hi)
    rw [Nat.zero_add] at htype
    simp [List.getElem?_eq_getElem hi, List.getElem?_zipIdx, List.getElem?_eq_getElem hnode, htype]
  · simp [List.getElem?_eq_none hi, List.getElem?_zipIdx, List.getElem?_eq_none (hlen ▸ hi)]

/-- A program about which the checker says nothing is typed by the rules, and the types that are
noted are those that the rules give, expression by expression. Through a named type, the type of the
object itself is the named one. -/
theorem typed_of_check {p : Program} {ts₀ ts : Types} {a : Analysis}
    (hcollect : (collect p.classes).outcome Builtin.types = (none, ts₀))
      (hbuild : (build p).outcome ts₀ = (none, ts))
    (hplain : p.Plain) (hacyclic : ts.Acyclic)
      (hcheck : (check p).outcome { types := ts } = (none, a))
    (hsilent : a.diagnostics = #[]) :
    ∃ types, ProgramTyped ts asNamed p types ∧
    (a.annotated p).map (·.2) = types.map fun t => some (some t) := by
  have h := declared_of_build hcollect hbuild
  have hlaid := laidClasses_of_check h.find_ne_auto hcheck
  have hsound : Ensures (check p) _ _ { types := ts } :=
    sound_classes (k := 0) (G := (· = [])) h hplain hacyclic (List.drop_zero : p.classes.drop 0 = _)
      ⟨within_start ts, rfl, fun _ => ⟨fun _ h => (nomatch h), [], rfl, .nil, rfl⟩⟩
  obtain ⟨-, htyped⟩ := hsound.of_outcome hcheck
  obtain ⟨_, parts, rfl, htyped, hnoted⟩ := htyped hsilent
  rw [List.nil_append] at hnoted
  refine ⟨parts.flatten, ⟨parts, htyped, rfl⟩, hnoted.annotated ?_⟩
  have hcursor := hnoted.cursor_eq
  rw [hlaid.ready.cursor_eq, hlaid.size_notes] at hcursor
  simpa [Program.nodes] using hcursor.symm

/-- Shapes with areas: features with values, a method that another one overrides and calls, and
branches that are joined. -/
def Sample.shapes : Program where
  classes := [
    { name := word "Shape"
      features := [
        .attribute (word "side") (word "Int") (some (.atom .integer (word "2"))),
        .method (word "area") [⟨word "n", word "Int"⟩] (word "Int")
          (.binary .star (.atom .name (word "side")) (.atom .name (word "n")))] },
    { name := word "Square"
      parent := some (word "Shape")
      features := [
        .method (word "area") [⟨word "n", word "Int"⟩] (word "Int")
          (.letIn
            [.mk (word "one") (word "Int")
              (some (.call (.atom .name (word "self")) (word "area") [.atom .name (word "n")]
                (some (word "Shape"))))]
            (.block [.assign (word "one")
              (.binary .plus (.atom .name (word "one")) (.atom .name (word "n"))),
              .atom .name (word "one")]))] },
    { name := word "Circle", parent := some (word "Shape"), features := [] },
    { name := word "Main"
      features := [
        .method (word "main") [] (word "Shape")
          (.caseOf (.new (word "Square")) [
            .mk (word "s") (word "Square")
              (.ifThenElse (.binary .equal
                (.call (.atom .name (word "s")) (word "area") [.atom .integer (word "1")] none)
                  (.atom .integer (word "2")))
                (.call (.new (word "Square")) (word "copy") [] none) (.new (word "Circle"))),
            .mk (word "o") (word "Object") (.new (word "Shape"))])] }]

set_option maxRecDepth 10000 in
theorem typed_of_check_shapes : Sample.shapes.checked.diagnostics = #[] ∧ ∃ types,
    ProgramTyped Sample.shapes.types asNamed Sample.shapes types ∧
      (Sample.shapes.checked.annotated Sample.shapes).map (·.2) = types.map fun t =>
        some (some t) := by
  have hacyclic : Sample.shapes.types.Acyclic := Types.acyclic_of_parent_lt (by decide +kernel)
  obtain ⟨hcollect, hbuild, hcheck⟩ := Sample.shapes.checks (by decide +kernel)
  have hsilent : Sample.shapes.checked.diagnostics = #[] := by decide +kernel
  exact ⟨hsilent, typed_of_check hcollect hbuild (by decide +kernel) hacyclic hcheck hsilent⟩

/-- A copy of a number, made through the type above all others, is compared with an object. -/
def Sample.copies : Program where
  classes := [
    { name := word "A", features := [] },
    { name := word "Main"
      features := [
        .method (word "main") [] (word "Bool")
          (.binary .equal (.call (.atom .integer (word "1")) (word "copy") []
            (some (word "Object"))) (.new (word "A")))] }]

set_option maxRecDepth 10000 in
/-- If the type of the object itself stays what it is through a named type, the checker lets a
program pass that is not typed. -/
theorem not_typed_asObject : (collect Sample.copies.classes).outcome Builtin.types =
      (none, Sample.copies.names) ∧
    (build Sample.copies).outcome Sample.copies.names = (none, Sample.copies.types) ∧
      Sample.copies.Plain ∧
    Sample.copies.types.Acyclic ∧ (check Sample.copies).outcome { types := Sample.copies.types } =
      (none, Sample.copies.checked) ∧
    Sample.copies.checked.diagnostics = #[] ∧ ¬ ∃ types,
      ProgramTyped Sample.copies.types asObject Sample.copies types := by
  have hacyclic : Sample.copies.types.Acyclic := Types.acyclic_of_parent_lt (by decide +kernel)
  have hcollect : (collect Sample.copies.classes).outcome Builtin.types =
      (none, Sample.copies.names) :=
    outcome_eq (by decide +kernel)
  have hbuild : (build Sample.copies).outcome Sample.copies.names = (none, Sample.copies.types) :=
    outcome_eq (by decide +kernel)
  refine ⟨hcollect,
    hbuild, by decide +kernel, hacyclic, outcome_eq (by decide +kernel), by decide +kernel, ?_⟩
  rintro ⟨_, parts, _ | ⟨-, _ | ⟨⟨cls, _, -, _ | ⟨hmain, -⟩, -⟩, -⟩⟩, rfl⟩
  -- the derivation ends with a comparison of the copy, which is a number, with an object
  cases hmain with
  | method _ _ htype _ _ =>
    cases htype with
    | equal hcall hnew hcompare =>
      cases hcall with
      | @namedCall _ _ _ _ _ _ object m _ _ _ hx hobject _ hm _ _ =>
        cases hx
        cases hnew with
        | new ha =>
          obtain ⟨o, hcopy⟩ :=
              (declared_of_build hcollect hbuild).findMethod_of_hasMethod hacyclic hm
          have hfound : ∀ u, Sample.copies.types.find (word "Object").text = .ok u →
              (Sample.copies.types.findMethod u (word "copy").text).toOption.map (·.2.returnType) =
                some TypeId.self := by
            rintro u ⟨⟩
            decide +kernel
          have hself := hfound _ hobject
          rw [hcopy] at hself
          have hresult : m.returnType = TypeId.self := Option.some.inj hself
          rw [hresult] at hcompare
          cases ha
          exact absurd ((hcompare Builtin.int (by simp)).1 rfl) (by decide +kernel)
    | arithmetic h => simp at h
    | comparison h => simp at h

end AutoCool.Cool
