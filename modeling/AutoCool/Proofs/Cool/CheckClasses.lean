import AutoCool.Proofs.Cool.CheckWalk

/-!
# The scopes that the checker makes for a program

The walk over an expression (`walks`) extends to features, classes and whole programs: after the
checker has gone through a program, the scopes fit the program (`laidClasses_of_check`), every
expression has its note, and the types are those that were declared unless some stood above
themselves.
-/

namespace AutoCool.Cool

variable {cls : TypeId} {scope i n : Nat} {parts : List Part} {names : List String}
  {a a' a'' : Analysis}

/-- The variables of the scope of a method are the object itself and the parameters, with the types
that they were declared with. -/
def TypedFeature (ts : Types) (cls : TypeId) (t : ScopeTree) (s : Nat) (f : Feature) : Prop :=
  ∀ name params type body m, f = .method name params type body →
    (ts.get cls).methods.find? (·.name == name.text) = some m →
    t.typedLocals s = ("self", cls) :: m.paramNames.zip m.paramTypes

/-- What a walk over some features does to the scope of their class. -/
structure LaidFeatures (cls : TypeId) (scope i : Nat) (fs : List Feature) (a a' : Analysis) : Prop
    extends Walked scope i (fs.flatMap Feature.nodes).length a a' where
  laid : ∃ is, a'.scopes.get scope = { a.scopes.get scope with children :=
    (a.scopes.get scope).children ++ is } ∧
    List.Forall₂ (fun j f => FitsFeature a'.scopes scope j f ∧
      TypedFeature a.types cls a'.scopes j f) is fs ∧
    a'.noteScopes = a.noteScopes ++ scopesOfFeatures a'.scopes is fs

theorem LaidFeatures.refl (hr : Ready scope a) : LaidFeatures cls scope i [] a a :=
  { Walked.refl hr with laid := ⟨[], by simp, .nil, by simp⟩ }

theorem LaidFeatures.trans (h : LaidFeatures cls scope i fs a a')
    (h' : LaidFeatures cls scope i fs' a' a'') : LaidFeatures cls scope i (fs ++ fs') a a'' where
  toWalked := by simpa using h.toWalked.trans h'.toWalked
  laid := by
    obtain ⟨is, hget, hfits, hnotes⟩ := h.laid
    obtain ⟨is', hget', hfits', hnotes'⟩ := h'.laid
    rw [h.types_eq] at hfits'
    have hbelow : ∀ k, scope < k → k < a'.scopes.scopes.size → a''.scopes.get k = a'.scopes.get k :=
      fun k hk hsize =>
      h'.scopes.get_eq k hsize (Nat.ne_of_gt hk)
    have hscopes : a''.noteScopes = a.noteScopes ++ scopesOfFeatures a''.scopes (is ++ is')
        (fs ++ fs') := by
      rw [hnotes', hnotes, scopesOfFeatures_append hfits.length_eq,
        scopesOfFeatures_congr (hfits.imp fun _ _ h => h.1) hbelow,
        List.append_assoc]
    refine ⟨is ++
      is', by rw [hget', hget]; simp only [List.append_assoc], List.rel_append (hfits.imp
      ?_) hfits', hscopes⟩
    intro j f ⟨hf, htyped⟩
    have hget_eq : ∀ k, j ≤ k → k < a'.scopes.scopes.size → a''.scopes.get k = a'.scopes.get k :=
      fun k hk =>
      hbelow k (Nat.lt_of_lt_of_le hf.lt hk)
    refine ⟨hf.congr h'.scopes.size_le (fun v hv => h'.scopes.inferred hv)
      (by rw [hget']) hget_eq, ?_⟩
    intro name params type body m hm hfind
    rw [h'.scopes.typedLocals_eq h.ready.valid (by rw [hget_eq j (Nat.le_refl _) hf.lt_size])]
    exact htyped name params type body m hm hfind

theorem Laid.feature (hr : Ready scope a)
    (h : Laid a.scopes.scopes.size a.notes.size f.parts names (a.withChild scope) a')
    (hnames : ∀ name type value, f = .attribute name type value → names = [])
    (hfirst : ∀ x ∈ (a'.scopes.get a.scopes.scopes.size).locals.take 1,
      (a'.scopes.getVar x.2).inferred = true)
    (htyped : TypedFeature a.types cls a'.scopes a.scopes.scopes.size f) :
    LaidFeatures cls scope i [f] a a' where
  toWalked :=
    { h with
      ready := { h.ready with scope_lt := Nat.lt_trans hr.scope_lt h.ready.scope_lt }
      scopes := h.scopes.of_child hr.scope_lt
      notes_eq := fun j hj _ => h.notes_eq j hj (Nat.ne_of_lt hj)
      own_scope := fun hi => by rw [h.notes_eq i hi (Nat.ne_of_lt hi)]; rfl
      size_notes := by rw [h.size_notes]; simp [f.length_nodes, Analysis.withChild] }
  laid := by
    obtain ⟨is, vs, hchild, ⟨hfits, hnotes⟩, hvs⟩ := h.laid
    have hparent := h.scopes.get_parent hr.scope_lt
    simp only [Analysis.scopes_withChild, hr.get_createChild, List.nil_append] at hchild
    have hscopes : a'.noteScopes = a.noteScopes ++ scopesOfFeatures a'.scopes [a.scopes.scopes.size]
        [f] := by
      rw [hnotes, scopesOfFeatures_cons, Feature.scopes, hchild]
      simp [Analysis.noteScopes, Analysis.withChild]
    refine ⟨[a.scopes.scopes.size], by simpa using hparent, .cons ⟨?_, htyped⟩ .nil, hscopes⟩
    exact {
      lt := hr.scope_lt
      lt_size := h.ready.scope_lt
      parent_eq := by rw [hchild]
      index_eq := by rw [hchild, hparent]
      locals_eq := fun name type value hf => by
        rw [hnames name type value hf, List.map_eq_nil_iff] at hvs
        rw [hchild, hvs]
      first := hfirst
      children := by rw [hchild]; exact hfits }

theorem Laid.definingAll (h : Laid scope i parts names a a') (vars : List (String × TypeId)) :
    Laid scope i parts (names ++ vars.map (·.1)) a (a'.definingAll scope vars) := by
  induction vars generalizing names a' with
  | nil => simpa [Analysis.definingAll] using h
  | cons x vars ih => simpa [Analysis.definingAll] using ih (h.defining x.1 x.2)

theorem definingAll_eq (a : Analysis) (scope : Nat) (vars : List (String × TypeId)) :
    ∃ scopes, a.definingAll scope vars = { a with scopes } := by
  induction vars generalizing a with
  | nil => exact ⟨a.scopes, rfl⟩
  | cons x vars ih =>
    obtain ⟨scopes, h⟩ := ih (a.defining scope x.1 x.2)
    exact ⟨scopes, h⟩

theorem typedLocals_definingAll (hr : Ready scope a) (vars : List (String × TypeId)) :
    (a.definingAll scope vars).scopes.typedLocals scope = a.scopes.typedLocals scope ++ vars := by
  induction vars generalizing a with
  | nil => simp [Analysis.definingAll]
  | cons x vars ih =>
    have hrest := ih (hr.defining x.1 x.2)
    rw [Analysis.scopes_defining, ScopeTree.typedLocals_define hr.valid hr.scope_lt,
      List.append_assoc, List.singleton_append] at hrest
    exact hrest

theorem Laid.typedLocals_eq (hr : Ready scope a) (h : Laid scope i parts [] a a') :
    a'.scopes.typedLocals scope = a.scopes.typedLocals scope := by
  obtain ⟨is, vs, hget, -, hvs⟩ := h.laid
  refine h.scopes.typedLocals_eq hr.valid ?_
  rw [hget, List.map_eq_nil_iff.1 hvs, List.append_nil]

/-- The variable that an errand defines in the scope of the expression. -/
def Errand.declared? : Errand → Option (String × TypeId)
  | .declare name t => some (name, t)
  | _ => none

theorem Errand.filterMap_declared?_of_names {es : List Errand}
    (h : es.filterMap Errand.name? = []) : es.filterMap Errand.declared? = [] := by
  rw [List.filterMap_eq_nil_iff] at h ⊢
  intro x hx
  cases x with
  | declare name t => exact absurd (h _ hx) (Option.some_ne_none name)
  | _ => rfl

theorem typedLocals_withChild (hr : Ready scope a) :
    (a.withChild scope).scopes.typedLocals scope = a.scopes.typedLocals scope := by
  have hlaid : Laid scope 0 _ [] a (a.withChild scope) := .new_child hr
  exact hlaid.typedLocals_eq hr

theorem VisitsAll.typedLocals_eq {a a' : Analysis} (h : VisitsAll site scope i es rs a a')
    (hr : Ready scope a) : a'.scopes.typedLocals scope = a.scopes.typedLocals scope ++
      es.filterMap Errand.declared? :=
  match h with
  | .nil => (List.append_nil _).symm
  | .remark (.said hsaid) hrest => by
    rw [hrest.typedLocals_eq (Laid.of_reports (i := i) hr hsaid.reports).ready, hsaid.scopes_eq]
  | .remark .settled hrest => hrest.typedLocals_eq ((Laid.refl (i := i) hr).settled _).ready
  | .bare hrest => by
    rw [hrest.typedLocals_eq (Laid.new_child (i := i) hr).ready, typedLocals_withChild hr]
    rfl
  | .visit he hrest => by
    have hlaid : Laid scope i _ [] a _ := (he.met hr.createChild).new_child hr
    rw [hrest.typedLocals_eq hlaid.ready, hlaid.typedLocals_eq hr]
    rfl
  | .branch ht he hrest => by
    have hlaid : Laid scope i _ [] a _ := (he.met (hr.createChild.defining _ _)).branch ht hr
    rw [hrest.typedLocals_eq hlaid.ready, hlaid.typedLocals_eq hr]
    rfl
  | @VisitsAll.declare _ _ _ name t _ _ _ _ hrest => by
    rw [hrest.typedLocals_eq (hr.defining name t), Analysis.scopes_defining,
      ScopeTree.typedLocals_define hr.valid hr.scope_lt,
      List.append_assoc]
    rfl
  | .known _ hrest => hrest.typedLocals_eq hr
  | .missed _ _ hrest => hrest.typedLocals_eq (Laid.of_reports (i := i) hr (.reported _)).ready

theorem findMethod_of_find? {ts : Types}
    (h : (ts.get cls).methods.find? (·.name == name) = some m) :
    ts.findMethod cls name = .ok (cls, m) := by
  rw [Types.findMethod, Types.height, Types.climb, h]
  rfl

variable {site : Site} {f : Feature} {fs : List Feature} {m m' : Option String}

theorem Ready.inferred_of_typedLocals (hr : Ready scope a) (ht : t ≠ TypeId.auto)
    (hvars : a.scopes.typedLocals scope = (name, t) :: vars) :
    ∀ x ∈ (a.scopes.get scope).locals.take 1, (a.scopes.getVar x.2).inferred = true := by
  obtain ⟨x, l, hl, hx, -⟩ := List.map_eq_cons_iff.1 hvars
  rw [hl]
  intro y hy
  cases List.mem_singleton.1 hy
  rw [(hr.coherent x.2 (hr.valid scope x (by rw [hl]; exact .head _))).inferred_eq,
    (Prod.mk.inj hx).2, bne_iff_ne]
  exact ht

theorem filterMap_declare (hg : ∀ name t, g (.declare name t) = none)
    {vars : List (String × TypeId)} : (vars.map fun x => Errand.declare x.1 x.2).filterMap g =
      [] := by
  rw [List.filterMap_map, List.filterMap_eq_nil_iff]
  exact fun x _ => hg x.1 x.2

theorem filterMap_declared? {vars : List (String × TypeId)} :
    (vars.map fun x => Errand.declare x.1 x.2).filterMap Errand.declared? = vars := by
  rw [List.filterMap_map]
  exact List.filterMap_some

theorem VisitsFeature.laid (h : VisitsFeature site scope f m a a') (hcls : site.cls ≠ TypeId.auto)
    (hr : Ready scope a)
    (hempty : (a.scopes.get scope).locals = []) : ∃ names,
      Laid scope a.notes.size f.parts names a a' ∧
      (∀ name type value, f = .attribute name type value → names = []) ∧
      (∀ x ∈ (a'.scopes.get scope).locals.take 1, (a'.scopes.getVar x.2).inferred = true) ∧
      TypedFeature a.types site.cls a'.scopes scope f := by
  cases h with
  | bare =>
    refine ⟨[], .refl hr, fun _ _ _ _ => rfl, by simp [hempty], fun _ _ _ _ _ hf => ?_⟩
    cases hf
  | value he =>
    have hlaid := (he a.notes.size).laid hr
    refine ⟨[], hlaid, fun _ _ _ _ => rfl, ?_, fun _ _ _ _ _ hf => ?_⟩
    · obtain ⟨is, vs, hget, -, hvs⟩ := hlaid.laid
      rw [hget, hempty, List.map_eq_nil_iff.1 hvs]
      exact fun x hx => absurd hx List.not_mem_nil
    · cases hf
  | @method name type params e o m _ _ _ hfind he =>
    have hlaid := (he a.notes.size).laid hr
    have hvars := (he a.notes.size).typedLocals_eq hr
    have hparts {l : List (String × TypeId)} :
        (l.map fun x => Errand.declare x.1 x.2).filterMap Errand.part? = [] :=
      filterMap_declare fun _ _ => rfl
    rw [List.filterMap_append, List.filterMap_cons] at hlaid hvars
    have hbody : [Errand.visit e].filterMap Errand.declared? = [] := rfl
    simp only [Errand.declared?, Errand.part?, filterMap_declared?, hparts, hbody,
      ScopeTree.typedLocals, hempty, List.append_nil] at hlaid hvars
    refine ⟨_, hlaid, fun _ _ _ hf => ?_, hlaid.ready.inferred_of_typedLocals hcls hvars, ?_⟩
    · cases hf
    · rintro _ _ _ _ m ⟨⟩ hm
      cases hfind.symm.trans (findMethod_of_find? hm)
      exact hvars

theorem VisitsFeature.laid_child (h : VisitsFeature site a.scopes.scopes.size f m
      (a.withChild scope) a') (hcls : site.cls ≠ TypeId.auto) (hr : Ready scope a) :
    LaidFeatures site.cls scope i [f] a a' := by
  have hempty : ((a.withChild scope).scopes.get a.scopes.scopes.size).locals = [] := by
    rw [Analysis.scopes_withChild, hr.get_createChild]
  obtain ⟨names, hlaid, hnames, hfirst, htyped⟩ := h.laid hcls hr.createChild hempty
  exact hlaid.feature hr hnames hfirst htyped

theorem VisitsFeatures.laid (h : VisitsFeatures scope site fs m a a')
    (hcls : site.cls ≠ TypeId.auto) (hr : Ready scope a) :
    LaidFeatures site.cls scope i fs a a' := by
  induction h with
  | nil => exact .refl hr
  | @cons site f fs m m' a a1 a' hf _ ih =>
    have hfeature : LaidFeatures site.cls scope i [f] a a1 := hf.laid_child hcls hr
    exact hfeature.trans (ih hcls hfeature.ready)

/-- The variables of the scope of a class are its attributes, with the types that they were declared
with. -/
structure TypedClass (ts : Types) (t : ScopeTree) (s : Nat) (c : ClassDecl) : Prop where
  attributes : ∀ cls, ts.find c.name.text = .ok cls →
    t.typedLocals s = (ts.get cls).attributes.map fun x => (x.name, x.type)
  features : ∀ cls, ts.find c.name.text = .ok cls → List.Forall₂ (TypedFeature ts cls t)
    (t.get s).children c.features

/-- What a walk over some classes does: their scopes come after those of the classes before. When
types stand above themselves, they get another parent. -/
structure LaidClasses (cs : List ClassDecl) (a a' : Analysis) : Prop where
  ready : Ready ScopeTree.root a'
  types : Checking.Reparented a.types a'.types
  types_eq : a.types.Acyclic → a'.types = a.types
  scopes : ScopeTree.Extends ScopeTree.root a.scopes a'.scopes
  laid : ∃ is, a'.scopes.get ScopeTree.root =
      { a.scopes.get ScopeTree.root with children := (a.scopes.get ScopeTree.root).children ++
        is } ∧
    List.Forall₂ (fun s c => FitsClass a.types a'.scopes s c ∧
      TypedClass a.types a'.scopes s c) is cs ∧
    a'.noteScopes = a.noteScopes ++ scopesOfClasses a'.scopes is cs
  notes_eq : ∀ j < a.notes.size, a'.notes[j]? = a.notes[j]?
  size_notes : a'.notes.size = a.notes.size +
    (cs.flatMap fun c => c.features.flatMap Feature.nodes).length
  diagnostics_le : a.diagnostics.size ≤ a'.diagnostics.size
  findings_eq : a'.findings = a.findings
  changed_eq : a'.changed = a.changed

theorem FitsClass.reparented (h : FitsClass ts' t s c) (hts : Checking.Reparented ts ts') :
    FitsClass ts t s c := by
  refine { h with locals_eq := fun cls hcls => ?_ }
  rw [h.locals_eq cls (by rwa [Types.find, hts.context_eq]), hts.attributes_eq cls]

theorem TypedClass.reparented (h : TypedClass ts' t s c) (hts : Checking.Reparented ts ts') :
    TypedClass ts t s c := by
  have hfind := hts.find_eq c.name.text
  refine ⟨fun cls hcls => ?_, fun cls hcls => ?_⟩
  · rw [h.attributes cls (hfind.trans hcls), hts.attributes_eq cls]
  · refine (h.features cls (hfind.trans hcls)).imp fun i f hf name params type body m hm hmethod =>
      ?_
    exact hf name params type body m hm (by rwa [hts.methods_eq])

theorem FitsClass.child_lt (h : FitsClass ts t s c) :
    ∀ i ∈ (t.get s).children, s < i ∧ i < t.scopes.size := by
  intro i hi
  obtain ⟨j, hj, rfl⟩ := List.mem_iff_getElem.1 hi
  have hfit := h.features.get hj (h.features.length_eq ▸ hj)
  exact ⟨hfit.lt, hfit.lt_size⟩

theorem TypedClass.grown (h : TypedClass ts t s c) (hfit : FitsClass ts t s c) (hvalid : t.Valid)
    (ht : ScopeTree.Extends i t t') (hget : ∀ j, s ≤ j → j < t.scopes.size → t'.get j = t.get j) :
    TypedClass ts t' s c := by
  have hs := hget s (Nat.le_refl _) hfit.lt_size
  refine ⟨fun cls hcls => ?_, fun cls hcls => ?_⟩
  · rw [ht.typedLocals_eq hvalid (by rw [hs]), h.attributes cls hcls]
  · rw [hs]
    refine ((List.forall₂_and_left _ _).2 ⟨hfit.child_lt, h.features cls hcls⟩).imp
      fun i f ⟨⟨hi, hsize⟩, hf⟩ => ?_
    intro name params type body m hm hmethod
    rw [ht.typedLocals_eq hvalid (by rw [hget i (Nat.le_of_lt hi) hsize]),
      hf name params type body m hm hmethod]

theorem LaidClasses.trans (h : LaidClasses cs a a') (h' : LaidClasses cs' a' a'') :
    LaidClasses (cs ++ cs') a a'' where
  ready := h'.ready
  types := h.types.trans h'.types
  types_eq ha := (h'.types_eq (h.types_eq ha ▸ ha)).trans (h.types_eq ha)
  scopes := h.scopes.trans h'.scopes
  laid := by
    obtain ⟨is, hget, hfits, hnotes⟩ := h.laid
    obtain ⟨is', hget', hfits', hnotes'⟩ := h'.laid
    have hbelow : ∀ j, ScopeTree.root < j → j < a'.scopes.scopes.size →
        a''.scopes.get j = a'.scopes.get j := fun j hj hsize =>
      h'.scopes.get_eq j hsize (Nat.ne_of_gt hj)
    have hscopes : a''.noteScopes = a.noteScopes ++ scopesOfClasses a''.scopes (is ++ is')
        (cs ++ cs') := by
      rw [hnotes', hnotes, scopesOfClasses_append hfits.length_eq,
        scopesOfClasses_congr (hfits.imp fun _ _ h => h.1) hbelow,
        List.append_assoc]
    refine ⟨is ++ is', by rw [hget', hget]; simp only [List.append_assoc], ?_, hscopes⟩
    refine List.rel_append (hfits.imp fun s c hc => ?_)
      (hfits'.imp fun _ _ hc => ⟨hc.1.reparented h.types, hc.2.reparented h.types⟩)
    have hget_eq : ∀ j, s ≤ j → j < a'.scopes.scopes.size → a''.scopes.get j = a'.scopes.get j :=
      fun j hj =>
      hbelow j (Nat.lt_of_lt_of_le hc.1.root_lt hj)
    exact ⟨hc.1.congr h'.scopes.size_le (fun v hv => h'.scopes.inferred hv) hget_eq,
      hc.2.grown hc.1 h.ready.valid h'.scopes hget_eq⟩
  notes_eq j hj := by rw [h'.notes_eq j (by have := h.size_notes; omega), h.notes_eq j hj]
  size_notes := by rw [h'.size_notes, h.size_notes]; simp; omega
  diagnostics_le := Nat.le_trans h.diagnostics_le h'.diagnostics_le
  findings_eq := h'.findings_eq.trans h.findings_eq
  changed_eq := h'.changed_eq.trans h.changed_eq

theorem VisitsClass.laid (h : VisitsClass method a.scopes.scopes.size c m
      (a.withChild ScopeTree.root) a') (hc : a.types.find c.name.text ≠ .ok TypeId.auto)
    (hr : Ready ScopeTree.root a) : LaidClasses [c] a a' := by
  obtain @⟨cls, _, _, a1, _, hcls, hbreaks, hfeatures⟩ := h
  obtain ⟨⟨ts, ds, hts, ha1⟩, hacyclic⟩ := hbreaks.eq
  have hscopes : a1.scopes = (a.scopes.createChild ScopeTree.root).2 := by rw [ha1]; rfl
  have hnotes : a1.notes = a.notes := by rw [ha1]; rfl
  have hsize := congrArg Array.size hnotes
  have hr1 : Ready a.scopes.scopes.size a1 := by
    rw [ha1]
    exact { hr.createChild with }
  have h1 : Laid a.scopes.scopes.size a1.notes.size [] [] a1 a1 := .refl hr1
  have h2 := h1.definingAll ((a1.types.get cls).attributes.map fun x => (x.name, x.type))
  have hauto : cls ≠ TypeId.auto := fun h => hc (h ▸ hcls)
  have h3 : LaidFeatures cls _ a1.notes.size _ _ _ := hfeatures.laid hauto h2.ready
  have h4 := h2.toWalked.trans h3.toWalked
  have hgrow := hscopes ▸ h4.scopes
  obtain ⟨_, vs, hget, ⟨hnil, hnotes2⟩, hvs⟩ := h2.laid
  cases hnil
  obtain ⟨is, hget', hfits, hnotes3⟩ := h3.laid
  have htyped : a'.scopes.typedLocals a.scopes.scopes.size = (a1.types.get cls).attributes.map
      fun x => (x.name, x.type) := by
    rw [h3.scopes.typedLocals_eq h2.ready.valid (by rw [hget']), typedLocals_definingAll hr1,
      hscopes, ScopeTree.typedLocals,
      hr.get_createChild]
    rfl
  have hchild : a'.scopes.get a.scopes.scopes.size =
      ⟨some ScopeTree.root, (a.scopes.get ScopeTree.root).locals.length, vs, is⟩ := by
    rw [hget', hget, hscopes, hr.get_createChild]
    simp only [List.nil_append]
  exact {
    ready := { h4.ready with scope_lt := Nat.lt_trans hr.scope_lt h4.ready.scope_lt }
    types := by rw [h4.types_eq, ha1]; exact hts
    types_eq := fun ha => by rw [h4.types_eq, hacyclic ha]; rfl
    scopes := hgrow.of_child hr.scope_lt
    laid := by
      have hscopes : a'.noteScopes = a.noteScopes ++ scopesOfClasses a'.scopes
          [a.scopes.scopes.size] [c] := by
        rw [hnotes3, hnotes2, scopesOfClasses_cons, ClassDecl.scopes, hchild]
        simp [Analysis.noteScopes, hnotes]
      refine ⟨[a.scopes.scopes.size], by
        simpa using hgrow.get_parent hr.scope_lt, .cons ?_ .nil, hscopes⟩
      have hattributes : (a1.types.get cls).attributes = (a.types.get cls).attributes := by
        rw [ha1]
        exact hts.attributes_eq cls
      have hmethods : (a1.types.get cls).methods = (a.types.get cls).methods := by
        rw [ha1]
        exact hts.methods_eq cls
      refine ⟨⟨hr.scope_lt, h4.ready.scope_lt, by rw [hchild], fun cls' hcls' => ?_, ?_⟩,
        fun cls' hcls' => ?_, fun cls' hcls' => ?_⟩
      · cases hcls.symm.trans hcls'
        rw [hchild, hvs, hattributes]
        simp
      · rw [hchild]
        exact hfits.imp fun _ _ h => h.1
      · cases hcls.symm.trans hcls'
        rw [htyped, hattributes]
      · cases hcls.symm.trans hcls'
        rw [hchild]
        refine hfits.imp fun i f hf name params type body m hm hmethod =>
          hf.2 name params type body m hm ?_
        rw [h2.types_eq, hmethods]
        exact hmethod
    notes_eq := fun j hj => by rw [h4.notes_eq j (by omega) (by omega), hnotes]
    size_notes := by rw [h4.size_notes, hnotes]; simp
    diagnostics_le := Nat.le_trans (by simp [ha1, Analysis.withChild]) h4.diagnostics_le
    findings_eq := by rw [h4.findings_eq, ha1]; rfl
    changed_eq := by rw [h4.changed_eq, ha1]; rfl }

theorem LaidClasses.refl (hr : Ready ScopeTree.root a) : LaidClasses [] a a where
  ready := hr
  types := .refl
  types_eq _ := rfl
  scopes := .refl
  laid := ⟨[], by simp, .nil, by simp⟩
  notes_eq _ _ := rfl
  size_notes := rfl
  diagnostics_le := Nat.le_refl _
  findings_eq := rfl
  changed_eq := rfl

theorem VisitsClasses.laid (h : VisitsClasses method cs a a')
    (hcs : ∀ c ∈ cs, a.types.find c.name.text ≠ .ok TypeId.auto) (hr : Ready ScopeTree.root a) :
    LaidClasses cs a a' := by
  induction h with
  | nil => exact .refl hr
  | @cons method m c cs a a1 a' hc _ ih =>
    obtain ⟨hauto, hcs⟩ := List.forall_mem_cons.1 hcs
    have hclass := hc.laid hauto hr
    refine hclass.trans (ih (fun c' hc' => ?_) hclass.ready)
    rw [hclass.types.find_eq]
    exact hcs c' hc'

theorem ready_start : Ready ScopeTree.root { types := ts } where
  cursor_eq := rfl
  valid := ScopeTree.valid_start
  tidy := ScopeTree.tidy_start
  unbounded _ := ⟨rfl, rfl⟩
  coherent _ hv := nomatch hv
  scope_lt := Nat.one_pos

/-- What the checker leaves when nothing cuts it short. -/
theorem laidClasses_of_check (hp : ∀ c ∈ p.classes, ts.find c.name.text ≠ .ok TypeId.auto)
    (h : (check p).outcome { types := ts } = (none, a)) : LaidClasses p.classes { types := ts } a :=
  (visitsClasses_of_check h).laid hp ready_start

/-! ## Later stages of a walk -/

/-- What is known later in a walk in a scope: the scopes below it that were there are as they were,
and so are the variables. -/
structure Later (scope : Nat) (a a' : Analysis) : Prop where
  grows : a.scopes.Grows a'.scopes
  children : ∀ i < a.scopes.scopes.size, (a.scopes.get i).children <+: (a'.scopes.get i).children
  vars_le : a.scopes.vars.size ≤ a'.scopes.vars.size
  getVar_eq : ∀ v < a.scopes.vars.size, a'.scopes.getVar v = a.scopes.getVar v
  get_eq : ∀ i < a.scopes.scopes.size, scope < i → a'.scopes.get i = a.scopes.get i
  notes : a.noteScopes <+: a'.noteScopes

theorem Later.refl : Later scope a a :=
  ⟨.refl, fun _ _ => List.prefix_rfl, Nat.le_refl _, fun _ _ => rfl, fun _ _ _ => rfl,
    List.prefix_rfl⟩

theorem Later.trans (h : Later scope a a') (h' : Later scope a' a'') : Later scope a a'' where
  grows := h.grows.trans h'.grows
  children i hi := (h.children i hi).trans (h'.children i (Nat.lt_of_lt_of_le hi h.grows.size_le))
  vars_le := Nat.le_trans h.vars_le h'.vars_le
  getVar_eq v hv := (h'.getVar_eq v (Nat.lt_of_lt_of_le hv h.vars_le)).trans (h.getVar_eq v hv)
  get_eq i hi hlt := (h'.get_eq i (Nat.lt_of_lt_of_le hi h.grows.size_le) hlt).trans
    (h.get_eq i hi hlt)
  notes := h.notes.trans h'.notes

theorem Later.mono (h : Later lo a a') (hle : lo ≤ scope) : Later scope a a' :=
  { h with get_eq := fun i hi hlt => h.get_eq i hi (Nat.lt_of_le_of_lt hle hlt) }

theorem scopeAt_eq (a : Analysis) (k : Nat) : a.scopeAt k = a.noteScopes[k]? := by
  rw [Analysis.scopeAt, Analysis.noteScopes, List.getElem?_map, Array.getElem?_toList]

theorem later_of_extends (h : ScopeTree.Extends scope a.scopes a'.scopes)
    (hget : a'.scopes.get scope = { a.scopes.get scope with
      children := (a.scopes.get scope).children ++ is, locals :=
        (a.scopes.get scope).locals ++ vs })
    (hnotes : a'.noteScopes = a.noteScopes ++ l) : Later scope a a' where
  grows := h.grows (by rw [hget]; exact List.prefix_append _ _)
  children i hi := by
    by_cases his : i = scope
    · rw [his, hget]
      exact List.prefix_append _ _
    · exact h.get_eq i hi his ▸ List.prefix_rfl
  vars_le := h.vars_le
  getVar_eq := h.getVar_eq
  get_eq i hi hlt := h.get_eq i hi (Nat.ne_of_gt hlt)
  notes := hnotes ▸ List.prefix_append _ _

theorem Laid.later (h : Laid scope i parts names a a') : Later scope a a' := by
  obtain ⟨is, vs, hget, ⟨-, hnotes⟩, -⟩ := h.laid
  exact later_of_extends h.scopes hget hnotes

theorem LaidFeatures.later (h : LaidFeatures cls scope i fs a a') : Later scope a a' := by
  obtain ⟨is, hget, -, hnotes⟩ := h.laid
  exact later_of_extends h.scopes (by rw [hget, List.append_nil]) hnotes

theorem LaidClasses.later (h : LaidClasses cs a a') : Later ScopeTree.root a a' := by
  obtain ⟨is, hget, -, hnotes⟩ := h.laid
  exact later_of_extends h.scopes (by rw [hget, List.append_nil]) hnotes

end AutoCool.Cool
