import AutoCool.Proofs.Cool.Heritage
import AutoCool.Proofs.Cool.InferTrace
import AutoCool.Proofs.Cool.Typing

/-!
# How much is left to infer

The checker makes a variable for each attribute, parameter and binding of a `let`, with the type
that it was declared with. So the variables without a type are as many as the program says
(`Program.autos`), together with the results of methods.
-/

namespace AutoCool.Cool

/-- The names of the types of the variables that an expression binds and whose types may be
inferred. -/
def Expr.boundTypes : Expr → List String
  | .letIn bindings _ => bindings.map Binding.type
  | _ => []

/-- How often a type is left to be inferred below some expressions. -/
def autosOf (es : List Expr) : Nat := (es.flatMap Expr.boundTypes).count "AUTO_TYPE"

/-- How many attributes, parameters, results and variables of `let`s are declared with a type to be
inferred. -/
def Program.autos (p : Program) : Nat :=
  ((p.classes.flatMap (·.features)).flatMap fun f =>
    f.signature ++ f.nodes.flatMap Expr.boundTypes).count "AUTO_TYPE"

@[simp] theorem autosOf_nil : autosOf [] = 0 := rfl

@[simp] theorem autosOf_append : autosOf (es ++ es') = autosOf es + autosOf es' := by
  rw [autosOf, List.flatMap_append, List.count_append]
  rfl

theorem autosOf_nodes (e : Expr) :
    autosOf e.nodes = e.boundTypes.count "AUTO_TYPE" + autosOf (nodesOfParts e.parts) := by
  rw [e.nodes_eq, autosOf, List.flatMap_cons, List.count_append]
  rfl

/-- How many variables have no type. -/
def untyped (t : ScopeTree) : Nat := t.vars.toList.countP (·.type == TypeId.auto)

/-- One name stands for the type that is to be inferred. -/
structure Names (ts : Types) : Prop where
  find_auto : ts.find "AUTO_TYPE" = .ok TypeId.auto
  eq_auto : ∀ name, ts.find name = .ok TypeId.auto → name = "AUTO_TYPE"

variable {ts : Types} {cls : TypeId} {site : Site} {scope i : Nat} {a a' : Analysis}

theorem Names.typeNamed_eq (h : Names ts) :
    typeNamed ts name = TypeId.auto ↔ name = "AUTO_TYPE" := by
  rw [typeNamed]
  constructor
  · cases hfind : ts.find name with
    | ok t => exact fun ht => h.eq_auto name (by rw [hfind, ← ht])
    | error e => exact fun ht => by cases ht
  · rintro rfl
    rw [h.find_auto]

theorem ownType_eq_auto_iff (hcls : cls ≠ TypeId.auto) :
    ownType cls t = TypeId.auto ↔ t = TypeId.auto := by
  rw [ownType]
  split
  · next hself =>
    refine ⟨fun h => absurd h hcls, ?_⟩
    rintro rfl
    cases hself
  · rfl

/-! ## Variables -/

/-- How many of some variables have no type. -/
def openings (vars : List (String × TypeId)) : Nat := vars.countP (·.2 == TypeId.auto)

theorem openings_cons : openings (x :: vars) = openings [x] + openings vars := by
  rw [← List.singleton_append, openings, List.countP_append]
  rfl

theorem openings_map {l : List γ} (h : ∀ x ∈ l, (g x).2 = TypeId.auto ↔ text x = "AUTO_TYPE") :
    openings (l.map g) = (l.map text).count "AUTO_TYPE" := by
  rw [openings, List.count, List.countP_map, List.countP_map]
  refine List.countP_congr fun x hx => ?_
  simpa using h x hx

theorem untyped_withChild : untyped (a.withChild scope).scopes = untyped a.scopes := by
  rw [untyped, Analysis.scopes_withChild, ScopeTree.vars_createChild]
  rfl

theorem untyped_defining :
    untyped (a.defining scope name t).scopes = untyped a.scopes + openings [(name, t)] := by
  have hvars : (a.defining scope name t).scopes.vars.toList = a.scopes.vars.toList ++
      [Variable.ofType name t] := by
    simp [Analysis.defining, ScopeTree.define, ScopeTree.newVariable]
  rw [untyped, hvars, List.countP_append]
  rfl

theorem untyped_definingAll (vars : List (String × TypeId)) :
    untyped (a.definingAll scope vars).scopes = untyped a.scopes + openings vars := by
  induction vars generalizing a with
  | nil => rfl
  | cons x vars ih =>
    obtain ⟨name, t⟩ := x
    rw [openings_cons, ← Nat.add_assoc, ← untyped_defining]
    exact ih

/-! ## Expressions -/

theorem Expr.openings_errands (hts : Names ts) (hcls : cls ≠ TypeId.auto) (e : Expr) :
    openings ((e.errands ts cls).filterMap Errand.declared?) = e.boundTypes.count "AUTO_TYPE" := by
  cases e with
  | letIn bs x =>
    have hbindings : (bs.flatMap (Binding.errands ts cls)).filterMap Errand.declared? =
        bs.map fun b => (b.name, ownType cls (typeNamed ts b.type)) := by
      induction bs with
      | nil => rfl
      | cons b bs ih =>
        obtain ⟨name, type, value⟩ := b
        rw [List.flatMap_cons, List.filterMap_append, ih]
        cases value <;> rfl
    have htypes (b : Binding) : ownType cls (typeNamed ts b.type) = TypeId.auto ↔
        b.type = "AUTO_TYPE" := by
      rw [ownType_eq_auto_iff hcls, hts.typeNamed_eq]
    have hbody : [Errand.visit x].filterMap Errand.declared? = [] := rfl
    rw [Expr.errands, List.filterMap_append, hbindings, hbody, List.append_nil]
    exact openings_map fun b _ => htypes b
  | _ =>
    rw [Errand.filterMap_declared?_of_names (by rw [Expr.filterMap_errands _ |>.2]; rfl)]
    rfl

mutual

theorem Visits.untyped_eq {scope : Nat} {a a' : Analysis} (h : Visits site scope e r a a')
    (hts : Names a.types) (hcls : site.cls ≠ TypeId.auto) :
    untyped a'.scopes = untyped a.scopes + autosOf e.nodes :=
  match h with
  | .intro herrands _ => by
    have hall := herrands.untyped_eq hts hcls
    rw [e.openings_errands hts hcls, e.filterMap_errands.1, Nat.add_assoc, ← autosOf_nodes] at hall
    exact hall

theorem VisitsAll.untyped_eq {scope i : Nat} {a a' : Analysis}
    (h : VisitsAll site scope i es rs a a')
    (hts : Names a.types) (hcls : site.cls ≠ TypeId.auto) : untyped a'.scopes =
      untyped a.scopes + openings (es.filterMap Errand.declared?) + autosOf
        (nodesOfParts (es.filterMap Errand.part?)) :=
  match h with
  | .nil => rfl
  | .remark (.said hsaid) hrest =>
    by rw [hrest.untyped_eq (hsaid.types_eq ▸ hts) hcls, hsaid.scopes_eq]
  | .remark .settled hrest => hrest.untyped_eq hts hcls
  | .bare hrest => by
    rw [hrest.untyped_eq hts hcls, untyped_withChild]
    rfl
  | .visit he hrest => by
    rw [hrest.untyped_eq (he.types_eq ▸ hts) hcls, he.untyped_eq hts hcls, untyped_withChild]
    simp only [List.filterMap_cons, Errand.declared?, Errand.part?, nodesOfParts_cons,
      Option.elim_some, autosOf_append]
    omega
  | @VisitsAll.branch _ _ _ name t _ _ _ _ _ _ _ ht he hrest => by
    have hnone : openings [(name, t)] = 0 := by
      rw [openings, List.countP_singleton, if_neg]
      exact fun h => ht (congrArg TypeId.kind (beq_iff_eq.1 h))
    rw [hrest.untyped_eq (he.types_eq ▸ hts) hcls, he.untyped_eq hts hcls, untyped_defining,
      untyped_withChild, hnone]
    simp only [List.filterMap_cons, Errand.declared?, Errand.part?, nodesOfParts_cons,
      Option.elim_some, autosOf_append]
    omega
  | .declare hrest => by
    rw [hrest.untyped_eq hts hcls, untyped_defining, Nat.add_assoc (untyped _), ← openings_cons]
    rfl
  | .known _ hrest => hrest.untyped_eq hts hcls
  | .missed _ _ hrest => hrest.untyped_eq hts hcls

end

/-! ## Features -/

/-- The types of the attribute, of the parameters and of the result that a feature declares. -/
def Feature.attributeTypes : Feature → List String
  | .attribute _ type _ => [type.text]
  | .method .. => []

def Feature.paramTypes : Feature → List String
  | .attribute .. => []
  | .method _ params _ _ => params.map (·.type.text)

def Feature.resultTypes : Feature → List String
  | .attribute .. => []
  | .method _ _ type _ => [type.text]

theorem Feature.signature_eq (f : Feature) :
    f.signature = f.attributeTypes ++ f.paramTypes ++ f.resultTypes := by
  cases f <;> simp [signature, attributeTypes, paramTypes, resultTypes]

/-- How many variables of the scopes of a class are left without a type. -/
def ClassDecl.autos (c : ClassDecl) : Nat :=
  ((c.features.flatMap Feature.attributeTypes).count "AUTO_TYPE") +
    (c.features.map fun f => f.paramTypes.count "AUTO_TYPE" + autosOf f.nodes).sum

variable {p : Program} {ts₀ : Types} {c : ClassDecl}

theorem Declared.names (h : Declared p ts) : Names ts where
  find_auto := by
    have hmem : ("AUTO_TYPE", TypeId.auto) ∈ ts.context := by
      rw [h.context_eq]
      exact List.mem_append_left _ (by decide)
    rw [Types.find, lookup_of_mem h.names_nodup hmem]
  eq_auto name hname := by
    have hkind := h.kind_of_find hname
    split at hkind
    · cases hkind
    · split at hkind
      · assumption
      · cases hkind

theorem Names.named_eq (h : Names ts) (hfound : ∃ u, ts.find name = .ok u) :
    ts.named name = TypeId.auto ↔ name = "AUTO_TYPE" := by
  obtain ⟨u, hu⟩ := hfound
  rw [Types.named_of_find hu]
  refine ⟨fun heq => h.eq_auto name (heq ▸ hu), ?_⟩
  rintro rfl
  exact Except.ok.inj (hu.symm.trans h.find_auto)

theorem openings_attributes (hts : Names ts) (hfs : Resolved ts fs) :
    openings ((fs.filterMap (Feature.attribute? ts)).map fun x => (x.name, x.type)) =
      (fs.flatMap Feature.attributeTypes).count "AUTO_TYPE" := by
  induction fs with
  | nil => rfl
  | cons f fs ih =>
    obtain ⟨hf, hfs⟩ := List.forall_mem_cons.1 hfs
    rw [List.flatMap_cons, List.count_append, ← ih hfs]
    match f with
    | .attribute name type value =>
      have htype := hts.named_eq (hf type.text (.head _))
      simp [Feature.attribute?, Feature.attributeTypes, openings, List.countP_cons, htype,
        List.count_singleton, Nat.add_comm]
    | .method .. => simp [List.filterMap_cons, Feature.attribute?, Feature.attributeTypes]

theorem sum_results (hts : Names ts) (hfs : Resolved ts fs) :
    ((fs.filterMap (Feature.method? ts)).map fun m =>
        if m.returnType = TypeId.auto then 1 else 0).sum =
      (fs.flatMap Feature.resultTypes).count "AUTO_TYPE" := by
  induction fs with
  | nil => rfl
  | cons f fs ih =>
    obtain ⟨hf, hfs⟩ := List.forall_mem_cons.1 hfs
    rw [List.flatMap_cons, List.count_append, ← ih hfs]
    match f with
    | .attribute .. => simp [List.filterMap_cons, Feature.method?, Feature.resultTypes]
    | .method name params type body =>
      have htype := hts.named_eq (hf type.text (List.mem_append_right _ (.head _)))
      simp [Feature.method?, Feature.resultTypes, Method.ofSignature, htype, List.count_singleton]

theorem VisitsFeature.untyped_eq {m : Option String} (h : VisitsFeature site scope f m a a')
    (hts : Names a.types) (hcls : site.cls ≠ TypeId.auto)
    (hf : ∀ m, f.method? a.types = some m → a.types.findMethod site.cls m.name = .ok (site.cls, m))
    (hfound : ∀ name ∈ f.signature, ∃ u, a.types.find name = .ok u) :
    untyped a'.scopes = untyped a.scopes + (f.paramTypes.count "AUTO_TYPE" + autosOf f.nodes) := by
  cases h with
  | bare => rfl
  | @value name type e _ _ _ he =>
    rw [(he 0).untyped_eq hts hcls]
    simp [Errand.declared?, Errand.part?, openings, Feature.paramTypes, Feature.nodes]
  | @method name type params e o m _ _ _ hfind he =>
    cases hfind.symm.trans (hf _ rfl)
    have hself : openings [("self", site.cls)] = 0 := by simp [openings, hcls]
    have hparams : openings (params.map fun q => (q.name.text, a.types.named q.type.text)) =
        (params.map (·.type.text)).count "AUTO_TYPE" :=
      openings_map fun q hq => hts.named_eq
        (hfound _ (List.mem_append_left _ (List.mem_map.2 ⟨q, hq, rfl⟩)))
    have hparts {l : List (String × TypeId)} :
        (l.map fun x => Errand.declare x.1 x.2).filterMap Errand.part? = [] :=
      filterMap_declare fun _ _ => rfl
    rw [(he 0).untyped_eq hts hcls, List.filterMap_append, List.filterMap_append,
      List.filterMap_cons, List.filterMap_cons]
    simp only [Errand.declared?, Errand.part?, filterMap_declared?, hparts, List.filterMap_cons,
      List.filterMap_nil, List.append_nil,
      Method.ofSignature, List.zip_map']
    rw [openings_cons, hself, hparams]
    simp [Feature.paramTypes, Feature.nodes, Nat.add_assoc]

theorem VisitsFeatures.untyped_eq (h : VisitsFeatures scope site fs m a a') (hts : Names a.types)
    (hcls : site.cls ≠ TypeId.auto) (hfs : ∀ f ∈ fs,
      (∀ m, f.method? a.types = some m → a.types.findMethod site.cls m.name = .ok (site.cls, m)) ∧
        ∀ name ∈ f.signature, ∃ u, a.types.find name = .ok u) :
    untyped a'.scopes = untyped a.scopes +
      (fs.map fun f => f.paramTypes.count "AUTO_TYPE" + autosOf f.nodes).sum := by
  induction h with
  | nil => rfl
  | @cons site f fs m m' a a1 a' hf _ ih =>
    obtain ⟨⟨hm, hfound⟩, hfs⟩ := List.forall_mem_cons.1 hfs
    have htypes : a1.types = a.types := hf.unchanged.1
    have hrest := ih (htypes ▸ hts) hcls (htypes ▸ hfs)
    rw [hrest, hf.untyped_eq hts hcls hm hfound, untyped_withChild, List.map_cons, List.sum_cons,
      Nat.add_assoc]

/-! ## Classes -/

theorem Checking.Reparented.method?_eq (h : Checking.Reparented ts₀ ts) {f : Feature} :
    f.method? ts = f.method? ts₀ := by
  cases f <;> simp only [Feature.method?, h.named_eq]

/-- Whatever the parents of the types are, the checker makes the variables that a class asks for. -/
theorem VisitsClass.untyped_eq {n : Nat} (h : VisitsClass method scope c m a a')
    (hd : Declared p ts₀) (hn : p.classes[n]? = some c) (ha : Checking.Reparented ts₀ a.types) :
    Checking.Reparented ts₀ a'.types ∧ untyped a'.scopes = untyped a.scopes + c.autos := by
  obtain @⟨cls, _, _, a1, _, hcls, hbreaks, hfeatures⟩ := h
  have hclass := hd.classes n c hn
  cases hcls.symm.trans ((ha.find_eq _).trans (hd.find_class hn))
  obtain ⟨⟨ts1, ds, hts1, ha1⟩, -⟩ := hbreaks.eq
  have hr : Checking.Reparented ts₀ a1.types := by
    rw [ha1]
    exact ha.trans hts1
  have hvars : untyped a1.scopes = untyped a.scopes := by rw [ha1]
  have hnames : Names a1.types :=
    ⟨(hr.find_eq _).trans hd.names.find_auto, fun name h => hd.names.eq_auto name
      ((hr.find_eq _).symm.trans h)⟩
  have hauto : 8 + n ≠ TypeId.auto :=
    Nat.ne_of_gt (Nat.lt_of_lt_of_le (by decide) (Nat.le_add_right 8 n))
  have hattributes : openings ((a1.types.get (8 + n)).attributes.map fun x => (x.name, x.type)) =
      (c.features.flatMap Feature.attributeTypes).count "AUTO_TYPE" := by
    rw [← openings_attributes hd.names hclass.resolved, hr.attributes_eq, hclass.get_eq]
    rfl
  -- the table is not changed any more
  obtain ⟨scopes, hdefine⟩ :=
    definingAll_eq a1 scope ((a1.types.get (8 + n)).attributes.map fun x => (x.name, x.type))
  have htypes : (a1.definingAll scope ((a1.types.get (8 + n)).attributes.map fun x =>
      (x.name, x.type))).types = a1.types := by rw [hdefine]
  refine ⟨(hfeatures.unchanged.1.trans htypes) ▸ hr, ?_⟩
  rw [hfeatures.untyped_eq (htypes.symm ▸ hnames) hauto, untyped_definingAll, hattributes, hvars,
    Nat.add_assoc]
  · rfl
  · rw [htypes]
    refine fun f hf => ⟨fun m hm => findMethod_of_find? ?_, fun name hname => ?_⟩
    · rw [hr.method?_eq] at hm
      rw [hr.methods_eq]
      exact find?_of_nodup hclass.distinct.2 (hclass.mem_methods hf hm)
    · rw [hr.find_eq]
      exact hclass.resolved f hf name hname

theorem VisitsClasses.untyped_eq (h : VisitsClasses method cs a a') (hd : Declared p ts₀)
    (hcs : ∀ c ∈ cs, ∃ n : Nat, p.classes[n]? = some c) (ha : Checking.Reparented ts₀ a.types) :
    untyped a'.scopes = untyped a.scopes + (cs.map ClassDecl.autos).sum := by
  induction h with
  | nil => rfl
  | cons hc _ ih =>
    obtain ⟨⟨n, hn⟩, hcs⟩ := List.forall_mem_cons.1 hcs
    obtain ⟨hr, hclass⟩ := hc.untyped_eq hd hn ha
    rw [ih hcs hr, hclass, untyped_withChild, List.map_cons, List.sum_cons, Nat.add_assoc]

theorem untyped_of_check (hd : Declared p ts) (h : (check p).outcome { types := ts } = (none, a)) :
    untyped a.scopes = (p.classes.map ClassDecl.autos).sum := by
  rw [(visitsClasses_of_check h).untyped_eq hd (fun c hc => List.mem_iff_getElem?.1 hc) .refl]
  exact Nat.zero_add _

theorem count_features (fs : List Feature) :
    (fs.flatMap fun f => f.signature ++ f.nodes.flatMap Expr.boundTypes).count "AUTO_TYPE" =
      (fs.flatMap Feature.attributeTypes).count "AUTO_TYPE" +
        (fs.map fun f => f.paramTypes.count "AUTO_TYPE" + autosOf f.nodes).sum +
        (fs.flatMap Feature.resultTypes).count "AUTO_TYPE" := by
  induction fs with
  | nil => rfl
  | cons f fs ih =>
    simp only [List.flatMap_cons, List.count_append, List.map_cons, List.sum_cons, ih,
      f.signature_eq, autosOf]
    omega

/-- What is left to be inferred are variables of scopes and results of methods. -/
theorem autos_eq (cs : List ClassDecl) :
    Program.autos { classes := cs } = (cs.map ClassDecl.autos).sum +
      (cs.map fun c => (c.features.flatMap Feature.resultTypes).count "AUTO_TYPE").sum := by
  induction cs with
  | nil => rfl
  | cons c cs ih =>
    rw [Program.autos] at ih ⊢
    simp only [List.flatMap_cons, List.flatMap_append, List.count_append, List.map_cons,
      List.sum_cons, ih, count_features,
      ClassDecl.autos]
    omega

end AutoCool.Cool
