import AutoCool.Proofs.Cool.Aligned

/-!
# Between two walks

Within a walk variables carry bounds, and a type that has just become known may stand in one place
and not yet in another. Between two walks nothing of that is left (`AtRest`): no variable has
bounds, each is marked as inferred just when its type is known, and the table and the scopes list
the attributes and parameters of each class in one order and with the same types.
-/

namespace AutoCool

/-- A variable as it is between two walks. -/
structure Variable.AtRest (x : Variable) : Prop where
  inferred_iff : x.inferred = true ↔ x.type ≠ TypeId.auto
  upper_eq : x.upper = []
  lower_eq : x.lower = []

theorem Variable.Coherent.atRest {x : Variable} (h : x.Coherent) (hx : x.Unbounded) : x.AtRest where
  inferred_iff := by rw [h.inferred_eq, bne_iff_ne]
  upper_eq := hx.1
  lower_eq := hx.2

namespace Cool

variable {p : Program} {ts : Types} {s s' n j : Nat} {a a' : Analysis} {c : ClassDecl}
  {cls : TypeId} {m m' : Method}

/-- The variables of the scope of a method are the object itself and the parameters, in the order
and with the types of the table. -/
structure MethodAgrees (a : Analysis) (cls : TypeId) (s : ScopeId) (m : Method) : Prop where
  names_eq : (a.scopes.get s).locals.map (·.1) = "self" :: m.paramNames
  types_eq : (a.scopes.typedLocals s).map (·.2) = cls :: m.paramTypes
  return_eq : m.returnType = m.result.type

/-- The variables of the scope of a class are its attributes, in the order and with the types of the
table, and the scopes of its methods agree with the table too. -/
structure ClassAgrees (a : Analysis) (cls : TypeId) (s : ScopeId) (c : ClassDecl) : Prop where
  find_eq : a.types.find c.name.text = .ok cls
  attributes_eq : a.scopes.typedLocals s = (a.types.get cls).attributes.map fun x =>
    (x.name, x.type)
  methods : ∀ (j : Nat) name params type body,
    c.features[j]? = some (.method name params type body) →
    ∃ s' m, (a.scopes.get s).children[j]? = some s' ∧
      (a.types.get cls).methods.find? (·.name == name.text) = some m ∧
      MethodAgrees a cls s' m

/-- What is known of a program between two walks. -/
structure AtRest (p : Program) (a : Analysis) : Prop where
  vars : ∀ v < a.scopes.vars.size, (a.scopes.getVar v).AtRest
  results : ∀ t, ∀ m ∈ (a.types.get t).methods, m.result.AtRest
  classes : ∀ n c, p.classes[n]? = some c → ∃ s, (a.scopes.get ScopeTree.root).children[n]? =
    some s ∧ ClassAgrees a (8 + n) s c

/-! ## Attributes -/

theorem map_eq_map_of_find? {f : VarId → TypeId} {as : List Attribute} {l : List (String × VarId)}
    (has : (as.map (·.name)).Nodup) (hnames : l.map (·.1) = as.map (·.name))
    (h : ∀ x v, l.lookup x = some v → (as.find? (·.name == x)).map (·.type) = some (f v)) :
    (l.map fun x => (x.1, f x.2)) = as.map fun x => (x.name, x.type) := by
  -- what a name says is read off the list of attributes on both sides
  have hright : ∀ x ∈ as, (x.name, some x.type) =
      (x.name, (as.find? (·.name == x.name)).map (·.type)) := fun x hx => by
    rw [find?_of_nodup has hx]
    rfl
  have hleft : ∀ x ∈ l, (x.1, some (f x.2)) = (x.1, (as.find? (·.name == x.1)).map (·.type)) :=
    fun x hx => by
    rw [h x.1 x.2 (lookup_of_mem (hnames ▸ has) hx)]
  have hsome : Function.Injective fun x : String × TypeId => (x.1, some x.2) := fun x y hxy =>
    Prod.ext (Prod.mk.inj hxy).1 (Option.some.inj (Prod.mk.inj hxy).2)
  apply hsome.list_map
  calc (l.map fun x => (x.1, f x.2)).map (fun x => (x.1, some x.2))
      = l.map fun x => (x.1, (as.find? (·.name == x.1)).map (·.type)) := by
        rw [List.map_map]
        exact List.map_congr_left hleft
    _ = (l.map (·.1)).map fun x => (x, (as.find? (·.name == x)).map (·.type)) := by
      rw [List.map_map]; rfl
    _ = (as.map (·.name)).map fun x => (x, (as.find? (·.name == x)).map (·.type)) := by rw [hnames]
    _ = (as.map fun x => (x.name, x.type)).map fun x => (x.1, some x.2) := by
        rw [List.map_map, List.map_map]
        exact (List.map_congr_left hright).symm

theorem Aligned.attributes_eq (ha : Aligned p a) (hw : Walkable p a) (hn : p.classes[n]? = some c)
    (hs : (a.scopes.get ScopeTree.root).children[n]? = some s) :
    a.scopes.typedLocals s = (a.types.get (8 + n)).attributes.map fun x => (x.name, x.type) := by
  have hosts := hw.hosts n c hn
  exact map_eq_map_of_find? hosts.distinct.1 ((of_getElem? hw.fits hs hn).locals_eq _ hosts.find_eq)
    fun x v hx =>
    ha.home _ _ (.attribute hn hs hx)

/-! ## Parameters -/

theorem Keeps.find_method (hk : Keeps a a') (name : String)
    (hm : (a.types.get cls).methods.find? (·.name == name) = some m)
    (hm' : (a'.types.get cls).methods.find? (·.name == name) = some m') :
    m'.paramNames = m.paramNames ∧ m'.paramTypes.length = m.paramTypes.length := by
  let outline := fun m : Method => (m.name, m.paramNames, m.params, m.paramTypes.length)
  have hmap : (a'.types.get cls).methods.map outline = (a.types.get cls).methods.map outline :=
    (Prod.mk.inj (Prod.mk.inj (Prod.mk.inj (Prod.mk.inj (hk.outline_eq cls)).2).2).2).2
  have hfind := congrArg (List.find? (·.1 == name)) hmap
  rw [List.find?_map, List.find?_map] at hfind
  have heq : outline m' = outline m := by
    have h : some (outline m') = some (outline m) := by
      rw [← Option.map_some, ← Option.map_some, ← hm, ← hm']
      exact hfind
    exact Option.some.inj h
  exact ⟨congrArg (·.2.1) heq, congrArg (·.2.2.2) heq⟩

theorem MethodAgrees.of_typedLocals (h : a.scopes.typedLocals s = ("self", cls) ::
      m.paramNames.zip m.paramTypes) (hlength : m.paramNames.length = m.paramTypes.length)
    (hreturn : m.returnType = m.result.type) : MethodAgrees a cls s m where
  names_eq := by
    have hnames := congrArg (List.map Prod.fst) h
    rwa [ScopeTree.typedLocals, List.map_map, List.map_cons,
      List.map_fst_zip (Nat.le_of_eq hlength)] at hnames
  types_eq := by
    have htypes := congrArg (List.map Prod.snd) h
    rwa [List.map_cons, List.map_snd_zip (Nat.le_of_eq hlength.symm)] at htypes
  return_eq := hreturn

theorem Declared.methodAgrees (hd : Declared p ts) (hlaid : LaidClasses p.classes { types := ts } a)
    (hn : p.classes[n]? = some c) (hs : (a.scopes.get ScopeTree.root).children[n]? = some s)
    (hj : c.features[j]? = some (.method name params type body))
      (hs' : (a.scopes.get s).children[j]? = some s') :
    ∃ m, (a.types.get (8 + n)).methods.find? (·.name == name.text) = some m ∧
      MethodAgrees a (8 + n) s' m := by
  have hclass := hd.classes _ _ hn
  have hm := find?_of_nodup hclass.distinct.2 (hclass.mem_methods (List.mem_of_getElem? hj) rfl)
  obtain ⟨is, hroot, hfits, -⟩ := hlaid.laid
  have hchildren : (a.scopes.get ScopeTree.root).children = is := by
    rw [hroot]
    rfl
  rw [← hchildren] at hfits
  have htyped := of_getElem? ((of_getElem? hfits hs hn).2.features _ (hd.find_class hn)) hs' hj _ _
      _ _ _ rfl hm
  exact ⟨_, by rw [hlaid.types.methods_eq]; exact hm, .of_typedLocals htyped (by
    simp [Method.ofSignature]) rfl⟩

theorem MethodAgrees.kept (h : MethodAgrees a (8 + n) s' m)
    (hm : (a.types.get (8 + n)).methods.find? (·.name == name.text) = some m) (hk : Keeps a a')
    (ha' : Aligned p a') (hn : p.classes[n]? = some c)
    (hs : (a'.scopes.get ScopeTree.root).children[n]? = some s)
    (hj : c.features[j]? = some (.method name params type body))
    (hs' : (a'.scopes.get s).children[j]? = some s')
    (hm' : (a'.types.get (8 + n)).methods.find? (·.name == name.text) = some m') :
    MethodAgrees a' (8 + n) s' m' := by
  obtain ⟨hnames, hlength⟩ := hk.find_method _ hm hm'
  refine ⟨by rw [hk.get_eq, h.names_eq, hnames], List.ext_getElem? fun i => ?_,
    (ha'.wellFormed _ _ (List.mem_of_find?_eq_some hm')).type_eq.symm⟩
  have hget : ∀ b : Analysis, ((b.scopes.typedLocals s').map (·.2))[i]? =
      ((b.scopes.get s').locals[i]?).map fun x => (b.scopes.getVar x.2).type := fun b => by
    rw [ScopeTree.typedLocals, List.map_map, List.getElem?_map]
    rfl
  have hbefore := congrArg (fun l : List TypeId => l[i]?) h.types_eq
  simp only [hget, ← hk.get_eq] at hbefore ⊢
  cases i with
  | zero =>
    -- the type of the object itself is known from the start
    obtain ⟨x, hx, htype⟩ := Option.map_eq_some_iff.1 hbefore
    have hne : (a.scopes.getVar x.2).type ≠ TypeId.auto := by
      rw [htype]
      exact Nat.ne_of_gt (Nat.lt_of_lt_of_le (by decide) (Nat.le_add_right 8 n))
    rw [hx, Option.map_some, (hk.vars x.2).eq_of_ne hne, htype]
    rfl
  | succ i =>
    rw [List.getElem?_cons_succ] at hbefore ⊢
    cases hx : (a'.scopes.get s').locals[i + 1]? with
    | none =>
      rw [hx, Option.map_none, eq_comm, List.getElem?_eq_none_iff] at hbefore
      rw [Option.map_none, eq_comm, List.getElem?_eq_none_iff, hlength]
      exact hbefore
    | some x =>
      have hcell := ha'.home _ _ (.param hn hs hj hs' hx)
      rw [Types.cell, hm'] at hcell
      exact hcell.symm

/-! ## The state between two walks -/

theorem exists_getElem? {R : α → β → Prop} {l : List α} {l' : List β} {y : β}
    (h : List.Forall₂ R l l') (hy : l'[n]? = some y) : ∃ x, l[n]? = some x := by
  obtain ⟨hn, -⟩ := List.getElem?_eq_some_iff.1 hy
  exact ⟨_, List.getElem?_eq_getElem (h.length_eq ▸ hn)⟩

theorem Hosts.find_method (h : Hosts ts cls c)
    (hf : Feature.method name params type body ∈ c.features) :
    ∃ m, (ts.get cls).methods.find? (·.name == name.text) = some m := by
  obtain ⟨m, hm, hname⟩ := List.mem_map.1 (h.methods _ _ _ _ hf)
  exact ⟨m, hname ▸ find?_of_nodup h.distinct.2 hm⟩

/-- After the checker, and after any number of walks of inference that nothing cut short, no
variable of any scope and no result of any method has bounds left, each of them is marked as
inferred just when its type is known, and the table and the scopes agree on the types of attributes,
parameters and results. -/
theorem atRest_after_walks {ts₀ : Types}
    (hcollect : (collect p.classes).outcome Builtin.types = (none, ts₀))
    (hbuild : (build p).outcome ts₀ = (none, ts))
      (hcheck : (check p).outcome { types := ts } = (none, a)) (hafter : After p a a') :
    AtRest p a' := by
  have hd := declared_of_build hcollect hbuild
  have hlaid := laidClasses_of_check hd.find_ne_auto hcheck
  have hwalkable := hd.walkable hlaid
  obtain ⟨hk, ha'⟩ := (hafter.steps hwalkable).keeps hd.distinctMethods (hd.aligned hlaid)
  have hw' := (hafter.walkable hwalkable).1
  refine ⟨fun v hv => (ha'.coherent v hv).atRest (hw'.unbounded v), fun t m hm => ?_,
    fun n c hn => ?_⟩
  · have hwf := ha'.wellFormed t m hm
    exact hwf.coherent.atRest hwf.unbounded
  have hosts := hw'.hosts n c hn
  obtain ⟨s, hs⟩ := exists_getElem? hw'.fits hn
  refine ⟨s, hs, hosts.find_eq, ha'.attributes_eq hw' hn hs, fun j name params type body hj => ?_⟩
  obtain ⟨s', hs'⟩ := exists_getElem? (of_getElem? hw'.fits hs hn).features hj
  obtain ⟨m', hm'⟩ := hosts.find_method (List.mem_of_getElem? hj)
  obtain ⟨m, hm, hagrees⟩ := hd.methodAgrees hlaid hn (by rwa [← hk.get_eq]) hj
      (by rwa [← hk.get_eq])
  exact ⟨s', m', hs', hm', hagrees.kept hm hk ha' hn hs hj hs' hm'⟩

set_option maxRecDepth 10000 in
theorem atRest_after_walks_untyped :
    ((infer Sample.untyped).outcome Sample.untyped.checked = (none, Sample.untyped.walked 1) ∧
      Sample.untyped.walked 1 ≠ Sample.untyped.checked) ∧
        AtRest Sample.untyped (Sample.untyped.walked 1) := by
  obtain ⟨hcollect, hbuild, hcheck⟩ := Sample.untyped.checks (by decide +kernel)
  have hinfer := outcome_of_run Sample.untyped_runs.1
  refine ⟨⟨hinfer, fun heq => ?_⟩, atRest_after_walks hcollect hbuild hcheck (.step .refl hinfer)⟩
  have hcell : (Sample.untyped.walked 1).types.cell (.result 8 "main") ≠
      Sample.untyped.checked.types.cell (.result 8 "main") := by
    decide +kernel
  exact hcell (by rw [heq])

end Cool

end AutoCool
