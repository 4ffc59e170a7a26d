import AutoCool.Proofs.Cool.InferTrace

/-!
# The table and the scopes say the same

The type of an attribute or a parameter stands in the table and in a variable of some scope. Both
are declared with one type, and inference writes them together (`Aligned`). A type is written only
where none was known (`Settles`): inference fills in what was left open and changes nothing else,
and what it has filled in stays (`known_types_stay`).
-/

namespace AutoCool.Cool

variable {p : Program} {t : ScopeTree} {ts ts' : Types} {s i j n : Nat} {a a' a'' : Analysis}
  {v w : VarId} {cell cell' : Cell}
  {c : ClassDecl} {name : String}

/-! ## One variable for each place -/

/-- The methods of each class have different names. -/
def DistinctMethods (p : Program) : Prop :=
  ∀ c ∈ p.classes, ∀ (j j' : Nat) name params type body name' params' type' body',
    c.features[j]? = some (.method name params type body) →
    c.features[j']? = some (.method name' params' type' body') → name.text = name'.text → j = j'

theorem eq_of_getElem? {l : List α} (hl : l.Nodup) (hi : l[i]? = some x) (hj : l[j]? = some x) :
    i = j := by
  obtain ⟨hlt, -⟩ := List.getElem?_eq_some_iff.1 hi
  exact (List.getElem?_inj hlt hl).1 (hi.trans hj.symm)

theorem Home.not_inner (ht : t.Tidy) (h : Home p t cell v) (hs : Inner t s) :
    v ∉ (t.get s).locals.map (·.2) := by
  intro hv
  obtain ⟨i, j, k, hi, hj, hk⟩ := hs
  match h with
  | .attribute _ hc hlookup =>
    obtain rfl := ht.owner _ _ v (ScopeTree.mem_of_lookup hlookup) hv
    cases hi.symm.trans (ht.parent_eq _ _ (List.mem_of_getElem? hc))
    cases hj.symm.trans ht.root_eq
  | .param _ hc _ hf hx =>
    obtain rfl := ht.owner _ _ _ (List.mem_map.2 ⟨_, List.mem_of_getElem? hx, rfl⟩) hv
    cases hi.symm.trans (ht.parent_eq _ _ (List.mem_of_getElem? hf))
    cases hj.symm.trans (ht.parent_eq _ _ (List.mem_of_getElem? hc))
    cases hk.symm.trans ht.root_eq

theorem Home.attribute_ne_param (ht : t.Tidy) (hs : s ∈ (t.get ScopeTree.root).children)
    (hs' : s' ∈ (t.get ScopeTree.root).children) (hi : i ∈ (t.get s').children)
    (hv : v ∈ (t.get s).locals.map (·.2)) : v ∉ (t.get i).locals.map (·.2) := by
  intro hv'
  obtain rfl := ht.owner _ _ v hv hv'
  cases (ht.parent_eq _ _ hs).symm.trans (ht.parent_eq _ _ hi)
  cases (ht.parent_eq _ _ hs').symm.trans ht.root_eq

theorem mem_map_snd {l : List (α × β)} (h : l[i]? = some (x, y)) : y ∈ l.map (·.2) :=
  List.mem_map.2 ⟨_, List.mem_of_getElem? h, rfl⟩

theorem getElem?_map_snd {l : List (α × β)} (h : l[i]? = some (x, y)) :
    (l.map (·.2))[i]? = some y := by
  rw [List.getElem?_map, h]
  rfl

theorem mem_of_lookup_eq {l : List (String × VarId)} (h : l.lookup name = some v) :
    (name, v) ∈ l := by
  obtain ⟨l1, l2, rfl, -⟩ := List.lookup_eq_some_iff.1 h
  simp

theorem Home.cell_eq (ht : t.Tidy) (h : Home p t cell v) (h' : Home p t cell' v) :
    cell = cell' := by
  match h, h' with
  | .attribute _ hs hlookup, .attribute _ hs' hlookup' =>
    obtain rfl := ht.owner _ _ v (ScopeTree.mem_of_lookup hlookup)
        (ScopeTree.mem_of_lookup hlookup')
    obtain rfl := eq_of_getElem? (ht.children_nodup _) hs hs'
    cases List.inj_on_of_nodup_map (ht.nodup _) (mem_of_lookup_eq hlookup)
      (mem_of_lookup_eq hlookup') rfl
    rfl
  | .attribute _ hs hlookup, .param _ hs' _ hi hx =>
    exact absurd (mem_map_snd hx) (attribute_ne_param ht (List.mem_of_getElem? hs)
      (List.mem_of_getElem? hs') (List.mem_of_getElem? hi)
      (ScopeTree.mem_of_lookup hlookup))
  | .param _ hs' _ hi hx, .attribute _ hs hlookup =>
    exact absurd (mem_map_snd hx) (attribute_ne_param ht (List.mem_of_getElem? hs)
      (List.mem_of_getElem? hs') (List.mem_of_getElem? hi)
      (ScopeTree.mem_of_lookup hlookup))
  | .param hn hs hj hi hx, .param hn' hs' hj' hi' hx' =>
    obtain rfl := ht.owner _ _ v (mem_map_snd hx) (mem_map_snd hx')
    cases (ht.parent_eq _ _ (List.mem_of_getElem? hi)).symm.trans
      (ht.parent_eq _ _ (List.mem_of_getElem? hi'))
    obtain rfl := eq_of_getElem? (ht.children_nodup _) hs hs'
    obtain rfl := eq_of_getElem? (ht.children_nodup _) hi hi'
    cases Option.some.inj (hn.symm.trans hn')
    cases Option.some.inj (hj.symm.trans hj')
    have hindex := eq_of_getElem? (ht.nodup _) (getElem?_map_snd hx) (getElem?_map_snd hx')
    rw [Nat.add_right_cancel hindex]

theorem Home.var_eq (hp : DistinctMethods p) (h : Home p t cell v) (h' : Home p t cell w) :
    v = w := by
  match h with
  | .attribute hn hs hlookup =>
    generalize hcell : Cell.attribute _ _ = cell at h'
    match h' with
    | .attribute hn' hs' hlookup' =>
      obtain ⟨hn_eq, rfl⟩ := Cell.attribute.inj hcell
      obtain rfl := Nat.add_left_cancel hn_eq
      cases hs.symm.trans hs'
      exact Option.some.inj (hlookup.symm.trans hlookup')
    | .param .. => cases hcell
  | .param hn hs hj hi hx =>
    generalize hcell : Cell.param _ _ _ = cell at h'
    match h' with
    | .attribute .. => cases hcell
    | .param hn' hs' hj' hi' hx' =>
      obtain ⟨hn_eq, hname, rfl⟩ := Cell.param.inj hcell
      obtain rfl := Nat.add_left_cancel hn_eq
      cases hn.symm.trans hn'
      cases hs.symm.trans hs'
      obtain rfl := hp _ (List.mem_of_getElem? hn) _ _ _ _ _ _ _ _ _ _ hj hj' hname
      cases hi.symm.trans hi'
      cases hx.symm.trans hx'
      rfl

/-! ## What a step keeps -/

/-- The types in the table are those of the variables that stand for them. -/
structure Aligned (p : Program) (a : Analysis) : Prop where
  tidy : a.scopes.Tidy
  wellFormed : a.types.WellFormed
  coherent : a.scopes.Coherent
  home : ∀ cell v, Home p a.scopes cell v → a.types.cell cell = some (a.scopes.getVar v).type

/-- Nothing but types changed, and only those that were not known. -/
structure Keeps (a a' : Analysis) : Prop where
  context_eq : a'.types.context = a.types.context
  outline_eq : ∀ t, (a'.types.get t).outline = (a.types.get t).outline
  get_eq : ∀ s, a'.scopes.get s = a.scopes.get s
  evolves : ∀ v, Variable.Evolves (a.scopes.getVar v) (a'.scopes.getVar v)
  cells : ∀ cell, Option.Rel Settles (a.types.cell cell) (a'.types.cell cell)
  vars : ∀ v, Settles (a.scopes.getVar v).type (a'.scopes.getVar v).type

theorem rel_refl (o : Option TypeId) : Option.Rel Settles o o := by
  cases o with
  | none => exact .none
  | some t => exact .some (.refl t)

theorem Keeps.refl : Keeps a a :=
  ⟨rfl, fun _ => rfl, fun _ => rfl, fun _ => .refl, fun _ => rel_refl _, fun _ => .refl _⟩

theorem Keeps.trans (h : Keeps a a') (h' : Keeps a' a'') : Keeps a a'' where
  context_eq := h'.context_eq.trans h.context_eq
  outline_eq t := (h'.outline_eq t).trans (h.outline_eq t)
  get_eq s := (h'.get_eq s).trans (h.get_eq s)
  evolves v := (h.evolves v).trans (h'.evolves v)
  cells cell := by
    have h1 := h.cells cell
    have h2 := h'.cells cell
    generalize a.types.cell cell = o at *
    generalize a'.types.cell cell = o' at *
    generalize a''.types.cell cell = o'' at *
    cases h1 with
    | none => exact h2
    | some hs =>
      cases h2 with
      | some hs' => exact .some (hs.trans hs')
  vars v := (h.vars v).trans (h'.vars v)

theorem settles_modify (h : v < t.vars.size → Settles (t.getVar v).type (f (t.getVar v)).type)
    (w : VarId) : Settles (t.getVar w).type ((t.modify v f).getVar w).type := by
  rw [ScopeTree.getVar_modify]
  split
  · next hw =>
    rw [hw.1]
    exact h hw.2
  · exact .refl _

open Inferring

theorem type_modify (h : ∀ x, (f x).type = x.type) (w : VarId) :
    ((t.modify v f).getVar w).type = (t.getVar w).type :=
  ScopeTree.forall_modify (R := fun x y => y.type = x.type) (fun _ => rfl) (h _) w

theorem type_inferredTo (ha : a.scopes.Coherent)
    (hy : a.types.infer (a.scopes.getVar v) = .ok (false, y)) (w : VarId) :
    ((inferredTo a v false y).scopes.getVar w).type = (a.scopes.getVar w).type := by
  rw [inferredTo, ScopeTree.getVar_modify]
  split
  · next hw => rw [hw.1, Types.type_of_infer_false (ha v hw.2) hy]
  · rfl

theorem Keeps.of_types_eq (htypes : a'.types = a.types)
    (hget : ∀ s, a'.scopes.get s = a.scopes.get s)
    (he : ∀ v, Variable.Evolves (a.scopes.getVar v) (a'.scopes.getVar v))
    (hvars : ∀ v, Settles (a.scopes.getVar v).type (a'.scopes.getVar v).type) : Keeps a a' where
  context_eq := by rw [htypes]
  outline_eq _ := by rw [htypes]
  get_eq := hget
  evolves := he
  cells _ := by
    rw [htypes]
    exact rel_refl _
  vars := hvars

theorem Aligned.congr (ha : Aligned p a) (hk : Keeps a a') (htypes : a'.types = a.types)
    (hsize : a'.scopes.vars.size = a.scopes.vars.size)
    (hvars : ∀ v, (a'.scopes.getVar v).type = (a.scopes.getVar v).type) : Aligned p a' where
  tidy := ha.tidy.congr hk.get_eq
  wellFormed := htypes ▸ ha.wellFormed
  coherent v hv := (hk.evolves v).coherent (ha.coherent v (hsize ▸ hv))
  home cell v h := by
    rw [htypes, hvars]
    exact ha.home cell v (h.congr fun s => (hk.get_eq s).symm)

/-- A step that writes the type of a variable and the place that it stands for, if there is one. -/
theorem Aligned.written (ha : Aligned p a) (hp : DistinctMethods p)
    (hy : a.types.infer (a.scopes.getVar v) = .ok (true, y))
    (hscopes : a'.scopes = a.scopes.modify v fun _ => y) (hrefines : a.types.Refines a'.types)
    (houtline : ∀ t, (a'.types.get t).outline = (a.types.get t).outline)
    (hwritten : ∀ c, Home p a.scopes c v → a'.types.cell c = some y.type)
    (hrest : ∀ c, ¬ Home p a.scopes c v → a'.types.cell c = a.types.cell c) :
    Keeps a a' ∧ Aligned p a' := by
  have hv : v < a.scopes.vars.size := lt_size_of_known hy
  have hsettles := Types.settles_infer (ha.coherent v hv) hy
  have hget : ∀ s, a'.scopes.get s = a.scopes.get s := fun _ => by rw [hscopes]; rfl
  have hevolves : ∀ w, Variable.Evolves (a.scopes.getVar w) (a'.scopes.getVar w) := by
    rw [hscopes]
    exact ScopeTree.forall_modify (fun _ => .refl) (Types.infer_eq_ok hy).1
  refine ⟨⟨hrefines.context_eq, houtline, hget, hevolves, fun c => ?_, ?_⟩,
    ha.tidy.congr hget, hrefines.wellFormed ha.wellFormed, fun w hw =>
      (hevolves w).coherent (ha.coherent w ?_), fun c w h => ?_⟩
  · by_cases hc : Home p a.scopes c v
    · rw [hwritten c hc, ha.home c v hc]
      exact .some hsettles
    · rw [hrest c hc]
      exact rel_refl _
  · rw [hscopes]
    exact settles_modify fun _ => hsettles
  · rwa [hscopes, ScopeTree.size_vars_modify] at hw
  · have h := h.congr fun s => (hget s).symm
    rw [hscopes, ScopeTree.getVar_modify]
    by_cases hw : w = v
    · subst hw
      rw [hwritten c h, if_pos ⟨rfl, hv⟩]
    · rw [hrest c fun hc => hw (Home.var_eq hp h hc), if_neg fun h => hw h.1, ha.home c w h]

/-- Among the places, only that of a variable is written. -/
theorem Home.written (ht : t.Tidy) (hhome : Home p t cell v) (hcell : ∃ w, ts.cell cell = some w)
    (hwritten : ∀ c, ts'.cell c = if c = cell then (ts.cell c).map fun _ => u else ts.cell c) :
    (∀ c, Home p t c v → ts'.cell c = some u) ∧ ∀ c, ¬ Home p t c v → ts'.cell c = ts.cell c := by
  refine ⟨fun c hc => ?_, fun c hc => ?_⟩
  · obtain ⟨w, hw⟩ := hcell
    obtain rfl := Home.cell_eq ht hc hhome
    rw [hwritten, if_pos rfl, hw]
    rfl
  · rw [hwritten, if_neg]
    rintro rfl
    exact hc hhome

theorem Infers.keeps (hp : DistinctMethods p) (ha : Aligned p a) (h : Infers p a a') :
    Keeps a a' ∧ Aligned p a' := by
  have hrefines := h.refines ha.wellFormed
  cases h with
  | @forget v y hy =>
    have hvars := type_inferredTo ha.coherent hy
    have hk : Keeps a (inferredTo a v false y) := .of_types_eq rfl (fun _ => rfl)
      (ScopeTree.forall_modify (fun _ => .refl) (Types.infer_eq_ok hy).1) fun w => .inl (hvars w)
    exact ⟨hk, ha.congr hk rfl (by simp [inferredTo]) hvars⟩
  | @learn v y types f hy hl =>
    obtain ⟨hs, hmem⟩ | hhome | hhome := hl
    · exact ha.written hp hy rfl hrefines (fun _ => rfl)
        (fun c hc => absurd hmem (hc.not_inner ha.tidy hs)) fun _ _ => rfl
    · obtain ⟨hwritten, hrest⟩ := hhome.written ha.tidy ⟨_, ha.home _ _ hhome⟩ fun _ =>
          Types.cell_modifyAttribute
      exact ha.written hp hy rfl hrefines (fun _ => Types.outline_modifyAttribute fun _ => rfl)
        hwritten hrest
    · obtain ⟨hwritten, hrest⟩ := hhome.written ha.tidy ⟨_, ha.home _ _ hhome⟩ fun _ =>
          Types.cell_modifyParam
      exact ha.written hp hy rfl hrefines (fun _ => Types.outline_modifyMethod fun _ =>
        ⟨rfl, rfl, rfl, List.length_set⟩)
        hwritten hrest
  | @result cls m r y hm hy =>
    have hmem := List.mem_of_find?_eq_some hm
    have hwf := ha.wellFormed cls m hmem
    have hcoherent := (Variable.evolves_addLower (t := r)).coherent hwf.coherent
    have hcell : a.types.cell (.result cls m.name) = some m.returnType := by
      rw [Types.cell, hm]; rfl
    have hsettles : Settles m.returnType y.type := by
      have := Types.settles_infer hcoherent hy
      rwa [Variable.addLower_type, hwf.type_eq] at this
    refine ⟨⟨rfl, fun _ => Types.outline_modifyMethod fun _ => ⟨rfl, rfl, rfl, rfl⟩, fun _ => rfl,
      fun _ => .refl, fun c => ?_,
      fun _ => .refl _⟩, ha.tidy, hrefines.wellFormed ha.wellFormed, ha.coherent, fun c w h => ?_⟩
    · rw [Types.cell_modifyResult]
      split
      · next heq =>
        rw [heq, hcell]
        exact .some hsettles
      · exact rel_refl _
    · rw [Types.cell_modifyResult, if_neg, ha.home c w h]
      rintro rfl
      cases h

theorem Step.keeps (hp : DistinctMethods p) (ha : Aligned p a) (h : Step p a a') :
    Keeps a a' ∧ Aligned p a' := by
  -- bounds do not count
  have hbound : ∀ {v} {f : Variable → Variable}, (∀ x, Variable.Evolves x (f x)) →
      (∀ x, (f x).type = x.type) →
      Keeps a { a with scopes := a.scopes.modify v f } ∧
        Aligned p { a with scopes := a.scopes.modify v f } := by
    intro v f he ht
    have hk : Keeps a { a with scopes := a.scopes.modify v f } :=
      .of_types_eq rfl (fun _ => rfl) (ScopeTree.forall_modify (fun _ => .refl) (he _)) fun w =>
        .inl (type_modify ht w)
    exact ⟨hk, ha.congr hk rfl (by simp) (type_modify ht)⟩
  have hquiet : ∀ a', a'.types = a.types → a'.scopes = a.scopes → Keeps a a' ∧ Aligned p a' := by
    intro a' htypes hscopes
    have hk : Keeps a a' := .of_types_eq htypes (fun _ => by rw [hscopes])
        (fun _ => by rw [hscopes]; exact .refl)
      fun _ => .inl (by rw [hscopes])
    exact ⟨hk, ha.congr hk htypes (by rw [hscopes]) fun _ => by rw [hscopes]⟩
  cases h with
  | restart => exact hquiet _ rfl rfl
  | note => exact hquiet _ rfl rfl
  | upper => exact hbound (fun _ => Variable.evolves_addUpper) fun x => x.addUpper_type _
  | lower => exact hbound (fun _ => Variable.evolves_addLower) fun x => x.addLower_type _
  | infers h => exact h.keeps hp ha

theorem Steps.keeps (hp : DistinctMethods p) (ha : Aligned p a) (h : Steps p a a') :
    Keeps a a' ∧ Aligned p a' := by
  induction h with
  | refl => exact ⟨.refl, ha⟩
  | tail _ hstep ih =>
    obtain ⟨hk, ha⟩ := hstep.keeps hp ih.2
    exact ⟨ih.1.trans hk, ha⟩

/-! ## What the checker leaves -/

theorem Declared.distinctMethods (h : Declared p ts) : DistinctMethods p := by
  intro c hc j j' name params type body name' params' type' body' hj hj' hname
  obtain ⟨n, hn⟩ := List.mem_iff_getElem?.1 hc
  have hclass := h.classes n c hn
  have hnodup : (c.features.filterMap fun f => (f.method? ts).map (·.name)).Nodup := by
    have hmethods := hclass.distinct.2
    rw [hclass.get_eq] at hmethods
    simpa [withFeatures, List.map_filterMap] using hmethods
  -- of two methods with one name the first one would come before the second one
  have hlt : ∀ {j j' : Nat} {f f' : Feature} {n : String}, c.features[j]? = some f →
      c.features[j']? = some f' →
      (f.method? ts).map (·.name) = some n → (f'.method? ts).map (·.name) = some n → ¬ j < j' := by
    intro j j' f f' n hj hj' hf hf' hlt
    obtain ⟨hsize, rfl⟩ := List.getElem?_eq_some_iff.1 hj
    obtain ⟨hsize', rfl⟩ := List.getElem?_eq_some_iff.1 hj'
    exact List.pairwise_iff_getElem.1 (List.pairwise_filterMap.1 hnodup) _ _ hsize hsize' hlt n hf
      n hf' rfl
  have hle := hlt hj hj' rfl (by rw [hname]; rfl)
  have hge := hlt hj' hj rfl (by rw [← hname]; rfl)
  omega

theorem find?_eq_lookup {as : List Attribute} {l : List (String × VarId)}
    (h : (l.map fun x => (x.1, f x.2)) = as.map fun x => (x.name, x.type)) :
    (as.find? (·.name == name)).map (·.type) = (l.lookup name).map f := by
  induction as generalizing l with
  | nil =>
    rw [List.map_nil, List.map_eq_nil_iff] at h
    rw [h]
    rfl
  | cons x as ih =>
    cases l with
    | nil => cases h
    | cons y l =>
      obtain ⟨hxy, h⟩ := List.cons.inj h
      obtain ⟨hname, htype⟩ := Prod.mk.inj hxy
      rw [List.find?_cons, List.lookup_cons, hname, BEq.comm]
      cases name == x.name with
      | true =>
        rw [Option.map_some, Option.map_some, htype]
      | false => exact ih h

theorem of_getElem? (h : List.Forall₂ R l l')
    (hx : l[n]? = some x) (hy : l'[n]? = some y) : R x y := by
  obtain ⟨hn, rfl⟩ := List.getElem?_eq_some_iff.1 hx
  obtain ⟨hn', rfl⟩ := List.getElem?_eq_some_iff.1 hy
  exact h.get hn hn'

theorem getElem?_typedLocals (h : (t.get s).locals[i]? = some (x, v)) :
    (t.typedLocals s)[i]? = some (x, (t.getVar v).type) := by
  rw [ScopeTree.typedLocals, List.getElem?_map, h]
  rfl

theorem Declared.aligned (hd : Declared p ts) (hlaid : LaidClasses p.classes { types := ts } a) :
    Aligned p a := by
  have hwalkable := hd.walkable hlaid
  refine ⟨hwalkable.tidy, hwalkable.wellFormed, hwalkable.coherent, fun cell v h => ?_⟩
  obtain ⟨is, hroot, hfits, -⟩ := hlaid.laid
  have hchildren : (a.scopes.get ScopeTree.root).children = is := by
    rw [hroot]
    rfl
  rw [← hchildren] at hfits
  match h with
  | .attribute hn hs hlookup =>
    have htyped := (of_getElem? hfits hs hn).2.attributes _ (hd.find_class hn)
    rw [Types.cell, hlaid.types.attributes_eq]
    refine (find?_eq_lookup (f := fun v => (a.scopes.getVar v).type) htyped).trans ?_
    rw [hlookup]
    rfl
  | .param hn hs hj hi hx =>
    have hclass := hd.classes _ _ hn
    have hm := find?_of_nodup hclass.distinct.2 (hclass.mem_methods (List.mem_of_getElem? hj) rfl)
    have htyped := of_getElem? ((of_getElem? hfits hs hn).2.features _ (hd.find_class hn)) hi hj _ _
        _ _ _ rfl hm
    have hlocal := getElem?_typedLocals hx
    rw [htyped, List.getElem?_cons_succ, List.getElem?_zip_eq_some] at hlocal
    rw [Types.cell, hlaid.types.methods_eq]
    refine Eq.trans (congrArg (Option.bind · _) hm) ?_
    exact hlocal.2

theorem Checking.Reparented.cell_eq (h : Checking.Reparented ts ts') :
    ts'.cell cell = ts.cell cell := by
  match cell with
  | .attribute .. => rw [Types.cell, Types.cell, h.attributes_eq]
  | .param .. => rw [Types.cell, Types.cell, h.methods_eq]
  | .result .. => rw [Types.cell, Types.cell, h.methods_eq]

/-! ## Known types -/

theorem Keeps.cell_eq (h : Keeps a a') (hcell : a.types.cell cell = some u) (hu : u ≠ TypeId.auto) :
    a'.types.cell cell = some u := by
  have hrel := h.cells cell
  rw [hcell] at hrel
  generalize a'.types.cell cell = o at hrel
  cases hrel with
  | some hs => rw [hs.eq_of_ne hu]

theorem Keeps.cell_ne_error (h : Keeps a a') (hcell : a.types.cell cell = some TypeId.auto)
    (hcell' : a'.types.cell cell = some u) (hu : u ≠ TypeId.auto) : u ≠ TypeId.error := by
  have hrel := h.cells cell
  rw [hcell, hcell'] at hrel
  cases hrel with
  | some hs => exact (hs.resolve_left hu).2.2

/-- Whatever the number of walks of inference, nothing in the table and the scopes changes but types
that were declared as ones to be inferred. Once such a type is known it is a proper one and stays. A
type that stands in the table and in a scope is the same in both. -/
theorem known_types_stay {ts₀ : Types}
    (hcollect : (collect p.classes).outcome Builtin.types = (none, ts₀))
    (hbuild : (build p).outcome ts₀ = (none, ts))
      (hcheck : (check p).outcome { types := ts } = (none, a)) (hafter : After p a a')
    (hlater : After p a' a'') :
    (∀ cell u, ts.cell cell = some u → u ≠ TypeId.auto → a'.types.cell cell = some u) ∧
      (∀ v, (a.scopes.getVar v).type ≠ TypeId.auto →
        (a'.scopes.getVar v).type = (a.scopes.getVar v).type) ∧
      (∀ t, (a'.types.get t).outline = (a.types.get t).outline) ∧
        a'.types.context = a.types.context ∧
      (∀ s, a'.scopes.get s = a.scopes.get s) ∧
        (∀ v, (a'.scopes.getVar v).name = (a.scopes.getVar v).name) ∧
      (∀ cell u, ts.cell cell = some TypeId.auto → a'.types.cell cell = some u → u ≠ TypeId.auto →
        u ≠ TypeId.error ∧ a''.types.cell cell = some u) ∧
      (∀ v, (a.scopes.getVar v).type = TypeId.auto → (a'.scopes.getVar v).inferred = true →
        (a'.scopes.getVar v).type ≠ TypeId.auto ∧ (a'.scopes.getVar v).type ≠ TypeId.error ∧
          a''.scopes.getVar v = a'.scopes.getVar v) ∧
      (∀ cell v, Home p a.scopes cell v → a'.types.cell cell = some (a'.scopes.getVar v).type) ∧
      ∀ t, ∀ m ∈ (a'.types.get t).methods, m.result.type = m.returnType := by
  have hd := declared_of_build hcollect hbuild
  have hlaid := laidClasses_of_check hd.find_ne_auto hcheck
  have hwalkable := hd.walkable hlaid
  have hcell : ∀ cell, a.types.cell cell = ts.cell cell := fun _ => hlaid.types.cell_eq
  obtain ⟨hk, ha'⟩ := (hafter.steps hwalkable).keeps hd.distinctMethods (hd.aligned hlaid)
  obtain ⟨hk', -⟩ := (hlater.steps (hafter.walkable hwalkable).1).keeps hd.distinctMethods ha'
  refine ⟨fun cell u h hu => hk.cell_eq ((hcell _).trans h) hu, fun v hv => (hk.vars v).eq_of_ne hv,
    hk.outline_eq, hk.context_eq,
    hk.get_eq, fun v => (hk.evolves v).name_eq, fun cell u h h' hu =>
      ⟨hk.cell_ne_error ((hcell _).trans h) h' hu, hk'.cell_eq h' hu⟩,
    fun v hv hinferred => ?_, fun cell v h => ha'.home cell v (h.congr hk.get_eq), fun t m hm =>
      (ha'.wellFormed t m hm).type_eq⟩
  have hne : (a'.scopes.getVar v).type ≠ TypeId.auto := by
    have hcoherent := (ha'.coherent v (ScopeTree.lt_size_of_inferred hinferred)).inferred_eq
    rw [hinferred] at hcoherent
    simpa using hcoherent.symm
  have hsettles := (hk.vars v).resolve_left fun heq => hne (heq.trans hv)
  exact ⟨hne, hsettles.2.2, (hk'.evolves v).known hinferred⟩

/-- An attribute, a parameter, a result and a variable of a `let` whose types are all to be
inferred. -/
def Sample.untyped : Program where
  classes := [
    { name := word "Main"
      features := [
        .attribute (word "x") (word "AUTO_TYPE") (some (.atom .integer (word "1"))),
        .method (word "main") [⟨word "y", word "AUTO_TYPE"⟩] (word "AUTO_TYPE")
          (.letIn [.mk (word "z") (word "AUTO_TYPE")
            (some (.binary .plus (.atom .name (word "x")) (.atom .name (word "y"))))]
            (.atom .name (word "z")))] }]

set_option maxRecDepth 10000 in
theorem Sample.untyped_runs : (infer Sample.untyped).run.run (Sample.untyped.walked 0) =
    (.ok true, Sample.untyped.walked 1) ∧ (infer Sample.untyped).run.run (Sample.untyped.walked 1) =
      (.ok false, Sample.untyped.walked 2) :=
  ⟨Program.run_walked (by decide +kernel), Program.run_walked (by decide +kernel)⟩

set_option maxRecDepth 10000 in
theorem known_types_stay_untyped :
    (Sample.untyped.types.cell (.result 8 "main") = some TypeId.auto ∧
      (Sample.untyped.walked 1).types.cell (.result 8 "main") = some Builtin.int) ∧
    (Builtin.int ≠ TypeId.error ∧ (Sample.untyped.walked 2).types.cell (.result 8 "main") =
      some Builtin.int) := by
  obtain ⟨hcollect, hbuild, hcheck⟩ := Sample.untyped.checks (by decide +kernel)
  obtain ⟨hrun₁, hrun₂⟩ := Sample.untyped_runs
  have hauto : Sample.untyped.types.cell (.result 8 "main") = some TypeId.auto := by decide +kernel
  have hknown : (Sample.untyped.walked 1).types.cell (.result 8 "main") = some Builtin.int := by
    decide +kernel
  obtain ⟨-, -, -, -, -, -, hlater, -⟩ :=
    known_types_stay hcollect hbuild hcheck (.step .refl (outcome_of_run hrun₁))
    (.step .refl (outcome_of_run hrun₂))
  exact ⟨⟨hauto, hknown⟩, hlater _ _ hauto hknown (by decide)⟩

end AutoCool.Cool
