import AutoCool.Proofs.Cool.CheckClasses
import AutoCool.Proofs.Cool.Declared

/-!
# Classes that stand above themselves

The checker goes through the classes in the order of their declaration and puts each one that it
finds above itself under `Object`. What it finds depends on what it has changed before: when it
comes to a class, the cycles that are left are those whose first class is still to come
(`Types.Mended`). So it changes exactly the first class of each cycle, and complains about these
classes only (`cycles_broken`).
-/

namespace AutoCool.Cool

def Complaint.isHeritage : Complaint → Bool
  | .cyclicHeritage _ => true
  | _ => false

/-- What has been said about classes that stand above themselves. -/
def Analysis.heritage (a : Analysis) : List Diagnostic :=
  a.diagnostics.toList.filter (·.complaint.isHeritage)

/-- The complaint about a class that stands above itself. -/
def ClassDecl.cyclic (c : ClassDecl) : Diagnostic := ⟨position c.name, .cyclicHeritage c.name.text⟩

variable {p : Program} {ts₀ ts : Types} {cls : TypeId} {site : Site} {scope i n : Nat}
  {method m : Option String} {c : ClassDecl}
  {cs : List ClassDecl} {f : Feature} {fs : List Feature} {a a' : Analysis}

theorem Complaint.not_isHeritage {x : Complaint} (h : x.isRoutine = true) :
    x.isHeritage = false := by
  cases x with
  | cyclicHeritage => cases h
  | _ => rfl

theorem Routine.heritage_eq (h : Routine a a') : a'.heritage = a.heritage := by
  obtain ⟨ds, hds, rfl⟩ := h
  have hnone : ds.toList.filter (·.complaint.isHeritage) = [] := by
    rw [List.filter_eq_nil_iff]
    intro d hd
    rw [Complaint.not_isHeritage (hds d (Array.mem_def.2 hd))]
    exact Bool.false_ne_true
  rw [Analysis.heritage, Array.toList_append, List.filter_append, hnone, List.append_nil,
    Analysis.heritage]

@[simp] theorem heritage_withChild : (a.withChild scope).heritage = a.heritage := rfl

theorem heritage_reported (h : d.complaint.isHeritage = false) :
    (a.reported d).heritage = a.heritage := by
  simp [Analysis.heritage, Analysis.reported, h]

mutual

theorem Visits.heritage_eq {scope : Nat} {a a' : Analysis} (h : Visits site scope e r a a') :
    a'.heritage = a.heritage :=
  match h with
  | .intro herrands _ => herrands.heritage_eq

theorem VisitsAll.heritage_eq {scope i : Nat} {a a' : Analysis}
    (h : VisitsAll site scope i es rs a a') :
    a'.heritage = a.heritage :=
  match h with
  | .nil => rfl
  | .remark (.said hsaid) hrest => hrest.heritage_eq.trans hsaid.heritage_eq
  | .remark .settled hrest => hrest.heritage_eq
  | .bare hrest => hrest.heritage_eq
  | .visit he hrest => hrest.heritage_eq.trans he.heritage_eq
  | .branch _ he hrest => hrest.heritage_eq.trans he.heritage_eq
  | .declare hrest => hrest.heritage_eq
  | .known _ hrest => hrest.heritage_eq
  | .missed _ _ hrest => hrest.heritage_eq.trans (heritage_reported rfl)

end

theorem VisitsFeature.unchanged (h : VisitsFeature site scope f m a a') :
    a'.types = a.types ∧ a'.heritage = a.heritage := by
  cases h with
  | bare => exact ⟨rfl, rfl⟩
  | value he => exact ⟨(he 0).types_eq, (he 0).heritage_eq⟩
  | method _ he => exact ⟨(he 0).types_eq, (he 0).heritage_eq⟩

theorem VisitsFeatures.unchanged (h : VisitsFeatures scope site fs m a a') :
    a'.types = a.types ∧ a'.heritage = a.heritage := by
  induction h with
  | nil => exact ⟨rfl, rfl⟩
  | cons hf _ ih => exact ⟨ih.1.trans hf.unchanged.1, ih.2.trans hf.unchanged.2⟩

/-- What the walk over the class of number `n` does when the leaders of cycles before it have been
moved. -/
theorem VisitsClass.mended (h : VisitsClass method scope c m a a')
    (hfind : a.types.find c.name.text = .ok n)
    (hname : a.types.name n = c.name.text) (htop : ts.parent? Builtin.object = none)
    (hm : Types.Mended Builtin.object n ts a.types) :
    Types.Mended Builtin.object (n + 1) ts a'.types ∧ Checking.Reparented a.types a'.types ∧
      a'.heritage = a.heritage ++ if ts.LeadsCycle n then [c.cyclic] else [] := by
  obtain ⟨hcls, hbreaks, hfeatures⟩ := h
  cases hcls.symm.trans hfind
  obtain ⟨htypes, hheritage⟩ := hfeatures.unchanged
  obtain ⟨scopes, hdefining⟩ := definingAll_eq _ scope _
  rw [hdefining] at htypes hheritage
  rw [htypes, hheritage]
  cases hbreaks with
  | broken hcycle =>
    have hleads := (hm.leads_iff htop).1 hcycle
    obtain ⟨q, hq, -⟩ := Relation.TransGen.head'_iff.1 hcycle
    refine ⟨hm.move hleads (Types.lt_size_of_parent hq), Checking.reparented_modify, ?_⟩
    rw [if_pos hleads]
    simp [Analysis.heritage, Analysis.reported, Complaint.isHeritage, ClassDecl.cyclic, hname]
  | kept hcycle =>
    have hleads := fun h => hcycle ((hm.leads_iff htop).2 h)
    refine ⟨hm.stay hleads, .refl, ?_⟩
    rw [if_neg hleads, List.append_nil]
    rfl

/-- What the walk over the classes from number `n` on does when the leaders of cycles before them
have been moved. -/
theorem VisitsClasses.mended (h : VisitsClasses method cs a a')
    (hr : Checking.Reparented ts a.types)
    (hcs : ∀ i c, cs[i]? = some c → ts.find c.name.text = .ok (n + i) ∧
      ts.name (n + i) = c.name.text)
    (htop : ts.parent? Builtin.object = none) (hm : Types.Mended Builtin.object n ts a.types) :
    Types.Mended Builtin.object (n + cs.length) ts a'.types ∧
      a'.heritage = a.heritage ++ ((cs.zipIdx n).filter fun x => ts.LeadsCycle x.2).map fun x =>
        x.1.cyclic := by
  induction h generalizing n with
  | nil => exact ⟨hm, (List.append_nil _).symm⟩
  | @cons method m c cs a a1 a' hc _ ih =>
    obtain ⟨hfind, hname⟩ := hcs 0 c rfl
    obtain ⟨hmended, hreparented, hheritage⟩ :=
      hc.mended ((hr.find_eq _).trans hfind) ((hr.name_eq _).trans hname) htop hm
    have hrest : ∀ i c, cs[i]? = some c → ts.find c.name.text = .ok (n + 1 + i) ∧
        ts.name (n + 1 + i) = c.name.text := by
      intro i c hi
      rw [Nat.add_assoc, Nat.add_comm 1 i]
      exact hcs (i + 1) c hi
    obtain ⟨hmended, hall⟩ := ih (hr.trans hreparented) hrest hmended
    refine ⟨by rwa [List.length_cons, ← Nat.add_assoc, Nat.add_right_comm], ?_⟩
    rw [hall, hheritage, List.append_assoc, List.zipIdx_cons, List.filter_cons]
    split <;> simp_all

/-- In a table in which a program's leaders of cycles have been moved, all classes stand below
`Object`. -/
theorem Declared.sub_object_of_mended (hd : Declared p ts)
    (hm : Types.Mended Builtin.object ts.entries.size ts ts') (ht : cls < ts.entries.size)
    (hplain : TypeId.kind cls = .plain) : ts'.Sub cls Builtin.object := by
  have htop : ts.parent? Builtin.object = none := hd.parent_builtin (by decide)
  obtain ⟨n, -, hdepth⟩ := (hm.acyclic htop (Nat.le_refl _)).exists_depth cls
  induction hdepth with
  | @top t hnone =>
    rw [hm.parent?_eq (Nat.le_refl _)] at hnone
    by_cases hobject : t = Builtin.object
    · exact hobject ▸ .refl
    · obtain ⟨u, hu⟩ := hd.exists_parent ht hplain hobject
      split at hnone
      · cases hnone
      · cases hnone.symm.trans hu
  | @under t u n hu _ ih =>
    refine .head hu ?_
    rw [hm.parent?_eq (Nat.le_refl _)] at hu
    split at hu
    · cases hu
      exact .refl
    · exact ih (hd.parent_lt hu) (hd.plainParents hu)

theorem mended_of_check (hd : Declared p ts)
    (hcheck : (check p).outcome { types := ts } = (none, a)) :
    Types.Mended Builtin.object ts.entries.size ts a.types ∧
      a.heritage = ((p.classes.zipIdx 8).filter fun x => ts.LeadsCycle x.2).map fun x =>
        x.1.cyclic := by
  have htop : ts.parent? Builtin.object = none := hd.parent_builtin (by decide)
  have hbuiltin : ∀ t < 8, ¬ ts.OnCycle t := by
    intro t ht hc
    obtain ⟨u, hu, hs⟩ := Relation.TransGen.head'_iff.1 hc
    rw [hd.parent_builtin ht] at hu
    split at hu
    · cases hu
      exact Types.not_onCycle_of_top htop
        (hc.of_sub (.single (by rw [hd.parent_builtin ht, if_pos (by assumption)])))
    · cases hu
  have hclasses : ∀ i c, p.classes[i]? = some c → ts.find c.name.text = .ok (8 + i) ∧
      ts.name (8 + i) = c.name.text := by
    intro i c hc
    refine ⟨hd.find_class hc, ?_⟩
    rw [Types.name, (hd.classes i c hc).get_eq]
    rfl
  have hmended := (visitsClasses_of_check hcheck).mended .refl hclasses htop
      (Types.mended_start hbuiltin)
  rwa [← hd.size_eq] at hmended

/-- For a program that is built and checked, the first class of each cycle, and no other type, gets
another parent, which is `Object`, and there is one complaint about each of these classes and none
about others. After that all classes stand below `Object`. -/
theorem cycles_broken (hcollect : (collect p.classes).outcome Builtin.types = (none, ts₀))
    (hbuild : (build p).outcome ts₀ = (none, ts))
      (hcheck : (check p).outcome { types := ts } = (none, a)) :
    (∀ i c, p.classes[i]? = some c → ts.find c.name.text = .ok (8 + i) ∧
      a.types.Sub (8 + i) Builtin.object) ∧
      a.types.parent? Builtin.object = none ∧
      (∀ t, ts.OnCycle t → ∃! u, ts.Sub t u ∧ ts.LeadsCycle u) ∧
      (∀ t, a.types.parent? t ≠ ts.parent? t ↔ ts.LeadsCycle t) ∧
      (∀ t, ts.LeadsCycle t → a.types.parent? t = some Builtin.object) ∧
      a.heritage = ((p.classes.zipIdx 8).filter fun x => ts.LeadsCycle x.2).map fun x =>
        x.1.cyclic := by
  have hd := declared_of_build hcollect hbuild
  have htop : ts.parent? Builtin.object = none := hd.parent_builtin (by decide)
  obtain ⟨hmended, hheritage⟩ := mended_of_check hd hcheck
  have hparent := hmended.parent?_eq (Nat.le_refl _)
  refine ⟨?_, ?_, ?_, ?_, ?_, hheritage⟩
  · intro i c hc
    have hlt : 8 + i < ts.entries.size := hd.find_lt (hd.find_class hc)
    exact ⟨hd.find_class hc, hd.sub_object_of_mended hmended hlt (kind_class i)⟩
  · rw [hparent, htop, if_neg]
    exact fun hleads => Types.not_onCycle_of_top htop hleads.onCycle
  · intro t ht
    obtain ⟨u, hu, hleads⟩ := ht.exists_leader
    exact ⟨u, ⟨hu, hleads⟩, fun v hv => hv.2.unique hleads hv.1 hu ht⟩
  · intro t
    rw [hparent]
    split
    · next hleads =>
      -- a leader is on a cycle, and `Object` is not
      refine iff_of_true (fun heq => ?_) hleads
      exact Types.not_onCycle_of_top htop (hleads.onCycle.of_sub (.single heq.symm))
    · next hleads => exact iff_of_false (fun hne => hne rfl) hleads
  · intro t hleads
    rw [hparent, if_pos hleads]

/-- A cycle of two classes with a class below it, and a class under itself. -/
def Sample.cycles : Program where
  classes := [
    { name := word "B", parent := some (word "A"), features := [] },
    { name := word "S", parent := some (word "S"), features := [] },
    { name := word "C", parent := some (word "B"), features := [] },
    { name := word "A", parent := some (word "B"), features := [] }]

theorem cycles_broken_two :
    Sample.cycles.types.OnCycle 11 ∧ Sample.cycles.types.LeadsCycle 8 ∧
      Sample.cycles.checked.types.parent? 8 = some Builtin.object ∧
      (Sample.cycles.checked.types.parent? 10 ≠ Sample.cycles.types.parent? 10 ↔
        Sample.cycles.types.LeadsCycle 10) ∧
      Sample.cycles.checked.heritage.map (·.complaint) =
        [.cyclicHeritage "B", .cyclicHeritage "S"] := by
  obtain ⟨hcollect, hbuild, hcheck⟩ := Sample.cycles.checks (by decide +kernel)
  obtain ⟨-, -, -, hchanged, hmoved, hheritage⟩ := cycles_broken hcollect hbuild hcheck
  have hleads : Sample.cycles.types.LeadsCycle 8 := by decide +kernel
  refine ⟨hleads.onCycle.of_sub (.single (by decide +kernel)), hleads, hmoved 8 hleads,
    hchanged 10, ?_⟩
  rw [hheritage]
  decide +kernel

end AutoCool.Cool
