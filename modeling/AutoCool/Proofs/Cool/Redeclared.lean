import AutoCool.Proofs.Cool.Declared
import AutoCool.Proofs.Types.Cycle

/-!
# Attributes that are declared again

An attribute is new when it is declared: neither its type nor one above it has an attribute of that
name. But the classes get their parents and attributes one after the other, so this says nothing
about what stands above a class that is declared later. What holds in the end is this: where a type
has an attribute and a type above it has one of the same name, a class that is declared later stands
between them, or is the upper one (`redeclared_below_later`).
-/

namespace AutoCool

namespace Types

variable {ts ts' : Types} {t u v : TypeId} {name : String}

theorem climb_eq_none (h : ts.climb has fuel t = .ok none) (hs : ts.Sub t u) :
    has (ts.get u) = none := by
  induction fuel generalizing t with
  | zero => cases h
  | succ fuel ih =>
    rw [climb] at h
    split at h
    · cases h
    · next hnone =>
      rcases Relation.ReflTransGen.cases_head hs with rfl | ⟨v, hv, hs⟩
      · exact hnone
      · rw [hv] at h
        exact ih h hs

theorem climb_eq_error (h : ts.climb has fuel t = .error f) : f = .cyclic := by
  induction fuel generalizing t with
  | zero =>
    cases h
    rfl
  | succ fuel ih =>
    rw [climb] at h
    split at h
    · cases h
    · split at h
      · cases h
      · exact ih h

theorem climb_of_defineAttribute (h : ts.defineAttribute t name v = .ok ts') :
    ts.climb (fun e => e.attributes.find? (·.name == name)) ts.height t = .ok none := by
  unfold defineAttribute findAttribute at h
  cases hc : ts.climb (fun e => e.attributes.find? (·.name == name)) ts.height t with
  | error f =>
    rw [hc, climb_eq_error hc] at h
    cases h
  | ok r =>
    rw [hc] at h
    cases r with
    | none => rfl
    | some r => cases h

theorem ne_of_defineAttribute (h : ts.defineAttribute t name v = .ok ts') (hs : ts.Sub t u) :
    ∀ y ∈ (ts.get u).attributes, y.name ≠ name := by
  simpa using climb_eq_none (climb_of_defineAttribute h) hs

theorem Sub.congr (h : ∀ t, ts'.parent? t = ts.parent? t) (hs : ts'.Sub t u) : ts.Sub t u :=
  Relation.ReflTransGen.mono (fun v _ hv => (h v).symm.trans hv) t u hs

/-- A type stands above another one, and all in between, like itself, has no higher number than the
lower one. -/
def Before (ts : Types) (t : TypeId) : TypeId → Prop :=
  Relation.ReflTransGen (fun v w => ts.parent? v = some w ∧ w ≤ t) t

theorem Before.sub (h : ts.Before t u) : ts.Sub t u :=
  Relation.ReflTransGen.mono (fun _ _ hv => hv.1) t u h

theorem Before.le (h : ts.Before t u) : u ≤ t := by
  rcases Relation.ReflTransGen.cases_tail h with rfl | ⟨v, -, hv⟩
  · exact Nat.le_refl _
  · exact hv.2

theorem Before.congr (hts : ∀ v ≤ t, ts'.parent? v = ts.parent? v) (h : ts'.Before t u) :
    ts.Before t u := by
  induction h with
  | refl => exact .refl
  | @tail v w _ hw ih => exact ih.tail ⟨(hts v ih.le).symm.trans hw.1, hw.2⟩

/-- If not all up to a type has a lower number, some type on the way has a higher one. -/
theorem Sub.before_or_later (h : ts.Sub t u) :
    ts.Before t u ∨ ∃ v, Relation.TransGen (fun t u => ts.parent? t = some u) t v ∧ ts.Sub v u ∧
    t < v := by
  induction h with
  | refl => exact .inl .refl
  | @tail w u hsub hu ih =>
    rcases ih with hbefore | ⟨v, hv, hs, hlt⟩
    · rcases Nat.lt_or_ge t u with hlt | hle
      · exact .inr ⟨u, Relation.TransGen.tail' hsub hu, .refl, hlt⟩
      · exact .inl (hbefore.tail ⟨hu, hle⟩)
    · exact .inr ⟨v, hv, hs.tail hu, hlt⟩

/-- No other type among some has an attribute of the same name as one of a type. -/
def New (ts : Types) (t : TypeId) (among : TypeId → Prop) : Prop :=
  ∀ x ∈ (ts.get t).attributes, ∀ u ≠ t, among u → ∀ y ∈ (ts.get u).attributes, y.name ≠ x.name

/-- What has a lower number than a type decides if its attributes are new to what stands before
it. -/
theorem New.congr (h : ts.New t (ts.Before t)) (hts : ∀ v ≤ t, ts'.get v = ts.get v) :
    ts'.New t (ts'.Before t) := by
  intro x hx u hne hu y hy
  rw [hts t (Nat.le_refl t)] at hx
  rw [hts u hu.le] at hy
  exact h x hx u hne (hu.congr fun v hv => congrArg TypeEntry.parent (hts v hv)) y hy

/-- A change of a type that keeps its parent makes it no more than new to what stands above it. -/
theorem New.modify (ht : t < ts.entries.size) (hparent : ∀ e, (g e).parent = e.parent)
    (hnew : ∀ x ∈ (g (ts.get t)).attributes, ∀ u ≠ t, ts.Sub t u → ∀ y ∈ (ts.get u).attributes,
      y.name ≠ x.name) : (ts.modify t g).New t ((ts.modify t g).Sub t) := by
  intro x hx u hne hs y hy
  rw [get_modify ht, if_pos rfl] at hx
  rw [get_modify ht, if_neg hne] at hy
  refine hnew x hx u hne (hs.congr fun v => ?_) y hy
  rw [parent?, get_modify ht]
  split
  · next hv => rw [hparent, hv, parent?]
  · rfl

end Types

namespace Cool

variable {p : Program} {ts₀ ts : Types} {t : TypeId} {c : ClassDecl} {cs : List ClassDecl}
  {f : Feature} {fs : List Feature}
  {k : Nat}

theorem new_of_empty (h : (ts.get t).attributes = []) : ts.New t among := by
  intro x hx
  rw [h] at hx
  cases hx

theorem new_buildFeature (ht : t < ts.entries.size) (h : ts.New t (ts.Sub t)) :
    Ensures (buildFeature t f) (fun _ ts' => t < ts'.entries.size ∧ ts'.New t (ts'.Sub t))
      (fun _ _ => True) ts := by
  obtain ⟨name, type, value⟩ | ⟨name, params, type, body⟩ := f
  · simp only [buildFeature, ensures_bind, ensures_lookUp, ensures_change, implies_true, and_true]
    intro v hv ts' hts'
    have hnew {u : TypeId} := Types.ne_of_defineAttribute (u := u) hts'
    obtain ⟨-, rfl⟩ := Types.defineAttribute_eq_ok hts'
    refine ⟨by simpa using ht, .modify ht (fun _ => rfl) fun x hx u hne hs => ?_⟩
    rcases List.mem_append.1 hx with hx | hx
    · exact h x hx u hne hs
    · cases List.mem_singleton.1 hx
      exact hnew hs
  · simp only [buildFeature, ensures_bind, ensures_lookUp, ensures_change, implies_true, and_true]
    refine ensures_lookUps.imp ?_
    rintro types ts1 ⟨rfl, -, -⟩ v hv ts' hts'
    obtain ⟨-, rfl⟩ := Types.defineMethod_eq_ok hts'
    exact ⟨by simpa using ht, .modify ht (fun _ => rfl) h⟩

theorem new_buildFeatures (ht : t < ts.entries.size) (h : ts.New t (ts.Sub t)) :
    Ensures (fs.forM (buildFeature t)) (fun _ ts' => ts'.New t (ts'.Sub t))
      (fun _ _ => True) ts := by
  induction fs generalizing ts with
  | nil => exact h
  | cons f fs ih =>
    change Ensures (buildFeature t f >>= fun _ => fs.forM (buildFeature t)) _ _ _
    rw [ensures_bind]
    exact (new_buildFeature ht h).imp fun _ ts' h' => ih h'.1 h'.2

theorem new_buildClass (hfind : ts.find c.name.text = .ok t) (ht : t < ts.entries.size)
    (hget : ts.get t = { name := c.name.text }) :
    Ensures (buildClass c) (fun _ ts' => ts'.New t (ts'.Sub t)) (fun _ _ => True) ts := by
  refine ensures_buildClass_of hfind fun _ => ?_
  simp only [ensures_bind, ensures_change, implies_true, and_true]
  intro ts1 h1
  obtain ⟨-, -, rfl⟩ := Types.setParent_eq_ok h1
  refine new_buildFeatures (by simpa using ht) (new_of_empty ?_)
  rw [Types.get_modify ht, if_pos rfl, hget]

theorem new_buildClasses (hcs : ∀ (i : Nat) c, cs[i]? = some c →
      ts.find c.name.text = .ok (k + i) ∧ k + i < ts.entries.size ∧
        ts.get (k + i) = { name := c.name.text })
    (h : ∀ t : Nat, t < k → ts.New t (ts.Before t)) :
    Ensures (cs.forM buildClass) (fun _ ts' => ∀ t : Nat, t < k + cs.length →
      ts'.New t (ts'.Before t)) (fun _ _ => True) ts := by
  induction cs generalizing ts k with
  | nil => exact h
  | cons c cs ih =>
    change Ensures (buildClass c >>= fun _ => cs.forM buildClass) _ _ _
    rw [ensures_bind, List.length_cons, Nat.add_comm cs.length, ← Nat.add_assoc]
    obtain ⟨hfind, hlt, hget⟩ := hcs 0 c rfl
    refine ((ensures_buildClass hfind hlt hget).and (new_buildClass hfind hlt hget)).weaken ?_
    rintro - ts1 ⟨⟨⟨g, rfl, -⟩, -⟩, hnew⟩
    have hother (u : Nat) (hu : u ≠ k) : (ts.modify (k + 0) g).get u = ts.get u := by
      rw [Types.get_modify hlt]
      exact if_neg hu
    refine ih (fun i c' hc' => ?_) fun t ht => ?_
    · obtain ⟨hfind', hlt', hget'⟩ := hcs (i + 1) c' hc'
      rw [Nat.add_assoc, Nat.add_comm 1 i]
      exact ⟨hfind', by simpa using hlt', (hother _ (by omega)).trans hget'⟩
    · rcases Nat.lt_succ_iff_lt_or_eq.1 ht with hlt | rfl
      · exact (h t hlt).congr fun v hv => hother v (Nat.ne_of_lt (Nat.lt_of_le_of_lt hv hlt))
      · exact fun x hx u hne hu => hnew x hx u hne hu.sub

theorem new_of_build (hcollect : (collect p.classes).outcome Builtin.types = (none, ts₀))
    (hbuild : (build p).outcome ts₀ = (none, ts)) (t : TypeId) : ts.New t (ts.Before t) := by
  have hall : Ensures (build p) (fun _ ts' => ∀ t : Nat, t < 8 + p.classes.length →
      ts'.New t (ts'.Before t))
      (fun _ _ => True) ts₀ := by
    rw [build, ensures_bind]
    refine (collected_of_collect hcollect).buildBuiltins.imp fun _ ts1 h1 =>
      new_buildClasses h1.pending fun t ht => ?_
    have hempty : ∀ t < 8, (Builtin.built.get t).attributes = [] := by decide
    exact new_of_empty (by rw [h1.builtin_eq t ht, hempty t ht])
  obtain ⟨-, h⟩ := hall.of_declaring hbuild
  intro x hx
  refine h t ?_ x hx
  rw [← (declared_of_build hcollect hbuild).size_eq]
  exact Types.lt_size_of_ne_default (List.ne_nil_of_mem hx <| congrArg TypeEntry.attributes ·)

/-- In the types of a program that is built, the attributes of a type have different names. Where a
type above it has an attribute of the same name as one of its own, the chain from the one to the
other comes to a class that is declared after the lower one. -/
theorem redeclared_below_later (hcollect : (collect p.classes).outcome Builtin.types = (none, ts₀))
    (hbuild : (build p).outcome ts₀ = (none, ts)) :
    (∀ i c, p.classes[i]? = some c → ts.find c.name.text = .ok (8 + i)) ∧
      ∀ t, ((ts.get t).attributes.map (·.name)).Nodup ∧ ∀ x ∈ (ts.get t).attributes, ∀ u ≠ t,
        ts.Sub t u →
        ∀ y ∈ (ts.get u).attributes, y.name = x.name →
          ∃ v, Relation.TransGen (fun t u => ts.parent? t = some u) t v ∧ ts.Sub v u ∧ t < v := by
  have hd := declared_of_build hcollect hbuild
  refine ⟨fun i c hc => hd.find_class hc, fun t => ⟨?_, fun x hx u hne hs y hy hname => ?_⟩⟩
  · exact (hd.distinct t).1
  · rcases hs.before_or_later with hbefore | hlater
    · exact absurd hname (new_of_build hcollect hbuild t x hx u hne hbefore y hy)
    · exact hlater

/-- A class that is declared before the one above it, and has an attribute of the same name. -/
def Sample.upsideDown : Program where
  classes := [
    { name := word "B", parent := some (word "A"),
      features := [.attribute (word "x") (word "Int") none] },
    { name := word "A", parent := none, features := [.attribute (word "x") (word "Int") none] }]

theorem redeclared_below_later_upsideDown :
    ∃ v, Relation.TransGen (fun t u => Sample.upsideDown.types.parent? t = some u) 8 v ∧
    Sample.upsideDown.types.Sub v 9 ∧ 8 < v := by
  have hcollect : (collect Sample.upsideDown.classes).outcome Builtin.types =
      (none, Sample.upsideDown.names) :=
    outcome_eq (by decide +kernel)
  have hbuild : (build Sample.upsideDown).outcome Sample.upsideDown.names =
      (none, Sample.upsideDown.types) :=
    outcome_eq (by decide +kernel)
  obtain ⟨-, h⟩ := redeclared_below_later hcollect hbuild
  exact (h 8).2 ⟨"x", 5⟩ (by decide +kernel) 9 (by decide) (.single (by decide +kernel)) ⟨"x", 5⟩
    (by decide +kernel) rfl

/-- Attributes that are new when they are declared may turn out not to be. -/
theorem redeclared_upsideDown :
    (build Sample.upsideDown).outcome Sample.upsideDown.names = (none, Sample.upsideDown.types) ∧
      Sample.upsideDown.types.Acyclic ∧ Sample.upsideDown.types.parent? 8 = some 9 ∧
      (Sample.upsideDown.types.get 8).attributes = [⟨"x", 5⟩] ∧
        (Sample.upsideDown.types.get 9).attributes = [⟨"x", 5⟩] := by
  refine ⟨outcome_eq
    (by decide +kernel), by decide +kernel, by decide +kernel, by decide +kernel, by decide +kernel⟩

end Cool

end AutoCool
