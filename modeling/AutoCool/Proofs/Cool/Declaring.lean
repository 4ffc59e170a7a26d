import AutoCool.Cool.Stages
import AutoCool.Proofs.Cool.Ensures
import AutoCool.Proofs.Types.Table

/-!
# What a program declares

Collecting and building a program leaves one table: the built-in types as they are without a
program, and after them a type for each class, in order, with the parent and the features that the
class declares (`declared_of_build`).
-/

namespace AutoCool.Cool

/-- A word without a place in a text. -/
def word (text : String) : Token := { type := Symbol.endMark 0, lexeme := .text text }

/-- The names of types in the declaration of a feature. -/
def Feature.signature : Feature → List String
  | .attribute _ type _ => [type.text]
  | .method _ params type _ => params.map (·.type.text) ++ [type.text]

/-- The attribute that a feature declares. -/
def Feature.attribute? (ts : Types) : Feature → Option Attribute
  | .attribute name type _ => some ⟨name.text, ts.named type.text⟩
  | .method .. => none

/-- The method that a feature declares. -/
def Feature.method? (ts : Types) : Feature → Option Method
  | .attribute .. => none
  | .method name params type _ =>
    some (.ofSignature name.text (params.map (·.name.text))
      (params.map fun p => ts.named p.type.text) (ts.named type.text))

/-- A type with the features that some declarations add. -/
def withFeatures (ts : Types) (fs : List Feature) (e : TypeEntry) : TypeEntry :=
  { e with
    attributes := e.attributes ++ fs.filterMap (Feature.attribute? ts)
    methods := e.methods ++ fs.filterMap (Feature.method? ts) }

variable {ts ts' : Types} {t : TypeId} {E : Failure → Types → Prop}

@[simp] theorem ensures_change :
    Ensures (change f) Q E ts = ((∀ ts', f ts = .ok ts' → Q () ts') ∧ ∀ e, f ts = .error e →
      E e ts) := by
  simp only [change, ensures_bind, ensures_get, ensures_ofExcept]
  rfl

@[simp] theorem ensures_lookUp : Ensures (lookUp name) Q E ts =
    ((∀ t, ts.find name.text = .ok t → Q t ts) ∧ ∀ e, ts.find name.text = .error e → E e ts) := by
  simp only [lookUp, ensures_bind, ensures_get, ensures_ofExcept]

theorem ensures_lookUps {params : List Param} : Ensures (params.mapM fun p => lookUp p.type)
    (fun types ts' => ts' = ts ∧ types = params.map (fun p => ts.named p.type.text) ∧
      ∀ p ∈ params, ∃ u, ts.find p.type.text = .ok u) (fun _ _ => True) ts := by
  induction params with
  | nil => simp
  | cons p params ih =>
    simp only [List.mapM_cons, ensures_bind, ensures_lookUp, ensures_pure, implies_true, and_true]
    intro t ht
    refine ih.imp fun types ts' ⟨hts, htypes, hall⟩ => ⟨hts, ?_, ?_⟩
    · rw [htypes, List.map_cons, Types.named_of_find ht]
    · exact List.forall_mem_cons.2 ⟨⟨t, ht⟩, hall⟩

/-- A declaration may be added to a type: its types are there, and its name is new. -/
structure Declarable (ts : Types) (t : TypeId) (f : Feature) : Prop where
  found : ∀ n ∈ f.signature, ∃ u, ts.find n = .ok u
  new_attribute : ∀ x, f.attribute? ts = some x → ∀ y ∈ (ts.get t).attributes, y.name ≠ x.name
  new_method : ∀ m, f.method? ts = some m → ∀ n ∈ (ts.get t).methods, n.name ≠ m.name

theorem ensures_buildFeature {f : Feature} :
    Ensures (buildFeature t f) (fun _ ts' => ts' = ts.modify t (withFeatures ts [f]) ∧
      Declarable ts t f) (fun _ _ => True) ts := by
  obtain ⟨name, type, value⟩ | ⟨name, params, type, body⟩ := f
  · simp only [buildFeature, ensures_bind, ensures_lookUp, ensures_change, implies_true, and_true]
    intro u hu ts' hts'
    obtain ⟨hnew, rfl⟩ := Types.defineAttribute_eq_ok hts'
    refine ⟨?_, ⟨fun n hn => ?_, fun x hx => ?_, fun m hm => by cases hm⟩⟩
    · refine congrArg (ts.modify t) (funext fun e => ?_)
      simp [withFeatures, Feature.attribute?, Feature.method?, Types.named_of_find hu]
    · cases List.mem_singleton.1 hn
      exact ⟨u, hu⟩
    · cases hx
      exact hnew
  · simp only [buildFeature, ensures_bind, ensures_lookUp, ensures_change, implies_true, and_true]
    refine ensures_lookUps.imp ?_
    rintro types ts1 ⟨h1, htypes, hparams⟩ u hu ts' hts'
    subst h1
    obtain ⟨hnew, rfl⟩ := Types.defineMethod_eq_ok hts'
    subst htypes
    refine ⟨?_, ⟨fun n hn => ?_, fun x hx => (by cases hx), fun m hm => ?_⟩⟩
    · refine congrArg (ts1.modify t) (funext fun e => ?_)
      simp [withFeatures, Feature.attribute?, Feature.method?, Types.named_of_find hu]
    · rcases List.mem_append.1 hn with hn | hn
      · obtain ⟨p, hp, rfl⟩ := List.mem_map.1 hn
        exact hparams p hp
      · cases List.mem_singleton.1 hn
        exact ⟨u, hu⟩
    · cases hm
      exact hnew

theorem withFeatures_modify : withFeatures (ts.modify t f) = withFeatures ts := rfl

theorem withFeatures_cons :
    withFeatures ts (f :: fs) e = withFeatures ts fs (withFeatures ts [f] e) := by
  simp only [withFeatures, List.filterMap_cons, List.filterMap_nil, TypeEntry.mk.injEq, true_and]
  constructor <;> split <;> simp

/-- The features of a type have names of their own. -/
def Distinct (e : TypeEntry) : Prop :=
  (e.attributes.map (·.name)).Nodup ∧ (e.methods.map (·.name)).Nodup

theorem nodup_concat_of_new (h : (l.map name).Nodup)
    (hnew : ∀ y, x = some y → ∀ z ∈ l, name z ≠ name y) : ((l ++ x.toList).map name).Nodup := by
  cases x with
  | none => simpa using h
  | some y =>
    rw [Option.toList_some, List.map_append, List.nodup_append]
    refine ⟨h, by simp, fun a ha b hb => ?_⟩
    obtain ⟨z, hz, rfl⟩ := List.mem_map.1 ha
    cases List.mem_singleton.1 hb
    exact hnew y rfl z hz

theorem Declarable.distinct (h : Declarable ts t f) (hd : Distinct (ts.get t)) :
    Distinct (withFeatures ts [f] (ts.get t)) := by
  have hattributes := nodup_concat_of_new hd.1 h.new_attribute
  have hmethods := nodup_concat_of_new hd.2 h.new_method
  refine ⟨?_, ?_⟩ <;> simp only [withFeatures, List.filterMap_cons, List.filterMap_nil]
  · cases hf : f.attribute? ts <;> simp_all
  · cases hf : f.method? ts <;> simp_all

/-- Every type that some features name is there. -/
def Resolved (ts : Types) (fs : List Feature) : Prop :=
  ∀ f ∈ fs, ∀ n ∈ f.signature, ∃ u, ts.find n = .ok u

theorem ensures_buildFeatures (ht : t < ts.entries.size) :
    Ensures (fs.forM (buildFeature t))
      (fun _ ts' => ts' = ts.modify t (withFeatures ts fs) ∧ Resolved ts fs ∧
      (Distinct (ts.get t) → Distinct (ts'.get t))) (fun _ _ => True) ts := by
  induction fs generalizing ts with
  | nil =>
    refine ⟨(Types.modify_eq_of_get ?_).symm, fun f hf => (nomatch hf), id⟩
    simp [withFeatures]
  | cons f fs ih =>
    change Ensures (buildFeature t f >>= fun _ => fs.forM (buildFeature t)) _ _ _
    rw [ensures_bind]
    refine ensures_buildFeature.imp fun _ ts1 ⟨h1, hf⟩ => ?_
    subst h1
    refine (ih (by simpa using ht)).imp fun _ ts' ⟨h', hresolved, hdistinct⟩ =>
      ⟨?_, ?_, fun hd => hdistinct ?_⟩
    · rw [h', Types.modify_modify, withFeatures_modify]
      exact congrArg (ts.modify t) (funext fun e => withFeatures_cons.symm)
    · exact List.forall_mem_cons.2 ⟨hf.found, hresolved⟩
    · rw [Types.get_modify ht, if_pos rfl]
      exact hf.distinct hd

/-- The parent that a class declares. -/
def parentOf (ts : Types) (c : ClassDecl) : TypeId :=
  match c.parent with
  | some q => ts.named q.text
  | none => Builtin.object

/-- A type is what a class declares. -/
structure DeclaredClass (ts : Types) (t : TypeId) (c : ClassDecl) : Prop where
  get_eq : ts.get t = withFeatures ts c.features
    { name := c.name.text, parent := some (parentOf ts c) }
  parent_found : ∀ q, c.parent = some q → ∃ u, ts.find q.text = .ok u
  parent_open : (ts.get (parentOf ts c)).isSealed = false
  resolved : Resolved ts c.features
  distinct : Distinct (ts.get t)

theorem named_congr (h : ts'.context = ts.context) : ts'.named = ts.named := by
  funext name
  rw [Types.named, Types.named, h]

theorem find_congr (h : ts'.context = ts.context) : ts'.find = ts.find := by
  funext name
  rw [Types.find, Types.find, h]

theorem withFeatures_congr (h : ts'.context = ts.context) : withFeatures ts' = withFeatures ts := by
  have hattribute : Feature.attribute? ts' = Feature.attribute? ts := by
    funext f
    cases f <;> simp [Feature.attribute?, named_congr h]
  have hmethod : Feature.method? ts' = Feature.method? ts := by
    funext f
    cases f <;> simp [Feature.method?, named_congr h]
  funext fs e
  rw [withFeatures, withFeatures, hattribute, hmethod]

theorem DeclaredClass.congr (h : DeclaredClass ts t c) (hctx : ts'.context = ts.context)
    (hget : ts'.get t = ts.get t) (hsealed : ∀ u, (ts'.get u).isSealed = (ts.get u).isSealed) :
    DeclaredClass ts' t c := by
  have hparent : parentOf ts' c = parentOf ts c := by simp only [parentOf, named_congr hctx]
  have hfind := find_congr hctx
  refine ⟨?_, ?_, ?_, ?_, ?_⟩
  · rw [hget, withFeatures_congr hctx, hparent, h.get_eq]
  · rw [hfind]
    exact h.parent_found
  · rw [hsealed, hparent, h.parent_open]
  · unfold Resolved
    rw [hfind]
    exact h.resolved
  · rw [hget]
    exact h.distinct

theorem ensures_buildClass_of (hfind : ts.find c.name.text = .ok t)
    (h : (∀ q, c.parent = some q → ∃ u, ts.find q.text = .ok u) → Ensures (do
      change (·.setParent t (parentOf ts c))
      c.features.forM (buildFeature t)) Q (fun _ _ => True) ts) : Ensures (buildClass c) Q
        (fun _ _ => True) ts := by
  simp only [buildClass, ensures_bind, ensures_lookUp, implies_true, and_true]
  intro t' ht'
  cases hfind.symm.trans ht'
  unfold parentOf at h
  cases hc : c.parent with
  | none =>
    rw [hc] at h
    exact h fun q hq => by cases hq
  | some q =>
    simp only [hc] at h ⊢
    rw [ensures_bind, ensures_lookUp]
    refine ⟨fun u hu => ?_, fun _ _ => trivial⟩
    rw [Types.named_of_find hu] at h
    exact h fun q' hq' => by cases hq'; exact ⟨u, hu⟩

theorem ensures_buildClass (hfind : ts.find c.name.text = .ok t) (ht : t < ts.entries.size)
    (hget : ts.get t = { name := c.name.text }) : Ensures (buildClass c)
      (fun _ ts' => (∃ f, ts' = ts.modify t f ∧ ∀ e, (f e).isSealed = e.isSealed) ∧
      DeclaredClass ts' t c)
    (fun _ _ => True) ts := by
  refine ensures_buildClass_of hfind fun hfound => ?_
  simp only [ensures_bind, ensures_change, implies_true, and_true]
  intro ts1 h1
  obtain ⟨-, hopen, rfl⟩ := Types.setParent_eq_ok h1
  have hlt : t < (ts.modify t fun e => { e with parent := some (parentOf ts c) }).entries.size := by
    simpa using ht
  refine (ensures_buildFeatures hlt).imp ?_
  rintro _ ts' ⟨h', hresolved, hdistinct⟩
  rw [Types.modify_modify, withFeatures_modify] at h'
  have hmodified : ∀ u, (ts'.get u).isSealed = (ts.get u).isSealed := by
    intro u
    rw [h', Types.get_modify ht]
    split
    · next hu => rw [hu]; rfl
    · rfl
  have hctx : ts'.context = ts.context := by rw [h']; rfl
  have hparentOf : parentOf ts' c = parentOf ts c := by simp only [parentOf, named_congr hctx]
  refine ⟨⟨_, h', fun e => rfl⟩, ?_, ?_, ?_, ?_, ?_⟩
  · rw [withFeatures_congr hctx, hparentOf, h', Types.get_modify ht, if_pos rfl, hget]
  · rw [find_congr hctx]
    exact hfound
  · rw [hparentOf, hmodified, hopen]
  · unfold Resolved
    rw [find_congr hctx]
    exact hresolved
  · refine hdistinct ?_
    rw [Types.get_modify ht, if_pos rfl, hget]
    exact ⟨.nil, .nil⟩

theorem ensures_buildClasses {cs : List ClassDecl} {k : Nat}
    (hcs : ∀ (i : Nat) c, cs[i]? = some c →
      ts.find c.name.text = .ok (k + i) ∧ k + i < ts.entries.size ∧
        ts.get (k + i) = { name := c.name.text }) :
    Ensures (cs.forM buildClass)
      (fun _ ts' => ts'.context = ts.context ∧ ts'.entries.size = ts.entries.size ∧
        (∀ u : Nat, u < k → ts'.get u = ts.get u) ∧
          (∀ u, (ts'.get u).isSealed = (ts.get u).isSealed) ∧
        ∀ (i : Nat) c, cs[i]? = some c → DeclaredClass ts' (k + i) c) (fun _ _ => True) ts := by
  induction cs generalizing ts k with
  | nil => exact ⟨rfl, rfl, fun _ _ => rfl, fun _ => rfl, fun i c h => nomatch h⟩
  | cons c cs ih =>
    change Ensures (buildClass c >>= fun _ => cs.forM buildClass) _ _ _
    rw [ensures_bind]
    have hfirst := hcs 0 c rfl
    rw [Nat.add_zero] at hfirst
    obtain ⟨hfind, hlt, hget⟩ := hfirst
    refine (ensures_buildClass hfind hlt hget).imp fun _ ts1 ⟨⟨f, h1, hsealed1⟩, hc⟩ => ?_
    subst h1
    have hsealed : ∀ u, ((ts.modify k f).get u).isSealed = (ts.get u).isSealed := by
      intro u
      rw [Types.get_modify hlt]
      split
      · next hu => rw [hu, hsealed1]
      · rfl
    have hnext : ∀ (i : Nat) c', cs[i]? = some c' → (ts.modify k f).find c'.name.text = .ok
        (k + 1 + i) ∧
        k + 1 + i < (ts.modify k f).entries.size ∧ (ts.modify k f).get (k + 1 + i) =
          { name := c'.name.text } := by
      intro i c' hc'
      obtain ⟨hfind', hlt', hget'⟩ := hcs (i + 1) c' hc'
      rw [Nat.add_assoc, Nat.add_comm 1 i]
      have hne : k + (i + 1) ≠ k := by omega
      refine ⟨hfind', by simpa using hlt', ?_⟩
      rw [Types.get_modify hlt, if_neg hne, hget']
    refine (ih hnext).imp fun _ ts' ⟨hctx, hsize, hbelow, hsealed', hclasses⟩ => ?_
    refine ⟨hctx, by simpa using hsize, fun u hu => ?_, fun u => (hsealed' u).trans (hsealed u), ?_⟩
    · rw [hbelow u (by omega), Types.get_modify hlt, if_neg (Nat.ne_of_lt hu)]
    · rintro (_ | i) c' hc'
      · cases hc'
        exact hc.congr hctx (hbelow k (by omega)) hsealed'
      · have hi := hclasses i c' hc'
        rwa [Nat.add_assoc, Nat.add_comm 1 i] at hi

/-- Nothing but entries of types has changed. -/
structure SameShape (ts ts' : Types) : Prop where
  context_eq : ts'.context = ts.context
  size_eq : ts'.entries.size = ts.entries.size

theorem SameShape.refl : SameShape ts ts := ⟨rfl, rfl⟩

theorem SameShape.trans (h : SameShape ts ts') (h' : SameShape ts' ts'') : SameShape ts ts'' :=
  ⟨h'.context_eq.trans h.context_eq, h'.size_eq.trans h.size_eq⟩

theorem sameShape_modify : SameShape ts (ts.modify t f) := ⟨rfl, Types.size_modify⟩

theorem ensures_sealAll {l : List TypeId} (hl : ∀ t ∈ l, t < ts.entries.size) :
    Ensures (l.forM fun t => do
        change (·.setParent t Builtin.object)
        modify (·.modify t fun e => { e with isSealed := true }))
      (fun _ ts' => SameShape ts ts' ∧ ∀ u, ts'.get u =
        if u ∈ l then { ts.get u with parent := some Builtin.object, isSealed := true } else ts.get
          u)
      (fun _ _ => True) ts := by
  induction l generalizing ts with
  | nil => exact ⟨.refl, fun u => rfl⟩
  | cons t l ih =>
    change Ensures (_ >>= fun _ => l.forM _) _ _ _
    simp only [ensures_bind, ensures_change, ensures_modify, implies_true, and_true]
    intro ts1 h1
    obtain ⟨-, -, rfl⟩ := Types.setParent_eq_ok h1
    rw [Types.modify_modify]
    have ht := hl t (.head _)
    refine (ih fun u hu => ?_).imp fun _ ts' ⟨hshape, hget⟩ =>
      ⟨sameShape_modify.trans hshape, fun u => ?_⟩
    · simpa using hl u (.tail _ hu)
    · rw [hget, Types.get_modify ht]
      by_cases hu : u = t
      · subst hu
        simp
      · simp [hu]

theorem ensures_defineAll {l : List (TypeId × Method)} (hl : ∀ x ∈ l, x.1 < ts.entries.size) :
    Ensures (l.forM fun (t, m) => change (·.defineMethod t m))
      (fun _ ts' => SameShape ts ts' ∧ ∀ u, ts'.get u =
        { ts.get u with methods := (ts.get u).methods ++ (l.filter (·.1 == u)).map (·.2) })
      (fun _ _ => True) ts := by
  induction l generalizing ts with
  | nil => exact ⟨.refl, fun u => by simp⟩
  | cons x l ih =>
    obtain ⟨t, m⟩ := x
    change Ensures (_ >>= fun _ => l.forM _) _ _ _
    simp only [ensures_bind, ensures_change, implies_true, and_true]
    intro ts1 h1
    obtain ⟨-, rfl⟩ := Types.defineMethod_eq_ok h1
    have ht := hl (t, m) (.head _)
    refine (ih fun u hu => ?_).imp fun _ ts' ⟨hshape, hget⟩ =>
      ⟨sameShape_modify.trans hshape, fun u => ?_⟩
    · simpa using hl u (.tail _ hu)
    · rw [hget, Types.get_modify ht]
      by_cases hu : u = t
      · subst hu
        simp
      · simp [hu, Ne.symm hu]

/-- What the built-in types get. -/
def Builtin.completed (t : TypeId) (e : TypeEntry) : TypeEntry :=
  let e := if t = io then { e with parent := some object } else e
  let e := if t ∈ [int, string, bool] then { e with parent := some object, isSealed := true } else e
  { e with methods := e.methods ++ (methods.filter (·.1 == t)).map (·.2) }

theorem Builtin.completed_of_le {t : Nat} (h : 8 ≤ t) (e : TypeEntry) : completed t e = e := by
  have hsmall : ∀ u : Nat, u < 8 → t ≠ u := fun u hu => by omega
  have hio : t ≠ io := hsmall 4 (by decide)
  have hbasic : t ∉ [int, string, bool] := by
    simpa using ⟨hsmall 5 (by decide), hsmall 6 (by decide), hsmall 7 (by decide)⟩
  have hmethods : methods.filter (·.1 == t) = [] := by
    have hlt : ∀ x ∈ methods, x.1 < 8 := by decide
    rw [List.filter_eq_nil_iff]
    intro x hx
    simpa using (hsmall _ (hlt x hx)).symm
  simp [completed, hio, hbasic, hmethods]

theorem ensures_buildBuiltins (hsize : 8 ≤ ts.entries.size) :
    Ensures buildBuiltins (fun _ ts' => SameShape ts ts' ∧ ∀ u, ts'.get u = Builtin.completed u
      (ts.get u)) (fun _ _ => True) ts := by
  have hlt : ∀ t : Nat, t < 8 → t < ts.entries.size := fun t ht => Nat.lt_of_lt_of_le ht hsize
  have hio : Builtin.io < ts.entries.size := hlt 4 (by decide)
  simp only [buildBuiltins, ensures_bind, ensures_change, implies_true, and_true]
  intro ts1 h1
  obtain ⟨-, -, rfl⟩ := Types.setParent_eq_ok h1
  refine (ensures_sealAll fun t ht => ?_).imp fun _ ts2 ⟨hshape, hget⟩ => ?_
  · rw [Types.size_modify]
    revert t
    simpa [Builtin.int, Builtin.string, Builtin.bool] using ⟨hlt 5 (by decide), hlt 6 (by decide),
      hlt 7 (by decide)⟩
  refine (ensures_defineAll fun x hx => ?_).imp fun _ ts3 ⟨hshape', hget'⟩ => ?_
  · rw [hshape.size_eq, Types.size_modify]
    have hmethods : ∀ x ∈ Builtin.methods, x.1 < 8 := by decide
    exact hlt _ (hmethods x hx)
  refine ⟨sameShape_modify.trans (hshape.trans hshape'), fun u => ?_⟩
  rw [hget', hget, Types.get_modify hio]
  rfl

theorem ensures_collect : Ensures (collect cs)
      (fun _ ts' => ts'.entries = ts.entries ++
      (cs.map fun c => ({ name := c.name.text } : TypeEntry)).toArray ∧
      ts'.context = ts.context ++ (cs.zipIdx ts.entries.size).map (fun x => (x.1.name.text, x.2)) ∧
      ((ts.context.map (·.1)).Nodup → (ts'.context.map (·.1)).Nodup)) (fun _ _ => True) ts := by
  induction cs generalizing ts with
  | nil => exact ⟨by simp, by simp, id⟩
  | cons c cs ih =>
    simp only [collect, ensures_bind, ensures_change, implies_true, and_true]
    intro ts1 h1
    obtain ⟨hnew, rfl⟩ := Types.create_map_eq_ok h1
    refine ih.imp fun _ ts' ⟨hentries, hcontext, hnodup⟩ => ⟨?_, ?_, fun hd => hnodup ?_⟩
    · rw [hentries]
      simp
    · rw [hcontext]
      simp [List.zipIdx_cons]
    · rw [List.map_append, List.nodup_append]
      refine ⟨hd, by simp, fun x hx y hy => ?_⟩
      cases List.mem_singleton.1 hy
      obtain ⟨z, hz, rfl⟩ := List.mem_map.1 hx
      exact hnew z hz

/-- The types are those that a program declares. -/
structure Declared (p : Program) (ts : Types) : Prop where
  context_eq : ts.context = Builtin.types.context ++ (p.classes.zipIdx 8).map
    (fun x => (x.1.name.text, x.2))
  names_nodup : (ts.context.map (·.1)).Nodup
  size_eq : ts.entries.size = 8 + p.classes.length
  builtin : ∀ t : Nat, t < 8 → ts.get t = Builtin.built.get t
  classes : ∀ (i : Nat) c, p.classes[i]? = some c → DeclaredClass ts (8 + i) c

theorem Ensures.of_declaring {m : Declaring α} (h : Ensures m Q E ts)
    (hrun : m.outcome ts = (none, ts')) : ∃ x, Q x ts' := by
  unfold Declaring.outcome at hrun
  split at hrun
  · next x s hs =>
    cases hrun
    exact ⟨x, h.of_run hs⟩
  · cases hrun

theorem lookup_of_mem {l : List (String × TypeId)} (hl : (l.map (·.1)).Nodup) (h : (name, t) ∈ l) :
    l.lookup name = some t := by
  induction l with
  | nil => cases h
  | cons x l ih =>
    obtain ⟨n, u⟩ := x
    rw [List.map_cons, List.nodup_cons] at hl
    rcases List.mem_cons.1 h with heq | hmem
    · cases heq
      simp
    · have hne : name ≠ n := by
        rintro rfl
        exact hl.1 (List.mem_map.2 ⟨_, hmem, rfl⟩)
      rw [List.lookup_cons, beq_eq_false_iff_ne.2 hne]
      exact ih hl.2 hmem

/-- The types that are not built in are those of the classes of a program, and have names and
nothing else. -/
structure Collected (p : Program) (builtin ts : Types) : Prop where
  context_eq : ts.context = Builtin.types.context ++ (p.classes.zipIdx 8).map
    (fun x => (x.1.name.text, x.2))
  names_nodup : (ts.context.map (·.1)).Nodup
  size_eq : ts.entries.size = 8 + p.classes.length
  builtin_eq : ∀ t : Nat, t < 8 → ts.get t = builtin.get t
  classes : ∀ (i : Nat) c, p.classes[i]? = some c → ts.get (8 + i) = { name := c.name.text }

theorem collected_of_collect (hcollect : (collect p.classes).outcome Builtin.types = (none, ts)) :
    Collected p Builtin.types ts := by
  obtain ⟨-, hentries, hcontext, hnodup⟩ := ensures_collect.of_declaring hcollect
  refine ⟨hcontext, hnodup (by decide), ?_, ?_, ?_⟩
  · rw [hentries]
    simp
    rfl
  · intro t ht
    have hlt : t < Builtin.types.entries.size := ht
    rw [Types.get, Types.get, hentries, Array.getD_eq_getD_getElem?, Array.getD_eq_getD_getElem?,
      Array.getElem?_append_left hlt]
  · intro i c hc
    have hle : Builtin.types.entries.size ≤ 8 + i := Nat.le_add_right 8 i
    have hi : 8 + i - Builtin.types.entries.size = i := Nat.add_sub_cancel_left 8 i
    rw [Types.get, hentries, Array.getD_eq_getD_getElem?, Array.getElem?_append_right hle, hi]
    simp [hc]

theorem Collected.buildBuiltins (h : Collected p Builtin.types ts) :
    Ensures buildBuiltins (fun _ ts' => Collected p Builtin.built ts') (fun _ _ => True) ts := by
  refine (ensures_buildBuiltins (by rw [h.size_eq]; exact Nat.le_add_right 8 _)).imp ?_
  rintro - ts' ⟨hshape, hget⟩
  refine ⟨hshape.context_eq.trans h.context_eq, ?_, hshape.size_eq.trans h.size_eq, ?_, ?_⟩
  · rw [hshape.context_eq]
    exact h.names_nodup
  · intro t ht
    rw [hget, h.builtin_eq t ht]
    revert t
    decide
  · intro i c hc
    rw [hget, h.classes i c hc, Builtin.completed_of_le (Nat.le_add_right 8 i)]

theorem find_of_classes {p : Program} (h : ts.context = l ++ (p.classes.zipIdx 8).map fun x =>
      (x.1.name.text, x.2)) (hnodup : (ts.context.map (·.1)).Nodup) (hc : p.classes[i]? = some c) :
    ts.find c.name.text = .ok (8 + i) := by
  have hmem : (c.name.text, 8 + i) ∈ ts.context := by
    rw [h]
    refine List.mem_append_right _ (List.mem_map.2 ⟨(c, 8 + i), ?_, rfl⟩)
    rw [List.mem_zipIdx_iff_le_and_getElem?_sub, Nat.add_sub_cancel_left]
    exact ⟨Nat.le_add_right 8 i, hc⟩
  rw [Types.find, lookup_of_mem hnodup hmem]

theorem Collected.pending (h : Collected p builtin ts) (i : Nat) (c : ClassDecl)
    (hc : p.classes[i]? = some c) : ts.find c.name.text = .ok (8 + i) ∧ 8 + i < ts.entries.size ∧
    ts.get (8 + i) = { name := c.name.text } := by
  refine ⟨find_of_classes h.context_eq h.names_nodup hc, ?_, h.classes i c hc⟩
  rw [h.size_eq]
  exact Nat.add_lt_add_left (List.getElem?_eq_some_iff.1 hc).1 8

theorem declared_of_build {p : Program} {ts0 : Types}
    (hcollect : (collect p.classes).outcome Builtin.types = (none, ts0))
    (hbuild : (build p).outcome ts0 = (none, ts)) : Declared p ts := by
  have hall : Ensures (build p) (fun _ ts => Declared p ts) (fun _ _ => True) ts0 := by
    simp only [build, ensures_bind]
    refine (collected_of_collect hcollect).buildBuiltins.imp fun _ ts1 h1 => ?_
    refine (ensures_buildClasses h1.pending).imp ?_
    rintro - ts2 ⟨hctx, hsize, hbelow, -, hclasses⟩
    exact {
      context_eq := hctx.trans h1.context_eq
      names_nodup := by rw [hctx]; exact h1.names_nodup
      size_eq := hsize.trans h1.size_eq
      builtin := fun t ht => (hbelow t ht).trans (h1.builtin_eq t ht)
      classes := hclasses }
  obtain ⟨-, h⟩ := hall.of_declaring hbuild
  exact h

/-! ## What the stages leave of a program -/

namespace Program

/-- The types of a program before they are built. -/
def names (p : Program) : Types := ((collect p.classes).outcome Builtin.types).2

/-- The types that a program declares. -/
def types (p : Program) : Types := ((build p).outcome p.names).2

/-- What the checker leaves of a program. -/
def checked (p : Program) : Analysis := ((check p).outcome { types := p.types }).2

end Program

theorem outcome_eq (h : x.1 = f) : x = (f, x.2) := by rw [← h]

theorem Program.checks (p : Program) (h : ((collect p.classes).outcome Builtin.types).1 = none ∧
      ((build p).outcome p.names).1 = none ∧
    ((check p).outcome { types := p.types }).1 = none) : (collect p.classes).outcome Builtin.types =
      (none, p.names) ∧
      (build p).outcome p.names = (none, p.types) ∧ (check p).outcome { types := p.types } =
        (none, p.checked) :=
  ⟨outcome_eq h.1, outcome_eq h.2.1, outcome_eq h.2.2⟩

end AutoCool.Cool
