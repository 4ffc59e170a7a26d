import AutoCool.Proofs.Cool.Resolution

/-!
# Names that mean no variable

The checker complains about a name where the search from its scope finds no variable, and it does so
once for each such name of the program (`Declared.unknown_perm`). The scope of a class has the
attributes that the class itself declares. So a name that neither its method nor an expression
around it binds is known just when the class itself declares such an attribute, whatever the search
through the classes above would find (`own_attributes_known`).
-/

namespace AutoCool.Cool

/-- The word by which an expression itself names a variable. -/
def Expr.naming? : Expr → Option Token
  | .atom .name token => some token
  | .assign name _ => some name
  | _ => none

def Complaint.unknown? : Complaint → Option String
  | .noVariable name _ => some name
  | _ => none

/-- What has been said about names that mean no variable: the places and the names. -/
def Analysis.unknown (a : Analysis) : List (Position × String) :=
  a.diagnostics.toList.filterMap fun d => d.complaint.unknown?.map (d.place, ·)

/-- No variable of that name is found from a scope. -/
def Analysis.misses (a : Analysis) (s : ScopeId) (token : Token) : Bool :=
  (a.scopes.find s token.text).isNone

/-- The name in the expression of number `k`, if it is not found from the scope of the
expression. -/
def Analysis.lostAt (a : Analysis) (k : Nat) (x : Expr) : Option Token :=
  x.naming?.filter fun token => (a.scopeAt k).any (a.misses · token)

/-- The names that are not found in some expressions, with the numbers of these expressions, which
begin with `start`. -/
def Analysis.lost (a : Analysis) (start : Nat) (xs : List Expr) : List (Nat × Token) :=
  (xs.zipIdx start).filterMap fun x => (a.lostAt x.2 x.1).map (x.2, ·)

/-- What is said about an expression that names a variable that is not found. -/
def mention (x : Nat × Token) : Position × String := (position x.2, x.2.text)

variable {a a' b : Analysis} {scope s i k n lo : Nat} {x e : Expr} {xs ys : List Expr}
  {token : Token} {name : String} {ts : Types}
  {cls : TypeId} {site : Site}

theorem Expr.lookup?_of_naming? (h : x.naming? = some token) : x.lookup? = some token.text := by
  cases x with
  | atom kind =>
    cases kind with
    | name =>
      cases h
      rfl
    | _ => cases h
  | assign =>
    cases h
    rfl
  | _ => cases h

theorem lost_cons : a.lost n (x :: xs) = (a.lostAt n x).toList.map (n, ·) ++ a.lost (n + 1) xs := by
  cases h : a.lostAt n x <;> simp [Analysis.lost, h]

theorem lost_append : a.lost n (xs ++ ys) = a.lost n xs ++ a.lost (n + xs.length) ys := by
  rw [Analysis.lost, List.zipIdx_append, List.filterMap_append, Analysis.lost, Analysis.lost]

theorem lostAt_eq_some_iff : a.lostAt k x = some token ↔
    x.naming? = some token ∧ ∃ s, a.scopeAt k = some s ∧ a.scopes.find s token.text = none := by
  rw [Analysis.lostAt, Option.filter_eq_some_iff, Option.any_eq_true]
  simp only [Analysis.misses, Option.isNone_iff_eq_none]

theorem mem_lost_iff : (k, token) ∈ a.lost 0 xs ↔ ∃ x, xs[k]? = some x ∧
    a.lostAt k x = some token := by
  simp only [Analysis.lost, List.mem_filterMap, Prod.exists, List.mem_zipIdx_iff_getElem?,
    Option.map_eq_some_iff, Prod.mk.injEq]
  constructor
  · rintro ⟨x, _, hx, _, htoken, rfl, rfl⟩
    exact ⟨x, hx, htoken⟩
  · rintro ⟨x, hx, htoken⟩
    exact ⟨x, k, hx, token, htoken, rfl, rfl⟩

theorem nodup_lost : ((a.lost n xs).map (·.1)).Nodup := by
  have hsub : ((a.lost n xs).map (·.1)).Sublist (List.range' n xs.length) := by
    induction xs generalizing n with
    | nil => exact .slnil
    | cons x xs ih =>
      rw [lost_cons, List.map_append, List.map_map, List.length_cons, List.range'_succ]
      cases a.lostAt n x with
      | none => exact ih.cons n
      | some token => exact ih.cons_cons n
  exact hsub.nodup List.nodup_range'

/-! ## Walks over expressions -/

theorem Complaint.unknown?_of_isRoutine {x : Complaint} (h : x.isRoutine = true) :
    x.unknown? = none := by
  cases x with
  | noVariable => cases h
  | _ => rfl

theorem Routine.unknown_eq (h : Routine a a') : a'.unknown = a.unknown := by
  obtain ⟨ds, hds, rfl⟩ := h
  have hnone : ds.toList.filterMap (fun d => d.complaint.unknown?.map (d.place, ·)) = [] := by
    rw [List.filterMap_eq_nil_iff]
    intro d hd
    rw [Complaint.unknown?_of_isRoutine (hds d (Array.mem_def.2 hd)), Option.map_none]
  rw [Analysis.unknown, Array.toList_append, List.filterMap_append, hnone, List.append_nil,
    Analysis.unknown]

@[simp] theorem unknown_withChild : (a.withChild scope).unknown = a.unknown := rfl

@[simp] theorem unknown_settled : (a.settled i t).unknown = a.unknown := rfl

theorem unknown_missed : (a.reported ⟨position token, .noVariable token.text method⟩).unknown =
    a.unknown ++ [mention (i, token)] := by
  simp [Analysis.unknown, Analysis.reported, Complaint.unknown?, mention]

/-- The name that an errand looks up. -/
def Errand.look? : Errand → Option Token
  | .look name => some name
  | _ => none

/-- The names that are not found in some errands of the expression of number `i`. The expressions in
them begin with number `n`. -/
def Analysis.lostIn (a : Analysis) (scope i n : Nat) (es : List Errand) : List (Nat × Token) :=
  a.lost n (nodesOfParts (es.filterMap Errand.part?)) ++
    ((es.filterMap Errand.look?).filter (a.misses scope)).map (i, ·)

theorem Expr.looks_errands (e : Expr) :
    (e.errands ts cls).filterMap Errand.look? = e.naming?.toList := by
  have hvisits (xs : List Expr) : (xs.map Errand.visit).filterMap Errand.look? = [] := by
    simp [List.filterMap_eq_nil_iff, Errand.look?]
  have hbindings (bs : List Binding) :
      (bs.flatMap (Binding.errands ts cls)).filterMap Errand.look? = [] := by
    rw [List.filterMap_flatMap, List.flatMap_eq_nil_iff]
    rintro ⟨name, type, value⟩ -
    cases value <;> rfl
  have hbranches (bs : List Branch) : (bs.map (Branch.errand ts)).filterMap Errand.look? = [] := by
    rw [List.filterMap_map, List.filterMap_eq_nil_iff]
    rintro ⟨name, type, body⟩ -
    rfl
  cases e with
  | letIn bs x =>
    rw [Expr.errands, List.filterMap_append, hbindings]
    rfl
  | caseOf x bs => exact hbranches bs
  | block xs | selfCall name xs => exact hvisits xs
  | call x name xs type => exact hvisits xs
  | atom kind token => cases kind <;> rfl
  | _ => rfl

theorem Expr.errands_cases (e : Expr) :
    (e.errands ts cls).filterMap Errand.look? = [] ∨ (e.errands ts cls).filterMap Errand.name? =
      [] := by
  rw [e.looks_errands, e.filterMap_errands.2]
  cases h : e.naming? with
  | none => exact .inl rfl
  | some token => exact .inr (e.ownNames_of_lookup? (e.lookup?_of_naming? h))

theorem Expr.lost_perm (e : Expr) (hs : b.scopeAt n = some scope) :
    (b.lost n e.nodes).Perm (b.lostIn scope n (n + 1) (e.errands ts cls)) := by
  have hown : (b.lostAt n e).toList = e.naming?.toList.filter (b.misses scope) := by
    rw [Analysis.lostAt, hs]
    cases e.naming? with
    | none => rfl
    | some token => cases h : b.misses scope token <;> simp [h]
  rw [e.nodes_eq, lost_cons, Analysis.lostIn, e.filterMap_errands.1, e.looks_errands, hown]
  exact List.perm_append_comm

theorem lostIn_cons (h : errand.look? = none) :
    b.lostIn scope i n (errand :: es) = b.lost n (nodesOfParts errand.part?.toList) ++
      b.lostIn scope i (n + sizeOfParts errand.part?.toList) es := by
  have hparts : (errand :: es).filterMap Errand.part? = errand.part?.toList ++
      es.filterMap Errand.part? := by
    cases hpart : errand.part? <;> simp [hpart]
  rw [Analysis.lostIn, List.filterMap_cons_none h, hparts, nodesOfParts, List.flatMap_append,
    lost_append, List.append_assoc]
  rw [← nodesOfParts, ← nodesOfParts, length_nodesOfParts, Analysis.lostIn]

theorem lostIn_look : b.lostIn scope i n (.look token :: es) =
    b.lost n (nodesOfParts (es.filterMap Errand.part?)) ++
      ((token :: es.filterMap Errand.look?).filter (b.misses scope)).map (i, ·) := rfl

theorem lostIn_known (h : b.scopes.find scope token.text = some v) :
    b.lostIn scope i n (.look token :: es) = b.lostIn scope i n es := by
  have hfound : ¬ b.misses scope token = true := by simp [Analysis.misses, h]
  rw [lostIn_look, List.filter_cons_of_neg hfound, Analysis.lostIn]

theorem lostIn_missed (h : b.scopes.find scope token.text = none) :
    (b.lostIn scope i n (.look token :: es)).Perm ((i, token) :: b.lostIn scope i n es) := by
  have hmissed : b.misses scope token = true := by simp [Analysis.misses, h]
  rw [lostIn_look, List.filter_cons_of_pos hmissed]
  exact List.perm_middle

theorem unknown_perm_cons {es : List Errand} {a1 : Analysis} (h : errand.look? = none)
    (hnodes : nodesOfParts errand.part?.toList = xs)
    (hsize : a1.notes.size = a.notes.size + sizeOfParts errand.part?.toList)
    (hfirst : a1.unknown.Perm (a.unknown ++ (b.lost a.notes.size xs).map mention))
    (hrest : a'.unknown.Perm (a1.unknown ++ (b.lostIn scope i a1.notes.size es).map mention)) :
    a'.unknown.Perm (a.unknown ++ (b.lostIn scope i a.notes.size (errand :: es)).map mention) := by
  refine hrest.trans ((hfirst.append_right _).trans (.of_eq ?_))
  rw [lostIn_cons h, List.map_append, List.append_assoc, hsize, hnodes]

theorem later_settled : Later scope a (a.settled i t) :=
  { Later.refl with notes := noteScopes_settled ▸ List.prefix_rfl }

theorem VisitsAll.find_eq (h : VisitsAll site scope i es rs a a') (hr : Ready scope a)
    (hes : es.filterMap Errand.name? = []) (hb : Later lo a' b) (hlo : lo < scope) :
    b.scopes.find scope name = a.scopes.find scope name := by
  have hlaid := h.laid hr
  obtain ⟨is, vs, hget, -, hvs⟩ := hlaid.laid
  rw [hes, List.map_eq_nil_iff] at hvs
  refine (hlaid.later.grows.trans hb.grows).find_eq hr.tidy hr.scope_lt ?_
  rw [hb.get_eq scope hlaid.ready.scope_lt hlo, hget, hvs, List.append_nil]

mutual

theorem Visits.unknown_perm {scope lo : Nat} {e : Expr} {a a' : Analysis}
    (h : Visits site scope e r a a') (hr : Ready scope a) (hb : Later lo a' b) (hlo : lo < scope) :
    a'.unknown.Perm (a.unknown ++ (b.lost a.notes.size e.nodes).map mention) :=
  match h with
  | .intro herrands hrule => by
    have hmet := (Visits.intro herrands hrule).met hr
    have hscope : b.scopeAt a.notes.size = some scope := by
      rw [scopeAt_eq]
      refine getElem?_of_prefix hb.notes ?_
      rw [← scopeAt_eq, Analysis.scopeAt, ← hr.cursor_eq, hmet.note]
      rfl
    have hsize : (a.entered scope).notes.size = a.notes.size + 1 := by
      rw [notes_entered hr.cursor_eq, Array.size_push]
    have hall := herrands.unknown_perm hr.entered (later_settled.trans hb) hlo e.errands_cases
    rw [hsize, hr.cursor_eq] at hall
    exact hall.trans (((e.lost_perm hscope).map mention).symm.append_left a.unknown)

theorem VisitsAll.unknown_perm {scope i lo : Nat} {es : List Errand} {a a' : Analysis}
    (h : VisitsAll site scope i es rs a a')
    (hr : Ready scope a) (hb : Later lo a' b) (hlo : lo < scope)
    (hes : es.filterMap Errand.look? = [] ∨ es.filterMap Errand.name? = []) :
    a'.unknown.Perm (a.unknown ++ (b.lostIn scope i a.notes.size es).map mention) :=
  match h with
  | .nil => by
    rw [Analysis.lostIn]
    exact .of_eq (List.append_nil _).symm
  | .remark (.said hsaid) hrest => by
    have hl : Laid scope i [] [] a _ := .of_reports hr hsaid.reports
    have hall := hrest.unknown_perm hl.ready hb hlo hes
    rwa [hsaid.unknown_eq, hl.size_notes] at hall
  | .remark (@Remark.settled _ _ t) hrest => by
    have hl : Laid scope i [] [] a _ := (Laid.refl hr).settled t
    have hall := hrest.unknown_perm hl.ready hb hlo hes
    rwa [unknown_settled, hl.size_notes] at hall
  | .bare hrest =>
    unknown_perm_cons rfl rfl rfl (.of_eq (List.append_nil _).symm)
      (hrest.unknown_perm (Laid.new_child (i := i) hr).ready hb hlo hes)
  | .visit he hrest => by
    have hl : Laid scope i _ [] a _ := (he.met hr.createChild).new_child hr
    have hlater := (hrest.laid hl.ready).later.trans (hb.mono (Nat.le_of_lt hlo))
    have hfirst := he.unknown_perm hr.createChild hlater hr.scope_lt
    exact unknown_perm_cons rfl (List.append_nil _) hl.size_notes hfirst
      (hrest.unknown_perm hl.ready hb hlo hes)
  | @VisitsAll.branch _ _ _ name t _ _ _ _ _ _ _ ht he hrest => by
    have hr' := hr.createChild.defining name t
    have hl : Laid scope i _ [] a _ := (he.met hr').branch ht hr
    have hlater := (hrest.laid hl.ready).later.trans (hb.mono (Nat.le_of_lt hlo))
    have hfirst := he.unknown_perm hr' hlater hr.scope_lt
    exact unknown_perm_cons rfl (List.append_nil _) hl.size_notes hfirst
      (hrest.unknown_perm hl.ready hb hlo hes)
  | @VisitsAll.declare _ _ _ name t _ _ _ _ hrest => by
    refine unknown_perm_cons rfl rfl rfl (.of_eq (List.append_nil _).symm)
      (hrest.unknown_perm (hr.defining name t) hb hlo (.inl ?_))
    exact hes.resolve_right (List.cons_ne_nil _ _)
  | .known hfind hrest => by
    have hnames := hes.resolve_left (List.cons_ne_nil _ _)
    have hall := hrest.unknown_perm hr hb hlo (.inr hnames)
    have hknown := (hrest.find_eq hr hnames hb hlo).trans hfind
    rwa [lostIn_known hknown]
  | @VisitsAll.missed _ _ _ token method _ _ _ _ hfind _ hrest => by
    have hnames := hes.resolve_left (List.cons_ne_nil _ _)
    have hl : Laid scope i [] [] a _ :=
      .of_reports hr (.reported ⟨position token, .noVariable token.text method⟩)
    have hall := hrest.unknown_perm hl.ready hb hlo (.inr hnames)
    have hmissed := (hrest.find_eq hl.ready hnames hb hlo).trans hfind
    rw [unknown_missed (i := i), hl.size_notes, List.append_assoc] at hall
    exact hall.trans ((((lostIn_missed hmissed).map mention).symm).append_left a.unknown)

end

/-! ## Features and classes -/

variable {f : Feature} {fs : List Feature} {c : ClassDecl} {cs : List ClassDecl}
  {method method' : Option String}

theorem VisitsFeature.unknown_perm (h : VisitsFeature site scope f method a a') (hr : Ready scope a)
    (hb : Later lo a' b) (hlo : lo < scope) :
    a'.unknown.Perm (a.unknown ++ (b.lost a.notes.size f.nodes).map mention) := by
  have hvisits {site : Site} {es : List Errand} {rs : List (Option TypeId)}
      (h : ∀ i, VisitsAll site scope i es rs a a')
      (hlook : es.filterMap Errand.look? = [])
        (hnodes : nodesOfParts (es.filterMap Errand.part?) = f.nodes) :
      a'.unknown.Perm (a.unknown ++ (b.lost a.notes.size f.nodes).map mention) := by
    have hall := (h 0).unknown_perm hr hb hlo (.inl hlook)
    rwa [Analysis.lostIn, hlook, hnodes, List.filter_nil, List.map_nil, List.append_nil] at hall
  cases h with
  | bare => exact .of_eq (List.append_nil _).symm
  | value hvalue => exact hvisits hvalue rfl (List.append_nil _)
  | method _ hbody =>
    refine hvisits hbody ?_ ?_
    · rw [List.cons_append, List.filterMap_cons_none rfl, List.filterMap_append,
        filterMap_declare fun _ _ => rfl]
      rfl
    · rw [List.cons_append, List.filterMap_cons_none rfl, List.filterMap_append,
        filterMap_declare fun _ _ => rfl]
      exact List.append_nil _

theorem VisitsFeatures.unknown_perm (h : VisitsFeatures scope site fs method a a')
    (hcls : site.cls ≠ TypeId.auto) (hr : Ready scope a) (hb : Later scope a' b) :
    a'.unknown.Perm (a.unknown ++
      (b.lost a.notes.size (fs.flatMap Feature.nodes)).map mention) := by
  induction h with
  | nil => exact .of_eq (List.append_nil _).symm
  | @cons site f fs m m' a a1 a' hfirst hrest ih =>
    have hfeature : LaidFeatures site.cls scope 0 [f] a a1 := hfirst.laid_child hcls hr
    have hl : LaidFeatures site.cls scope 0 fs a1 a' := hrest.laid hcls hfeature.ready
    have hperm := hfirst.unknown_perm hr.createChild (hl.later.trans hb) hr.scope_lt
    refine (ih hcls hfeature.ready hb).trans ((hperm.append_right _).trans (.of_eq ?_))
    rw [List.flatMap_cons, lost_append, List.map_append, List.append_assoc, hfeature.size_notes,
      List.flatMap_singleton]
    rfl

theorem unknown_definingAll : (a.definingAll scope vars).unknown = a.unknown := by
  obtain ⟨scopes, h⟩ := definingAll_eq a scope vars
  rw [h]
  rfl

theorem Checking.Breaks.unknown_eq (h : Checking.Breaks c cls a a') : a'.unknown = a.unknown := by
  cases h with
  | broken => simp [Analysis.unknown, Analysis.reported, Complaint.unknown?]
  | kept => rfl

theorem VisitsClass.unknown_perm (h : VisitsClass method a.scopes.scopes.size c method'
      (a.withChild ScopeTree.root) a') (hc : a.types.find c.name.text ≠ .ok TypeId.auto)
    (hr : Ready ScopeTree.root a) (hb : Later ScopeTree.root a' b) :
    a'.unknown.Perm (a.unknown ++ (b.lost a.notes.size c.nodes).map mention) := by
  obtain @⟨cls, _, _, a1, _, hcls, hbreaks, hfeatures⟩ := h
  obtain ⟨⟨ts, ds, -, ha1⟩, -⟩ := hbreaks.eq
  have hr1 : Ready a.scopes.scopes.size a1 := by
    rw [ha1]
    exact { hr.createChild with }
  have hdefined : Laid a.scopes.scopes.size 0 [] _ a1 _ :=
    (Laid.refl hr1).definingAll ((a1.types.get cls).attributes.map fun x => (x.name, x.type))
  have hall := hfeatures.unknown_perm (fun h => hc (h ▸ hcls)) hdefined.ready
      (hb.mono (Nat.zero_le _))
  have hsize : a1.notes.size = a.notes.size := by rw [ha1]; rfl
  rwa [unknown_definingAll, hbreaks.unknown_eq, unknown_withChild, hdefined.size_notes,
    hsize] at hall

theorem VisitsClasses.unknown_perm (h : VisitsClasses method cs a a')
    (hcs : ∀ c ∈ cs, a.types.find c.name.text ≠ .ok TypeId.auto) (hr : Ready ScopeTree.root a)
    (hb : Later ScopeTree.root a' b) :
    a'.unknown.Perm (a.unknown ++
      (b.lost a.notes.size (cs.flatMap ClassDecl.nodes)).map mention) := by
  induction h with
  | nil => exact .of_eq (List.append_nil _).symm
  | @cons method m c cs a a1 a' hfirst hrest ih =>
    obtain ⟨hc, hcs⟩ := List.forall_mem_cons.1 hcs
    have hlaid := hfirst.laid hc hr
    have hcs1 : ∀ c ∈ cs, a1.types.find c.name.text ≠ .ok TypeId.auto := fun c hc => by
      rw [hlaid.types.find_eq]
      exact hcs c hc
    have hperm := hfirst.unknown_perm hc hr ((hrest.laid hcs1 hlaid.ready).later.trans hb)
    refine (ih hcs1 hlaid.ready hb).trans ((hperm.append_right _).trans (.of_eq ?_))
    rw [List.flatMap_cons, lost_append, List.map_append, List.append_assoc, hlaid.size_notes,
      List.flatMap_singleton]
    rfl

theorem Declared.unknown_perm (hd : Declared p ts)
    (hcheck : (check p).outcome { types := ts } = (none, a)) :
    a.unknown.Perm ((a.lost 0 p.nodes).map mention) :=
  (visitsClasses_of_check hcheck).unknown_perm hd.find_ne_auto ready_start .refl

theorem mem_lost_of_node (hnode : xs[k]? = some x) (hx : x.naming? = some token)
    (hs : a.scopeAt k = some s) : (k, token) ∈ a.lost 0 xs ↔ a.scopes.find s token.text = none := by
  rw [mem_lost_iff]
  constructor
  · rintro ⟨x', -, hlost⟩
    obtain ⟨-, s', hs', hfind⟩ := lostAt_eq_some_iff.1 hlost
    cases hs.symm.trans hs'
    exact hfind
  · exact fun hfind => ⟨x, hnode, lostAt_eq_some_iff.2 ⟨hx, s, hs, hfind⟩⟩

/-- In a program that is built and checked, there is one complaint for each name that means no
variable. A name that neither its method nor an expression around it binds is known just when the
class itself declares an attribute of that name, and then it has the type of this attribute.
Attributes of the classes above are not known. -/
theorem own_attributes_known {p : Program} {ts₀ : Types}
    (hcollect : (collect p.classes).outcome Builtin.types = (none, ts₀))
    (hbuild : (build p).outcome ts₀ = (none, ts))
      (hcheck : (check p).outcome { types := ts } = (none, a)) :
    a.unknown.Perm ((a.lost 0 p.nodes).map mention) ∧ ((a.lost 0 p.nodes).map (·.1)).Nodup ∧
      ∀ i j k x frames token c cls, p.Framed ts i j k x frames → x.naming? = some token →
        (∀ f ∈ frames, f.owner ≠ .cls i → token.text ∉ f.vars.map (·.1)) → p.classes[i]? = some c →
          ts.find c.name.text = .ok cls →
          ((k, token) ∉ a.lost 0 p.nodes ↔ ∃ y, ts.findAttribute cls token.text = .ok (cls, y)) ∧
            ∀ y, ts.findAttribute cls token.text = .ok (cls, y) → x = .atom .name token →
              a.typeAt k = some (some y.type) := by
  have hd := declared_of_build hcollect hbuild
  have ht := (laidClasses_of_check hd.find_ne_auto hcheck).ready.tidy
  refine ⟨hd.unknown_perm hcheck, nodup_lost,
    fun i j k x frames token c cls hframed hx hlocal hc hcls => ?_⟩
  obtain ⟨s, hs, hresolves, htype⟩ := (hd.seen hcheck hframed).resolves ht (x.lookup?_of_naming? hx)
  obtain ⟨inner, rfl, hinner⟩ := hframed.class_frame hc hcls
  have hinner : ∀ f ∈ inner, token.text ∉ f.vars.map (·.1) :=
    fun f hf => hlocal f (List.mem_append_left _ hf) (hinner f hf)
  have hnodup : ((attributeVars ts cls).map (·.1)).Nodup := by
    rw [attributeVars, List.map_map]
    exact (hd.distinct cls).1
  have hfound (y : Attribute) (hy : ts.findAttribute cls token.text = .ok (cls, y)) :
      ∃ v, a.scopes.find s token.text = some v ∧ (a.scopes.getVar v).type = y.type := by
    obtain ⟨hmem, hname⟩ := (findAttribute_own_iff (hd.distinct cls)).1 hy
    obtain ⟨m, hm⟩ : ∃ m, Earliest token.text [⟨.cls i, attributeVars ts cls⟩] (.cls i) m y.type :=
      exists_earliest (List.mem_map.2 ⟨y, hmem, by rw [hname]⟩) hnodup
    obtain ⟨v, hv, htype, -⟩ := hresolves.found _ m _ (hm.append hinner)
    exact ⟨v, hv, htype⟩
  refine ⟨?_, fun y hy hname => ?_⟩
  · rw [mem_lost_of_node hframed.node hx hs]
    constructor
    · intro hfind
      by_contra hnone
      have hclass : token.text ∉ (attributeVars ts cls).map (·.1) := by
        rw [attributeVars, List.map_map, List.mem_map]
        rintro ⟨y, hy, hname⟩
        exact hnone ⟨y, (findAttribute_own_iff (hd.distinct cls)).2 ⟨hy, hname⟩⟩
      refine hfind (hresolves.missing fun f hf => ?_)
      rcases List.mem_append.1 hf with hf | hf
      · exact hinner f hf
      · cases List.mem_singleton.1 hf
        exact hclass
    · rintro ⟨y, hy⟩ hfind
      obtain ⟨v, hv, -⟩ := hfound y hy
      cases hfind.symm.trans hv
  · obtain ⟨v, hv, hvtype⟩ := hfound y hy
    rw [htype token hname, variableType_of_find hv, hvtype]

/-- A class with an attribute above one that names it, and names an attribute of its own. -/
def Sample.inherited : Program where
  classes := [
    { name := word "A"
      parent := none
      features := [.attribute (word "x") (word "Int") none] },
    { name := word "B"
      parent := some (word "A")
      features := [
        .attribute (word "y") (word "Int") none,
        .method (word "f") [] (word "Int") (.atom .name (word "x")),
        .method (word "g") [] (word "Int") (.atom .name (word "y"))] }]

theorem own_attributes_known_inherited :
    Sample.inherited.checked.unknown.Perm
      ((Sample.inherited.checked.lost 0 Sample.inherited.nodes).map mention) ∧
      (1, word "y") ∉ Sample.inherited.checked.lost 0 Sample.inherited.nodes ∧
      Sample.inherited.checked.typeAt 1 = some (some Builtin.int) := by
  obtain ⟨hcollect, hbuild, hcheck⟩ := Sample.inherited.checks (by decide +kernel)
  have hcls : Sample.inherited.types.find "B" = .ok 9 := by decide +kernel
  have hown : Sample.inherited.types.findAttribute 9 "y" = .ok (9, ⟨"y", Builtin.int⟩) := by
    decide +kernel
  obtain ⟨hperm, -, h⟩ := own_attributes_known hcollect hbuild hcheck
  obtain ⟨hlost, htype⟩ := h 1 2 1 _ _ (word "y") _ 9 (.intro rfl hcls rfl rfl rfl .here) rfl
      (by decide) rfl hcls
  exact ⟨hperm, hlost.2 ⟨_, hown⟩, htype _ hown rfl⟩

/-- The attribute of the class above is found in the types, and still the checker says that there is
no such variable. -/
theorem own_attributes_inherited_missed :
    Sample.inherited.types.Acyclic ∧
      (check Sample.inherited).outcome { types := Sample.inherited.types } =
        (none, Sample.inherited.checked) ∧
      Sample.inherited.nodes[0]? = some (.atom .name (word "x")) ∧
      Sample.inherited.types.findAttribute 9 "x" = .ok (8, ⟨"x", Builtin.int⟩) ∧
      Sample.inherited.checked.unknown = [(position (word "x"), "x")] ∧
      Sample.inherited.checked.typeAt 0 = some (some TypeId.error) :=
  ⟨by decide +kernel, outcome_eq (by decide +kernel), rfl, by decide +kernel, by decide +kernel, by
    decide +kernel⟩

end AutoCool.Cool
