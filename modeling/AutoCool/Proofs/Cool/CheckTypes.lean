import AutoCool.Proofs.Cool.CheckClasses

/-!
# The types that the checker gives

The checker gives every expression the type that follows from those of its parts (`TypeRule`), in
the scopes that it makes. A walk lays the scopes of some parts and notes the types of all that it
meets (`Typed`); what comes later in the walk changes neither. So at the end every expression of the
program has its type by the rules, and the notes list these types (`judged_of_check`).
-/

namespace AutoCool.Cool

variable {ts : Types} {cls : TypeId} {scope i : Nat} {parts parts' : List Part}
  {names names' : List String} {e : Expr}
  {r : Option TypeId} {rs rs' : List (Option TypeId)} {site : Site} {a₀ a a' a'' : Analysis}

theorem Later.kept (h : Later scope a a') (hr : Ready scope a) : Kept a.scopes a'.scopes :=
  { h.grows with
    tidy := hr.tidy
    valid := hr.valid
    getVar_eq := h.getVar_eq }

/-- What a walk over some parts of an expression in a scope does: it lays their scopes, and gives
them the types `rs`. -/
structure Typed (cls : TypeId) (scope i : Nat) (parts : List Part) (names : List String)
    (rs : List (Option TypeId)) (a a' : Analysis) : Prop extends Laid scope i parts names a a' where
  judged : ∃ is l, (a'.scopes.get scope).children = (a.scopes.get scope).children ++ is ∧
    JudgedAll a.types a'.scopes cls scope is parts rs l ∧ Listed l a.notes.size a'

theorem Laid.typed (h : Laid scope i [] names a a') : Typed cls scope i [] names [] a a' where
  toLaid := h
  judged := by
    obtain ⟨is, vs, hget, ⟨hnil, -⟩, -⟩ := h.laid
    cases hnil
    exact ⟨[], [], by rw [hget], .nil, listed_nil⟩

theorem Typed.trans (h : Typed cls scope i parts names rs a a')
    (hi : i < a.notes.size ∨ a'.notes.size ≤ i) (h' : Typed cls scope i parts' names' rs' a' a'') :
    Typed cls scope i (parts ++ parts') (names ++ names') (rs ++ rs') a a'' where
  toLaid := h.toLaid.trans h'.toLaid
  judged := by
    obtain ⟨is, l, hchildren, hjudged, hlisted⟩ := h.judged
    obtain ⟨is', l', hchildren', hjudged', hlisted'⟩ := h'.judged
    have hlater := h'.toLaid.later
    have hsize := h.size_notes
    have hlength := hjudged.length_eq
    rw [h.types_eq] at hjudged'
    refine ⟨is ++ is', l ++ l', by rw [hchildren', hchildren, List.append_assoc], ?_, ?_⟩
    · exact (hjudged.kept (hlater.kept h.ready) fun j hj hsize => hlater.get_eq j hsize hj).append
        hjudged'
    · refine (hlisted.congr fun j hj hlt => ?_).append (by rwa [hlength, ← hsize])
      rw [Analysis.typeAt, h'.notes_eq j (by omega) (by omega), Analysis.typeAt]

/-- What the walk over an expression does: it meets the expression and gives it the type that
follows from those of its parts. -/
structure Assessed (cls : TypeId) (scope : Nat) (e : Expr) (r : Option TypeId) (a a' : Analysis) :
    Prop where
  met : Met scope e r a a'
  judged : ∃ rs, Typed cls scope a.cursor e.parts e.ownNames rs (a.entered scope) a' ∧
    TypeRule a.types a'.scopes cls scope e rs r

theorem Typed.assessed (h : Typed cls scope a.cursor e.parts e.ownNames rs (a.entered scope) a')
    (hr : Ready scope a) (hrule : TypeRule a.types a'.scopes cls scope e rs r) :
    Assessed cls scope e r a (a'.settled a.cursor r) where
  met := h.toLaid.met_settled hr.cursor_eq r
  judged := by
    have hsettled := h.trans (.inl (cursor_lt_entered hr.cursor_eq))
        ((Laid.refl h.ready).settled r).typed
    simp only [List.append_nil] at hsettled
    exact ⟨rs, hsettled, hrule⟩

theorem Assessed.child (hv : NewChild scope vs a t)
    (h : Assessed cls a.scopes.scopes.size e r { a with scopes := t } a') :
    Typed cls scope i [{ names := vs.map (·.1), expr := some e }] [] [r] a a' where
  toLaid := h.met.child hv
  judged := by
    obtain ⟨rs, htyped, hrule⟩ := h.judged
    obtain ⟨is, l, hchildren, hjudged, hlisted⟩ := htyped.judged
    have hparent := (hv.scopes.trans htyped.scopes).get_parent hv.ready.scope_lt
    have hcursor := hv.ready.cursor_eq
    have hempty : (({ a with scopes := t }).entered a.scopes.scopes.size).scopes.get
        a.scopes.scopes.size =
        { parent := some scope, index := (a.scopes.get scope).locals.length, locals := vs } :=
          hv.get_eq
    rw [hempty, List.nil_append] at hchildren
    refine ⟨[a.scopes.scopes.size], r :: l ++ [], by rw [hparent], ?_, ?_⟩
    · refine .cons hv.ready.scope_lt htyped.ready.scope_lt (.intro ?_ hrule) .nil
      rw [hchildren]
      exact hjudged
    · rw [List.append_nil]
      rw [notes_entered (a := { a with scopes := t }) hv.ready.cursor_eq,
        Array.size_push] at hlisted
      refine .cons ?_ hlisted
      rw [Analysis.typeAt, ← hcursor, h.met.note]
      rfl

theorem Typed.new_child (hr : Ready scope a) :
    Typed cls scope i [{ expr := none }] [] [none] a (a.withChild scope) where
  toLaid := .new_child hr
  judged := by
    refine ⟨[a.scopes.scopes.size], [], ?_, .bare .nil, listed_nil⟩
    rw [Analysis.scopes_withChild, ScopeTree.Extends.refl.get_parent hr.scope_lt]

/-- What is done after a walk in a scope that it left ready. The note of number `i` is none of those
that are made. -/
theorem Typed.andThen (h : Typed cls scope i parts names rs a a')
    (hi : i < a.notes.size ∨ a''.notes.size ≤ i)
    (h' : Ready scope a' → i < a'.notes.size ∨ a''.notes.size ≤ i →
      Typed cls scope i parts' names' rs' a' a'') :
    Typed cls scope i (parts ++ parts') (names ++ names') (rs ++ rs') a a'' := by
  have hsize := h.size_notes
  have hrest := h' h.ready (by omega)
  have hsize' := hrest.size_notes
  exact h.trans (by omega) hrest

theorem Typed.judged_whole (h : Typed cls scope i parts names rs a a')
    (hempty : (a.scopes.get scope).children = []) :
    ∃ l, JudgedAll a.types a'.scopes cls scope (a'.scopes.get scope).children parts rs l ∧
    Listed l a.notes.size a' := by
  obtain ⟨is, l, hchildren, hjudged, hlisted⟩ := h.judged
  rw [hempty, List.nil_append] at hchildren
  exact ⟨l, hchildren ▸ hjudged, hlisted⟩

/-! ## From steps to types -/

mutual

theorem Visits.assessed {scope : Nat} {e : Expr} {r : Option TypeId} {a a' : Analysis}
    (h : Visits site scope e r a a') (hr : Ready scope a) : Assessed site.cls scope e r a a' :=
  match h with
  | .intro herrands hrule => by
    have htyped := herrands.typed hr.entered (.inl (cursor_lt_entered hr.cursor_eq))
    rw [e.filterMap_errands.1, e.filterMap_errands.2] at htyped
    refine htyped.assessed hr (hrule ?_)
    rintro bs x rfl
    obtain ⟨_, vs, hget, -, hvs⟩ := htyped.laid
    have hlength := congrArg List.length hvs
    rw [List.length_map, Expr.ownNames, List.length_map] at hlength
    rw [hget, List.length_append]
    omega

theorem VisitsAll.typed {scope i : Nat} {es : List Errand} {rs : List (Option TypeId)}
    {a a' : Analysis} (h : VisitsAll site scope i es rs a a') (hr : Ready scope a)
    (hi : i < a.notes.size ∨ a'.notes.size ≤ i) :
    Typed site.cls scope i (es.filterMap Errand.part?) (es.filterMap Errand.name?) rs a a' :=
  match h with
  | .nil => (Laid.refl hr).typed
  | .remark (.said hsaid) hrest => (Laid.of_reports hr hsaid.reports).typed.andThen hi hrest.typed
  | .remark .settled hrest => ((Laid.refl hr).settled _).typed.andThen hi hrest.typed
  | .bare hrest => (Typed.new_child hr).andThen hi hrest.typed
  | .visit he hrest => ((he.assessed hr.createChild).child hr.newChild).andThen hi hrest.typed
  | .branch ht he hrest =>
    ((he.assessed (hr.createChild.defining _ _)).child (hr.newChild_define ht)).andThen hi
      hrest.typed
  | .declare hrest => ((Laid.refl hr).defining _ _).typed.andThen hi hrest.typed
  | .known _ hrest => hrest.typed hr hi
  | .missed _ _ hrest => (Laid.of_reports hr (.reported _)).typed.andThen hi hrest.typed

end

/-! ## Features and classes -/

theorem VisitsFeature.judged (h : VisitsFeature site scope f m a a') (hr : Ready scope a)
    (hempty : (a.scopes.get scope).children = []) :
    ∃ rs l, JudgedAll a.types a'.scopes site.cls scope (a'.scopes.get scope).children f.parts rs l ∧
    Listed l a.notes.size a' := by
  cases h with
  | bare =>
    refine ⟨[], [], ?_, listed_nil⟩
    rw [hempty]
    exact .nil
  | value he => exact ⟨_, ((he a'.notes.size).typed hr (.inr (Nat.le_refl _))).judged_whole hempty⟩
  | method _ he =>
    have htyped := (he a'.notes.size).typed hr (.inr (Nat.le_refl _))
    rw [List.filterMap_append, List.filterMap_cons, filterMap_declare fun _ _ => rfl] at htyped
    exact ⟨_, htyped.judged_whole hempty⟩

theorem listed_onward (h : Listed l n a) (hsize : n + l.length ≤ a.notes.size)
    (hnotes : ∀ j < a.notes.size, a'.notes[j]? = a.notes[j]?) : Listed l n a' :=
  h.congr fun j _ hj => by rw [Analysis.typeAt, hnotes j (by omega), Analysis.typeAt]

theorem VisitsFeatures.judged (h : VisitsFeatures scope site fs m a a')
    (hcls : site.cls ≠ TypeId.auto) (hr : Ready scope a) :
    ∃ is l, (a'.scopes.get scope).children = (a.scopes.get scope).children ++ is ∧
      Along (JudgedFeature a.types a'.scopes site.cls scope) is fs l ∧
        Listed l a.notes.size a' := by
  induction h with
  | nil => exact ⟨[], [], by simp, .nil, listed_nil⟩
  | @cons site f fs m m' a a1 a' hf hfs ih =>
    have hnew := hr.get_createChild
    obtain ⟨names, h1, hnames, hfirst, htyped⟩ :=
      hf.laid hcls hr.createChild (by rw [Analysis.scopes_withChild, hnew])
    obtain ⟨rs, l, hjudged, hlisted⟩ :=
      hf.judged hr.createChild (by rw [Analysis.scopes_withChild, hnew])
    have hlaid : LaidFeatures site.cls scope a.notes.size [f] a a1 :=
      h1.feature hr hnames hfirst htyped
    have hnoted : Listed l a.notes.size a1 := hlisted
    have h2 : LaidFeatures site.cls scope a1.notes.size fs a1 a' := hfs.laid hcls hlaid.ready
    obtain ⟨is', l', hchildren', halong, hlisted'⟩ := ih hcls hlaid.ready
    have hfeature : JudgedFeature a.types a1.scopes site.cls scope a.scopes.scopes.size f l :=
      ⟨hr.scope_lt, h1.ready.scope_lt, rs, hjudged⟩
    have hlater := h2.later
    have hsize := hlaid.size_notes
    have hlength : l.length = f.nodes.length := hjudged.length_eq.trans f.length_nodes.symm
    rw [List.flatMap_singleton] at hsize
    rw [hlaid.types_eq] at halong
    refine ⟨a.scopes.scopes.size :: is', l ++ l', ?_, .cons ?_ halong, ?_⟩
    · rw [hchildren', h1.scopes.get_parent hr.scope_lt, List.append_assoc]
      rfl
    · exact hfeature.kept (hlater.kept hlaid.ready) fun j hj hsize => hlater.get_eq j hsize hj
    · refine (listed_onward hnoted ?_ fun j hj => h2.notes_eq j hj (Nat.ne_of_lt hj)).append ?_
      · exact Nat.le_of_eq (by rw [hsize, hlength])
      · rwa [hlength, ← hsize]

theorem VisitsClass.judged (h : VisitsClass method a.scopes.scopes.size c m
      (a.withChild ScopeTree.root) a')
    (hacyclic : a.types.Acyclic) (hc : a.types.find c.name.text ≠ .ok TypeId.auto)
      (hr : Ready ScopeTree.root a) :
    ∃ l, (a'.scopes.get ScopeTree.root).children = (a.scopes.get ScopeTree.root).children ++
      [a.scopes.scopes.size] ∧
      JudgedClass a.types a'.scopes a.scopes.scopes.size c l ∧ Listed l a.notes.size a' := by
  obtain @⟨cls, _, _, a1, _, hcls, hbreaks, hfeatures⟩ := h
  cases hbreaks.eq.2 hacyclic
  have h1 := (Laid.refl (i := a.notes.size) hr.createChild).definingAll
    (((a.withChild ScopeTree.root).types.get cls).attributes.map fun x => (x.name, x.type))
  obtain ⟨_, vs, hget, ⟨hnil, -⟩, -⟩ := h1.laid
  cases hnil
  have hauto : cls ≠ TypeId.auto := fun h => hc (h ▸ hcls)
  have h2 : LaidFeatures cls a.scopes.scopes.size 0 c.features _ a' := hfeatures.laid hauto h1.ready
  obtain ⟨is, l, hchildren, halong, hlisted⟩ := hfeatures.judged hauto h1.ready
  rw [hget, Analysis.scopes_withChild, hr.get_createChild, List.append_nil,
    List.nil_append] at hchildren
  rw [h1.types_eq] at halong
  refine ⟨l, ?_, ⟨hr.scope_lt, h2.ready.scope_lt, cls, hcls, ?_⟩, ?_⟩
  · rw [(h1.scopes.trans h2.scopes).get_parent hr.scope_lt]
  · rw [hchildren]
    exact halong
  · rwa [h1.size_notes] at hlisted

theorem VisitsClasses.judged (h : VisitsClasses method cs a a') (hacyclic : a.types.Acyclic)
    (hcs : ∀ c ∈ cs, a.types.find c.name.text ≠ .ok TypeId.auto) (hr : Ready ScopeTree.root a) :
    ∃ is l, (a'.scopes.get ScopeTree.root).children = (a.scopes.get ScopeTree.root).children ++ is ∧
      Along (JudgedClass a.types a'.scopes) is cs l ∧ Listed l a.notes.size a' := by
  induction h with
  | nil => exact ⟨[], [], by simp, .nil, listed_nil⟩
  | @cons method m c cs a a1 a' hvisit hrest ih =>
    obtain ⟨hc, hcs⟩ := List.forall_mem_cons.1 hcs
    have h1 := hvisit.laid hc hr
    obtain ⟨l, hchildren, hjudged, hlisted⟩ := hvisit.judged hacyclic hc hr
    have htypes := h1.types_eq hacyclic
    have hsize := h1.size_notes
    have hlength : l.length = (c.features.flatMap Feature.nodes).length := hjudged.length_eq
    rw [List.flatMap_singleton] at hsize
    have h2 := hrest.laid (htypes ▸ hcs) h1.ready
    obtain ⟨is', l', hchildren', halong, hlisted'⟩ := ih (htypes ▸ hacyclic) (htypes ▸ hcs) h1.ready
    have hlater := h2.later
    rw [htypes] at halong
    refine ⟨a.scopes.scopes.size :: is', l ++ l', ?_, .cons ?_ halong, ?_⟩
    · rw [hchildren', hchildren, List.append_assoc]
      rfl
    · exact hjudged.kept (hlater.kept h1.ready) fun j hj hsize => hlater.get_eq j hsize hj
    · refine (listed_onward hlisted ?_ h2.notes_eq).append ?_
      · exact Nat.le_of_eq (by rw [hsize, hlength])
      · rwa [hlength, ← hsize]

/-- After the checker has gone through a program whose types are declared without a cycle, every
expression has the type that follows from those of its parts, and this is the type that is noted of
it. -/
theorem judged_of_check (hacyclic : ts.Acyclic)
    (hp : ∀ c ∈ p.classes, ts.find c.name.text ≠ .ok TypeId.auto)
    (h : (check p).outcome { types := ts } = (none, a)) :
    ∃ l, Along (JudgedClass ts a.scopes) (a.scopes.get ScopeTree.root).children p.classes l ∧
      Listed l 0 a := by
  obtain ⟨is, l, hchildren, halong, hlisted⟩ :=
    (visitsClasses_of_check h).judged hacyclic hp ready_start
  rw [hchildren]
  exact ⟨l, halong, hlisted⟩

end AutoCool.Cool
