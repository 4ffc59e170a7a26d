import AutoCool.Proofs.Cool.InferScopes

/-!
# The types that inference notes when there is nothing to infer

Where every variable and every result has a known type, nothing that inference does changes a type,
and what is expected of an expression does not matter. So a computation gives one value and notes
one list of types, whatever was noted before (`Gives`), and for an expression these are the ones
that the rules tell (`gives_expr`). It can be cut short only by an assignment to no variable.
-/

namespace AutoCool.Cool

variable {α β : Type} {ts : Types} {t : ScopeTree} {cls : TypeId} {s i j : Nat} {v : VarId}
  {is js : List Nat} {o : Option Nat}
  {e x : Expr} {part : Part} {parts : List Part} {r : Option TypeId}
    {rs l l' : List (Option TypeId)} {m : Analyzing α}
  {f : α → Analyzing β} {y : α} {z : β} {b b' b'' : Analysis}

/-! ## What is to be walked over -/

/-- The name that is assigned to. -/
def Expr.target? : Expr → Option String
  | .assign name _ => some name.text
  | _ => none

/-- Whatever is assigned to is a variable in the scope of the assignment. -/
def Targets (t : ScopeTree) (l : List (Expr × Nat)) : Prop :=
  ∀ x ∈ l, ∀ name ∈ x.1.target?, (t.find x.2 name).isSome

instance {l : List (Expr × Nat)} : Decidable (Targets t l) :=
  inferInstanceAs (Decidable (∀ x ∈ l, ∀ name ∈ x.1.target?, (t.find x.2 name).isSome))

theorem Targets.append_inv {l l' : List (Expr × Nat)} (h : Targets t (l ++ l')) :
    Targets t l ∧ Targets t l' :=
  List.forall_mem_append.1 h

/-- An expression has types by the rules, and whatever is assigned to in it is a variable. -/
structure Sees (ts : Types) (t : ScopeTree) (cls : TypeId) (s : Nat) (e : Expr) (r : Option TypeId)
    (l : List (Option TypeId)) : Prop where
  judged : Judged ts t cls s e r l
  targets : Targets t (e.nodes.zip (e.scopes t s))

/-- Some parts have types by the rules, and whatever is assigned to in them is a variable. -/
structure SeesAll (ts : Types) (t : ScopeTree) (cls : TypeId) (s : Nat) (is : List Nat)
    (parts : List Part) (rs l : List (Option TypeId)) : Prop where
  judged : JudgedAll ts t cls s is parts rs l
  targets : Targets t ((nodesOfParts parts).zip (scopesOfParts t is parts))

mutual

theorem Judged.length_scopes {s : Nat} {e : Expr} {r : Option TypeId} {l : List (Option TypeId)}
    (h : Judged ts t cls s e r l) : (e.scopes t s).length = e.size :=
  match h with
  | .intro hparts _ => by rw [Expr.scopes_eq, Expr.size_eq, List.length_cons, hparts.length_scopes]

theorem JudgedAll.length_scopes {s : Nat} {is : List Nat} {parts : List Part}
    {rs l : List (Option TypeId)} (h : JudgedAll ts t cls s is parts rs l) :
    (scopesOfParts t is parts).length = sizeOfParts parts :=
  match h with
  | .nil => rfl
  | .bare hrest => by
    rw [scopesOfParts_cons, sizeOfParts_cons, List.length_append, hrest.length_scopes]
    rfl
  | .cons _ _ he hrest => by
    rw [scopesOfParts_cons, sizeOfParts_cons, List.length_append, hrest.length_scopes,
      Option.elim_some, Option.elim_some,
      he.length_scopes]

end

theorem Sees.inv (h : Sees ts t cls s e r l) :
    ∃ rs l', l = r :: l' ∧ SeesAll ts t cls s (t.get s).children e.parts rs l' ∧
    TypeRule ts t cls s e rs r ∧ ∀ name x, e = .assign name x →
    ∃ v, t.find s name.text = some v := by
  obtain ⟨⟨hparts, hrule⟩, htargets⟩ := h
  rw [e.nodes_eq, e.scopes_eq, List.zip_cons_cons] at htargets
  obtain ⟨hown, hbelow⟩ := List.forall_mem_cons.1 htargets
  refine ⟨_, _, rfl, ⟨hparts, hbelow⟩, hrule, fun name x he => ?_⟩
  subst he
  exact Option.isSome_iff_exists.1 (hown name.text rfl)

theorem SeesAll.nil_inv (h : SeesAll ts t cls s is [] rs l) : is = [] ∧ rs = [] ∧ l = [] := by
  obtain ⟨h, -⟩ := h
  cases h
  exact ⟨rfl, rfl, rfl⟩

theorem SeesAll.cons_inv (h : SeesAll ts t cls s is ({ names, expr := some e } :: parts) rs l) :
    ∃ i is' r rs' l1 l2, is = i :: is' ∧ rs = r :: rs' ∧ l = l1 ++ l2 ∧ Sees ts t cls i e r l1 ∧
      SeesAll ts t cls s is' parts rs' l2 := by
  obtain ⟨hjudged, htargets⟩ := h
  cases hjudged with
  | cons _ _ he hrest =>
    rw [nodesOfParts_cons, scopesOfParts_cons, Option.elim_some, Option.elim_some,
      List.zip_append (by rw [e.length_nodes, he.length_scopes])] at htargets
    obtain ⟨hfirst, hothers⟩ := htargets.append_inv
    exact ⟨_, _, _, _, _, _, rfl, rfl, rfl, ⟨he, hfirst⟩, hrest, hothers⟩

theorem SeesAll.bare_inv (h : SeesAll ts t cls s is ({ names, expr := none } :: parts) rs l) :
    ∃ i is' rs', is = i :: is' ∧ rs = none :: rs' ∧ SeesAll ts t cls s is' parts rs' l := by
  obtain ⟨hjudged, htargets⟩ := h
  cases hjudged with
  | bare hrest => exact ⟨_, _, _, rfl, rfl, hrest, htargets⟩

theorem JudgedAll.append_inv (h : JudgedAll ts t cls s is (parts ++ [{ expr := some e }]) rs l) :
    ∃ is' i rs' r l1 l2, is = is' ++ [i] ∧ rs = rs' ++ [r] ∧ l = l1 ++ l2 ∧
      is'.length = parts.length ∧
      JudgedAll ts t cls s is' parts rs' l1 ∧ Judged ts t cls i e r l2 := by
  induction parts generalizing is rs l with
  | nil =>
    cases h with
    | @cons _ i _ _ _ _ r _ l _ _ _ he hrest =>
      cases hrest
      exact ⟨[], i, [], r, [], l, rfl, rfl, by rw [List.append_nil, List.nil_append], rfl, .nil, he⟩
  | cons part parts ih =>
    cases h with
    | bare hrest =>
      obtain ⟨is', i, rs', r, l1, l2, rfl, rfl, rfl, hlen, hinit, he⟩ := ih hrest
      exact ⟨_ :: is', i, none :: rs', r, l1, l2, rfl, rfl, rfl, congrArg Nat.succ hlen,
        .bare hinit, he⟩
    | cons hlt hsize hpart hrest =>
      obtain ⟨is', i, rs', r, l1, l2, rfl, rfl, rfl, hlen, hinit, he⟩ := ih hrest
      exact ⟨_ :: is', i, _ :: rs', r, _ ++ l1, l2, rfl, rfl, (List.append_assoc ..).symm,
        congrArg Nat.succ hlen,
        .cons hlt hsize hpart hinit, he⟩

theorem SeesAll.append_inv (h : SeesAll ts t cls s is (parts ++ [{ expr := some e }]) rs l) :
    ∃ is' i rs' r l1 l2, is = is' ++ [i] ∧ rs = rs' ++ [r] ∧ l = l1 ++ l2 ∧
      SeesAll ts t cls s is' parts rs' l1 ∧
      Sees ts t cls i e r l2 := by
  obtain ⟨hjudged, htargets⟩ := h
  obtain ⟨is', i, rs', r, l1, l2, rfl, rfl, rfl, hlen, hinit, he⟩ := hjudged.append_inv
  rw [nodesOfParts_append, scopesOfParts_append hlen,
    List.zip_append (by rw [length_nodesOfParts, hinit.length_scopes]),
    nodesOfParts_cons, nodesOfParts_nil, scopesOfParts_cons, scopesOfParts_nil, List.append_nil,
      List.append_nil] at htargets
  obtain ⟨hfirst, hlast⟩ := htargets.append_inv
  exact ⟨is', i, rs', r, l1, l2, rfl, rfl, rfl, ⟨hinit, hfirst⟩, he, hlast⟩

/-! ## Computations that give one value -/

/-- A walk noted types. Of what was noted before, only the type of the expression of number `o`,
which is being walked over, may have changed. -/
structure Noting (o : Option Nat) (l : List (Option TypeId)) (b b' : Analysis) : Prop where
  eq : b' = { b with notes := b'.notes, cursor := b.cursor + l.length }
  size_notes : b'.notes.size = b.notes.size
  listed : Listed l b.cursor b'
  kept : ∀ j < b.cursor, o ≠ some j → b'.typeAt j = b.typeAt j

/-- A walk is in a state in which there is nothing to infer, and has `n` expressions before it. -/
structure Stands (ts : Types) (t : ScopeTree) (o : Option Nat) (n : Nat) (b : Analysis) : Prop where
  types_eq : b.types = ts
  scopes_eq : b.scopes = t
  opened : ∀ i, o = some i → i < b.cursor
  room : b.cursor + n ≤ b.notes.size

theorem Noting.cursor_eq (h : Noting o l b b') : b'.cursor = b.cursor + l.length := by
  rw [h.eq]

theorem Noting.refl : Noting o [] b b := ⟨rfl, rfl, listed_nil, fun _ _ _ => rfl⟩

theorem Noting.trans (h : Noting o l b b') (hopened : ∀ i, o = some i → i < b.cursor)
    (h' : Noting o l' b' b'') : Noting o (l ++ l') b b'' where
  eq := by
    rw [h'.eq, h.eq, List.length_append, Nat.add_assoc]
  size_notes := h'.size_notes.trans h.size_notes
  listed := by
    have hcursor := h.cursor_eq
    refine (h.listed.congr fun j hj hlt => h'.kept j (by omega) fun ho => ?_).append
      (hcursor ▸ h'.listed)
    exact absurd (hopened j ho) (by omega)
  kept j hj ho := by
    have hcursor := h.cursor_eq
    rw [h'.kept j (by omega) ho, h.kept j hj ho]

theorem Stands.noting (h : Stands ts t o (l.length + j) b) (hn : Noting o l b b') :
    Stands ts t o j b' where
  types_eq := by
    rw [hn.eq]
    exact h.types_eq
  scopes_eq := by
    rw [hn.eq]
    exact h.scopes_eq
  opened i hi := by
    rw [hn.cursor_eq]
    exact Nat.lt_of_lt_of_le (h.opened i hi) (Nat.le_add_right _ _)
  room := by
    rw [hn.cursor_eq, hn.size_notes, Nat.add_assoc]
    exact h.room

theorem Stands.mono (h : Stands ts t o k b) (hle : j ≤ k) : Stands ts t o j b :=
  { h with room := Nat.le_trans (Nat.add_le_add_left hle _) h.room }

/-- Where there is nothing to infer, a computation gives a value and notes types, and nothing cuts
it short. Then `P` holds. -/
def GivesThat (P : Analysis → Prop) (ts : Types) (t : ScopeTree) (o : Option Nat)
    (l : List (Option TypeId)) (y : α) (m : Analyzing α) : Prop :=
  ∀ b, Stands ts t o l.length b → Ensures m (fun y' b' => (y' = y ∧ Noting o l b b') ∧ P b')
    (fun _ _ => False) b

abbrev Gives (ts : Types) (t : ScopeTree) (o : Option Nat) (l : List (Option TypeId)) (y : α)
    (m : Analyzing α) : Prop :=
  GivesThat (fun _ => True) ts t o l y m

variable {P : Analysis → Prop}

theorem Gives.bind (hm : Gives ts t o l y m) (hf : GivesThat P ts t o l' z (f y)) :
    GivesThat P ts t o (l ++ l') z (m >>= f) := by
  intro b hb
  rw [List.length_append] at hb
  rw [ensures_bind]
  refine (hm b (hb.mono (Nat.le_add_right _ _))).imp fun y' b1 ⟨⟨heq, h1⟩, _⟩ => ?_
  subst heq
  exact (hf b1 (hb.noting h1)).imp fun z' b2 ⟨⟨heq, h2⟩, hP⟩ => ⟨⟨heq, h1.trans hb.opened h2⟩, hP⟩

theorem Gives.skip (hm : Gives ts t o [] y m) (hf : GivesThat P ts t o l z (f y)) :
    GivesThat P ts t o l z (m >>= f) := hm.bind hf

theorem Gives.last (hm : Gives ts t o l y m) (hf : GivesThat P ts t o [] z (f y)) :
    GivesThat P ts t o l z (m >>= f) := by
  have h := hm.bind hf
  rwa [List.append_nil] at h

theorem gives_pure : Gives ts t o [] y (pure y) := fun _ _ => ⟨⟨rfl, .refl⟩, trivial⟩

theorem gives_of_ensures (h : ∀ b, b.types = ts → b.scopes = t →
      Ensures m (fun y' b' => y' = y ∧ b' = b) (fun _ _ => False) b) :
    Gives ts t o [] y m := fun b hb => (h b hb.types_eq hb.scopes_eq).imp fun _ _ ⟨heq, hb'⟩ =>
      ⟨⟨heq, hb' ▸ .refl⟩, trivial⟩

/-! ## Nothing to infer -/

/-- Every variable of the scopes and every result of a method has a known type, and methods have as
many types of parameters as parameters. -/
structure Closed (ts : Types) (t : ScopeTree) : Prop where
  wellFormed : ts.WellFormed
  valid : t.Valid
  known : ∀ v < t.vars.size, (t.getVar v).inferred = true
  results : ∀ cls, ∀ m ∈ (ts.get cls).methods, m.result.inferred = true

theorem Closed.locals (hc : Closed ts t) :
    ∀ v ∈ (t.get s).locals.map (·.2), (t.getVar v).inferred = true := by
  intro v hv
  obtain ⟨y, hy, rfl⟩ := List.mem_map.1 hv
  exact hc.known y.2 (hc.valid s y hy)

theorem modify_eq_self (h : g (t.getVar v) = t.getVar v) : t.modify v g = t := by
  rw [ScopeTree.modify]
  congr 1
  ext i hi hi'
  · simp
  · rw [Array.getElem_modify]
    split
    · next heq =>
      subst heq
      rwa [ScopeTree.getVar, ← Array.getElem_eq_getD (h := hi')] at h
    · rfl

open Inferring Analyzing

theorem gives_modifyVariable (h : g (t.getVar v) = t.getVar v) :
    Gives ts t o [] () (modifyVariable v g) := gives_of_ensures fun b _ hscopes => by
  rw [ensures_modifyVariable, hscopes, modify_eq_self h, ← hscopes]
  exact ⟨rfl, rfl⟩

theorem gives_variableOf : Gives ts t o [] (t.getVar v) (variableOf v) :=
  gives_of_ensures fun b _ hscopes => by
  rw [ensures_variableOf, hscopes]
  exact ⟨rfl, rfl⟩

theorem gives_ask (h : g ts = .ok y) : Gives ts t o [] y (ask g) :=
  gives_of_ensures fun b htypes _ => by
    rw [ensures_ask, htypes, h]
    simp

theorem gives_inferVariable (h : (t.getVar v).inferred = true) :
    Gives ts t o [] false (inferVariable v) := by
  have hinfer : ts.infer (t.getVar v) = .ok (false, t.getVar v) := if_pos h
  exact gives_variableOf.skip ((gives_ask hinfer).skip ((gives_modifyVariable rfl).skip gives_pure))

theorem gives_childAt (h : (t.get s).children[j]? = some i) : Gives ts t o [] i (childAt s j) :=
  gives_of_ensures fun b _ hscopes => by
    rw [ensures_childAt, hscopes, h]
    simp

theorem gives_childrenOf : Gives ts t o [] (t.get s).children (childrenOf s) :=
  gives_of_ensures fun b _ hscopes => by
  rw [ensures_childrenOf, hscopes]
  exact ⟨rfl, rfl⟩

theorem gives_localsOf : Gives ts t o [] ((t.get s).locals.map (·.2)) (localsOf s) :=
  gives_of_ensures fun b _ hscopes => by
  rw [ensures_localsOf, hscopes]
  exact ⟨rfl, rfl⟩

theorem gives_resolve : Gives ts t o [] (t.find s name) (resolve s name) :=
  gives_of_ensures fun b _ hscopes => by
  rw [ensures_resolve, hscopes]
  exact ⟨rfl, rfl⟩

theorem gives_present : Gives ts t o [] y (present (some y)) := gives_pure

theorem gives_join (h : ts.join u r = .ok r') : Gives ts t o [] r' (join (some u) r) :=
  gives_present.skip (gives_ask h)

theorem gives_typeOrWrong : Gives ts t o [] (typeNamed ts name.text) (typeOrWrong name) :=
  gives_of_ensures fun b htypes _ => by
    simp only [typeOrWrong, typeNamed, ensures_bind, ensures_attempt, ensures_pure, htypes]
    refine ⟨fun u hu => ⟨by rw [hu], trivial⟩, fun d hd => ⟨by rw [hd], trivial⟩,
      fun g hg hne => ?_⟩
    obtain ⟨d, rfl⟩ := Checking.find_error hg
    exact hne d rfl

theorem gives_dispatchType :
    Gives ts t o [] (some (dispatchNamed ts name.text)) (dispatchType (some name)) := by
  refine gives_typeOrWrong.skip ?_
  rw [dispatchNamed]
  cases TypeId.kind (typeNamed ts name.text) <;> exact gives_pure

theorem gives_callee (h : CallType ts target name.text u) :
    ∃ method : Option Method, (∀ m, method = some m → ∃ owner, m ∈ (ts.get owner).methods) ∧
    Gives ts t o [] (u, method) (callee name target) := by
  cases h with
  | @found owner m hm =>
    refine ⟨some m, fun _ h => ?_, gives_of_ensures fun b htypes _ => ?_⟩
    · cases h
      exact ⟨owner, Types.mem_of_findMethod hm⟩
    · simp [callee, htypes, hm]
  | @missing d hd =>
    refine ⟨none, fun _ h => (by cases h), gives_of_ensures fun b htypes _ => ?_⟩
    simp [callee, htypes, hd]

theorem gives_locals (hvs : ∀ v ∈ vs, (t.getVar v).inferred = true) :
    Gives ts t o [] () (inferLocals vs bs) := by
  induction vs generalizing bs with
  | nil => exact gives_pure
  | cons v vs ih =>
    obtain ⟨hv, hvs⟩ := List.forall_mem_cons.1 hvs
    exact (gives_inferVariable hv).skip (ih hvs)

theorem gives_inferName (hc : Closed ts t) :
    Gives ts t o [] (variableType t s name.text) (inferName s expected name) := by
  refine gives_resolve.skip ?_
  rw [variableType]
  cases hv : t.find s name.text with
  | none => exact gives_pure
  | some v =>
    have hknown := hc.known v (hc.valid.find_lt hv)
    have hlast : Gives ts t o [] (t.getVar v).type
        (do return (knownType (← variableOf v)).getD TypeId.auto) := by
      refine gives_variableOf.skip ?_
      rw [knownType, if_pos hknown]
      exact gives_pure
    dsimp only
    split
    · exact (gives_modifyVariable (by simp [Variable.addUpper, hknown])).skip hlast
    · exact hlast

/-! ## Expressions -/

/-- The walk over the expression of number `i`, after it was met, gives a type and settles it. -/
abbrev Ends (ts : Types) (t : ScopeTree) (i : Nat) (l : List (Option TypeId)) (r : Option TypeId)
    (m : Analyzing (Option TypeId)) : Prop :=
  GivesThat (fun b => b.typeAt i = some r) ts t (some i) l r m

theorem ends_settle : Ends ts t i [] r (settle i r) := by
  intro b hb
  have hlt : i < b.notes.size := Nat.lt_of_lt_of_le (hb.opened i rfl) hb.room
  rw [ensures_settle]
  refine ⟨⟨rfl, rfl, by simp [Analysis.settled], listed_nil, fun j _ hj => ?_⟩, ?_⟩
  · rw [typeAt_settled, if_neg fun heq => hj (congrArg some heq.1)]
  · exact typeAt_settled.trans (if_pos ⟨rfl, hlt⟩)

theorem Ends.gives {m : Analyzing (Option TypeId)} (h : Ends ts t i l r m) :
    Gives ts t (some i) l r m :=
  fun b hb => (h b hb).imp fun _ _ h => ⟨h.1, trivial⟩

theorem gives_enter {m : Nat → Analyzing (Option TypeId)} (hm : ∀ i, Ends ts t i l r (m i)) :
    Gives ts t o (r :: l) r (enter s >>= m) := by
  intro b hb
  have hroom := hb.room
  rw [List.length_cons] at hroom
  have hlt : b.cursor < b.notes.size := by omega
  have hsize : (b.entered s).notes.size = b.notes.size := by simp [Analysis.entered, hlt]
  have hentered : Stands ts t (some b.cursor) l.length (b.entered s) := by
    refine ⟨hb.types_eq, hb.scopes_eq, fun i hi => ?_, ?_⟩
    · cases hi
      exact Nat.lt_succ_self _
    · rw [hsize]
      change b.cursor + 1 + l.length ≤ b.notes.size
      omega
  rw [ensures_bind, ensures_enter]
  refine (hm b.cursor (b.entered s) hentered).imp ?_
  rintro r' b' ⟨⟨heq, h⟩, hr⟩
  refine ⟨⟨heq, ?_, h.size_notes.trans hsize, .cons hr h.listed, ?_⟩, trivial⟩
  · rw [h.eq]
    simp [Analysis.entered, Nat.add_assoc, Nat.add_comm 1]
  · intro j hj _
    have hne : some b.cursor ≠ some j := fun heq => Nat.ne_of_gt hj (Option.some.inj heq)
    rw [h.kept j (Nat.lt_succ_of_lt hj) hne, typeAt_entered hlt]

/-- The walk over an expression gives the type that the rules tell, and notes the types of it and
all below it. -/
def GivesExpr (ts : Types) (t : ScopeTree) (cls : TypeId) (e : Expr) : Prop :=
  ∀ s r l o expected, Sees ts t cls s e r l → Gives ts t o l r (inferExpr cls s expected e)

theorem Sees.enter {m : Nat → Analyzing (Option TypeId)} (h : Sees ts t cls s e r l)
    (hm : ∀ i rs l, SeesAll ts t cls s (t.get s).children e.parts rs l →
      TypeRule ts t cls s e rs r → Ends ts t i l r (m i)) : Gives ts t o l r (enter s >>= m) := by
  obtain ⟨rs, l, rfl, hparts, hrule, -⟩ := h.inv
  exact gives_enter fun i => hm i rs l hparts hrule

variable {names : List String} {k : Nat} {r' : Option TypeId}

theorem GivesExpr.next {f : Option TypeId → Analyzing α} (hx : GivesExpr ts t cls x)
    (hsees : SeesAll ts t cls s ((t.get s).children.drop j)
      ({ names, expr := some x } :: parts) rs l)
    (hf : ∀ r rs' l', rs = r :: rs' →
      SeesAll ts t cls s ((t.get s).children.drop (j + 1)) parts rs' l' →
      GivesThat P ts t o l' y (f r)) :
    GivesThat P ts t o l y (childAt s j >>= fun i => inferExpr cls i expected x >>= f) := by
  obtain ⟨i, is, r, rs, l1, l2, hi, rfl, rfl, hfirst, hrest⟩ := hsees.cons_inv
  have hchild : (t.get s).children[j]? = some i := by rw [← List.head?_drop, hi, List.head?_cons]
  have hdrop : (t.get s).children.drop (j + 1) = is := by rw [← List.tail_drop, hi, List.tail_cons]
  exact (gives_childAt hchild).skip ((hx i r l1 _ expected hfirst).bind
    (hf r rs l2 rfl (hdrop.symm ▸ hrest)))

theorem SeesAll.ending (h : SeesAll ts t cls s is [] rs l) (hm : GivesThat P ts t o [] y m) :
    GivesThat P ts t o l y m := by
  obtain ⟨-, -, rfl⟩ := h.nil_inv
  exact hm

theorem gives_block (hes : ∀ x ∈ es, GivesExpr ts t cls x)
    (hsees : SeesAll ts t cls s is (es.map fun x => { expr := some x }) rs l)
      (hlast : rs.getLast? = some r) :
    Gives ts t o l r (inferBlock cls expected is.getLast? is.dropLast es) := by
  induction es generalizing is rs l with
  | nil =>
    obtain ⟨-, rfl, -⟩ := hsees.nil_inv
    cases hlast
  | cons x es ih =>
    obtain ⟨hx, hes⟩ := List.forall_mem_cons.1 hes
    obtain ⟨i, is, rx, rs, l1, l2, rfl, rfl, rfl, hfirst, hrest⟩ := hsees.cons_inv
    cases es with
    | nil =>
      obtain ⟨rfl, rfl, rfl⟩ := hrest.nil_inv
      cases hlast
      rw [inferBlock_last, List.append_nil]
      exact hx i _ l1 o expected hfirst
    | cons y es =>
      obtain ⟨i', is', ry, rs', _, _, rfl, rfl, rfl, -, -⟩ := hrest.cons_inv
      rw [inferBlock_next (by simp)]
      exact (hx i rx l1 o none hfirst).bind
        (ih hes hrest (by rwa [List.getLast?_cons_cons] at hlast))

theorem gives_args (hes : ∀ x ∈ es, GivesExpr ts t cls x) (hlen : xs.length = es.length)
    (hsees : SeesAll ts t cls s is (es.map fun x => { expr := some x }) rs l) :
    Gives ts t o l () (inferArgs cls is xs es) := by
  induction es generalizing is xs rs l with
  | nil =>
    obtain ⟨rfl, rfl, rfl⟩ := hsees.nil_inv
    rw [inferArgs]
    · exact gives_pure
    · simp
  | cons x es ih =>
    obtain ⟨hx, hes⟩ := List.forall_mem_cons.1 hes
    obtain ⟨i, is, rx, rs, l1, l2, rfl, rfl, rfl, hfirst, hrest⟩ := hsees.cons_inv
    cases xs with
    | nil => cases hlen
    | cons u xs =>
      rw [inferArgs]
      exact (hx i rx l1 o u hfirst).bind (ih hes (Nat.succ.inj hlen) hrest)

theorem ends_dispatch (hc : Closed ts t) (hes : ∀ x ∈ es, GivesExpr ts t cls x)
    (hcall : CallType ts target name.text u)
    (hsees : SeesAll ts t cls s ((t.get s).children.drop j)
      (es.map fun x => { expr := some x }) rs l) :
    Ends ts t k l (some u) (do
      let (type, method) ← callee name target
      inferArgs cls ((← childrenOf s).drop j) (expectations es method) es
      settle k (some type)) := by
  obtain ⟨method, hmethod, hcallee⟩ := gives_callee (t := t) (o := some k) hcall
  have hlen := length_expectations es fun m hm => by
    obtain ⟨owner, hmem⟩ := hmethod m hm
    exact hc.wellFormed owner m hmem
  exact hcallee.skip (gives_childrenOf.skip ((gives_args hes hlen hsees).last ends_settle))

theorem ends_branches (hbs : ∀ b ∈ bs, GivesExpr ts t cls b.body)
    (hsees : SeesAll ts t cls s is (bs.map fun b => { names := [b.name], expr := some b.body }) rs
      l)
    (hjoin : JoinAll ts total rs r) :
    Ends ts t k l r (settle k total >>= fun total => inferBranches cls k total is bs) := by
  induction bs generalizing is rs l total with
  | nil =>
    obtain ⟨rfl, rfl, rfl⟩ := hsees.nil_inv
    cases hjoin
    have hdone : (fun total => inferBranches cls k total [] []) = pure := by
      funext total
      rw [inferBranches]
      simp
    rw [hdone, bind_pure]
    exact ends_settle
  | cons b bs ih =>
    obtain ⟨name, type, body⟩ := b
    obtain ⟨hb, hbs⟩ := List.forall_mem_cons.1 hbs
    obtain ⟨i, is, rb, rs, l1, l2, rfl, rfl, rfl, hfirst, hrest⟩ := hsees.cons_inv
    refine ends_settle.gives.skip ?_
    rw [inferBranches]
    refine (hb i rb l1 _ none hfirst).bind ?_
    cases hjoin with
    | first hjoin => exact ih hbs hrest hjoin
    | next hu hjoin => exact (gives_join hu).skip (ih hbs hrest hjoin)

theorem gives_bindings (hbs : ∀ b ∈ bs, ∀ x, b.value = some x → GivesExpr ts t cls x)
    (hvs : ∀ v ∈ vs, (t.getVar v).inferred = true) (hlen : bs.length ≤ vs.length)
    (hsees : SeesAll ts t cls s is (bs.map fun b => { expr := b.value }) rs l) :
    Gives ts t o l () (inferBindings cls is vs bs) := by
  induction bs generalizing is vs rs l with
  | nil =>
    obtain ⟨rfl, rfl, rfl⟩ := hsees.nil_inv
    rw [inferBindings]
    · exact gives_pure
    · simp
  | cons b bs ih =>
    obtain ⟨name, type, value⟩ := b
    obtain ⟨hb, hrests⟩ := List.forall_mem_cons.1 hbs
    cases vs with
    | nil => cases hlen
    | cons v vs =>
      obtain ⟨hv, hvs⟩ := List.forall_mem_cons.1 hvs
      have hlens := Nat.le_of_succ_le_succ hlen
      cases value with
      | none =>
        obtain ⟨i, is, rs, rfl, rfl, hrest⟩ := hsees.bare_inv
        rw [inferBindings]
        exact ih hrests hvs hlens hrest
      | some x =>
        obtain ⟨i, is, rx, rs, l1, l2, rfl, rfl, rfl, hfirst, hrest⟩ := hsees.cons_inv
        rw [inferBindings]
        refine gives_variableOf.skip ((hb x rfl i rx l1 o _ hfirst).bind ?_)
        refine (gives_modifyVariable (by simp [Variable.addUpper, hv])).skip
          ((gives_inferVariable hv).skip ?_)
        exact ih hrests hvs hlens hrest

theorem gives_expr (hc : Closed ts t) (e : Expr) : GivesExpr ts t cls e := by
  induction e using Expr.induction with
  | ifThenElse c x y hc hx hy =>
    intro s r l o expected hsees
    rw [inferExpr]
    refine hsees.enter fun n rs l hparts hrule => ?_
    cases hrule with
    | ifThenElse hjoin =>
      refine hc.next hparts ?_
      rintro _ _ _ ⟨⟩ hparts
      refine hx.next hparts ?_
      rintro _ _ _ ⟨⟩ hparts
      refine hy.next hparts ?_
      rintro _ _ _ ⟨⟩ hparts
      exact hparts.ending ((gives_join hjoin).skip ends_settle)
  | whileLoop c x hc hx =>
    intro s r l o expected hsees
    rw [inferExpr]
    refine hsees.enter fun n rs l hparts hrule => ?_
    cases hrule
    exact hc.next hparts fun _ _ _ _ hparts => hx.next hparts fun _ _ _ _ hparts =>
      hparts.ending ends_settle
  | block es hes =>
    intro s r l o expected hsees
    rw [inferExpr]
    refine hsees.enter fun n rs l hparts hrule => ?_
    cases hrule with
    | block hlast => exact gives_childrenOf.skip ((gives_block hes hparts hlast).last ends_settle)
  | letIn bs x hbs hx =>
    intro s r l o expected hsees
    rw [inferExpr]
    refine hsees.enter fun n rs l hparts hrule => ?_
    obtain ⟨is, i, rs, rx, l1, l2, hi, rfl, rfl, hinit, hbody⟩ := hparts.append_inv
    cases hrule with
    | letIn hlen hlast =>
      rw [List.getLast?_concat] at hlast
      cases hlast
      refine gives_childrenOf.skip (gives_localsOf.skip ?_)
      rw [hi, List.dropLast_concat, List.getLast?_concat]
      refine (gives_bindings hbs hc.locals (by rwa [List.length_map]) hinit).bind
        ((hx i _ l2 _ expected hbody).last ?_)
      exact gives_localsOf.skip ((gives_locals hc.locals).skip ends_settle)
  | caseOf x bs hx hbs =>
    intro s r l o expected hsees
    rw [inferExpr]
    refine hsees.enter fun n rs l hparts hrule => ?_
    cases hrule with
    | caseOf hjoin =>
      refine hx.next hparts ?_
      rintro _ _ _ ⟨⟩ hparts b hb
      have hbranches := ends_branches (k := n) hbs hparts hjoin b hb
      have hscopes : (b.settled n none).scopes = t := hb.scopes_eq
      rw [ensures_bind, ensures_settle] at hbranches ⊢
      rw [ensures_bind, ensures_childrenOf, hscopes]
      exact hbranches
  | assign name x hx =>
    intro s r l o expected hsees
    obtain ⟨-, -, -, -, -, hfound⟩ := hsees.inv
    obtain ⟨v, hv⟩ := hfound name x rfl
    have hknown := hc.known v (hc.valid.find_lt hv)
    rw [inferExpr]
    refine hsees.enter fun n rs l hparts hrule => gives_resolve.skip ?_
    cases hrule
    rw [hv]
    refine gives_variableOf.skip (gives_pure.skip (hx.next hparts ?_))
    rintro _ _ _ ⟨⟩ hparts
    refine hparts.ending (gives_present.skip ?_)
    exact (gives_modifyVariable (by simp [Variable.addLower, hknown])).skip ends_settle
  | unary op x hx =>
    intro s r l o expected hsees
    rw [inferExpr]
    refine hsees.enter fun n rs l hparts hrule => ?_
    cases hrule
    cases op <;> exact hx.next hparts fun _ _ _ _ hparts => hparts.ending ends_settle
  | binary op x y hx hy =>
    intro s r l o expected hsees
    rw [inferExpr]
    refine hsees.enter fun n rs l hparts hrule => ?_
    cases hrule
    have hnext : ∀ (r : Option TypeId) (f : Option TypeId → Option TypeId),
        Ends ts t n l (some (Checking.typeOfOperation op)) (do
        let r ← inferExpr cls (← childAt s 0) r x
        let _ ← inferExpr cls (← childAt s 1) (f r) y
        settle n (some (Checking.typeOfOperation op))) := fun r f =>
      hx.next hparts fun _ _ _ _ hparts => hy.next hparts fun _ _ _ _ hparts =>
        hparts.ending ends_settle
    cases op with
    | equal =>
      -- whatever type is noted of the right operand, it is expected of the left one to no effect
      intro b hb
      rw [ensures_bind, ensures_typeSoFar]
      exact hnext _ id b hb
    | _ => exact hnext _ fun _ => some Builtin.int
  | call x name es type hx hes =>
    intro s r l o expected hsees
    rw [inferExpr]
    refine hsees.enter fun n rs l hparts hrule => ?_
    cases hrule with
    | call hcall =>
      refine gives_pure.skip (hx.next hparts ?_)
      rintro _ _ _ ⟨⟩ hparts
      exact gives_present.skip (ends_dispatch hc hes hcall hparts)
    | callIn hcall =>
      refine gives_dispatchType.skip (hx.next hparts fun _ _ _ _ hparts => ?_)
      exact gives_present.skip (ends_dispatch hc hes hcall hparts)
  | selfCall name es hes =>
    intro s r l o expected hsees
    rw [inferExpr]
    refine hsees.enter fun n rs l hparts hrule => ?_
    cases hrule with
    | selfCall hcall => exact ends_dispatch (j := 0) hc hes hcall hparts
  | new type =>
    intro s r l o expected hsees
    rw [inferExpr]
    refine hsees.enter fun n rs l hparts hrule => hparts.ending ?_
    cases hrule
    exact gives_typeOrWrong.skip ends_settle
  | atom kind token =>
    intro s r l o expected hsees
    rw [inferExpr]
    refine hsees.enter fun n rs l hparts hrule => hparts.ending ?_
    cases hrule with
    | name => exact (gives_inferName hc).skip ends_settle
    | integer | string | bool => exact ends_settle

/-! ## Features and classes -/

variable {c : ClassDecl} {g : Feature}

theorem gives_modifyMethod {g : Method → Method}
    (h : ∀ m ∈ (ts.get cls).methods, m.name = name → g m = m) :
    Gives ts t o [] () (modify fun a => { a with types := a.types.modifyMethod cls name g }) :=
  gives_of_ensures fun b htypes _ => by
    rw [ensures_modify, htypes, Types.modifyMethod_eq_self h, ← htypes]
    exact ⟨rfl, rfl⟩

theorem gives_params (hvs : ∀ v ∈ vs, (t.getVar v).inferred = true) :
    Gives ts t o [] () (inferParams cls owner method j vs) := by
  induction vs generalizing j with
  | nil => exact gives_pure
  | cons v vs ih =>
    obtain ⟨hv, hvs⟩ := List.forall_mem_cons.1 hvs
    exact (gives_inferVariable hv).skip (ih hvs)

theorem gives_attributes (hvs : ∀ v ∈ vs, (t.getVar v).inferred = true) :
    Gives ts t o [] () (inferAttributes cls as vs) := by
  induction vs generalizing as with
  | nil => cases as <;> exact gives_pure
  | cons v vs ih =>
    obtain ⟨hv, hvs⟩ := List.forall_mem_cons.1 hvs
    cases as with
    | nil => exact gives_pure
    | cons x as => exact (gives_inferVariable hv).skip (ih hvs)

theorem gives_result {m : Method} (hc : Closed ts t) (hd : Distinct (ts.get cls))
    (hm : m ∈ (ts.get cls).methods) : Gives ts t o [] () (inferResult cls cls m r) := by
  have hknown := hc.results cls m hm
  have hbounded : m.result.addLower r = m.result := if_pos hknown
  have hinfer : ts.infer m.result = .ok (false, m.result) := if_pos hknown
  -- methods of one name are one and the same
  have hself : ∀ m' ∈ (ts.get cls).methods, m'.name = m.name →
      { m' with result := m.result } = m' := by
    intro m' hm' hname
    rw [List.inj_on_of_nodup_map hd.2 hm' hm hname]
  rw [inferResult, hbounded]
  refine (gives_modifyMethod hself).skip ((gives_ask hinfer).skip ?_)
  exact (gives_modifyMethod hself).skip gives_pure

theorem gives_value {f : Option TypeId → Analyzing Unit} (hc : Closed ts t)
    (hsees : SeesAll ts t cls i (t.get i).children [{ expr := some x }] rs l)
      (hf : ∀ r, Gives ts t o [] () (f r)) :
    Gives ts t o l () (childAt i 0 >>= fun j => inferExpr cls j expected x >>= f) :=
  (gives_expr hc x).next (j := 0) hsees fun r _ _ _ hrest => hrest.ending (hf r)

theorem Feature.nodes_eq : (f : Feature) → f.nodes = nodesOfParts f.parts
  | .attribute _ _ none => by simp [Feature.nodes, Feature.parts]
  | .attribute _ _ (some _) => by simp [Feature.nodes, Feature.parts]
  | .method .. => by simp [Feature.nodes, Feature.parts]

theorem gives_feature (hc : Closed ts t) (hhosts : Hosts ts cls c) (hg : g ∈ c.features)
    (hfit : FitsFeature t s i g) (hlocals : (t.get s).locals.map (·.1) = (ts.get cls).attributes.map
      (·.name)) (hjudged : JudgedFeature ts t cls s i g l)
    (htargets : Targets t (g.nodes.zip (g.scopes t i))) :
    Gives ts t o l () (inferFeature cls i g) := by
  obtain ⟨rs, hparts⟩ := hjudged.judged
  have hsees : SeesAll ts t cls i (t.get i).children g.parts rs l := ⟨hparts, g.nodes_eq ▸ htargets⟩
  match g with
  | .attribute name type none =>
    obtain ⟨-, -, rfl⟩ := hsees.nil_inv
    exact gives_pure
  | .attribute name type (some x) =>
    obtain ⟨y, hfind, -⟩ := hhosts.findAttribute hg
    obtain ⟨v, hv, -⟩ := hfit.find (hlocals ▸ hhosts.attributes name type _ hg)
    have hknown := hc.known v (hc.valid.find_lt hv)
    have hupper : ∀ r, (t.getVar v).addUpper r = t.getVar v :=
      fun _ => by simp [Variable.addUpper, hknown]
    rw [inferFeature]
    refine (gives_ask hfind).skip (gives_value hc hsees fun r => gives_resolve.skip ?_)
    rw [hv]
    refine gives_present.skip ((gives_modifyVariable (g := (·.addUpper r)) (hupper r)).skip ?_)
    exact (gives_inferVariable hknown).skip gives_pure
  | .method name params type x =>
    obtain ⟨m, hfind, hm, -⟩ := hhosts.findMethod hg
    rw [inferFeature]
    refine (gives_ask hfind).skip (gives_value hc hsees fun r => gives_localsOf.skip ?_)
    exact (gives_params fun v hv => hc.locals v (List.mem_of_mem_drop hv)).skip
      (gives_result hc hhosts.distinct hm)

theorem gives_features (hc : Closed ts t) (hhosts : Hosts ts cls c) (hfs : ∀ f ∈ fs, f ∈ c.features)
    (hfits : List.Forall₂ (FitsFeature t s) is fs)
    (hlocals : (t.get s).locals.map (·.1) = (ts.get cls).attributes.map (·.name))
    (hjudged : Along (JudgedFeature ts t cls s) is fs l)
    (htargets : Targets t ((fs.flatMap Feature.nodes).zip (scopesOfFeatures t is fs))) :
    Gives ts t o l () (inferFeatures cls is fs) := by
  induction hjudged with
  | nil => exact gives_pure
  | cons hjudged _ ih =>
    obtain ⟨hf, hfs⟩ := List.forall_mem_cons.1 hfs
    cases hfits with
    | cons hfit hfits =>
      rw [List.flatMap_cons, scopesOfFeatures_cons,
        List.zip_append hfit.length_scopes.symm] at htargets
      obtain ⟨hfirst, hothers⟩ := htargets.append_inv
      exact (gives_feature hc hhosts hf hfit hlocals hjudged hfirst).bind (ih hfs hfits hothers)

theorem gives_class (hc : Closed ts t) (hhosts : Hosts ts cls c) (hfit : FitsClass ts t s c)
    (hjudged : JudgedClass ts t s c l) (htargets : Targets t (c.nodes.zip (c.scopes t s))) :
    Gives ts t o l () (inferClass s c) := by
  obtain ⟨_, hcls, hfeatures⟩ := hjudged.features
  cases hcls.symm.trans hhosts.find_eq
  have hlocals := hfit.locals_eq cls hcls
  rw [inferClass]
  refine (gives_ask hcls).skip (gives_childrenOf.skip ?_)
  refine (gives_features hc hhosts (fun _ h => h) hfit.features hlocals hfeatures htargets).last
    fun b hb => ?_
  rw [ensures_bind, ensures_get]
  exact (gives_localsOf.skip (gives_attributes hc.locals)) b hb

theorem gives_classes (hc : Closed ts t) (hhosts : ∀ c ∈ cs, ∃ cls, Hosts ts cls c)
    (hfits : List.Forall₂ (FitsClass ts t) is cs) (hjudged : Along (JudgedClass ts t) is cs l)
    (htargets : Targets t ((cs.flatMap ClassDecl.nodes).zip (scopesOfClasses t is cs))) :
    Gives ts t o l () (inferClasses is cs) := by
  induction hjudged with
  | nil => exact gives_pure
  | cons hjudged _ ih =>
    obtain ⟨⟨cls, hcls⟩, hhosts⟩ := List.forall_mem_cons.1 hhosts
    cases hfits with
    | cons hfit hfits =>
      rw [List.flatMap_cons, scopesOfClasses_cons,
        List.zip_append hfit.length_scopes.symm] at htargets
      obtain ⟨hfirst, hothers⟩ := htargets.append_inv
      exact (gives_class hc hcls hfit hjudged hfirst).bind (ih hhosts hfits hothers)

end AutoCool.Cool
