import AutoCool.Proofs.Types.Scope

/-!
# Scope trees that grow

A tree of scopes grows from its root by making children and defining variables, in any order
(`ScopeTree.Reaches`). Whatever the order was, parents come before their children, so that a search
passes through all scopes above the one where it begins (`ScopeTree.Formed.findAbove_eq`), and what
a parent gets later comes after the variables that its children see. A name thus keeps its meaning
in a scope, however the tree grows elsewhere. A variable of the scope itself changes only the
meaning of its own name, and only when the scope had none of this name
(`ScopeTree.Reaches.meaning_stable`).
-/

namespace AutoCool.ScopeTree

variable {t t' : ScopeTree} {s a i : Nat} {name name' : String} {type : TypeId}

/-- The trees that come of one by making children and defining variables, one after the other. -/
inductive Reaches (t : ScopeTree) : ScopeTree → Prop
  | refl : Reaches t t
  | createChild {u : ScopeTree} {i : ScopeId} : Reaches t u → i < u.scopes.size →
      Reaches t (u.createChild i).2
  | define {u : ScopeTree} {i : ScopeId} (name : String) (type : TypeId) :
    Reaches t u → i < u.scopes.size → Reaches t (u.define i name type).2

/-- The variable that a scope finds for a name: its number and what is known of it. -/
def meaning (t : ScopeTree) (s : ScopeId) (name : String) : Option (VarId × Variable) :=
  (t.find s name).map fun v => (v, t.getVar v)

/-! ## What holds after every run -/

/-- The invariant of the trees that grow from a root: the scopes hang together, each one below its
parent, and their variables are there. -/
structure Formed (t : ScopeTree) : Prop where
  tidy : t.Tidy
  valid : t.Valid
  parent_lt : ∀ i j, (t.get i).parent = some j → j < i

theorem formed_start : ({} : ScopeTree).Formed where
  tidy := tidy_start
  valid := valid_start
  parent_lt i j hj := by
    rw [get_start] at hj
    cases hj

theorem Formed.createChild (h : t.Formed) (hs : s < t.scopes.size) :
    (t.createChild s).2.Formed where
  tidy := h.tidy.createChild hs
  valid := h.valid.createChild hs
  parent_lt i j hj := by
    rw [get_createChild hs] at hj
    split at hj
    · next hi =>
      cases hj
      exact hi ▸ hs
    · split at hj
      · next his => exact his ▸ h.parent_lt s j hj
      · exact h.parent_lt i j hj

theorem Formed.define (h : t.Formed) (hs : s < t.scopes.size) :
    (t.define s name type).2.Formed where
  tidy := h.tidy.define h.valid hs
  valid := h.valid.define hs
  parent_lt i j hj := by
    rw [get_define hs] at hj
    split at hj
    · next his => exact his ▸ h.parent_lt s j hj
    · exact h.parent_lt i j hj

theorem Reaches.formed (h : Reaches t t') (ht : t.Formed) : t'.Formed := by
  induction h with
  | refl => exact ht
  | createChild _ hs ih => exact ih.createChild hs
  | define _ _ _ hs ih => exact ih.define hs

/-- The search goes on in the parent, whichever it is, among the variables that were there when the
scope was made. -/
theorem Formed.findAbove_eq (h : t.Formed) :
    t.findAbove s name =
      (t.get s).parent.bind fun p => t.findWithin p name (some (t.get s).index) := by
  rw [findAbove]
  split
  · next hp => rw [hp, Option.bind_none]
  · next p hp => rw [hp, Option.bind_some, if_pos (h.parent_lt s p hp)]

/-! ## What a run leaves as it was -/

theorem Reaches.grows (h : Reaches t t') : Grows t t' := by
  induction h with
  | refl => exact .refl
  | createChild _ hs ih =>
    have hstep := (Extends.refl.of_child hs).grows (locals_createChild hs ▸ List.prefix_rfl)
    exact ih.trans hstep
  | @define u i name type _ hs ih =>
    have hstep : Grows u (u.define i name type).2 :=
      (extends_define hs).grows (by simp [get_define hs])
    exact ih.trans hstep

theorem Reaches.getVar_eq (h : Reaches t t') :
    t.vars.size ≤ t'.vars.size ∧ ∀ v < t.vars.size, t'.getVar v = t.getVar v := by
  induction h with
  | refl => exact ⟨Nat.le_refl _, fun _ _ => rfl⟩
  | createChild _ _ ih => exact ih
  | define _ _ _ _ ih =>
    refine ⟨Nat.le_trans ih.1 (by simp), fun v hv => ?_⟩
    rw [getVar_define, if_neg (Nat.ne_of_lt (Nat.lt_of_lt_of_le hv ih.1)), ih.2 v hv]

/-- However a tree grows, a name keeps its meaning in a scope as long as it keeps it among the
scope's own variables. -/
theorem Reaches.meaning_eq (h : Reaches t t') (ht : t.Formed) (hs : s < t.scopes.size)
    (hlookup : (t'.get s).locals.lookup name = (t.get s).locals.lookup name) :
    t'.meaning s name = t.meaning s name := by
  rw [meaning, meaning, h.grows.find_eq ht.tidy hs hlookup]
  refine Option.map_congr fun v hv => ?_
  rw [h.getVar_eq.2 v (ht.valid.find_lt hv)]

/-- In a tree that grew from its root, a child that is made anywhere, or a variable that is defined
in another scope, leaves the meaning of every name in a scope. A new child gives every name the
meaning that it has in the parent. A variable that is defined in the scope itself is a new one, and
it becomes the meaning of its name unless the scope has a variable of this name; the other names
keep theirs. -/
theorem Reaches.meaning_stable (h : Reaches {} t) (hs : s < t.scopes.size) (ha : a < t.scopes.size)
    (name : String) :
    ((t.createChild a).2.meaning s name = t.meaning s name ∧
      (t.createChild a).2.meaning (t.createChild a).1 name = t.meaning a name) ∧
    (a ≠ s → ∀ name' type, (t.define a name' type).2.meaning s name = t.meaning s name) ∧
    ∀ name' type, (∀ i, (t.define s name' type).1 ∉ (t.get i).locals.map (·.2)) ∧
      (t.define s name' type).2.meaning s name =
        if name = name' ∧ t.isLocal s name = false then some
          ((t.define s name' type).1, Variable.ofType name' type)
        else t.meaning s name := by
  have ht := h.formed formed_start
  refine ⟨⟨?_, ?_⟩, fun has name' type => ?_, fun name' type => ⟨fun i hi => ?_, ?_⟩⟩
  · exact (Reaches.refl.createChild ha).meaning_eq ht hs (by rw [locals_createChild ha])
  · exact congrArg (Option.map _) (find_createChild ha)
  · exact (Reaches.refl.define name' type ha).meaning_eq ht hs
      (by rw [get_define ha, if_neg has.symm])
  · obtain ⟨x, hx, heq⟩ := List.mem_map.1 hi
    exact Nat.ne_of_lt (ht.valid i x hx) heq
  · -- The new variable stands behind the others, so an earlier one of its name hides it.
    split
    · next hnew =>
      rw [meaning, find_define hs, if_pos hnew, Option.map_some, getVar_define, if_pos rfl]
      rfl
    · next hold =>
        exact (Reaches.refl.define name' type hs).meaning_eq ht hs
          (by rw [lookup_define hs, if_neg hold])

/-! ### A scope made between two variables -/

namespace Sample.Between

/-- The root has a variable before its child is made and another one after it, and so has the
child. -/
def tree : ScopeTree :=
  let t := (({} : ScopeTree).define root "x" 3).2
  let t := ((t.createChild root).2.define root "y" 4).2
  let t := (t.define 1 "z" 5).2
  ((t.createChild 1).2.define 1 "x" 6).2

theorem tree_reached : Reaches {} tree :=
  .define (i := 1) "x" 6 (.createChild (i := 1)
    (.define (i := 1) "z" 5 (.define (i := root) "y" 4 (.createChild (i := root)
    (.define (i := root) "x" 3 .refl (by decide)) (by decide)) (by decide)) (by decide))
      (by decide)) (by decide)

theorem meaning_stable_between : Reaches {} tree ∧ tree.meaning 2 "x" = some (0, .ofType "x" 3) ∧
    tree.meaning 2 "y" = none ∧ (tree.createChild 2).2.meaning 3 "x" = some (0, .ofType "x" 3) ∧
    (tree.define root "y" 7).2.meaning 2 "y" = none ∧ (tree.define 1 "x" 7).2.meaning 2 "x" = some
      (0, .ofType "x" 3) ∧ (tree.define 2 "x" 7).2.meaning 2 "x" = some (4, .ofType "x" 7) ∧
    (tree.define 2 "y" 7).2.meaning 2 "x" = some (0, .ofType "x" 3) := by
  have hx : tree.meaning 2 "x" = some (0, .ofType "x" 3) := by decide +kernel
  have hy : tree.meaning 2 "y" = none := by decide +kernel
  have hthree : tree.scopes.size = 3 := rfl
  have hstable (a : Nat) (ha : a < 3) :=
    Reaches.meaning_stable (s := 2) (a := a) tree_reached (by omega) (by omega)
  obtain ⟨-, hroot, -⟩ := hstable root (by decide) "y"
  obtain ⟨-, hmiddle, -⟩ := hstable 1 (by decide) "x"
  obtain ⟨⟨-, hchild⟩, -, hown⟩ := hstable 2 (by decide) "x"
  refine ⟨tree_reached, hx, hy, hchild.trans hx, (hroot (by decide) "y" 7).trans hy,
    (hmiddle (by decide) "x" 7).trans hx, ?_, ?_⟩
  · exact (hown "x" 7).2.trans (if_pos ⟨rfl, by decide⟩)
  · exact ((hown "y" 7).2.trans (if_neg (by decide))).trans hx

end Sample.Between

end AutoCool.ScopeTree
