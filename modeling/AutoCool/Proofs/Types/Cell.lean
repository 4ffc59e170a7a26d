import AutoCool.Proofs.Types.Table

/-!
# The places of a table that have types

The types of the features of a type stand in places that are known by name (`Cell`). What is not a
type is the outline of the table (`TypeEntry.outline`). Writing one place changes neither the others
nor the outline.
-/

namespace AutoCool

/-- The type of an attribute, of a parameter or of the result of a method. -/
inductive Cell
  | attribute (t : TypeId) (name : String)
  | param (t : TypeId) (method : String) (i : Nat)
  | result (t : TypeId) (method : String)
deriving DecidableEq

/-- What is known of a type besides the types of its features. -/
def TypeEntry.outline (e : TypeEntry) :
    String × Bool × Option TypeId × List String × List
    (String × List String × List Variable × Nat) :=
  (e.name, e.isSealed, e.parent, e.attributes.map (·.name),
    e.methods.map fun m => (m.name, m.paramNames, m.params, m.paramTypes.length))

namespace Types

variable {ts : Types} {t t' : TypeId} {name : String} {i : Nat} {u : TypeId} {y : Variable}
  {c : Cell}

/-- The type that stands in a place, if there is such a place. -/
def cell (ts : Types) : Cell → Option TypeId
  | .attribute t name => ((ts.get t).attributes.find? (·.name == name)).map (·.type)
  | .param t method i => ((ts.get t).methods.find? (·.name == method)).bind (·.paramTypes[i]?)
  | .result t method => ((ts.get t).methods.find? (·.name == method)).map (·.returnType)

theorem find?_map_ite {key : α → String} (hf : ∀ x, key (f x) = key x) (l : List α)
    (name name' : String) :
    (l.map fun x => if key x == name then f x else x).find? (key · == name') =
      if name' = name then (l.find? (key · == name')).map f else l.find? (key · == name') := by
  induction l with
  | nil => simp
  | cons x l ih =>
    rw [List.map_cons, List.find?_cons, List.find?_cons, ih]
    by_cases hx : key x = name'
    · subst hx
      by_cases hn : key x = name
      · simp [hn, hf]
      · simp [hn]
    · have hne : (key x == name') = false := by simpa using hx
      have hne' : (key (if key x == name then f x else x) == name') = false := by
        split
        · rw [hf]
          exact hne
        · exact hne
      rw [hne, hne']

theorem get_modify_of_default (h : f default = default) :
    (ts.modify t f).get t' = if t' = t then f (ts.get t') else ts.get t' := by
  by_cases ht : t < ts.entries.size
  · exact get_modify ht
  · have hdefault : ts.get t = default := not_not.1 fun hne => ht (lt_size_of_ne_default hne)
    rw [modify_of_not_lt ht]
    split
    · next heq => rw [heq, hdefault, h]
    · rfl

theorem find?_modifyAttribute (hf : ∀ x, (f x).name = x.name) :
    ((ts.modifyAttribute t name f).get t').attributes.find? (·.name == name') =
      if t' = t ∧ name' = name then ((ts.get t').attributes.find? (·.name == name')).map f
      else (ts.get t').attributes.find? (·.name == name') := by
  rw [modifyAttribute, get_modify_of_default (by rfl)]
  by_cases ht : t' = t
  · simp only [ht, if_true, true_and]
    exact find?_map_ite hf _ _ _
  · simp [ht]

theorem find?_modifyMethod (hf : ∀ x, (f x).name = x.name) :
    ((ts.modifyMethod t name f).get t').methods.find? (·.name == name') =
      if t' = t ∧ name' = name then ((ts.get t').methods.find? (·.name == name')).map f
      else (ts.get t').methods.find? (·.name == name') := by
  rw [modifyMethod, get_modify_of_default (by rfl)]
  by_cases ht : t' = t
  · simp only [ht, if_true, true_and]
    exact find?_map_ite hf _ _ _
  · simp [ht]

theorem methods_modifyAttribute :
    ((ts.modifyAttribute t name f).get t').methods = (ts.get t').methods := by
  rw [modifyAttribute, get_modify_of_default (by rfl)]
  split <;> rfl

theorem attributes_modifyMethod :
    ((ts.modifyMethod t name f).get t').attributes = (ts.get t').attributes := by
  rw [modifyMethod, get_modify_of_default (by rfl)]
  split <;> rfl

@[simp] theorem name_modifyAttribute : (ts.modifyAttribute t name f).name t' = ts.name t' :=
  forall_modify (R := fun e e' => e'.name = e.name) (fun _ => rfl) rfl t'

@[simp] theorem name_modifyMethod : (ts.modifyMethod t name f).name t' = ts.name t' :=
  forall_modify (R := fun e e' => e'.name = e.name) (fun _ => rfl) rfl t'

/-! ## Writing a place -/

theorem cell_modifyAttribute : (ts.modifyAttribute t name fun x => { x with type := u }).cell c =
    if c = .attribute t name then (ts.cell c).map fun _ => u else ts.cell c := by
  match c with
  | .attribute t' name' =>
    rw [cell, find?_modifyAttribute fun _ => by rfl]
    simp only [Cell.attribute.injEq]
    split <;> simp [cell, Function.comp_def]
  | .param t' m i => simp [cell, methods_modifyAttribute]
  | .result t' m => simp [cell, methods_modifyAttribute]

theorem cell_modifyParam :
    (ts.modifyMethod t name fun m => { m with paramTypes := m.paramTypes.set i u }).cell c =
    if c = .param t name i then (ts.cell c).map fun _ => u else ts.cell c := by
  match c with
  | .attribute t' name' => simp [cell, attributes_modifyMethod]
  | .param t' name' j =>
    rw [cell, cell, find?_modifyMethod fun _ => by rfl]
    by_cases h : t' = t ∧ name' = name
    · obtain ⟨rfl, rfl⟩ := h
      cases (ts.get t').methods.find? (·.name == name') with
      | none => simp
      | some m =>
        simp only [and_self, if_true, Option.map_some, Option.bind_some, List.getElem?_set,
          Cell.param.injEq, true_and]
        by_cases hij : i = j
        · subst hij
          by_cases hi : i < m.paramTypes.length
          · simp [hi]
          · simp [hi]
        · simp [hij, Ne.symm hij]
    · rw [if_neg h, if_neg]
      rintro ⟨⟩
      exact h ⟨rfl, rfl⟩
  | .result t' name' =>
    rw [cell, cell, find?_modifyMethod fun _ => by rfl]
    split <;> simp [Function.comp_def]

theorem cell_modifyResult :
    (ts.modifyMethod t name fun m => { m with result := y, returnType := y.type }).cell c =
    if c = .result t name then (ts.cell c).map fun _ => y.type else ts.cell c := by
  match c with
  | .attribute t' name' => simp [cell, attributes_modifyMethod]
  | .param t' name' j =>
    rw [cell, cell, find?_modifyMethod fun _ => by rfl]
    split <;> simp [Option.bind_map, Function.comp_def]
  | .result t' name' =>
    rw [cell, cell, find?_modifyMethod fun _ => by rfl]
    simp only [Cell.result.injEq]
    split <;> simp [Function.comp_def]

theorem outline_modifyAttribute (hf : ∀ x, (f x).name = x.name) :
    ((ts.modifyAttribute t name f).get t').outline = (ts.get t').outline := by
  refine forall_modify (R := fun e e' => e'.outline = e.outline) (fun _ => rfl) ?_ t'
  simp only [TypeEntry.outline, List.map_map, Prod.mk.injEq, true_and, and_true]
  refine List.map_congr_left fun x _ => ?_
  simp only [Function.comp_apply]
  split
  · exact hf x
  · rfl

theorem outline_modifyMethod (hf : ∀ m : Method, (f m).name = m.name ∧
      (f m).paramNames = m.paramNames ∧ (f m).params = m.params ∧
    (f m).paramTypes.length = m.paramTypes.length) :
    ((ts.modifyMethod t name f).get t').outline = (ts.get t').outline := by
  refine forall_modify (R := fun e e' => e'.outline = e.outline) (fun _ => rfl) ?_ t'
  simp only [TypeEntry.outline, List.map_map, Prod.mk.injEq, true_and]
  refine List.map_congr_left fun m _ => ?_
  simp only [Function.comp_apply]
  split
  · obtain ⟨hname, hnames, hparams, hlen⟩ := hf m
    rw [hname, hnames, hparams, hlen]
  · rfl

end Types

end AutoCool
