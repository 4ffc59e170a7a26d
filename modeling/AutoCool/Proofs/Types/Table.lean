import Mathlib.Data.List.Nodup
import AutoCool.Types.Basic

/-!
# Changes of tables of types

What the operations that declare something change when they succeed, and what a changed table has to
say about a type.
-/

namespace AutoCool

namespace Types

variable {ts ts' : Types} {t u : TypeId} {f g : TypeEntry → TypeEntry}

/-- A number that no type has stands for one without features. -/
theorem lt_size_of_ne_default (h : ts.get t ≠ default) : t < ts.entries.size := by
  by_contra hge
  rw [get, Array.getD_eq_getD_getElem?, Array.getElem?_eq_none (Nat.le_of_not_lt hge)] at h
  exact h rfl

theorem get_modify (ht : t < ts.entries.size) :
    (ts.modify t f).get u = if u = t then f (ts.get u) else ts.get u := by
  simp only [get, modify, Array.getD_eq_getD_getElem?, Array.getElem?_modify]
  by_cases h : u = t
  · subst h
    simp [ht]
  · simp [h, Ne.symm h]

theorem modify_of_not_lt (ht : ¬ t < ts.entries.size) : ts.modify t f = ts := by
  rw [modify]
  congr 1
  ext i hi hi'
  · simp
  · rw [Array.getElem_modify, if_neg]
    rintro rfl
    exact ht hi'

/-- A type that is changed to itself. -/
theorem modify_eq_of_get (h : f (ts.get t) = ts.get t) : ts.modify t f = ts := by
  by_cases ht : t < ts.entries.size
  · have hget : ts.get t = ts.entries[t] := by simp [get, Array.getD, ht]
    rw [modify]
    congr 1
    ext i hi hi'
    · simp
    · rw [Array.getElem_modify]
      split
      · next heq =>
        subst heq
        rw [← hget, h]
      · rfl
  · exact modify_of_not_lt ht

/-- What holds of a type and what it is changed to, and of every type and itself, holds of all
types. -/
theorem forall_modify {R : TypeEntry → TypeEntry → Prop} (hrefl : ∀ e, R e e)
    (h : R (ts.get t) (f (ts.get t))) (u : TypeId) : R (ts.get u) ((ts.modify t f).get u) := by
  by_cases ht : t < ts.entries.size
  · rw [get_modify ht]
    split
    · next hu => exact hu ▸ h
    · exact hrefl _
  · rw [modify_of_not_lt ht]
    exact hrefl _

@[simp] theorem size_modify : (ts.modify t f).entries.size = ts.entries.size := by
  simp [modify]

@[simp] theorem context_modify : (ts.modify t f).context = ts.context := rfl

theorem modify_modify : (ts.modify t f).modify t g = ts.modify t fun e => g (f e) := by
  simp only [modify, Types.mk.injEq, and_true]
  ext i hi hi'
  · simp
  · simp only [Array.getElem_modify]
    split <;> rfl

/-- The type of a name, the wrong one when there is none. -/
def named (ts : Types) (name : String) : TypeId := (ts.context.lookup name).getD TypeId.error

theorem named_of_find {name : String} (h : ts.find name = .ok t) : ts.named name = t := by
  unfold find at h
  split at h
  · next u hu =>
    cases h
    simp [named, hu]
  · cases h

theorem create_map_eq_ok {name : String} (h : (ts.create name).map (·.2) = .ok ts') :
    (∀ x ∈ ts.context, x.1 ≠ name) ∧ ts' =
      { entries := ts.entries.push { name }, context := ts.context ++
        [(name, ts.entries.size)] } := by
  unfold create at h
  split at h
  · cases h
  · next hany =>
    cases h
    exact ⟨fun x hx hn => hany (List.any_eq_true.2 ⟨x, hx, by simpa using hn⟩), rfl⟩

theorem setParent_eq_ok (h : ts.setParent t p = .ok ts') :
    ts.parent? t = none ∧
    (ts.get p).isSealed = false ∧ ts' = ts.modify t fun e => { e with parent := some p } := by
  unfold setParent at h
  split at h
  · cases h
  · next hnone =>
    split at h
    · cases h
    · next hopen =>
      cases h
      exact ⟨by simpa using hnone, by simpa using hopen, rfl⟩

/-- An attribute that is not found in a type is not one of its own. -/
theorem ne_of_findAttribute {name : String}
    (h : ts.findAttribute t name = .error (.declaration d)) :
    ∀ x ∈ (ts.get t).attributes, x.name ≠ name := by
  unfold findAttribute height at h
  rw [climb] at h
  cases hfind : (ts.get t).attributes.find? (·.name == name) with
  | none => simpa using hfind
  | some x =>
    rw [hfind] at h
    cases h

theorem defineAttribute_eq_ok {name : String} (h : ts.defineAttribute t name u = .ok ts') :
    (∀ x ∈ (ts.get t).attributes, x.name ≠ name) ∧
      ts' = ts.modify t fun e => { e with attributes := e.attributes ++ [⟨name, u⟩] } := by
  unfold defineAttribute at h
  split at h
  · cases h
  · next hfind =>
    cases h
    exact ⟨ne_of_findAttribute hfind, rfl⟩
  · cases h

theorem defineMethod_eq_ok (h : ts.defineMethod t m = .ok ts') :
    (∀ x ∈ (ts.get t).methods, x.name ≠ m.name) ∧
      ts' = ts.modify t fun e => { e with methods := e.methods ++ [m] } := by
  unfold defineMethod at h
  split at h
  · cases h
  · next hany =>
    cases h
    exact ⟨by simpa using hany, rfl⟩

theorem climb_eq_some
    (h : ts.climb has fuel t = .ok (some (o, x))) : has (ts.get o) = some x := by
  induction fuel generalizing t with
  | zero => cases h
  | succ fuel ih =>
    rw [climb] at h
    split at h
    · next y hy =>
      cases h
      exact hy
    · split at h
      · cases h
      · exact ih h

theorem mem_of_findMethod {name : String} (h : ts.findMethod t name = .ok (o, m)) :
    m ∈ (ts.get o).methods := by
  unfold findMethod at h
  cases hc : ts.climb (fun e => e.methods.find? (·.name == name)) ts.height t with
  | error f =>
    rw [hc] at h
    cases h
  | ok r =>
    rw [hc] at h
    cases r with
    | none => cases h
    | some r =>
      cases h
      exact List.mem_of_find?_eq_some (climb_eq_some hc)

theorem find?_of_findAttribute {name : String} (h : ts.findAttribute t name = .ok (o, x)) :
    (ts.get o).attributes.find? (·.name == name) = some x := by
  unfold findAttribute at h
  cases hc : ts.climb (fun e => e.attributes.find? (·.name == name)) ts.height t with
  | error f =>
    rw [hc] at h
    cases h
  | ok r =>
    rw [hc] at h
    cases r with
    | none => cases h
    | some r =>
      cases h
      exact climb_eq_some hc

theorem modifyMethod_modifyMethod {name : String} {f g : Method → Method}
    (hf : ∀ m, (f m).name = m.name) : (ts.modifyMethod t name f).modifyMethod t name g =
      ts.modifyMethod t name fun m => g (f m) := by
  rw [modifyMethod, modifyMethod, modifyMethod, modify_modify]
  congr 1
  funext e
  simp only [List.map_map]
  congr 1
  refine List.map_congr_left fun m _ => ?_
  simp only [Function.comp_apply]
  split
  · next hm => rw [hf, if_pos hm]
  · rfl

theorem modifyMethod_eq_self {name : String} {f : Method → Method}
    (h : ∀ m ∈ (ts.get t).methods, m.name = name → f m = m) : ts.modifyMethod t name f = ts := by
  refine modify_eq_of_get ?_
  have hmap : ((ts.get t).methods.map fun m => if m.name == name then f m else m) =
      (ts.get t).methods := by
    refine (List.map_congr_left fun m hm => ?_).trans (List.map_id _)
    split
    · next hn => exact h m hm (by simpa using hn)
    · rfl
  rw [hmap]

end Types

end AutoCool
