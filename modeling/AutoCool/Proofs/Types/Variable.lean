import Mathlib.Data.List.Basic
import AutoCool.Types.Order

/-!
# What inference does to a variable

A variable whose type is known stays as it is (`Variable.Evolves.known`). One whose type is still to
be inferred collects bounds, and when its type is inferred the bounds are dropped, whether the type
became known or not (`infer_eq_ok`).
-/

namespace AutoCool

namespace Variable

/-- A variable without bounds. -/
def Unbounded (x : Variable) : Prop := x.upper = [] ∧ x.lower = []

/-- The type of a variable is known just when it is not still to be inferred, and then there are no
bounds. -/
structure Coherent (x : Variable) : Prop where
  inferred_eq : x.inferred = (x.type != TypeId.auto)
  unbounded : x.inferred = true → x.Unbounded

/-- What inference may do to a variable. -/
structure Evolves (x y : Variable) : Prop where
  name_eq : y.name = x.name
  known : x.inferred = true → y = x
  coherent : x.Coherent → y.Coherent

variable {x y z : Variable} {t : Option TypeId}

theorem coherent_ofType {name : String} {type : TypeId} : (ofType name type).Coherent :=
  ⟨rfl, fun _ => ⟨rfl, rfl⟩⟩

theorem Evolves.refl : Evolves x x := ⟨rfl, fun _ => rfl, id⟩

theorem Evolves.trans (h : Evolves x y) (h' : Evolves y z) : Evolves x z where
  name_eq := h'.name_eq.trans h.name_eq
  known hx := by
    cases h.known hx
    exact h'.known hx
  coherent hx := h'.coherent (h.coherent hx)

theorem Evolves.inferred (h : Evolves x y) (hx : x.inferred = true) : y.inferred = true := by
  rw [h.known hx, hx]

/-- The bounds of a variable may change until its type is known. -/
theorem evolves_bounds {upper lower : List (Option TypeId)} (hx : x.inferred = false) :
    Evolves x { x with upper, lower } where
  name_eq := rfl
  known h := by
    rw [hx] at h
    cases h
  coherent h := ⟨h.inferred_eq, fun h' => by
    rw [hx] at h'
    cases h'⟩

theorem evolves_addUpper : Evolves x (x.addUpper t) := by
  unfold addUpper
  split
  · exact .refl
  · next h =>
    simp only [Bool.or_eq_true, not_or, Bool.not_eq_true] at h
    exact evolves_bounds h.1

theorem evolves_addLower : Evolves x (x.addLower t) := by
  unfold addLower
  split
  · exact .refl
  · next h => exact evolves_bounds (by simpa using h)

@[simp] theorem addUpper_inferred : (x.addUpper t).inferred = x.inferred := by
  unfold addUpper
  split <;> rfl

@[simp] theorem addLower_inferred : (x.addLower t).inferred = x.inferred := by
  unfold addLower
  split <;> rfl

/-- Two variables that are still to be inferred differ in their bounds only. -/
theorem Coherent.eq_of_unknown (hx : x.Coherent) (hy : y.Coherent) (hname : y.name = x.name)
    (hx' : x.inferred = false) (hy' : y.inferred = false) (hxu : x.Unbounded) (hyu : y.Unbounded) :
    y = x := by
  have hxt := hx.inferred_eq
  have hyt := hy.inferred_eq
  obtain ⟨xn, xt, xi, xu, xl⟩ := x
  obtain ⟨yn, yt, yi, yu, yl⟩ := y
  obtain ⟨rfl, rfl⟩ := hxu
  obtain ⟨rfl, rfl⟩ := hyu
  simp_all

end Variable

namespace Types

variable {ts : Types} {x y : Variable} {known : Bool}

/-- What the inference of a variable leaves. -/
theorem infer_eq_ok (h : ts.infer x = .ok (known, y)) :
    Variable.Evolves x y ∧ y.inferred = (x.inferred || known) ∧
    (known = true → x.inferred = false) ∧ (x.Coherent → y.Unbounded) := by
  unfold infer at h
  split at h
  · next hx =>
    cases h
    exact ⟨.refl, by simp [hx], by simp, fun hc => hc.unbounded hx⟩
  · next hx =>
    have hx : x.inferred = false := by simpa using hx
    cases ht : ts.inferred x with
    | error f =>
      rw [ht] at h
      cases h
    | ok t =>
      rw [ht] at h
      cases h
      refine ⟨⟨rfl, fun h => ?_, fun _ =>
        ⟨rfl, fun _ => ⟨rfl, rfl⟩⟩⟩, by simp [hx], fun _ => hx, fun _ => ⟨rfl, rfl⟩⟩
      rw [hx] at h
      cases h

/-- The inference of a variable leaves no bounds that were not there. -/
theorem unbounded_of_infer (h : ts.infer x = .ok (known, y)) (hx : x.Unbounded) : y.Unbounded := by
  unfold infer at h
  split at h
  · cases h
    exact hx
  · cases ht : ts.inferred x with
    | error f =>
      rw [ht] at h
      cases h
    | ok t =>
      rw [ht] at h
      cases h
      exact ⟨rfl, rfl⟩

/-- Only the bounds of a variable cut its inference short. -/
theorem infer_eq_error (h : ts.infer x = .error f) :
    x.inferred = false ∧ ts.inferred x = .error f := by
  unfold infer at h
  split at h
  · cases h
  · next hx =>
    refine ⟨by simpa using hx, ?_⟩
    cases ht : ts.inferred x with
    | error g =>
      rw [ht] at h
      cases h
      rfl
    | ok t =>
      rw [ht] at h
      cases h

/-- Without bounds nothing is inferred. -/
theorem inferred_of_unbounded (h : x.Unbounded) : ts.inferred x = .ok TypeId.auto := by
  unfold inferred
  rw [h.1, h.2]
  rfl

/-- One lower bound alone always gives a type, and the same one in all tables. -/
theorem inferred_of_lower (x : Variable) (t : Option TypeId) (hupper : x.upper = [])
    (hlower : x.lower = [t]) : ∃ u, ∀ ts : Types, ts.inferred x = .ok u := by
  unfold inferred
  rw [hupper, hlower]
  cases t with
  | none => exact ⟨_, fun _ => rfl⟩
  | some u => exact ⟨_, fun _ => rfl⟩

theorem inferred_addLower (hx : x.Unbounded) (hinferred : x.inferred = false) :
    ∃ u, ∀ ts : Types, ts.inferred (x.addLower t) = .ok u :=
  inferred_of_lower (x.addLower t) t (by simp [Variable.addLower, hinferred, hx.1])
    (by simp [Variable.addLower, hinferred, hx.2])

/-- From one lower bound a type can always be inferred. -/
theorem infer_addLower_ne_error (hx : x.Unbounded) : ts.infer (x.addLower t) ≠ .error f := by
  intro h
  obtain ⟨hinferred, h⟩ := infer_eq_error h
  rw [Variable.addLower_inferred] at hinferred
  obtain ⟨u, hu⟩ := inferred_addLower hx hinferred
  cases (hu ts).symm.trans h

/-- What is inferred from one lower bound does not depend on the table. -/
theorem infer_addLower_eq {ts' : Types} (hx : x.Unbounded) :
    ts'.infer (x.addLower t) = ts.infer (x.addLower t) := by
  unfold infer
  rw [Variable.addLower_inferred]
  split
  · rfl
  · next hinferred =>
    obtain ⟨u, hu⟩ := inferred_addLower (t := t) hx (by simpa using hinferred)
    rw [hu, hu]

/-- A lower bound from which nothing is inferred leaves no trace. -/
theorem eq_of_infer_addLower (hx : x.Coherent) (hu : x.Unbounded)
    (h : ts.infer (x.addLower t) = .ok (false, y)) : y = x := by
  obtain ⟨hevolves, hinferred, -, hunbounded⟩ := infer_eq_ok h
  have hbounded : Variable.Evolves x (x.addLower t) := Variable.evolves_addLower
  rw [Variable.addLower_inferred, Bool.or_false] at hinferred
  cases hxi : x.inferred with
  | true =>
    rw [hevolves.known (hbounded.inferred hxi), hbounded.known hxi]
  | false =>
    have hcoherent := hbounded.coherent hx
    exact hx.eq_of_unknown (hevolves.coherent hcoherent)
      (hevolves.name_eq.trans hbounded.name_eq) hxi
      (hinferred.trans hxi) hu (hunbounded hcoherent)

theorem bind_eq_ok {f : α → Except Failure β} (h : (r >>= f) = .ok b) :
    ∃ a, r = .ok a ∧ f a = .ok b := by
  cases r with
  | error e => cases h
  | ok a => exact ⟨a, rfl, h⟩

/-- The wrong type is never inferred. -/
theorem inferred_ne_error (h : ts.inferred x = .ok t) : t ≠ TypeId.error := by
  obtain ⟨upper, -, h⟩ := bind_eq_ok h
  obtain ⟨lower, -, h⟩ := bind_eq_ok h
  obtain ⟨u, -, h⟩ := bind_eq_ok h
  cases u with
  | none =>
    cases h
    decide
  | some u =>
    cases h
    split
    · decide
    · next hkind =>
      rintro rfl
      exact hkind rfl

/-- A type that became known is a proper one. -/
theorem infer_eq_known (h : ts.infer x = .ok (true, y)) :
    y.type ≠ TypeId.auto ∧ y.type ≠ TypeId.error := by
  unfold infer at h
  split at h
  · cases h
  · cases ht : ts.inferred x with
    | error f =>
      rw [ht] at h
      cases h
    | ok t =>
      rw [ht] at h
      obtain ⟨hknown, rfl⟩ := Prod.mk.inj (Except.ok.inj h)
      exact ⟨by simpa using hknown, inferred_ne_error ht⟩

end Types

/-- What inference may do to a type. -/
def Settles (t u : TypeId) : Prop := u = t ∨ t = TypeId.auto ∧ u ≠ TypeId.auto ∧ u ≠ TypeId.error

theorem Settles.refl (t : TypeId) : Settles t t := .inl rfl

theorem Settles.trans (h : Settles t u) (h' : Settles u w) : Settles t w := by
  rcases h with rfl | ⟨ht, hu, hu'⟩
  · exact h'
  · rcases h' with rfl | ⟨hauto, -⟩
    · exact .inr ⟨ht, hu, hu'⟩
    · exact absurd hauto hu

theorem Settles.eq_of_ne (h : Settles t u) (ht : t ≠ TypeId.auto) : u = t :=
  h.resolve_right fun h' => ht h'.1

/-- Where nothing became known the type is as it was. -/
theorem Types.type_of_infer_false {ts : Types} (hx : x.Coherent) (h : ts.infer x = .ok (false, y)) :
    y.type = x.type := by
  obtain ⟨hevolves, hinferred, -, -⟩ := infer_eq_ok h
  rw [Bool.or_false] at hinferred
  cases hxi : x.inferred with
  | true => rw [hevolves.known hxi]
  | false =>
    have hxt := hx.inferred_eq.symm.trans hxi
    have hyt := (hevolves.coherent hx).inferred_eq.symm.trans (hinferred.trans hxi)
    simp only [bne_eq_false_iff_eq] at hxt hyt
    rw [hxt, hyt]

/-- Where something became known nothing was. -/
theorem Types.type_of_infer_true {ts : Types} (hx : x.Coherent) (h : ts.infer x = .ok (true, y)) :
    x.type = TypeId.auto := by
  obtain ⟨-, -, hunknown, -⟩ := infer_eq_ok h
  simpa [hx.inferred_eq] using hunknown rfl

theorem Types.settles_infer {ts : Types} (hx : x.Coherent) (h : ts.infer x = .ok (true, y)) :
    Settles x.type y.type := .inr ⟨type_of_infer_true hx h, infer_eq_known h⟩

end AutoCool
