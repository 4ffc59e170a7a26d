import Mathlib.Data.List.ReduceOption
import AutoCool.Proofs.Types.Ancestors
import AutoCool.Proofs.Types.Variable

/-!
# Types between bounds

A variable whose type is still to be inferred records upper and lower bounds. The type that is
inferred from them does not always lie between them. It does when the bounds leave room for a type
(`Types.Compatible`) and those that are not plain were recorded first (`Steady`): a bound that is
not plain makes the search for the least upper bound, or for the join of the lower ones, begin anew,
and upper bounds that exclude each other are given up for the type of what is wrong, which every
lower bound conforms to. `Types.Grown.respects_bounds` says this for all ways to record bounds.
-/

namespace AutoCool

/-- What is said of the type of a variable. -/
inductive Bound
  | upper (t : TypeId)
  | lower (t : TypeId)

namespace Bound

def type : Bound → TypeId
  | upper t | lower t => t

/-- The upper bound that is recorded: the type that is to be inferred bounds nothing. -/
def upper? : Bound → Option TypeId
  | upper t => if t = TypeId.auto then none else some t
  | lower _ => none

def lower? : Bound → Option TypeId
  | upper _ => none
  | lower t => some t

end Bound

/-- No type that is not plain comes after a plain one. -/
def Steady (types : List TypeId) : Prop :=
  types.Pairwise fun t u => TypeId.kind t = .plain → TypeId.kind u = .plain

instance (types : List TypeId) : Decidable (Steady types) :=
  inferInstanceAs (Decidable (types.Pairwise fun t u => TypeId.kind t = .plain →
    TypeId.kind u = .plain))

theorem Steady.split (h : Steady types) : ∃ wild plain, types = wild ++ plain ∧
    (∀ t ∈ wild, TypeId.kind t ≠ .plain) ∧ ∀ t ∈ plain, TypeId.kind t = .plain := by
  induction types with
  | nil => exact ⟨[], [], rfl, by simp, by simp⟩
  | cons t types ih =>
    obtain ⟨hlater, htypes⟩ := List.pairwise_cons.1 h
    by_cases ht : TypeId.kind t = .plain
    · refine ⟨[], t :: types, rfl, by simp, ?_⟩
      simp only [List.mem_cons, forall_eq_or_imp]
      exact ⟨ht, fun u hu => hlater u hu ht⟩
    · obtain ⟨wild, plain, rfl, hwild, hplain⟩ := ih htypes
      refine ⟨t :: wild, plain, rfl, ?_, hplain⟩
      simp only [List.mem_cons, forall_eq_or_imp]
      exact ⟨ht, hwild⟩

namespace Variable

/-- Records a bound. -/
def bound (x : Variable) : Bound → Variable
  | .upper t => x.addUpper (some t)
  | .lower t => x.addLower (some t)

/-- The types among the upper bounds. -/
def uppers (x : Variable) : List TypeId := x.upper.reduceOption

/-- The types among the lower bounds. -/
def lowers (x : Variable) : List TypeId := x.lower.reduceOption

/-- A variable that has bounds only from types, of which none is the type of the object itself. -/
structure Recorded (x : Variable) : Prop where
  inferred : x.inferred = false
  upper : x.upper = x.uppers.map some
  lower : x.lower = x.lowers.map some
  uppers_ne_self : ∀ u ∈ x.uppers, TypeId.kind u ≠ .self
  lowers_ne_self : ∀ l ∈ x.lowers, TypeId.kind l ≠ .self

variable {x : Variable} {bounds : List Bound}

theorem foldl_bound (hx : x.inferred = false) : bounds.foldl bound x =
    { x with
      upper := x.upper ++ (bounds.filterMap Bound.upper?).map some
      lower := x.lower ++ (bounds.filterMap Bound.lower?).map some } := by
  induction bounds generalizing x with
  | nil => simp
  | cons b bounds ih =>
    cases b with
    | upper t =>
      by_cases ht : t = TypeId.auto
      · simp [bound, addUpper, ht, ih hx, List.filterMap_cons, Bound.upper?, Bound.lower?]
      · simp [bound, addUpper, ht, ih, hx, List.filterMap_cons, Bound.upper?, Bound.lower?]
    | lower t => simp [bound, addLower, ih, hx, List.filterMap_cons, Bound.upper?, Bound.lower?]

theorem recorded_foldl_bound (hx : x.inferred = false) (hu : x.Unbounded)
    (hbounds : ∀ b ∈ bounds, TypeId.kind b.type ≠ .self) : (bounds.foldl bound x).Recorded := by
  have huppers : (bounds.foldl bound x).uppers = bounds.filterMap Bound.upper? := by
    simp [foldl_bound hx, uppers, hu.1, List.reduceOption]
  have hlowers : (bounds.foldl bound x).lowers = bounds.filterMap Bound.lower? := by
    simp [foldl_bound hx, lowers, hu.2, List.reduceOption]
  refine ⟨?_, ?_, ?_, ?_, ?_⟩
  · rw [foldl_bound hx, hx]
  · rw [huppers, foldl_bound hx, hu.1, List.nil_append]
  · rw [hlowers, foldl_bound hx, hu.2, List.nil_append]
  · rw [huppers]
    intro t ht
    obtain ⟨b, hb, hbt⟩ := List.mem_filterMap.1 ht
    have := hbounds b hb
    cases b with
    | upper u =>
      simp only [Bound.upper?, Option.ite_none_left_eq_some, Option.some.injEq] at hbt
      exact hbt.2 ▸ this
    | lower u => cases hbt
  · rw [hlowers]
    intro t ht
    obtain ⟨b, hb, hbt⟩ := List.mem_filterMap.1 ht
    have := hbounds b hb
    cases b with
    | upper u => cases hbt
    | lower u => exact Option.some.inj hbt ▸ this

end Variable

namespace Types

/-- A type lies between the bounds of a variable. -/
structure Respects (ts : Types) (t : TypeId) (x : Variable) : Prop where
  upper : ∀ u ∈ x.uppers, ts.conforms t u = .ok true
  lower : ∀ l ∈ x.lowers, ts.conforms l t = .ok true

/-- The plain bounds leave room for a type: of two upper ones one is below the other, and something
is above all the lower ones. -/
structure Compatible (ts : Types) (x : Variable) : Prop where
  upper : ∀ u ∈ x.uppers, ∀ u' ∈ x.uppers, TypeId.kind u = .plain → TypeId.kind u' = .plain →
    ts.Sub u u' ∨ ts.Sub u' u
  lower : ∃ c, ∀ l ∈ x.lowers, TypeId.kind l = .plain → ts.Sub l c

variable {ts : Types} {x y : Variable} {t u w : TypeId} {types wild plain : List TypeId}

theorem Sub.comparable (h : ts.Sub t u) (h' : ts.Sub t w) : ts.Sub u w ∨ ts.Sub w u :=
  Relation.ReflTransGen.total_of_right_unique
    (fun _ _ _ hb hc => Option.some.inj (hb.symm.trans hc)) h h'

/-! ### Types that are not plain -/

theorem conforms_of_wild (h : TypeId.kind t ≠ .plain ∨ TypeId.kind u ≠ .plain)
    (ht : TypeId.kind t ≠ .self) : ts.conforms t u = .ok true := by
  rw [conforms, height, reaches]
  cases hkind : TypeId.kind t with
  | self => exact absurd hkind ht
  | auto | error => rfl
  | plain =>
    have hu : TypeId.isBypass u = true := by simpa [TypeId.isBypass, hkind] using h
    simp only [hu, Bool.true_or, if_true]

theorem join_of_wild (h : TypeId.kind t ≠ .plain ∨ TypeId.kind u ≠ .plain)
    (ht : TypeId.kind t ≠ .self) (hu : TypeId.kind u ≠ .self) :
    ts.join t (some u) = .ok (some u) := by
  have hsame : TypeId.same t u = true := by
    unfold TypeId.same
    cases hkind : TypeId.kind t with
    | self => exact absurd hkind ht
    | auto | error => rfl
    | plain =>
      cases hkind' : TypeId.kind u with
      | self => exact absurd hkind' hu
      | auto | error => rfl
      | plain => simp [hkind, hkind'] at h
  simp only [join, hsame, if_true]
  rfl

/-- A search through bounds that begins anew at a type that is not plain, and after it. -/
structure Restarts (search : Option TypeId → List (Option TypeId) →
      Except Failure (Option TypeId)) : Prop where
  done : ∀ r, search r [] = .ok r
  first : ∀ t bounds, search none (some t :: bounds) = search (some t) bounds
  anew : ∀ t u bounds, (TypeId.kind t ≠ .plain ∨ TypeId.kind u ≠ .plain) → TypeId.kind t ≠ .self →
    TypeId.kind u ≠ .self →
    search (some t) (some u :: bounds) = search (some u) bounds

theorem restarts_leastUpper : Restarts ts.leastUpper where
  done _ := rfl
  first _ _ := rfl
  anew t u bounds h _ hu := by
    simp only [leastUpper, conforms_of_wild h.symm hu]
    rfl

theorem restarts_joinLower : Restarts ts.joinLower where
  done _ := rfl
  first _ _ := rfl
  anew t u bounds h ht hu := by
    simp only [joinLower, join_of_wild h ht hu]
    rfl

/-- Types that are not plain are passed over: the last of them is the answer only when no other type
follows. -/
theorem Restarts.skip (h : Restarts search) (hwild : ∀ t ∈ wild, TypeId.kind t ≠ .plain)
    (hself : ∀ t ∈ wild ++ plain, TypeId.kind t ≠ .self) :
    search none ((wild ++ plain).map some) =
      if plain = [] then .ok wild.getLast? else search none (plain.map some) := by
  cases wild with
  | nil =>
    split
    · next hnil =>
      subst hnil
      exact h.done none
    · rfl
  | cons t wild =>
    simp only [List.cons_append, List.map_cons, h.first]
    induction wild generalizing t with
    | nil =>
      cases plain with
      | nil => exact h.done (some t)
      | cons u plain =>
        simp only [List.nil_append, List.map_cons, reduceCtorEq, if_false, h.first]
        exact h.anew t u _ (.inl (hwild t (.head _))) (hself t (.head _))
          (hself u (.tail _ (.head _)))
    | cons u wild ih =>
      simp only [List.cons_append, List.map_cons]
      rw [h.anew t u _ (.inl (hwild t (.head _))) (hself t (.head _)) (hself u (.tail _ (.head _))),
        ih u (fun v hv => hwild v (.tail _ hv)) (fun v hv => hself v (.tail _ hv)),
          List.getLast?_cons_cons]

/-! ### Plain bounds -/

/-- Plain upper bounds have a least one, or two of them exclude each other and the search ends with
what is wrong. -/
theorem leastUpper_plain (ha : ts.Acyclic) (hp : ts.PlainParents)
    (h : ∀ u ∈ t :: plain, TypeId.kind u = .plain) :
    (∃ w ∈ t :: plain, ts.leastUpper (some t) (plain.map some) = .ok (some w) ∧ ∀ u ∈ t :: plain,
      ts.Sub w u) ∨
      (∃ u ∈ t :: plain, ∃ u' ∈ t :: plain, ¬ (ts.Sub u u' ∨ ts.Sub u' u)) ∧
        ts.leastUpper (some t) (plain.map some) = .ok (some TypeId.error) := by
  induction plain generalizing t with
  | nil => exact .inl ⟨t, .head _, rfl, by simp [Sub.refl]⟩
  | cons u plain ih =>
    have ht := h t (.head _)
    have hu := h u (.tail _ (.head _))
    obtain ⟨b, hb, hbiff⟩ := ha.conforms_iff hp hu ht
    obtain ⟨c, hc, hciff⟩ := ha.conforms_iff hp ht hu
    cases b with
    | true =>
      have hstep : ts.leastUpper (some t) ((u :: plain).map some) = ts.leastUpper (some u)
          (plain.map some) := by
        simp only [List.map_cons, leastUpper, hb]
        rfl
      rcases ih fun v hv => h v (.tail _ hv) with ⟨w, hw, hleast,
        hbelow⟩ | ⟨⟨v, hv, v', hv', hex⟩, herror⟩
      · refine .inl ⟨w, .tail _ hw, hstep.trans hleast, fun v hv => ?_⟩
        rcases List.mem_cons.1 hv with rfl | hv
        · exact (hbelow u (.head _)).trans (hbiff.1 rfl)
        · exact hbelow v hv
      · exact .inr ⟨⟨v, .tail _ hv, v', .tail _ hv', hex⟩, hstep.trans herror⟩
    | false =>
      cases c with
      | true =>
        have hstep : ts.leastUpper (some t) ((u :: plain).map some) = ts.leastUpper (some t)
            (plain.map some) := by
          simp only [List.map_cons, leastUpper, hb, hc]
          rfl
        have hmem : ∀ {v}, v ∈ t :: plain → v ∈ t :: u :: plain := fun hv =>
          (List.mem_cons.1 hv).elim (fun he => he ▸ .head _) fun hv => .tail _ (.tail _ hv)
        rcases ih fun v hv => h v (hmem hv) with ⟨w, hw, hleast,
          hbelow⟩ | ⟨⟨v, hv, v', hv', hex⟩, herror⟩
        · refine .inl ⟨w, hmem hw, hstep.trans hleast, ?_⟩
          simp only [List.mem_cons, forall_eq_or_imp] at hbelow ⊢
          exact ⟨hbelow.1, hbelow.1.trans (hciff.1 rfl), hbelow.2⟩
        · exact .inr ⟨⟨v, hmem hv, v', hmem hv', hex⟩, hstep.trans herror⟩
      | false =>
        refine .inr ⟨⟨t, .head _, u, .tail _ (.head _), ?_⟩, ?_⟩
        · rw [← hbiff, ← hciff]
          simp
        · simp only [List.map_cons, leastUpper, hb, hc]
          rfl

/-- The join of plain lower bounds is the least type above them, if there is any: the search may go
on from `w`, the least type above the types before them. -/
theorem joinLower_plain (hp : ts.PlainParents) (hw : ts.LeastAbove types w)
    (hkind : TypeId.kind w = .plain) (h : ∀ u ∈ plain, TypeId.kind u = .plain)
    (hjoin : ts.joinLower (some w) (plain.map some) = .ok r)
    (hcommon : ∃ c, ∀ u ∈ types ++ plain, ts.Sub u c) :
    ∃ v, r = some v ∧ TypeId.kind v = .plain ∧ ts.LeastAbove (types ++ plain) v := by
  induction plain generalizing types w with
  | nil =>
    cases hjoin
    exact ⟨w, rfl, hkind, by simpa using hw⟩
  | cons u plain ih =>
    have hu := h u (.head _)
    obtain ⟨c, hc⟩ := hcommon
    obtain ⟨r', hr', hjoin⟩ := bind_eq_ok hjoin
    cases r' with
    | none =>
      have hwc : ts.Sub w c := hw.least c fun v hv => hc v (List.mem_append_left _ hv)
      exact absurd ⟨c, hwc, hc u (by simp)⟩ (no_common_of_join hp hkind hu hr')
    | some w' =>
      have hw' := leastAbove_of_join hp hkind hu hr'
      have hnext := ih (hw.snoc hw') ((hw'.above w (by simp)).plain hp hkind)
          (fun v hv => h v (.tail _ hv)) hjoin
        ⟨c, by simpa using hc⟩
      simpa using hnext

/-! ### What is inferred -/

/-- A type that became known is the join of the lower bounds, which conforms to the least upper
bound, or it is the least upper bound and there are no lower ones. -/
theorem infer_eq_true (h : ts.infer x = .ok (true, y)) :
    ∃ upper lower, ts.leastUpper none x.upper = .ok upper ∧ ts.joinLower none x.lower = .ok lower ∧
    TypeId.kind y.type ≠ .auto ∧ TypeId.kind y.type ≠ .error ∧
    (lower = none ∧ upper = some y.type ∨ lower = some y.type ∧
      ∀ u ∈ upper, ts.conforms y.type u = .ok true) := by
  have hknown := infer_eq_known h
  have hkinds : TypeId.kind y.type ≠ .auto ∧ TypeId.kind y.type ≠ .error := by
    unfold TypeId.kind
    rw [if_neg hknown.1, if_neg hknown.2]
    split <;> simp
  have hinferred : ts.inferred x = .ok y.type := by
    unfold infer at h
    split at h
    · cases h
    · obtain ⟨t, ht, h⟩ := bind_eq_ok h
      obtain ⟨-, rfl⟩ := Prod.mk.inj (Except.ok.inj h)
      exact ht
  obtain ⟨upper, hupper, hrest⟩ := bind_eq_ok hinferred
  obtain ⟨lower, hlower, hrest⟩ := bind_eq_ok hrest
  obtain ⟨r, hr, hrest⟩ := bind_eq_ok hrest
  refine ⟨upper, lower, hupper, hlower, hkinds.1, hkinds.2, ?_⟩
  obtain rfl : r = some y.type := by
    cases r with
    | none => exact absurd (Except.ok.inj hrest).symm hknown.1
    | some t =>
      have ht := Except.ok.inj hrest
      split at ht
      · exact absurd ht.symm hknown.1
      · rw [ht]
  cases lower with
  | none => exact .inl ⟨rfl, Except.ok.inj hr⟩
  | some l =>
    cases upper with
    | none =>
      cases hr
      exact .inr ⟨rfl, by simp⟩
    | some u =>
      obtain ⟨b, hb, hr⟩ := bind_eq_ok hr
      cases b with
      | false =>
        obtain he : TypeId.error = y.type := Option.some.inj (Except.ok.inj hr)
        exact absurd he.symm hknown.2
      | true =>
        obtain rfl : l = y.type := Option.some.inj (Except.ok.inj hr)
        exact .inr ⟨rfl, by simpa using hb⟩

theorem leastUpper_ne_self (h : ts.leastUpper least (types.map some) = .ok (some w))
    (hleast : ∀ t ∈ least, TypeId.kind t ≠ .self) (htypes : ∀ t ∈ types, TypeId.kind t ≠ .self) :
    TypeId.kind w ≠ .self := by
  induction types generalizing least with
  | nil =>
    cases h
    exact hleast w rfl
  | cons u types ih =>
    have hu : ∀ t ∈ some u, TypeId.kind t ≠ .self := by simpa using htypes u (.head _)
    have hrest : ∀ t ∈ types, TypeId.kind t ≠ .self := fun t ht => htypes t (.tail _ ht)
    cases least with
    | none => exact ih h hu hrest
    | some t =>
      obtain ⟨b, -, h⟩ := bind_eq_ok h
      cases b with
      | true => exact ih h hu hrest
      | false =>
        obtain ⟨c, -, h⟩ := bind_eq_ok h
        cases c with
        | true => exact ih h hleast hrest
        | false =>
          cases h
          decide

theorem joinLower_ne_self (hp : ts.PlainParents)
    (h : ts.joinLower total (types.map some) = .ok (some w))
    (htotal : ∀ t ∈ total, TypeId.kind t ≠ .self) (htypes : ∀ t ∈ types, TypeId.kind t ≠ .self) :
    TypeId.kind w ≠ .self := by
  induction types generalizing total with
  | nil =>
    cases h
    exact htotal w rfl
  | cons u types ih =>
    have hu := htypes u (.head _)
    have hrest : ∀ t ∈ types, TypeId.kind t ≠ .self := fun t ht => htypes t (.tail _ ht)
    cases total with
    | none => exact ih h (by simpa using hu) hrest
    | some t =>
      obtain ⟨r, hr, h⟩ := bind_eq_ok h
      refine ih h (fun v hv => ?_) hrest
      cases hv
      by_cases hwild : TypeId.kind t ≠ .plain ∨ TypeId.kind u ≠ .plain
      · cases (join_of_wild hwild (htotal t rfl) hu).symm.trans hr
        exact hu
      · simp only [not_or, Decidable.not_not] at hwild
        have hv := (leastAbove_of_join hp hwild.1 hwild.2 hr).above t (by simp)
        rw [hv.plain hp hwild.1]
        simp

theorem plain_of_infer (hp : ts.PlainParents) (hx : x.Recorded) (h : ts.infer x = .ok (true, y)) :
    TypeId.kind y.type = .plain := by
  obtain ⟨upper, lower, hupper, hlower, hauto, herror, hcases⟩ := infer_eq_true h
  have hself : TypeId.kind y.type ≠ .self := by
    rcases hcases with ⟨-, rfl⟩ | ⟨rfl, -⟩
    · rw [hx.upper] at hupper
      exact leastUpper_ne_self hupper (by simp) hx.uppers_ne_self
    · rw [hx.lower] at hlower
      exact joinLower_ne_self hp hlower (by simp) hx.lowers_ne_self
  cases hkind : TypeId.kind y.type with
  | plain => rfl
  | self => exact absurd hkind hself
  | auto => exact absurd hkind hauto
  | error => exact absurd hkind herror

theorem Respects.compatible (ha : ts.Acyclic) (hp : ts.PlainParents) (ht : TypeId.kind t = .plain)
    (h : ts.Respects t x) : ts.Compatible x where
  upper u hu u' hu' hkind hkind' :=
    ((ha.conforms_eq_true hp ht hkind).1 (h.upper u hu)).comparable
      ((ha.conforms_eq_true hp ht hkind').1 (h.upper u' hu'))
  lower := ⟨t, fun l hl hkind => (ha.conforms_eq_true hp hkind ht).1 (h.lower l hl)⟩

theorem leastUpper_below (ha : ts.Acyclic) (hp : ts.PlainParents)
    (hself : ∀ t ∈ types, TypeId.kind t ≠ .self) (hsteady : Steady types)
    (hcomparable : ∀ u ∈ types, ∀ u' ∈ types, TypeId.kind u = .plain → TypeId.kind u' = .plain →
      ts.Sub u u' ∨ ts.Sub u' u) (h : ts.leastUpper none (types.map some) = .ok r) (hu : u ∈ types)
    (hkind : TypeId.kind u = .plain) : ∃ w, r = some w ∧ TypeId.kind w = .plain ∧ ts.Sub w u := by
  obtain ⟨wild, plain, rfl, hwild, hplain⟩ := hsteady.split
  have hu : u ∈ plain := (List.mem_append.1 hu).resolve_left fun hu => hwild u hu hkind
  rw [restarts_leastUpper.skip hwild hself, if_neg (List.ne_nil_of_mem hu)] at h
  cases plain with
  | nil => cases hu
  | cons t plain =>
    rcases leastUpper_plain ha hp hplain with ⟨w, hw, hleast, hbelow⟩ | ⟨⟨v, hv, v', hv', hex⟩, -⟩
    · exact ⟨w, Except.ok.inj (h.symm.trans hleast), hplain w hw, hbelow u hu⟩
    · exact absurd (hcomparable v (List.mem_append_right _ hv) v' (List.mem_append_right _ hv')
        (hplain v hv) (hplain v' hv'))
        hex

theorem joinLower_above (hp : ts.PlainParents) (hself : ∀ t ∈ types, TypeId.kind t ≠ .self)
    (hsteady : Steady types) (hcommon : ∃ c, ∀ l ∈ types, TypeId.kind l = .plain → ts.Sub l c)
    (h : ts.joinLower none (types.map some) = .ok r) (hu : u ∈ types)
    (hkind : TypeId.kind u = .plain) : ∃ w, r = some w ∧ ts.Sub u w := by
  obtain ⟨wild, plain, rfl, hwild, hplain⟩ := hsteady.split
  obtain ⟨c, hc⟩ := hcommon
  have hu : u ∈ plain := (List.mem_append.1 hu).resolve_left fun hu => hwild u hu hkind
  rw [restarts_joinLower.skip hwild hself, if_neg (List.ne_nil_of_mem hu)] at h
  cases plain with
  | nil => cases hu
  | cons t plain =>
    obtain ⟨w, hw, -, hleast⟩ := joinLower_plain hp leastAbove_singleton (hplain t (.head _))
      (fun v hv => hplain v (.tail _ hv)) h
      ⟨c, fun v hv => hc v (List.mem_append_right _ hv) (hplain v hv)⟩
    exact ⟨w, hw, hleast.above u hu⟩

theorem Compatible.respects (ha : ts.Acyclic) (hp : ts.PlainParents) (hx : x.Recorded)
    (h : ts.infer x = .ok (true, y)) (hupper : Steady x.uppers) (hlower : Steady x.lowers)
    (hc : ts.Compatible x) : ts.Respects y.type x := by
  have ht := plain_of_infer hp hx h
  obtain ⟨upper, lower, hleast, hjoin, -, -, hcases⟩ := infer_eq_true h
  rw [hx.upper] at hleast
  rw [hx.lower] at hjoin
  refine ⟨fun u hu => ?_, fun l hl => ?_⟩
  · by_cases hkind : TypeId.kind u = .plain
    · obtain ⟨w, rfl, hw, hwu⟩ :=
          leastUpper_below ha hp hx.uppers_ne_self hupper hc.upper hleast hu hkind
      refine (ha.conforms_eq_true hp ht hkind).2 ?_
      rcases hcases with ⟨-, heq⟩ | ⟨-, hconforms⟩
      · exact Option.some.inj heq ▸ hwu
      · exact ((ha.conforms_eq_true hp ht hw).1 (hconforms w rfl)).trans hwu
    · exact conforms_of_wild (.inr hkind) (by simp [ht])
  · by_cases hkind : TypeId.kind l = .plain
    · obtain ⟨w, rfl, hlw⟩ := joinLower_above hp hx.lowers_ne_self hlower hc.lower hjoin hl hkind
      refine (ha.conforms_eq_true hp hkind ht).2 ?_
      rcases hcases with ⟨heq, -⟩ | ⟨heq, -⟩
      · cases heq
      · exact Option.some.inj heq ▸ hlw
    · exact conforms_of_wild (.inl hkind) (hx.lowers_ne_self l hl)

/-- A type that is inferred lies between the recorded bounds only if they leave room for it, and
then it does when the bounds that are not plain were recorded first. -/
theorem Grown.respects_bounds (hts : ts.Grown) (ha : ts.Acyclic) {v : Variable}
    (hv : v.inferred = false)
    (hu : v.Unbounded) {bounds : List Bound} (hbounds : ∀ b ∈ bounds, TypeId.kind b.type ≠ .self)
    (h : ts.infer (bounds.foldl Variable.bound v) = .ok (true, y)) :
    (ts.Respects y.type (bounds.foldl Variable.bound v) →
      ts.Compatible (bounds.foldl Variable.bound v)) ∧
    (Steady (bounds.foldl Variable.bound v).uppers → Steady (bounds.foldl Variable.bound v).lowers →
      ts.Compatible (bounds.foldl Variable.bound v) →
        ts.Respects y.type (bounds.foldl Variable.bound v)) := by
  have hp : ts.PlainParents := hts.guarded.plainParents
  have hx := Variable.recorded_foldl_bound hv hu hbounds
  exact ⟨Respects.compatible ha hp (plain_of_infer hp hx h), Compatible.respects ha hp hx h⟩

end Types

/-! ### Bounds from the family -/

namespace Sample.Family

/-- A variable whose type is to be inferred from bounds. -/
def bounded (bounds : List Bound) : Variable :=
  bounds.foldl Variable.bound (.ofType "x" TypeId.auto)

/-- Bounds that leave room for the parent, with some that are not plain before them. -/
def roomy : List Bound :=
  [.upper TypeId.error, .lower TypeId.auto, .upper object, .lower first, .upper TypeId.auto,
    .upper parent, .lower second]

theorem respects_bounds_roomy : table.Grown ∧ table.Acyclic ∧
    table.infer (bounded roomy) = .ok (true, { name := "x", type := parent, inferred := true }) ∧
    table.Respects parent (bounded roomy) := by
  have hinfer : table.infer (bounded roomy) = .ok
      (true, { name := "x", type := parent, inferred := true }) := rfl
  have hsub : table.Sub parent object := .of_parent rfl
  have hcompatible : table.Compatible (bounded roomy) := by
    refine ⟨?_, object, fun l hl hkind => ?_⟩
    · have huppers : (bounded roomy).uppers = [TypeId.error, object, parent] := rfl
      simp only [huppers, List.mem_cons, List.not_mem_nil, or_false, forall_eq_or_imp, forall_eq]
      simp [hsub, Types.Sub.refl, show TypeId.kind TypeId.error = .error from rfl]
    · have hl : l ∈ [TypeId.auto, first, second] := hl
      simp only [List.mem_cons, List.not_mem_nil, or_false] at hl
      rcases hl with rfl | rfl | rfl
      · cases hkind
      all_goals exact (Types.Sub.of_parent (u := parent) rfl).trans hsub
  have hall := Types.Grown.respects_bounds table_grown table_acyclic (v := .ofType "x" TypeId.auto)
      rfl ⟨rfl, rfl⟩
    (by decide) hinfer
  exact ⟨table_grown, table_acyclic, hinfer, hall.2 (by decide) (by decide) hcompatible⟩

/-- Two upper bounds that exclude each other are forgotten when there is a lower one. -/
theorem respects_bounds_excluding : table.Grown ∧ table.Acyclic ∧
    table.infer (bounded [.upper first, .upper second, .lower parent]) =
      .ok (true, { name := "x", type := parent, inferred := true }) ∧
    ¬ table.Respects parent (bounded [.upper first, .upper second, .lower parent]) := by
  refine ⟨table_grown, table_acyclic, rfl, fun h => ?_⟩
  have hfirst : table.conforms parent first = .ok true := h.upper first (.head _)
  cases hfirst

-- a bound that is not plain makes those before it be forgotten
example : table.infer (bounded [.lower first, .lower TypeId.auto, .lower second]) =
    .ok (true, { name := "x", type := second, inferred := true }) := rfl

example : table.infer (bounded [.upper first, .upper TypeId.error, .upper second]) =
    .ok (true, { name := "x", type := second, inferred := true }) := rfl

end Sample.Family

end AutoCool
