import Mathlib.Data.List.Induction
import Mathlib.Data.List.Nodup
import Mathlib.Data.List.Perm.Subperm
import Mathlib.Logic.Relation
import AutoCool.Types.Order

/-!
# The order of plain types

`Types.Sub` is the order along parents: a type is below itself and below what is above its parent.
The answers of `conforms` and `join` are read in this order: a plain type conforms to another one
exactly when it is below it (`reaches_iff`), and a join is the least type above both
(`leastAbove_of_join`). When no type stands above itself the questions always have an answer
(`Depth.reaches`, `Depth.chain`), save that two types of which one is properly above the other have
no join (`join_error`).
-/

namespace AutoCool

namespace TypeId

@[simp] theorem isBypass_eq_false : isBypass t = false ↔ kind t = .plain := by
  simp [isBypass]

theorem same_of_plain (ht : kind t = .plain) (hu : kind u = .plain) : same t u = (t == u) := by
  simp only [same, ht, hu]

end TypeId

namespace Types

/-- A type is another one or stands below it. -/
def Sub (ts : Types) : TypeId → TypeId → Prop :=
  Relation.ReflTransGen fun t u => ts.parent? t = some u

/-- No type stands above itself. -/
def Acyclic (ts : Types) : Prop := ∀ t, ¬ Relation.TransGen (fun t u => ts.parent? t = some u) t t

/-- Only declared types stand above others. -/
def PlainParents (ts : Types) : Prop := ∀ {t u}, ts.parent? t = some u → TypeId.kind u = .plain

/-- The least of the types above some types. -/
structure LeastAbove (ts : Types) (types : List TypeId) (w : TypeId) : Prop where
  above : ∀ t ∈ types, ts.Sub t w
  least : ∀ v, (∀ t ∈ types, ts.Sub t v) → ts.Sub w v

/-- How far a type stands below the top of its chain. -/
inductive Depth (ts : Types) : TypeId → Nat → Prop
  | top {t} : ts.parent? t = none → Depth ts t 0
  | under {t p n} : ts.parent? t = some p → Depth ts p n → Depth ts t (n + 1)

/-- The types from the top of its chain down to a type. -/
inductive Chain (ts : Types) : TypeId → List TypeId → Prop
  | top {t} : ts.parent? t = none → Chain ts t [t]
  | under {t p l} : ts.parent? t = some p → Chain ts p l → Chain ts t (l ++ [t])

variable {ts : Types} {t u v w p : TypeId} {l l' : List TypeId} {fuel n : Nat} {b : Bool}

@[refl] theorem Sub.refl : ts.Sub t t := Relation.ReflTransGen.refl

theorem Sub.trans (h : ts.Sub t u) (h' : ts.Sub u v) : ts.Sub t v :=
  Relation.ReflTransGen.trans h h'

theorem Sub.of_parent (h : ts.parent? t = some u) : ts.Sub t u := Relation.ReflTransGen.single h

theorem sub_iff_of_parent (h : ts.parent? t = some p) (hne : t ≠ u) : ts.Sub t u ↔ ts.Sub p u := by
  refine ⟨fun hs => ?_, fun hs => (Sub.of_parent h).trans hs⟩
  rcases Relation.ReflTransGen.cases_head hs with rfl | ⟨c, hc, hs⟩
  · exact absurd rfl hne
  · cases h.symm.trans hc
    exact hs

theorem sub_iff_of_top (h : ts.parent? t = none) : ts.Sub t u ↔ t = u := by
  refine ⟨fun hs => ?_, fun he => he ▸ Sub.refl⟩
  rcases Relation.ReflTransGen.cases_head hs with rfl | ⟨c, hc, -⟩
  · rfl
  · cases h.symm.trans hc

theorem Sub.plain (hp : ts.PlainParents) (h : ts.Sub t u) (ht : TypeId.kind t = .plain) :
    TypeId.kind u = .plain := by
  rcases Relation.ReflTransGen.cases_tail h with rfl | ⟨c, -, hc⟩
  · exact ht
  · exact hp hc

theorem Acyclic.antisymm (ha : ts.Acyclic) (h : ts.Sub t u) (h' : ts.Sub u t) : t = u := by
  rcases Relation.reflTransGen_iff_eq_or_transGen.1 h with he | ht
  · exact he.symm
  · exact absurd (ht.trans_left h') (ha t)

theorem lt_size_of_parent (h : ts.parent? t = some p) : t < ts.entries.size := by
  by_contra hge
  simp [parent?, get, Array.getD, hge] at h
  cases h

theorem acyclic_of_parent_lt (h : ∀ t < ts.entries.size, ∀ u ∈ ts.parent? t, u < t) :
    ts.Acyclic := by
  have hlt : ∀ {t u : Nat}, Relation.TransGen (fun t u => ts.parent? t = some u) t u → u < t := by
    intro t u hs
    induction hs with
    | single hp => exact h _ (lt_size_of_parent hp) _ hp
    | tail _ hp ih => exact Nat.lt_trans (h _ (lt_size_of_parent hp) _ hp) ih
  exact fun t ht => Nat.lt_irrefl t (hlt ht)

theorem Acyclic.exists_depth (ha : ts.Acyclic) (t : TypeId) :
    ∃ n ≤ ts.entries.size, ts.Depth t n := by
  -- `seen` are the types that were met before `t`, and `k` bounds how many can still be met
  suffices h : ∀ k (seen : List TypeId) t, seen.Nodup →
      (∀ s ∈ seen, s < ts.entries.size ∧ Relation.TransGen (fun t u => ts.parent? t = some u) s t) →
      ts.entries.size ≤ seen.length + k → ∃ n ≤ k, ts.Depth t n from
    h _ [] t .nil (by simp) (by simp)
  intro k
  induction k with
  | zero =>
    intro seen t hnodup hseen hsize
    refine ⟨0, Nat.le_refl _, .top ?_⟩
    by_contra hne
    obtain ⟨p, hp⟩ := Option.ne_none_iff_exists'.1 hne
    have hfresh : t ∉ seen := fun ht => ha t (hseen t ht).2
    have hle : (t :: seen).length ≤ (List.range ts.entries.size).length := by
      refine ((List.nodup_cons.2 ⟨hfresh, hnodup⟩).subperm fun s hs =>
        List.mem_range.2 ?_).length_le
      rcases List.mem_cons.1 hs with rfl | hs
      · exact lt_size_of_parent hp
      · exact (hseen s hs).1
    simp only [List.length_cons, List.length_range] at hle
    omega
  | succ k ih =>
    intro seen t hnodup hseen hsize
    cases hp : ts.parent? t with
    | none => exact ⟨0, Nat.zero_le _, .top hp⟩
    | some p =>
      have hfresh : t ∉ seen := fun ht => ha t (hseen t ht).2
      obtain ⟨n, hn, hdepth⟩ := ih (t :: seen) p (List.nodup_cons.2 ⟨hfresh, hnodup⟩)
        (by
          intro s hs
          rcases List.mem_cons.1 hs with rfl | hs
          · exact ⟨lt_size_of_parent hp, .single hp⟩
          · exact ⟨(hseen s hs).1, (hseen s hs).2.tail hp⟩)
        (by simp only [List.length_cons]; omega)
      exact ⟨n + 1, by omega, .under hp hdepth⟩

theorem reaches_iff (hp : ts.PlainParents) (ht : TypeId.kind t = .plain)
    (hu : TypeId.kind u = .plain) (h : ts.reaches fuel t u = .ok b) : b = true ↔ ts.Sub t u := by
  induction fuel generalizing t with
  | zero => cases h
  | succ fuel ih =>
    simp only [reaches, ht, TypeId.isBypass_eq_false.2 hu, TypeId.same_of_plain ht hu,
      Bool.false_or,
      beq_iff_eq] at h
    split at h
    · next he =>
      cases h
      exact iff_of_true rfl (he ▸ Sub.refl)
    · next hne =>
      split at h
      · next htop =>
        cases h
        exact iff_of_false (by simp) fun hs => hne ((sub_iff_of_top htop).1 hs)
      · next p hparent => exact (ih (hp hparent) h).trans (sub_iff_of_parent hparent hne).symm

theorem Depth.reaches (h : ts.Depth t n) (hfuel : n < fuel) : ∃ b, ts.reaches fuel t u = .ok b := by
  induction h generalizing fuel with
  | top htop =>
    obtain ⟨fuel, rfl⟩ := Nat.exists_eq_succ_of_ne_zero (Nat.ne_zero_of_lt hfuel)
    simp only [Types.reaches, htop]
    repeat' split
    all_goals exact ⟨_, rfl⟩
  | under hparent _ ih =>
    obtain ⟨fuel, rfl⟩ := Nat.exists_eq_succ_of_ne_zero (Nat.ne_zero_of_lt hfuel)
    simp only [Types.reaches, hparent]
    repeat' split
    all_goals first | exact ⟨_, rfl⟩ | exact ih (by omega)

theorem Acyclic.conforms (ha : ts.Acyclic) (t u : TypeId) : ∃ b, ts.conforms t u = .ok b := by
  obtain ⟨n, hn, h⟩ := ha.exists_depth t
  exact h.reaches (Nat.lt_succ_of_le hn)

theorem Depth.climb (h : ts.Depth t n) (hfuel : n < fuel) :
    ∃ r, ts.climb has fuel t = .ok r := by
  induction h generalizing fuel with
  | top htop =>
    obtain ⟨fuel, rfl⟩ := Nat.exists_eq_succ_of_ne_zero (Nat.ne_zero_of_lt hfuel)
    simp only [Types.climb, htop]
    split
    all_goals exact ⟨_, rfl⟩
  | under hparent _ ih =>
    obtain ⟨fuel, rfl⟩ := Nat.exists_eq_succ_of_ne_zero (Nat.ne_zero_of_lt hfuel)
    simp only [Types.climb, hparent]
    split
    · exact ⟨_, rfl⟩
    · exact ih (by omega)

theorem Acyclic.climb (ha : ts.Acyclic) (has : TypeEntry → Option α) (t : TypeId) :
    ∃ r, ts.climb has ts.height t = .ok r := by
  obtain ⟨n, hn, h⟩ := ha.exists_depth t
  exact h.climb (Nat.lt_succ_of_le hn)

theorem chain_of_ok (h : ts.chain fuel t below = .ok l) :
    ∃ l', ts.Chain t l' ∧ l = l' ++ below := by
  induction fuel generalizing t below with
  | zero => cases h
  | succ fuel ih =>
    simp only [chain] at h
    split at h
    · next htop =>
      cases h
      exact ⟨[t], .top htop, rfl⟩
    · next p hparent =>
      obtain ⟨l', hl', rfl⟩ := ih h
      exact ⟨l' ++ [t], .under hparent hl', by simp⟩

theorem Depth.chain {below : List TypeId} (h : ts.Depth t n) (hfuel : n < fuel) :
    ∃ l, ts.chain fuel t below = .ok l := by
  induction h generalizing fuel below with
  | top htop =>
    obtain ⟨fuel, rfl⟩ := Nat.exists_eq_succ_of_ne_zero (Nat.ne_zero_of_lt hfuel)
    simp only [Types.chain, htop]
    exact ⟨_, rfl⟩
  | under hparent _ ih =>
    obtain ⟨fuel, rfl⟩ := Nat.exists_eq_succ_of_ne_zero (Nat.ne_zero_of_lt hfuel)
    simp only [Types.chain, hparent]
    exact ih (by omega)

theorem Acyclic.chain (ha : ts.Acyclic) (t : TypeId) :
    ∃ l, ts.chain ts.height t [] = .ok l ∧ ts.Chain t l := by
  obtain ⟨n, hn, h⟩ := ha.exists_depth t
  obtain ⟨l, hl⟩ : ∃ l, ts.chain ts.height t [] = .ok l := h.chain (Nat.lt_succ_of_le hn)
  obtain ⟨l', hl', rfl⟩ := chain_of_ok hl
  exact ⟨_, hl, by simpa using hl'⟩

theorem Chain.unique (h : ts.Chain t l) (h' : ts.Chain t l') : l = l' := by
  induction h generalizing l' with
  | top htop =>
    cases h' with
    | top => rfl
    | under hparent => cases htop.symm.trans hparent
  | under hparent _ ih =>
    cases h' with
    | top htop => cases htop.symm.trans hparent
    | under hparent' hl' =>
      cases hparent.symm.trans hparent'
      rw [ih hl']

theorem Chain.mem_self (h : ts.Chain t l) : t ∈ l := by
  cases h <;> simp

theorem Chain.sub_of_mem (h : ts.Chain t l) (hu : u ∈ l) : ts.Sub t u := by
  induction h with
  | top => rw [List.mem_singleton.1 hu]
  | under hparent _ ih =>
    rcases List.mem_append.1 hu with hu | hu
    · exact (Sub.of_parent hparent).trans (ih hu)
    · rw [List.mem_singleton.1 hu]

theorem Chain.plain (hp : ts.PlainParents) (h : ts.Chain t l) (ht : TypeId.kind t = .plain) :
    ∀ u ∈ l, TypeId.kind u = .plain := fun _ hu => (h.sub_of_mem hu).plain hp ht

theorem Chain.of_sub (h : ts.Chain t l) (hs : ts.Sub t u) : ∃ l', ts.Chain u l' ∧ l' <+: l := by
  induction h with
  | top htop =>
    cases (sub_iff_of_top htop).1 hs
    exact ⟨_, .top htop, List.prefix_refl _⟩
  | @under t p l hparent hl ih =>
    by_cases he : t = u
    · exact ⟨l ++ [t], he ▸ .under hparent hl, List.prefix_refl _⟩
    · obtain ⟨l', hl', hpre⟩ := ih ((sub_iff_of_parent hparent he).1 hs)
      exact ⟨l', hl', hpre.trans (List.prefix_append _ _)⟩

/-- Two chains that part: what they have in common, and the first two types that differ. -/
theorem agree_eq_ok (hl : ∀ t ∈ l, TypeId.kind t = .plain)
    (hl' : ∀ t ∈ l', TypeId.kind t = .plain) (h : agree last l l' = .ok r) :
    ∃ common x rest y rest', l = common ++ x :: rest ∧ l' = common ++ y :: rest' ∧ x ≠ y ∧
      r = common.getLast?.or last := by
  induction l generalizing l' last with
  | nil => cases h
  | cons x l ih =>
    cases l' with
    | nil => cases h
    | cons y l' =>
      simp only [agree, TypeId.same_of_plain (hl x (by simp)) (hl' y (by simp)), beq_iff_eq] at h
      split at h
      · next he =>
        subst he
        obtain ⟨common, x', rest, y', rest', rfl, rfl, hne, rfl⟩ :=
          ih (fun t ht => hl t (.tail _ ht)) (fun t ht => hl' t (.tail _ ht)) h
        refine ⟨x :: common, x', rest, y', rest', rfl, rfl, hne, ?_⟩
        cases common <;> simp [List.getLast?_cons]
      · next hne =>
        cases h
        exact ⟨[], x, l, y, l', rfl, rfl, hne, rfl⟩

/-- Two chains that do not part: one of them begins the other one. -/
theorem agree_eq_error (hl : ∀ t ∈ l, TypeId.kind t = .plain)
    (hl' : ∀ t ∈ l', TypeId.kind t = .plain) (h : agree last l l' = .error e) :
    e = .outOfRange ∧ (l <+: l' ∨ l' <+: l) := by
  induction l generalizing l' last with
  | nil =>
    cases h
    exact ⟨rfl, .inl List.nil_prefix⟩
  | cons x l ih =>
    cases l' with
    | nil =>
      cases h
      exact ⟨rfl, .inr List.nil_prefix⟩
    | cons y l' =>
      simp only [agree, TypeId.same_of_plain (hl x (by simp)) (hl' y (by simp)), beq_iff_eq] at h
      split at h
      · next he =>
        subst he
        obtain ⟨he, hpre⟩ := ih (fun t ht => hl t (.tail _ ht)) (fun t ht => hl' t (.tail _ ht)) h
        exact ⟨he, by simpa [List.cons_prefix_cons] using hpre⟩
      · cases h

theorem Chain.of_prefix (h : ts.Chain t l) (hpre : l' ++ [u] <+: l) : ts.Chain u (l' ++ [u]) := by
  induction h with
  | @top t htop =>
    obtain ⟨rfl, rfl⟩ : l' = [] ∧ u = t := by
      cases l' with
      | nil => exact ⟨rfl, by simpa using hpre⟩
      | cons => simpa using hpre.length_le
    exact .top htop
  | @under t p l hparent hl ih =>
    rcases List.prefix_concat_iff.1 hpre with he | hpre
    · obtain ⟨rfl, hlast⟩ := List.append_inj' he rfl
      cases List.cons.inj hlast |>.1
      exact .under hparent hl
    · exact ih hpre

theorem prefix_of_parting (hne : x ≠ y)
    (h : m <+: common ++ x :: rest) (h' : m <+: common ++ y :: rest') : m <+: common := by
  induction common generalizing m with
  | nil =>
    cases m with
    | nil => exact List.nil_prefix
    | cons z m =>
      simp only [List.nil_append, List.cons_prefix_cons] at h h'
      exact absurd (h.1.symm.trans h'.1) hne
  | cons c common ih =>
    cases m with
    | nil => exact List.nil_prefix
    | cons z m =>
      simp only [List.cons_append, List.cons_prefix_cons] at h h' ⊢
      exact ⟨h.1, ih h.2 h'.2⟩

theorem leastAbove_singleton : ts.LeastAbove [t] t :=
  ⟨fun x hx => by rw [List.mem_singleton.1 hx], fun v hv => hv t (by simp)⟩

theorem LeastAbove.snoc (h : ts.LeastAbove types v) (h' : ts.LeastAbove [v, u] w) :
    ts.LeastAbove (types ++ [u]) w := by
  refine ⟨fun x hx => ?_, fun z hz => h'.least z ?_⟩
  · rcases List.mem_append.1 hx with hx | hx
    · exact (h.above x hx).trans (h'.above v (by simp))
    · exact List.mem_singleton.1 hx ▸ h'.above u (by simp)
  · simp only [List.mem_cons, List.not_mem_nil, or_false, forall_eq_or_imp, forall_eq]
    exact ⟨h.least z fun x hx => hz x (by simp [hx]), hz u (by simp)⟩

theorem leastAbove_pair_self : ts.LeastAbove [t, t] t :=
  ⟨fun x hx => by simp_all only [List.mem_cons, List.not_mem_nil,
    or_false, or_self]; rfl, fun v hv => hv t (by simp)⟩

/-- A join that was found: the types count as the same, or their chains part. -/
theorem join_eq_ok (h : ts.join t (some u) = .ok r) :
    TypeId.same t u = true ∧ r = some u ∨
      TypeId.same t u = false ∧ ∃ l l', ts.Chain t l ∧ ts.Chain u l' ∧ agree none l l' = .ok r := by
  simp only [join] at h
  split at h
  · next he =>
    cases h
    exact .inl ⟨he, rfl⟩
  · next hne =>
    refine .inr ⟨Bool.eq_false_iff.2 hne, ?_⟩
    cases hc : ts.chain ts.height t [] with
    | error e => simp [hc, bind, Except.bind] at h
    | ok l =>
      cases hc' : ts.chain ts.height u [] with
      | error e => simp [hc, hc', bind, Except.bind] at h
      | ok l' =>
        obtain ⟨l, hl, rfl⟩ := chain_of_ok hc
        obtain ⟨l', hl', rfl⟩ := chain_of_ok hc'
        simp only [hc, hc', bind, Except.bind, List.append_nil] at h
        exact ⟨l, l', hl, hl', h⟩

theorem leastAbove_of_join (hp : ts.PlainParents) (ht : TypeId.kind t = .plain)
    (hu : TypeId.kind u = .plain) (h : ts.join t (some u) = .ok (some w)) :
    ts.LeastAbove [t, u] w := by
  rcases join_eq_ok h with ⟨hsame, hw⟩ | ⟨-, l, l', hl, hl', hagree⟩
  · rw [TypeId.same_of_plain ht hu, beq_iff_eq] at hsame
    cases hw
    exact hsame ▸ leastAbove_pair_self
  · obtain ⟨common, x, rest, y, rest', rfl, rfl, hne, hw⟩ :=
      agree_eq_ok (hl.plain hp ht) (hl'.plain hp hu) hagree
    rw [Option.or_none] at hw
    obtain ⟨common, rfl⟩ := List.getLast?_eq_some_iff.1 hw.symm
    refine ⟨?_, fun v hv => ?_⟩
    · simp only [List.mem_cons, List.not_mem_nil, or_false, forall_eq_or_imp, forall_eq]
      exact ⟨hl.sub_of_mem (by simp), hl'.sub_of_mem (by simp)⟩
    · -- the chain of a type above both begins both chains, so it ends before they part
      obtain ⟨m, hm, hpre⟩ := hl.of_sub (hv t (by simp))
      obtain ⟨m', hm', hpre'⟩ := hl'.of_sub (hv u (by simp))
      cases hm.unique hm'
      have hw : ts.Chain w (common ++ [w]) := hl.of_prefix (List.prefix_append _ _)
      exact hw.sub_of_mem ((prefix_of_parting hne hpre hpre').subset hm.mem_self)

/-- In a hierarchy without cycles it is only for two types of which one is properly above the other
that there is no answer. -/
theorem join_error (hp : ts.PlainParents) (ha : ts.Acyclic) (ht : TypeId.kind t = .plain)
    (hu : TypeId.kind u = .plain) (h : ts.join t (some u) = .error e) :
    e = .outOfRange ∧ t ≠ u ∧ (ts.Sub t u ∨ ts.Sub u t) := by
  obtain ⟨l, hc, hl⟩ := ha.chain t
  obtain ⟨l', hc', hl'⟩ := ha.chain u
  simp only [join, TypeId.same_of_plain ht hu, beq_iff_eq, hc, hc', bind, Except.bind] at h
  split at h
  · cases h
  · next hne =>
    obtain ⟨he, hpre | hpre⟩ := agree_eq_error (hl.plain hp ht) (hl'.plain hp hu) h
    · exact ⟨he, hne, .inr (hl'.sub_of_mem (hpre.subset hl.mem_self))⟩
    · exact ⟨he, hne, .inl (hl.sub_of_mem (hpre.subset hl'.mem_self))⟩

/-- Two types have no join when one is properly above the other, and nothing has a join with what
has no type. -/
def NoJoin (ts : Types) (t : TypeId) : Option TypeId → Prop
  | none => True
  | some u => t ≠ u ∧ (ts.Sub t u ∨ ts.Sub u t)

/-- A hierarchy without cycles, in which only plain types have others below them and the type of the
object itself stands alone. -/
structure Hierarchy (ts : Types) : Prop where
  acyclic : ts.Acyclic
  plainParents : ts.PlainParents
  self_top : ts.parent? TypeId.self = none

theorem Chain.head (h : ts.Chain t l) : ∃ u l', l = u :: l' ∧ ts.Sub t u := by
  cases hl : l with
  | nil =>
    rw [hl] at h
    cases h.mem_self
  | cons u l' => exact ⟨u, l', rfl, h.sub_of_mem (hl ▸ .head _)⟩

theorem agree_self (h : TypeId.kind x = .plain ∧ TypeId.kind y = .self ∨
    TypeId.kind x = .self ∧ TypeId.kind y ≠ .self) : agree last (x :: l) (y :: l') = .ok last := by
  have hsame : TypeId.same x y = false := by
    rcases h with ⟨hx, hy⟩ | ⟨hx, hy⟩
    · simp only [TypeId.same, hx, hy]
    · simpa only [TypeId.same, hx, beq_eq_false_iff_ne] using hy
  simp only [agree, hsame, Bool.false_eq_true, if_false]

theorem Hierarchy.chain_self (h : ts.Hierarchy) (ht : TypeId.kind t = .self) (hl : ts.Chain t l) :
    l = [t] := by
  have hself : t = TypeId.self := by
    unfold TypeId.kind at ht
    split at ht
    · next heq => exact heq
    · split at ht
      · cases ht
      · split at ht <;> cases ht
  subst hself
  exact hl.unique (.top h.self_top)

theorem Hierarchy.join_error (h : ts.Hierarchy) (hj : ts.join t r = .error e) :
    e = .outOfRange ∧ ts.NoJoin t r := by
  obtain ⟨l, hc, hl⟩ := h.acyclic.chain t
  cases r with
  | none =>
    simp only [join, hc, bind, Except.bind] at hj
    cases hj
    exact ⟨rfl, trivial⟩
  | some u =>
    by_cases hplain : TypeId.kind t = .plain ∧ TypeId.kind u = .plain
    · exact Types.join_error h.plainParents h.acyclic hplain.1 hplain.2 hj
    · -- types that are not plain count as the same as others or part from them at once
      exfalso
      obtain ⟨l', hc', hl'⟩ := h.acyclic.chain u
      obtain ⟨x, k, hx, hxt⟩ := hl.head
      obtain ⟨y, k', hy, hyu⟩ := hl'.head
      simp only [join, hc, hc', bind, Except.bind] at hj
      split at hj
      · cases hj
      · next hsame =>
        have hparts : TypeId.kind x = .plain ∧ TypeId.kind y = .self ∨ TypeId.kind x = .self ∧
            TypeId.kind y ≠ .self := by
          cases ht : TypeId.kind t with
          | auto | error => simp [TypeId.same, ht] at hsame
          | self =>
            have hu : TypeId.kind u ≠ .self := by simpa [TypeId.same, ht] using hsame
            obtain ⟨rfl, rfl⟩ : x = t ∧ k = [] := by simpa [hx] using h.chain_self ht hl
            refine .inr ⟨ht, ?_⟩
            rcases Relation.ReflTransGen.cases_tail hyu with rfl | ⟨z, -, hz⟩
            · exact hu
            · rw [h.plainParents hz]
              simp
          | plain =>
            cases hu : TypeId.kind u with
            | auto | error => simp [TypeId.same, ht, hu] at hsame
            | plain => exact absurd ⟨ht, hu⟩ hplain
            | self =>
              obtain ⟨rfl, rfl⟩ : y = u ∧ k' = [] := by simpa [hy] using h.chain_self hu hl'
              exact .inl ⟨hxt.plain h.plainParents ht, hu⟩
        rw [hx, hy, agree_self hparts] at hj
        cases hj

theorem Acyclic.findMethod_error (ha : ts.Acyclic) {name : String}
    (h : ts.findMethod t name = .error f) : ∃ d, f = .declaration d := by
  obtain ⟨r, hr⟩ := ha.climb (fun e => e.methods.find? (·.name == name)) t
  rw [Types.findMethod, hr] at h
  cases r with
  | none =>
    cases h
    exact ⟨_, rfl⟩
  | some x => cases h

/-! ## Bounds without a type -/

theorem Acyclic.leastUpper_eq_error (ha : ts.Acyclic) (h : ts.leastUpper least bounds = .error f) :
    f = .absent ∧ none ∈ bounds := by
  induction bounds generalizing least with
  | nil => cases h
  | cons bound bounds ih =>
    have hrest : ∀ {l}, ts.leastUpper l bounds = .error f → f = .absent ∧ none ∈ bound :: bounds :=
      fun h =>
      (ih h).imp_right (.tail _)
    cases least with
    | none => exact hrest h
    | some t =>
      cases bound with
      | none =>
        cases h
        exact ⟨rfl, .head _⟩
      | some u =>
        obtain ⟨b, hb⟩ := ha.conforms u t
        obtain ⟨c, hc⟩ := ha.conforms t u
        simp only [leastUpper, hb, hc] at h
        cases b with
        | true => exact hrest h
        | false =>
          cases c with
          | true => exact hrest h
          | false => cases h

theorem joinLower_append {l l' : List (Option TypeId)} :
    ts.joinLower total (l ++ l') = (ts.joinLower total l).bind (ts.joinLower · l') := by
  induction l generalizing total with
  | nil => rfl
  | cons bound l ih =>
    cases total with
    | none => exact ih
    | some t =>
      simp only [List.cons_append, joinLower, ih]
      cases ts.join t bound <;> rfl

/-- Lower bounds that have no join: some of them have one, and the next one has none with it. -/
theorem joinLower_eq_error {f : Failure} (h : ts.joinLower none bounds = .error f) :
    ∃ before bound after t, bounds = before ++ bound :: after ∧
      ts.joinLower none before = .ok (some t) ∧
      ts.join t bound = .error f := by
  induction bounds using List.reverseRecOn with
  | nil => cases h
  | append_singleton l bound ih =>
    rw [joinLower_append] at h
    cases hl : ts.joinLower none l with
    | error g =>
      rw [hl] at h
      cases h
      obtain ⟨before, b, after, t, rfl, hbefore, hj⟩ := ih hl
      exact ⟨before, b, after ++ [bound], t, by simp, hbefore, hj⟩
    | ok total =>
      rw [hl] at h
      cases total with
      | none => cases h
      | some t =>
        cases hj : ts.join t bound with
        | ok w =>
          simp only [Except.bind, joinLower, hj] at h
          cases h
        | error g =>
          simp only [Except.bind, joinLower, hj] at h
          cases h
          exact ⟨l, bound, [], t, rfl, hl, hj⟩

/-- What a variable must be bound by so that no type can be inferred: from above by something
without a type, or from below by types without a join. -/
theorem Hierarchy.inferred_eq_error (ht : ts.Hierarchy) (h : ts.inferred x = .error f) :
    (f = .absent ∧ none ∈ x.upper) ∨ f = .outOfRange ∧ ∃ before bound after t,
      x.lower = before ++ bound :: after ∧
      ts.joinLower none before = .ok (some t) ∧ ts.NoJoin t bound := by
  have ha := ht.acyclic
  unfold inferred at h
  cases hupper : ts.leastUpper none x.upper with
  | error g =>
    rw [hupper] at h
    cases h
    exact .inl (ha.leastUpper_eq_error hupper)
  | ok upper =>
    rw [hupper] at h
    cases hlower : ts.joinLower none x.lower with
    | error g =>
      rw [hlower] at h
      cases h
      obtain ⟨before, bound, after, t, heq, hbefore, hj⟩ := joinLower_eq_error hlower
      obtain ⟨rfl, hno⟩ := ht.join_error hj
      exact .inr ⟨rfl, before, bound, after, t, heq, hbefore, hno⟩
    | ok lower =>
      rw [hlower] at h
      have hbetween : ∃ t, ts.between upper lower = .ok t := by
        cases lower with
        | none => cases upper <;> exact ⟨_, rfl⟩
        | some l =>
          cases upper with
          | none => exact ⟨_, rfl⟩
          | some u =>
            obtain ⟨b, hb⟩ := ha.conforms l u
            simp only [between, hb]
            exact ⟨_, rfl⟩
      obtain ⟨t, ht⟩ := hbetween
      simp only [ht, bind, Except.bind] at h
      cases t <;> cases h

end Types

end AutoCool
