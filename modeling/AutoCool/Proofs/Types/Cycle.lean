import Mathlib.Data.Nat.Find
import AutoCool.Proofs.Types.Order
import AutoCool.Proofs.Types.Table

/-!
# Types that stand above themselves

A type has one parent at the most, so all that stands above a type on a cycle is on the same cycle
(`OnCycle.sub_symm`), and the type of the lowest number among them leads it (`LeadsCycle`). When
some of these leaders have been put under a type without a parent (`Mended`), their cycles are gone,
the other cycles are what they were, and no cycle is new (`Mended.onCycle_iff`).

A walk upwards that is as long as there are types meets all types above the first one
(`mem_above_iff`), so it can be decided which types lead a cycle.
-/

namespace AutoCool.Types

/-- A type stands above itself. -/
def OnCycle (ts : Types) (t : TypeId) : Prop :=
  Relation.TransGen (fun t u => ts.parent? t = some u) t t

/-- A type stands above itself, and no type above it has a lower number. -/
structure LeadsCycle (ts : Types) (t : TypeId) : Prop where
  onCycle : ts.OnCycle t
  first : ∀ u, ts.Sub t u → t ≤ u

variable {ts ts' : Types} {t u p top : TypeId} {n m : Nat}

theorem OnCycle.sub_symm (h : ts.OnCycle t) (hs : ts.Sub t u) : ts.Sub u t := by
  induction hs with
  | refl => exact .refl
  | @tail v w _ hw ih =>
    -- the parent of `v` is the next type on the way back to `t`
    have hback : Relation.TransGen (fun t u => ts.parent? t = some u) v t := by
      rcases Relation.reflTransGen_iff_eq_or_transGen.1 ih with heq | hgen
      · exact heq ▸ h
      · exact hgen
    obtain ⟨w', hw', hs⟩ := Relation.TransGen.head'_iff.1 hback
    cases hw.symm.trans hw'
    exact hs

theorem OnCycle.of_sub (h : ts.OnCycle t) (hs : ts.Sub t u) : ts.OnCycle u :=
  Relation.TransGen.trans_left (Relation.TransGen.trans_right (h.sub_symm hs) h) hs

theorem OnCycle.exists_leader (h : ts.OnCycle t) : ∃ u, ts.Sub t u ∧ ts.LeadsCycle u := by
  classical
  have hex : ∃ u, ts.Sub t u := ⟨t, .refl⟩
  refine ⟨Nat.find hex, Nat.find_spec hex, h.of_sub (Nat.find_spec hex), fun u hu => ?_⟩
  exact Nat.find_min' hex ((Nat.find_spec hex).trans hu)

theorem LeadsCycle.unique (hu : ts.LeadsCycle u) (hv : ts.LeadsCycle v) (htu : ts.Sub t u)
    (htv : ts.Sub t v) (ht : ts.OnCycle t) : u = v :=
  Nat.le_antisymm (hu.first v ((ht.sub_symm htu).trans htv))
    (hv.first u ((ht.sub_symm htv).trans htu))

theorem LeadsCycle.lt_size (h : ts.LeadsCycle t) : t < ts.entries.size := by
  obtain ⟨p, hp, -⟩ := Relation.TransGen.head'_iff.1 h.onCycle
  exact lt_size_of_parent hp

theorem not_onCycle_of_top (h : ts.parent? t = none) : ¬ ts.OnCycle t := by
  intro hc
  obtain ⟨p, hp, -⟩ := Relation.TransGen.head'_iff.1 hc
  cases h.symm.trans hp

/-! ## Walks upwards -/

/-- The first `n` types above a type, from the nearest one on. -/
def above (ts : Types) : (n : Nat) → TypeId → List TypeId
  | 0, _ => []
  | n + 1, t =>
    match ts.parent? t with
    | none => []
    | some p => p :: ts.above n p

theorem above_succ (h : ts.parent? t = some p) : ts.above (n + 1) t = p :: ts.above n p := by
  rw [above, h]

theorem above_subset (h : n ≤ m) : ts.above n t ⊆ ts.above m t := by
  induction n generalizing t m with
  | zero => exact List.nil_subset _
  | succ n ih =>
    obtain ⟨m, rfl⟩ := Nat.exists_eq_succ_of_ne_zero (Nat.ne_zero_of_lt h)
    cases hp : ts.parent? t with
    | none => simp [above, hp]
    | some p =>
      rw [above_succ hp, above_succ hp]
      exact List.cons_subset_cons p (ih (Nat.le_of_succ_le_succ h))

theorem transGen_of_mem_above (h : u ∈ ts.above n t) :
    Relation.TransGen (fun t u => ts.parent? t = some u) t u := by
  induction n generalizing t with
  | zero => cases h
  | succ n ih =>
    cases hp : ts.parent? t with
    | none => simp [above, hp] at h
    | some p =>
      rw [above_succ hp] at h
      rcases List.mem_cons.1 h with rfl | h
      · exact .single hp
      · exact .head hp (ih h)

theorem Depth.unique (h : ts.Depth t n) (h' : ts.Depth t m) : n = m := by
  induction h generalizing m with
  | top htop =>
    cases h' with
    | top => rfl
    | under hp => cases htop.symm.trans hp
  | under hp _ ih =>
    cases h' with
    | top htop => cases htop.symm.trans hp
    | under hp' hd =>
      cases hp.symm.trans hp'
      rw [ih hd]

theorem Depth.le_size (h : ts.Depth t n) : n ≤ ts.entries.size := by
  suffices hchain : ∃ l : List TypeId, l.length = n ∧ l.Nodup ∧ ∀ u ∈ l, u < ts.entries.size ∧
      ∃ m ≤ n, ts.Depth u m by
    obtain ⟨l, rfl, hnodup, hl⟩ := hchain
    have hsub := hnodup.subperm fun u hu => List.mem_range.2 (hl u hu).1
    simpa using hsub.length_le
  induction h with
  | top => exact ⟨[], rfl, .nil, fun _ hu => nomatch hu⟩
  | @under t p n hp hd ih =>
    obtain ⟨l, hlength, hnodup, hl⟩ := ih
    have hfresh : t ∉ l := fun ht => by
      obtain ⟨m, hm, hdepth⟩ := (hl t ht).2
      have := hdepth.unique (.under hp hd)
      omega
    refine ⟨t :: l, by rw [List.length_cons, hlength], List.nodup_cons.2 ⟨hfresh,
      hnodup⟩, List.forall_mem_cons.2 ⟨?_, ?_⟩⟩
    · exact ⟨lt_size_of_parent hp, n + 1, Nat.le_refl _, .under hp hd⟩
    · exact fun u hu => ⟨(hl u hu).1, (hl u hu).2.imp fun m hm => ⟨Nat.le_succ_of_le hm.1, hm.2⟩⟩

theorem parent?_modify (ht : t < ts.entries.size) :
    (ts.modify t fun e => { e with parent }).parent? u =
      if u = t then parent else ts.parent? u := by
  rw [parent?, get_modify ht]
  split <;> rfl

/-- The table in which a type has lost its parent. -/
def cut (ts : Types) (t : TypeId) : Types := ts.modify t fun e => { e with parent := none }

@[simp] theorem size_cut : (ts.cut t).entries.size = ts.entries.size := size_modify

theorem parent?_cut : (ts.cut t).parent? u = if u = t then none else ts.parent? u := by
  by_cases ht : t < ts.entries.size
  · exact parent?_modify ht
  · rw [cut, modify_of_not_lt ht]
    split
    · next hu =>
      rw [hu, Option.eq_none_iff_forall_ne_some]
      exact fun p hp => ht (lt_size_of_parent hp)
    · rfl

theorem Sub.exists_depth_cut (h : ts.Sub p t) : ∃ n, (ts.cut t).Depth p n := by
  induction h using Relation.ReflTransGen.head_induction_on with
  | refl => exact ⟨0, .top (by rw [parent?_cut, if_pos rfl])⟩
  | @head p q hq _ ih =>
    obtain ⟨n, hn⟩ := ih
    by_cases hp : p = t
    · exact ⟨0, .top (by rw [parent?_cut, if_pos hp])⟩
    · exact ⟨n + 1, .under (by rw [parent?_cut, if_neg hp, hq]) hn⟩

theorem Depth.exists_depth_cut (h : ts.Depth p n) : ∃ m, (ts.cut t).Depth p m := by
  induction h with
  | @top p htop => exact ⟨0, .top (by rw [parent?_cut, htop, ite_self])⟩
  | @under p q n hq _ ih =>
    obtain ⟨m, hm⟩ := ih
    by_cases hp : p = t
    · exact ⟨0, .top (by rw [parent?_cut, if_pos hp])⟩
    · exact ⟨m + 1, .under (by rw [parent?_cut, if_neg hp, hq]) hm⟩

theorem Depth.mem_above (h : (ts.cut u).Depth p n) (hs : ts.Sub p u) : u ∈ p :: ts.above n p := by
  induction h with
  | @top p htop =>
    by_cases hp : p = u
    · exact hp ▸ .head _
    · rw [parent?_cut, if_neg hp] at htop
      exact absurd ((sub_iff_of_top htop).1 hs) hp
  | @under p q n hq _ ih =>
    have hp : p ≠ u := by
      rintro rfl
      rw [parent?_cut, if_pos rfl] at hq
      cases hq
    rw [parent?_cut, if_neg hp] at hq
    rw [above_succ hq]
    exact .tail _ (ih ((sub_iff_of_parent hq hp).1 hs))

theorem mem_above_iff :
    u ∈ ts.above ts.height t ↔ Relation.TransGen (fun t u => ts.parent? t = some u) t u := by
  refine ⟨transGen_of_mem_above, fun h => ?_⟩
  obtain ⟨p, hp, hs⟩ := Relation.TransGen.head'_iff.1 h
  obtain ⟨n, hn⟩ := Sub.exists_depth_cut hs
  have hle : n ≤ ts.entries.size := by simpa using hn.le_size
  refine above_subset (Nat.succ_le_succ hle) ?_
  rw [above_succ hp]
  exact hn.mem_above hs

theorem leadsCycle_iff : ts.LeadsCycle t ↔ t ∈ ts.above ts.height t ∧ ∀ u ∈ ts.above ts.height t,
    t ≤ u := by
  refine ⟨fun h => ⟨mem_above_iff.2 h.onCycle, fun u hu => ?_⟩, fun ⟨hc, hfirst⟩ =>
    ⟨mem_above_iff.1 hc, fun u hu => ?_⟩⟩
  · exact h.first u (mem_above_iff.1 hu).to_reflTransGen
  · rcases Relation.reflTransGen_iff_eq_or_transGen.1 hu with rfl | hgen
    · exact Nat.le_refl _
    · exact hfirst u (mem_above_iff.2 hgen)

instance : DecidablePred ts.LeadsCycle := fun _ => decidable_of_iff _ leadsCycle_iff.symm

theorem acyclic_iff : ts.Acyclic ↔ ∀ t < ts.entries.size, t ∉ ts.above ts.height t := by
  refine ⟨fun h t _ ht => h t (mem_above_iff.1 ht), fun h t hc => ?_⟩
  obtain ⟨p, hp, -⟩ := Relation.TransGen.head'_iff.1 hc
  exact h t (lt_size_of_parent hp) (mem_above_iff.2 hc)

instance : Decidable ts.Acyclic := decidable_of_iff _ acyclic_iff.symm

/-! ## Cycles that are broken -/

/-- The leaders of cycles that have a number below `n` have been put under `top`. -/
structure Mended (top : TypeId) (n : Nat) (ts ts' : Types) : Prop where
  moved : ∀ t < n, ts.LeadsCycle t → ts'.parent? t = some top
  kept : ∀ t, (t < n → ¬ ts.LeadsCycle t) → ts'.parent? t = ts.parent? t

theorem Mended.not_leads (h : Mended top n ts ts') (htop : ts.parent? top = none)
    (hc : ts'.OnCycle t) (hs : ts'.Sub t u) (hu : u < n) : ¬ ts.LeadsCycle u := by
  intro hleads
  have htop' : ts'.parent? top = none := by
    rw [h.kept top fun _ hl => not_onCycle_of_top htop hl.onCycle, htop]
  exact not_onCycle_of_top htop' (hc.of_sub (hs.tail (h.moved u hu hleads)))

theorem Mended.transGen_of_kept (h : Mended top n ts ts')
    (hkept : ∀ v, ts.Sub t v → v < n → ¬ ts.LeadsCycle v)
    (hs : Relation.TransGen (fun t u => ts.parent? t = some u) t u) :
    Relation.TransGen (fun t u => ts'.parent? t = some u) t u := by
  induction hs with
  | single hp => exact .single ((h.kept t (hkept t .refl)).trans hp)
  | @tail v w hv hw ih => exact ih.tail ((h.kept v (hkept v hv.to_reflTransGen)).trans hw)

theorem Mended.onCycle_iff (h : Mended top n ts ts') (htop : ts.parent? top = none) :
    ts'.OnCycle t ↔ ts.OnCycle t ∧ ∀ u, ts.Sub t u → ts.LeadsCycle u → n ≤ u := by
  constructor
  · intro hc
    have hparent {v : TypeId} (hv : ts'.Sub t v) : ts'.parent? v = ts.parent? v :=
      h.kept v (h.not_leads htop hc hv)
    refine ⟨?_, fun u hu hleads => Nat.le_of_not_lt fun hlt => ?_⟩
    · have hgen {v : TypeId} (hv : Relation.TransGen (fun t u => ts'.parent? t = some u) t v) :
          Relation.TransGen (fun t u => ts.parent? t = some u) t v := by
        induction hv with
        | single hp => exact .single ((hparent .refl).symm.trans hp)
        | @tail v w hv hw ih => exact ih.tail ((hparent hv.to_reflTransGen).symm.trans hw)
      exact hgen hc
    · have hsub {v : TypeId} (hv : ts.Sub t v) : ts'.Sub t v := by
        induction hv with
        | refl => exact .refl
        | tail _ hw ih => exact ih.tail ((hparent ih).trans hw)
      exact h.not_leads htop hc (hsub hu) hlt hleads
  · exact fun ⟨hc, hleaders⟩ =>
      h.transGen_of_kept (fun v hv hlt hleads => Nat.not_le_of_lt hlt (hleaders v hv hleads)) hc

/-- When the leaders below `n` have been moved, the type of number `n` stands above itself only if
it is a leader. -/
theorem Mended.leads_iff (h : Mended top n ts ts') (htop : ts.parent? top = none) :
    ts'.OnCycle n ↔ ts.LeadsCycle n := by
  rw [h.onCycle_iff htop]
  constructor
  · rintro ⟨hc, hleaders⟩
    obtain ⟨u, hu, hleads⟩ := hc.exists_leader
    exact ⟨hc, fun v hv => Nat.le_trans (hleaders u hu hleads)
      (hleads.first v ((hc.sub_symm hu).trans hv))⟩
  · exact fun hleads => ⟨hleads.onCycle, fun u hu _ => hleads.first u hu⟩

theorem mended_start (h : ∀ t < n, ¬ ts.OnCycle t) : Mended top n ts ts :=
  ⟨fun t ht hleads => absurd hleads.onCycle (h t ht), fun _ _ => rfl⟩

theorem Mended.stay (h : Mended top n ts ts') (hn : ¬ ts.LeadsCycle n) :
    Mended top (n + 1) ts ts' where
  moved t ht hleads := by
    rcases Nat.lt_succ_iff_lt_or_eq.1 ht with hlt | rfl
    · exact h.moved t hlt hleads
    · exact absurd hleads hn
  kept t ht := h.kept t fun hlt => ht (Nat.lt_succ_of_lt hlt)

theorem Mended.move (h : Mended top n ts ts') (hn : ts.LeadsCycle n)
    (hsize : n < ts'.entries.size) :
    Mended top (n + 1) ts (ts'.modify n fun e => { e with parent := some top }) where
  moved t ht hleads := by
    rw [parent?_modify hsize]
    rcases Nat.lt_succ_iff_lt_or_eq.1 ht with hlt | rfl
    · rw [if_neg (Nat.ne_of_lt hlt), h.moved t hlt hleads]
    · rw [if_pos rfl]
  kept t ht := by
    have hne : t ≠ n := fun heq => ht (heq ▸ Nat.lt_succ_self n) (heq ▸ hn)
    rw [parent?_modify hsize, if_neg hne, h.kept t fun hlt => ht (Nat.lt_succ_of_lt hlt)]

/-- What is above each type when all leaders have been moved. -/
theorem Mended.parent?_eq (h : Mended top n ts ts') (hn : ts.entries.size ≤ n) (t : TypeId) :
    ts'.parent? t = if ts.LeadsCycle t then some top else ts.parent? t := by
  split
  · next hleads => exact h.moved t (Nat.lt_of_lt_of_le hleads.lt_size hn) hleads
  · next hleads => exact h.kept t fun _ => hleads

theorem Mended.acyclic (h : Mended top n ts ts') (htop : ts.parent? top = none)
    (hn : ts.entries.size ≤ n) : ts'.Acyclic := by
  intro t hc
  obtain ⟨hcycle, hleaders⟩ := (h.onCycle_iff htop).1 hc
  obtain ⟨u, hu, hleads⟩ := hcycle.exists_leader
  exact absurd (Nat.le_trans hn (hleaders u hu hleads)) (Nat.not_le_of_lt hleads.lt_size)

end AutoCool.Types
