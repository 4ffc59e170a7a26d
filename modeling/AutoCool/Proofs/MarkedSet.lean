import Mathlib.Data.List.Nodup
import Mathlib.Data.List.Perm.Subperm
import AutoCool.MarkedSet

/-!
# Growing sets

Joining a set to another adds what is missing and nothing else. The size tells whether something was
missing: when it stays, the set stays.
-/

namespace AutoCool.MarkedSet

variable {α : Type} [DecidableEq α] {s t : MarkedSet α} {v : α}

/-- One set is a part of another, the mark included. -/
structure Sub (s t : MarkedSet α) : Prop where
  items : ∀ v ∈ s.items, v ∈ t.items
  epsilon : s.epsilon = true → t.epsilon = true

@[simp] theorem epsilon_insertAll (s : MarkedSet α) (vs : List α) :
    (s.insertAll vs).epsilon = s.epsilon := by
  unfold insertAll
  induction vs generalizing s with
  | nil => rfl
  | cons v vs ih =>
    rw [List.foldl_cons, ih]
    unfold insert
    split <;> rfl

@[simp] theorem mem_join : v ∈ (s.join t).items ↔ v ∈ s.items ∨ v ∈ t.items :=
  mem_insertAll

@[simp] theorem epsilon_join (s t : MarkedSet α) :
    (s.join t).epsilon = (s.epsilon || t.epsilon) := by
  simp [join, absorb, absorbMark]

theorem nodup_insert (h : s.items.Nodup) : (s.insert v).items.Nodup := by
  unfold insert
  split
  · exact h
  · rename_i hv
    exact List.nodup_append.mpr ⟨h, List.nodup_singleton v, fun a ha b hb =>
      List.mem_singleton.mp hb ▸ fun e => hv (e ▸ ha)⟩

theorem nodup_insertAll (h : s.items.Nodup) : (s.insertAll vs).items.Nodup := by
  unfold insertAll
  induction vs generalizing s with
  | nil => exact h
  | cons v vs ih => exact ih (nodup_insert h)

theorem nodup_join (h : s.items.Nodup) : (s.join t).items.Nodup := nodup_insertAll h

theorem insertAll_eq_or (s : MarkedSet α) (vs : List α) :
    s.insertAll vs = s ∨ s.items.length < (s.insertAll vs).items.length := by
  unfold insertAll
  induction vs generalizing s with
  | nil => exact .inl rfl
  | cons v vs ih =>
    rw [List.foldl_cons]
    by_cases hv : v ∈ s.items
    · have : s.insert v = s := if_pos hv
      rw [this]
      exact ih s
    · have hlen : (s.insert v).items.length = s.items.length + 1 := by simp [insert, hv]
      right
      rcases ih (s.insert v) with h | h
      · rw [h, hlen]; exact Nat.lt_succ_self _
      · exact Nat.lt_trans (hlen ▸ Nat.lt_succ_self _) h

theorem join_eq_or (s t : MarkedSet α) : s.join t = s ∨ s.size < (s.join t).size := by
  have hmark : (s.join t).epsilon = (s.epsilon || t.epsilon) := epsilon_join s t
  rcases insertAll_eq_or s t.items with h | h
  · cases he : (s.epsilon || t.epsilon) == s.epsilon with
    | true =>
      left
      have he' := eq_of_beq he
      simp only [join, absorb, h, absorbMark, he']
    | false =>
      right
      have hs : s.epsilon = false := by cases hs : s.epsilon <;> simp_all
      have ht : t.epsilon = true := by cases ht : t.epsilon <;> simp_all
      simp [join, absorb, h, absorbMark, size, hs, ht]
  · right
    have hle : s.epsilon.toNat ≤ (s.epsilon || t.epsilon).toNat := by
      cases s.epsilon <;> cases t.epsilon <;> simp
    have hlen : (s.join t).items.length = (s.insertAll t.items).items.length := rfl
    simp only [size, hmark, hlen]
    omega

theorem sub_of_join_eq (h : s.join t = s) : t.Sub s where
  items v hv := by rw [← h]; exact mem_join.mpr (.inr hv)
  epsilon he := by rw [← h, epsilon_join, he, Bool.or_true]

omit [DecidableEq α] in
theorem size_le_of_subset {us : List α} (h : s.items.Nodup) (hus : ∀ v ∈ s.items, v ∈ us) :
    s.size ≤ us.length + 1 := by
  have := (List.subperm_of_subset h hus).length_le
  unfold size
  cases s.epsilon <;> simp <;> omega

end AutoCool.MarkedSet
