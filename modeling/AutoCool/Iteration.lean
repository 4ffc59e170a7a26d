/-!
# Steps until there is a result

`untilDone f a` takes one step of `f` after the other, from `a` on, until a step gives a result. The
number of steps has no bound. When no step gives a result the value is `none`, and to compute it
takes for ever. The loop carries the reason why its result is one that the first state leads to
(`Found`), so `none` is the only value that it can have when there is no such result
(`untilDone_eq_some`).
-/

namespace AutoCool.Iteration

variable {α β : Type}

inductive Ends (f : α → α ⊕ β) : α → β → Prop
  | done {a b} : f a = .inr b → Ends f a b
  | step {a a' b} : f a = .inl a' → Ends f a' b → Ends f a b

/-- A state that is met on the way: what it leads to, the first state leads to. -/
structure Met (f : α → α ⊕ β) (first : α) where
  state : α
  ends : ∀ {b}, Ends f state b → Ends f first b

structure Found (f : α → α ⊕ β) (first : α) where
  result : Option β
  ends : ∀ {b}, result = some b → Ends f first b

variable {f : α → α ⊕ β} {first a : α} {b : β}

instance : Nonempty (Found f first) := ⟨{ result := none, ends := fun h => nomatch h }⟩

def Met.step (m : Met f first) : Met f first ⊕ Found f first :=
  match h : f m.state with
  | .inl a => .inl { state := a, ends := fun hb => m.ends (.step h hb) }
  | .inr b => .inr { result := some b, ends := fun hb => m.ends (.done (Option.some.inj hb ▸ h)) }

def Met.find (m : Met f first) : Found f first :=
  Id.run (repeatM (fun m => pure m.step) m)

def untilDone (f : α → α ⊕ β) (first : α) : Option β :=
  (Met.find { state := first, ends := id : Met f first }).result

theorem Met.find_eq (m : Met f first) :
    m.find = match m.step with
      | .inl m' => m'.find
      | .inr r => r := by
  unfold find
  -- a loop without a result has an equation too, because its results are not empty
  rw [repeatM_eq_of_monadTail]
  cases h : m.step with
  | inl m' => simp only [repeatM.body, pure_bind, h]
  | inr r => simp only [repeatM.body, pure_bind, h]; rfl

theorem Met.step_eq_inl (m : Met f first) (h : f m.state = .inl a) :
    ∃ m', m.step = .inl m' ∧ m'.state = a := by
  unfold step
  split
  next a' h' => cases h.symm.trans h'; exact ⟨_, rfl, rfl⟩
  next b h' => cases h.symm.trans h'

theorem Met.step_eq_inr (m : Met f first) (h : f m.state = .inr b) :
    ∃ r, m.step = .inr r ∧ r.result = some b := by
  unfold step
  split
  next a h' => cases h.symm.trans h'
  next b' h' => cases h.symm.trans h'; exact ⟨_, rfl, rfl⟩

theorem Ends.result_find (h : Ends f a b) (m : Met f first) (hm : m.state = a) :
    m.find.result = some b := by
  induction h generalizing m with
  | done h =>
    obtain ⟨r, hr, hb⟩ := m.step_eq_inr (hm ▸ h)
    rw [m.find_eq, hr]
    exact hb
  | step h _ ih =>
    obtain ⟨m', hm', hstate⟩ := m.step_eq_inl (hm ▸ h)
    rw [m.find_eq, hm']
    exact ih m' hstate

theorem untilDone_eq_some : untilDone f a = some b ↔ Ends f a b :=
  ⟨fun h => Found.ends _ h, fun h => h.result_find _ rfl⟩

theorem untilDone_eq (f : α → α ⊕ β) (a : α) :
    untilDone f a = match f a with
      | .inl a' => untilDone f a'
      | .inr b => some b := by
  refine Option.ext fun b => ?_
  rw [untilDone_eq_some]
  cases h : f a with
  | inl a' =>
    rw [untilDone_eq_some]
    refine ⟨fun he => ?_, .step h⟩
    cases he with
    | done h' => cases h.symm.trans h'
    | step h' he => cases h.symm.trans h'; exact he
  | inr b' =>
    rw [Option.some.injEq]
    refine ⟨fun he => ?_, fun he => .done (he ▸ h)⟩
    cases he with
    | done h' => cases h.symm.trans h'; rfl
    | step h' => cases h.symm.trans h'

end AutoCool.Iteration
