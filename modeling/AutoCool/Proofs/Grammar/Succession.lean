import AutoCool.Proofs.Grammar.Rewriting

/-!
# What comes after a symbol

In a sentential form a symbol can stand before a terminal, or at the end. `Grammar.ComesAfter` says
what comes after a symbol by the right sides in which it stands: what the rest of a right side
begins with, or, when the rest can be empty, what comes after the head. The end mark comes after the
start symbol. `comesAfter_of_derives`, `ComesAfter.adjacent` and `ComesAfter.last` tie it to
derivations.
-/

namespace AutoCool

theorem split_append {α : Type} {a b u v : List α} {s : α} (h : a ++ b = u ++ s :: v) :
    (∃ a', a = u ++ s :: a' ∧ v = a' ++ b) ∨ ∃ b', b = b' ++ s :: v ∧ u = a ++ b' := by
  rcases List.append_eq_append_iff.mp h with ⟨b', rfl, rfl⟩ | ⟨c, rfl, hc⟩
  · exact .inr ⟨b', rfl, rfl⟩
  · cases c with
    | nil => exact .inr ⟨[], hc.symm, by simp⟩
    | cons s' c =>
      obtain ⟨rfl, rfl⟩ := List.cons_eq_cons.mp hc
      exact .inl ⟨c, rfl, rfl⟩

namespace Grammar

variable {ρ : Type} {g : Grammar ρ} {start : Symbol}

/-- What can come after a symbol, with the end mark after the start symbol. -/
inductive ComesAfter (g : Grammar ρ) (start : Symbol) : Symbol → Symbol → Prop
  | start : ComesAfter g start start g.endMark
  | after {p u s v x} : g.Rewrites p (u ++ s :: v) → g.Begins v x → ComesAfter g start s x
  | pass {p u s v x} : g.Rewrites p (u ++ s :: v) → g.Nullable v → ComesAfter g start p.head x →
      ComesAfter g start s x

theorem Begins.of_rewritten (h : g.Rewritten w w') (hb : g.Begins w' x) : g.Begins w x := by
  obtain ⟨hx, v, hv⟩ := begins_iff.mp hb
  exact begins_iff.mpr ⟨hx, v, .head h hv⟩

theorem Nullable.of_rewritten (h : g.Rewritten w w') (hn : g.Nullable w') : g.Nullable w :=
  nullable_iff.mpr (.head h (nullable_iff.mp hn))

/-- A sentential form keeps to the right sides: after a symbol of it comes what the rest begins
with, and when the rest can be empty what comes after the symbol it was derived from. -/
theorem comesAfter_of_derives {X : Symbol} (h : g.Derives [X] w) (hw : w = u ++ s :: v)
    (hx : g.Begins v x ∨ g.Nullable v ∧ g.ComesAfter start X x) : g.ComesAfter start s x := by
  induction h generalizing u s v with
  | refl =>
    obtain ⟨rfl, rfl, rfl⟩ : u = [] ∧ X = s ∧ v = [] := by
      cases u with
      | nil => simpa [eq_comm] using hw
      | cons => simp at hw
    rcases hx with hx | hx
    · cases hx
    · exact hx.2
  | tail _ hstep ih =>
    obtain @⟨a, b, p, body, hp⟩ := hstep
    rw [List.append_assoc] at hw
    rcases split_append hw with ⟨a', rfl, rfl⟩ | ⟨c, hc, rfl⟩
    · -- the symbol stands before what was rewritten
      have hback : g.Rewritten (a' ++ p.head :: b) (a' ++ (body ++ b)) := by
        simpa using Rewritten.apply a' b hp
      exact ih (u := u) (by simp) (hx.imp (.of_rewritten hback) (.imp_left (.of_rewritten hback)))
    · rcases split_append hc with ⟨r, rfl, rfl⟩ | ⟨b', rfl, rfl⟩
      · -- it comes from the right side
        rw [begins_append_iff] at hx
        rcases hx with (hr | ⟨hr, hb⟩) | ⟨hrb, hX⟩
        · exact .after hp hr
        · exact .pass hp hr (ih rfl (.inl hb))
        · obtain ⟨hr, hb⟩ := hrb.of_append
          exact .pass hp hr (ih rfl (.inr ⟨hb, hX⟩))
      · -- it stands after what was rewritten
        exact ih (u := a ++ p.head :: b') (by simp) hx

theorem Derives.pass (h : g.Derives y (a ++ p.head :: b)) (hp : g.Rewrites p (u ++ s :: v))
    (hv : g.Nullable v) : g.Derives y (a ++ u ++ s :: b) := by
  have hrest : g.Derives (u ++ s :: v ++ b) (u ++ s :: b) := by
    simpa using (Derives.refl (u ++ [s])).append (hv.derives.append (.refl b))
  simpa using h.trans ((Derives.refl a).append ((Derives.of_rewrites hp b).trans hrest))

theorem ComesAfter.adjacent (h : g.ComesAfter start s x) (hx : x ≠ g.endMark) :
    ∃ p ∈ g.productions, ∃ u v, g.Derives [p.head] (u ++ s :: x :: v) := by
  induction h with
  | start => exact absurd rfl hx
  | @after p u s v x hp hbegins =>
    obtain ⟨-, v', hv⟩ := begins_iff.mp hbegins
    refine ⟨p, hp.1, u, v', (Derives.of_rewrites hp []).trans ?_⟩
    simpa using (Derives.refl (u ++ [s])).append hv
  | pass hp hnull _ ih =>
    obtain ⟨q, hq, a, b, hderives⟩ := ih hx
    exact ⟨q, hq, _, b, hderives.pass hp hnull⟩

theorem ComesAfter.last (h : g.ComesAfter start s g.endMark)
    (hend : ∀ {p u s v}, g.Rewrites p (u ++ s :: v) → ¬ g.Begins v g.endMark) :
    ∃ u, g.Derives [start] (u ++ [s]) := by
  generalize hx : g.endMark = x at h
  induction h with
  | start => exact ⟨[], .refl _⟩
  | after hp hbegins => exact absurd (hx ▸ hbegins) (hend hp)
  | pass hp hnull _ ih =>
    obtain ⟨a, hderives⟩ := ih hx
    exact ⟨_, hderives.pass hp hnull⟩

end Grammar

end AutoCool
