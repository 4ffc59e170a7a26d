import Mathlib.Logic.Relation
import AutoCool.Proofs.Grammar.Derivation

/-!
# Sentential forms

`Grammar.Derives` rewrites any nonterminal of a sentential form, any number of times. `nullable_iff`
and `begins_iff` tie `Grammar.Nullable` and `Grammar.Begins`, which settle symbol by symbol what a
phrase can begin with, to it.
-/

namespace AutoCool.Grammar

variable {ρ : Type} {g : Grammar ρ}

/-- A production of the grammar is applied to one of the nonterminals of a sentential form. -/
inductive Rewritten (g : Grammar ρ) : List Symbol → List Symbol → Prop
  | apply (u v : List Symbol) {p w} : g.Rewrites p w → Rewritten g (u ++ p.head :: v) (u ++ w ++ v)

/-- Derivations: a sentential form is rewritten any number of times. -/
def Derives (g : Grammar ρ) : List Symbol → List Symbol → Prop := Relation.ReflTransGen g.Rewritten

theorem Rewritten.append_left (u : List Symbol) (h : g.Rewritten v v') :
    g.Rewritten (u ++ v) (u ++ v') := by
  obtain ⟨x, y, hp⟩ := h
  simpa using Rewritten.apply (u ++ x) y hp

theorem Rewritten.append_right (v : List Symbol) (h : g.Rewritten u u') :
    g.Rewritten (u ++ v) (u' ++ v) := by
  obtain ⟨x, y, hp⟩ := h
  simpa using Rewritten.apply x (y ++ v) hp

namespace Derives

theorem refl (u : List Symbol) : g.Derives u u := Relation.ReflTransGen.refl

theorem of_rewrites (h : g.Rewrites p w) (v : List Symbol) : g.Derives (p.head :: v) (w ++ v) :=
  .single (by simpa using Rewritten.apply [] v h)

theorem trans (h : g.Derives u v) (h' : g.Derives v w) : g.Derives u w :=
  Relation.ReflTransGen.trans h h'

theorem append (hu : g.Derives u u') (hv : g.Derives v v') : g.Derives (u ++ v) (u' ++ v') :=
  (hu.lift (· ++ v) fun _ _ h => h.append_right v).trans
    (hv.lift (u' ++ ·) fun _ _ h => h.append_left u')

end Derives

/-! ### What a phrase can begin with -/

theorem Nullable.of_append (h : g.Nullable (u ++ v)) : g.Nullable u ∧ g.Nullable v := by
  induction u with
  | nil => exact ⟨.nil, h⟩
  | cons s u ih =>
    rw [List.cons_append] at h
    generalize hw : s :: (u ++ v) = w at h
    cases h with
    | nil => cases hw
    | cons hp hb h =>
      cases hw
      obtain ⟨hu, hv⟩ := ih h
      exact ⟨.cons hp hb hu, hv⟩

theorem Nullable.derives (h : g.Nullable w) : g.Derives w [] := by
  induction h with
  | nil => exact .refl []
  | cons hp _ _ ihb ihw => exact (Derives.of_rewrites hp _).trans (ihb.append ihw)

/-- A phrase derives the empty word when its symbols do. -/
theorem nullable_iff : g.Nullable w ↔ g.Derives w [] := by
  refine ⟨Nullable.derives, fun h => ?_⟩
  induction h using Relation.ReflTransGen.head_induction_on with
  | refl => exact .nil
  | head hstep _ ih =>
    obtain ⟨u, v, hp⟩ := hstep
    obtain ⟨huw, hv⟩ := ih.of_append
    obtain ⟨hu, hw⟩ := huw.of_append
    exact hu.append (.cons hp hw hv)

/-- A phrase begins with a terminal when it derives a sentential form that does. -/
theorem begins_iff : g.Begins w t ↔ t.isTerminal = true ∧ ∃ v, g.Derives w (t :: v) := by
  constructor
  · intro h
    refine ⟨h.isTerminal, ?_⟩
    induction h with
    | @terminal s w _ => exact ⟨w, .refl _⟩
    | @enter p b t w hp _ ih =>
      obtain ⟨v, hv⟩ := ih
      exact ⟨v ++ w, (Derives.of_rewrites hp w).trans (hv.append (.refl w))⟩
    | @skip p b w t hp hb _ ih =>
      obtain ⟨v, hv⟩ := ih
      exact ⟨v, (Derives.of_rewrites hp w).trans (hb.derives.append hv)⟩
  · rintro ⟨ht, v, h⟩
    induction h using Relation.ReflTransGen.head_induction_on with
    | refl => exact .terminal ht
    | head hstep _ ih =>
      obtain ⟨u, v, hp⟩ := hstep
      -- the terminal comes from what stands before, from the right side, or from what stands after
      rw [List.append_assoc, begins_append_iff, begins_append_iff] at ih
      rcases ih with hu | ⟨hu, hw | ⟨hw, hv⟩⟩
      · exact hu.append_left
      · exact hu.begins_append (.enter hp hw)
      · exact hu.begins_append (.skip hp hw hv)

end AutoCool.Grammar
