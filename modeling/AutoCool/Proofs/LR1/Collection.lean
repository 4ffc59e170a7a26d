import Mathlib.Data.Set.Basic
import AutoCool.Proofs.Grammar.Derivation

/-!
# The collection of the item sets of a grammar

Items as the textbook has them: a production, a place in its right side, and one thing ahead.
`Dotted.closureOf` and `Dotted.goto` are the two operations on sets of items, and `Dotted.Collected`
are the sets that are reached from the closure of given items.

What is ahead of the productions that an item brings in is left open: `look w a b` says that `b` can
come ahead of them when the rest `w` and then `a` come after. For LR(1) items it is `Grammar.Ahead`.
Items with and without something ahead are collected side by side by the relation `Option.Rel`;
those with something ahead are not affected by the others (`Dotted.seen_goto`).
-/

namespace AutoCool

/-- After a phrase and then a terminal `a` comes a terminal `b`: it is in the FIRST set of the
two. -/
def Grammar.Ahead {ρ : Type} (g : Grammar ρ) (w : List Symbol) (a b : Symbol) : Prop :=
  g.Begins (w ++ [a]) b

namespace LR1

/-- A production with a place in its right side, and one thing ahead of it. -/
@[ext]
structure Dotted (ρ α : Type) where
  production : Production ρ
  dot : Nat
  ahead : α

namespace Dotted

variable {ρ α : Type} {x : Dotted ρ α}

/-- The symbol stands at the place of the item. -/
def Expects (g : Grammar ρ) (x : Dotted ρ α) (s : Symbol) : Prop :=
  ∃ w, g.Rewrites x.production w ∧ w[x.dot]? = some s

/-- The items that the given ones bring in, with what can come ahead of them. -/
inductive Closure (g : Grammar ρ) (look : List Symbol → α → α → Prop) (I : Set (Dotted ρ α)) :
    Dotted ρ α → Prop
  | given {x : Dotted ρ α} : x ∈ I → Closure g look I x
  | expand {x : Dotted ρ α} {w q b} : Closure g look I x → g.Rewrites x.production w →
      w[x.dot]? = some q.head →
    q ∈ g.productions → look (w.drop (x.dot + 1)) x.ahead b → Closure g look I ⟨q, 0, b⟩

def closureOf (g : Grammar ρ) (look : List Symbol → α → α → Prop) (I : Set (Dotted ρ α)) :
    Set (Dotted ρ α) :=
  {x | Closure g look I x}

/-- The items that expect a symbol, moved over it. -/
def advance (g : Grammar ρ) (I : Set (Dotted ρ α)) (s : Symbol) : Set (Dotted ρ α) :=
  {y | ∃ x ∈ I, x.Expects g s ∧ y = { x with dot := x.dot + 1 }}

def goto (g : Grammar ρ) (look : List Symbol → α → α → Prop) (I : Set (Dotted ρ α)) (s : Symbol) :
    Set (Dotted ρ α) :=
  closureOf g look (advance g I s)

/-- The item sets that are reached from the closure of given items. -/
inductive Collected (g : Grammar ρ) (look : List Symbol → α → α → Prop) (I₀ : Set (Dotted ρ α)) :
    Set (Dotted ρ α) → Prop
  | start : Collected g look I₀ (closureOf g look I₀)
  | move {I} (s : Symbol) : Collected g look I₀ I → Collected g look I₀ (goto g look I s)

variable {g : Grammar ρ} {look : List Symbol → α → α → Prop} {I : Set (Dotted ρ α)} {s : Symbol}

theorem Closure.nonempty (h : Closure g look I x) : I.Nonempty := by
  induction h with
  | given h => exact ⟨_, h⟩
  | expand _ _ _ _ _ ih => exact ih

theorem goto_nonempty : (goto g look I s).Nonempty ↔ ∃ x ∈ I, x.Expects g s := by
  constructor
  · rintro ⟨y, hy⟩
    obtain ⟨-, x, hx, hs, -⟩ := hy.nonempty
    exact ⟨x, hx, hs⟩
  · rintro ⟨x, hx, hs⟩
    exact ⟨_, .given ⟨x, hx, hs, rfl⟩⟩

/-! ### Items with something ahead among those with and without -/

/-- The items of a set that have something ahead. -/
def seen (I : Set (Dotted ρ (Option α))) : Set (Dotted ρ α) :=
  {x | ⟨x.production, x.dot, some x.ahead⟩ ∈ I}

variable {J : Set (Dotted ρ (Option α))}

theorem seen_closureOf (g : Grammar ρ) (look : List Symbol → α → α → Prop)
    (J : Set (Dotted ρ (Option α))) : seen (closureOf g (fun w => Option.Rel (look w)) J) =
      closureOf g look (seen J) := by
  ext x
  constructor
  · intro hx
    change Closure g _ J _ at hx
    generalize hy : (⟨x.production, x.dot, some x.ahead⟩ : Dotted ρ (Option α)) = y at hx
    induction hx generalizing x with
    | given h =>
      subst hy
      exact .given h
    | @expand y w q b _ hw hs hq hlook ih =>
      obtain ⟨y, d, o⟩ := y
      obtain ⟨p, e, a⟩ := x
      simp only [mk.injEq] at hy
      obtain ⟨rfl, rfl, rfl⟩ := hy
      -- what is ahead of an item that is brought in was ahead of something
      cases hlook with
      | some hlook => exact .expand (x := ⟨_, _, _⟩) (ih ⟨_, _, _⟩ rfl) hw hs hq hlook
  · intro hx
    induction hx with
    | given h => exact .given h
    | expand _ hw hs hq hlook ih => exact .expand ih hw hs hq (.some hlook)

theorem seen_advance (g : Grammar ρ) (J : Set (Dotted ρ (Option α))) (s : Symbol) :
    seen (advance g J s) = advance g (seen J) s := by
  ext ⟨p, d, a⟩
  constructor
  · rintro ⟨⟨q, e, o⟩, hy, hs, heq⟩
    simp only [mk.injEq] at heq
    obtain ⟨rfl, rfl, rfl⟩ := heq
    exact ⟨⟨p, e, a⟩, hy, hs, rfl⟩
  · rintro ⟨⟨q, e, b⟩, hy, hs, heq⟩
    simp only [mk.injEq] at heq
    obtain ⟨rfl, rfl, rfl⟩ := heq
    exact ⟨⟨p, e, some a⟩, hy, hs, rfl⟩

theorem seen_goto (g : Grammar ρ) (look : List Symbol → α → α → Prop)
    (J : Set (Dotted ρ (Option α))) (s : Symbol) :
    seen (goto g (fun w => Option.Rel (look w)) J s) = goto g look (seen J) s := by
  rw [goto, seen_closureOf, seen_advance, goto]

end Dotted

end LR1

end AutoCool
