import AutoCool.LR1.Parser
import AutoCool.Proofs.Grammar.Derivation

/-!
# Valid items

`Valid g rules γ i d a` says that the item at place `d` of production number `i` with lookahead `a`
is valid after the symbols `γ`, which are listed the last one first, as on a stack. The three rules
are those of the textbook: the first item, moving an item over a symbol, and bringing in the
productions of an expected nonterminal. Lookaheads are single symbols.

`Parser.Path` relates a stack of states to the symbols on the way to them. A parser is
`Parser.Canonical` when, along every path, its tables ask for what the valid items ask for: this is
all that the theory of its runs uses of a table.
-/

namespace AutoCool.LR1

variable {ρ : Type} {i j d : Nat} {r r' : Rule ρ}

/-- The rules number the productions of a grammar whose start symbol has the first one alone, which
leads to `start`. -/
structure Numbered (g : Grammar ρ) (start : Symbol) (rules : Array (Rule ρ)) : Prop where
  rewrites : ∀ {i : Nat} {r : Rule ρ}, rules[i]? = some r → g.Rewrites r.production r.symbols
  rule_of_mem : ∀ {p}, p ∈ g.productions → ∃ (i : Nat) (r : Rule ρ), rules[i]? = some r ∧
    r.production = p
  first : ∃ r : Rule ρ, rules[0]? = some r ∧ r.symbols = [start]
  headsNonterminal : g.HeadsNonterminal
  endMark_isTerminal : g.endMark.isTerminal = true
  /-- The first production is entered only at the beginning. -/
  head_first : ∀ {i : Nat} {r r₀ : Rule ρ}, rules[i]? = some r → rules[0]? = some r₀ →
    r₀.production.head ∉ r.symbols
  first_of_head : ∀ {i : Nat} {r r₀ : Rule ρ}, rules[i]? = some r → rules[0]? = some r₀ →
    r.production.head = r₀.production.head → i = 0
  endMark_notMem : ∀ {i : Nat} {r : Rule ρ}, rules[i]? = some r → g.endMark ∉ r.symbols

/-- The items that are valid after some symbols, the last symbol first. -/
inductive Valid (g : Grammar ρ) (rules : Array (Rule ρ)) : List Symbol → Nat → Nat → Symbol → Prop
  | start : Valid g rules [] 0 0 g.endMark
  | advance {γ i d a s} {r : Rule ρ} : Valid g rules γ i d a → rules[i]? = some r →
      r.next? d = some s →
    Valid g rules (s :: γ) i (d + 1) a
  | expand {γ i d a j b} {r r' : Rule ρ} : Valid g rules γ i d a → rules[i]? = some r →
    r.next? d = some r'.production.head → rules[j]? = some r' →
    g.Begins (r.symbols.drop (d + 1) ++ [a]) b → Valid g rules γ j 0 b

theorem Rule.drop_of_next? (h : r.next? d = some s) :
    r.symbols.drop d = s :: r.symbols.drop (d + 1) := by
  obtain ⟨hd, hs⟩ := List.getElem?_eq_some_iff.mp h
  rw [List.drop_eq_getElem_cons hd, hs]

theorem Rule.next?_of_drop (h : r.symbols.drop d = s :: w) :
    r.next? d = some s ∧ r.symbols.drop (d + 1) = w := by
  have hs : r.next? d = some s := by
    rw [Rule.next?, ← List.head?_drop, h, List.head?_cons]
  rw [Rule.drop_of_next? hs, List.cons.injEq] at h
  exact ⟨hs, h.2⟩

theorem Numbered.nullable_or_begins (hr : Numbered g start rules) (hlive : g.Live)
    (hi : rules[i]? = some r) (hs : r.next? d = some s) (hnt : s.isNonterminal = true) :
    g.Nullable (r.symbols.drop (d + 1)) ∨ ∃ b, g.Begins (r.symbols.drop (d + 1)) b := by
  have hword : r.symbols = r.symbols.take d ++ s :: r.symbols.drop (d + 1) := by
    rw [← Rule.drop_of_next? hs, List.take_append_drop]
  have hrew := hr.rewrites hi
  rw [hword] at hrew
  exact Grammar.nullable_or_begins (hlive _ _ _ _ hrew hnt)

namespace Valid

variable {g : Grammar ρ} {rules : Array (Rule ρ)} {start : Symbol}

theorem rule_exists (hr : Numbered g start rules) (h : Valid g rules γ i d a) :
    ∃ r : Rule ρ, rules[i]? = some r := by
  cases h with
  | start => exact hr.first.imp fun _ h => h.1
  | advance _ hi _ => exact ⟨_, hi⟩
  | expand _ _ _ hj _ => exact ⟨_, hj⟩

theorem isTerminal (hr : Numbered g start rules) (h : Valid g rules γ i d a) :
    a.isTerminal = true := by
  induction h with
  | start => exact hr.endMark_isTerminal
  | advance _ _ _ ih => exact ih
  | expand _ _ _ _ hb => exact hb.isTerminal

theorem split (h : Valid g rules γ i d a) (hi : rules[i]? = some r) :
    ∃ γ', γ = (r.symbols.take d).reverse ++ γ' ∧ d ≤ r.symbols.length ∧ Valid g rules γ' i 0 a := by
  induction h with
  | start => exact ⟨[], by simp, by simp, .start⟩
  | @advance γ i d a s r' _ hi' hs ih =>
    cases hi.symm.trans hi'
    obtain ⟨γ', rfl, -, h'⟩ := ih hi
    obtain ⟨hd, hget⟩ := List.getElem?_eq_some_iff.mp hs
    refine ⟨γ', ?_, hd, h'⟩
    rw [List.take_succ_eq_append_getElem hd, hget]
    simp
  | expand h1 h2 h3 h4 h5 => exact ⟨_, by simp, by simp, .expand h1 h2 h3 h4 h5⟩

theorem advance_append (h : Valid g rules γ i d a) (hi : rules[i]? = some r)
    (hd : r.symbols.drop d = v ++ w) : Valid g rules (v.reverse ++ γ) i (d + v.length) a := by
  induction v generalizing γ d with
  | nil => exact h
  | cons s v ih =>
    obtain ⟨hs, hd'⟩ := Rule.next?_of_drop hd
    simpa [Nat.add_assoc, Nat.add_comm 1] using ih (.advance h hi hs) hd'

/-- A production begins because it is the first one or because its head is expected. -/
theorem parent (h : Valid g rules γ j 0 b) :
    (j = 0 ∧ γ = [] ∧ b = g.endMark) ∨
      ∃ (i d : Nat) (a : Symbol) (r r' : Rule ρ),
        Valid g rules γ i d a ∧ rules[i]? = some r ∧ rules[j]? = some r' ∧
        r.next? d = some r'.production.head ∧ g.Begins (r.symbols.drop (d + 1) ++ [a]) b := by
  cases h with
  | start => exact .inl ⟨rfl, rfl, rfl⟩
  | expand h hi hs hj hb => exact .inr ⟨_, _, _, _, _, h, hi, hj, hs, hb⟩

theorem of_first (hr : Numbered g start rules) (h : Valid g rules γ 0 0 a) :
    γ = [] ∧ a = g.endMark := by
  rcases h.parent with ⟨-, h⟩ | ⟨i, d, a, r, r', -, hi, hj, hs, -⟩
  · exact h
  · exact absurd (List.mem_of_getElem? hs) (hr.head_first hi hj)

theorem of_first_complete (hr : Numbered g start rules) (h : Valid g rules γ 0 1 a) :
    γ = [start] ∧ a = g.endMark := by
  obtain ⟨r, hi, hsym⟩ := hr.first
  obtain ⟨γ', rfl, -, h'⟩ := h.split hi
  obtain ⟨rfl, rfl⟩ := h'.of_first hr
  simp [hsym]

end Valid

namespace Parser

/-- Where the automaton goes first from a state on the name of a symbol. -/
def move? (p : Parser ρ) (i : Nat) (s : Symbol) : Option Nat :=
  (p.automaton.states[i]?).bind fun q => (q.get? s.name).bind (·.head?)

/-- The symbol stands in a right side. -/
def Occurs (p : Parser ρ) (s : Symbol) : Prop :=
  ∃ (i : Nat) (r : Rule ρ), p.rules[i]? = some r ∧ s ∈ r.symbols

theorem occurs_of_next? {p : Parser ρ} (hi : p.rules[i]? = some r) (hs : r.next? d = some s) :
    p.Occurs s :=
  ⟨i, r, hi, List.mem_of_getElem? hs⟩

/-- A stack of states and the symbols on the way to them, the last one first. -/
inductive Path (p : Parser ρ) : List Nat → List Symbol → Prop
  | start : Path p [0] []
  | move {i st γ s j} : Path p (i :: st) γ → p.Occurs s → p.move? i s = some j →
    Path p (j :: i :: st) (s :: γ)

namespace Path

variable {p : Parser ρ}

theorem length_eq (h : p.Path st γ) : st.length = γ.length + 1 := by
  induction h with
  | start => rfl
  | move _ _ _ ih => simpa using ih

theorem pop (h : p.Path st (v ++ γ)) : p.Path (st.drop v.length) γ := by
  induction v generalizing st with
  | nil => exact h
  | cons s v ih =>
    cases h with
    | move h _ _ => exact ih h

theorem ne_nil (h : p.Path st γ) : st ≠ [] := by
  cases h <;> simp

end Path

/-- Along every path the tables ask for what the valid items ask for. What is demanded of a table
without conflicts stands under `isLR1`. -/
structure Canonical (p : Parser ρ) (start : Symbol) : Prop where
  numbered : Numbered p.grammar start p.rules
  shift : ∀ {q st γ t j}, p.Path (q :: st) γ → p.action? q t = some (.shift j) →
    t.isTerminal = true ∧ p.Occurs t ∧ p.move? q t = some j
  reduce : ∀ {q st γ t i}, p.Path (q :: st) γ → p.action? q t = some (.reduce i) →
    i ≠ 0 ∧ ∃ r : Rule ρ, p.rules[i]? = some r ∧ Valid p.grammar p.rules γ i r.symbols.length t
  accept : ∀ {q st γ t}, p.Path (q :: st) γ → p.action? q t = some .accept →
    t = p.grammar.endMark ∧ Valid p.grammar p.rules γ 0 1 t
  goto_of_valid : ∀ {q st γ i d a s} {r : Rule ρ}, p.Path (q :: st) γ →
    Valid p.grammar p.rules γ i d a →
    p.rules[i]? = some r → r.next? d = some s → s.isNonterminal = true →
    ∃ j, p.goto? q s = some j ∧ p.move? q s = some j
  shift_of_valid : p.isLR1 = true → ∀ {q st γ i d a s} {r : Rule ρ}, p.Path (q :: st) γ →
    Valid p.grammar p.rules γ i d a → p.rules[i]? = some r → r.next? d = some s →
    s.isTerminal = true → ∃ j, p.action? q s = some (.shift j) ∧ p.move? q s = some j
  reduce_of_valid : p.isLR1 = true → ∀ {q st γ i a} {r : Rule ρ}, p.Path (q :: st) γ → i ≠ 0 →
    p.rules[i]? = some r → Valid p.grammar p.rules γ i r.symbols.length a →
    p.action? q a = some (.reduce i)
  accept_of_valid : p.isLR1 = true → ∀ {q st γ a}, p.Path (q :: st) γ →
    Valid p.grammar p.rules γ 0 1 a → p.action? q a = some .accept
  /-- Without dead ends in the grammar there are none in the automaton. -/
  valid_of_path : p.grammar.Live → ∀ {st γ}, p.Path st γ → ∃ i d a, Valid p.grammar p.rules γ i d a

end Parser

end AutoCool.LR1
