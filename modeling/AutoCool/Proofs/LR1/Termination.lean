import AutoCool.Proofs.LR1.Evaluate
import AutoCool.Proofs.LR1.Simulation

/-!
# Runs are safe and end

Whatever the grammar, a run on an input with an end mark never asks for more than there is
(`Parser.Safe`): it does not read past the end mark, a reduction finds its right side on the stack
and a state below it that moves over the head, and the only reason to stop without a result is a
missing action. When no cell holds two things the run also ends (`Parser.parse_ends`), provided that
what stands behind a nonterminal can be empty or begin with a terminal. Otherwise an item can be
without a lookahead, and then it hides a conflict: `Sample.deadEnd` has a parser without conflicts
that reduces for ever.
-/

namespace AutoCool.LR1.Parser

variable {ρ : Type} {p : Parser ρ} {g : Grammar ρ} {start : Symbol} {c : Configuration}

/-- What holds whenever the parser looks at a configuration of a run. -/
structure Safe (p : Parser ρ) (w : List Token) (c : Configuration) : Prop where
  /-- There is a next token, and no end mark comes before it. -/
  cursor : ∃ past t rest, w = past ++ t :: rest ∧ c.rest = t :: rest ∧
    ∀ t' ∈ past, t'.type ≠ p.grammar.endMark
  /-- A reduction finds its right side on the stack, and a state below that moves over its head. -/
  reduce : ∀ {q t i}, c.stack.head? = some q → c.rest.head? = some t →
    p.action? q t.type = some (.reduce i) →
    ∃ (r : Rule ρ) (popped : List Nat) (q' : Nat) (st' : List Nat) (j : Nat), p.rules[i]? = some r ∧
      c.stack = popped ++ q' :: st' ∧ popped.length = r.symbols.length ∧
      p.goto? q' r.production.head = some j
  /-- The parser gives up only where there is no action, and leaves everything as it was. -/
  fail : ∀ {c'}, p.step c = .fail c' → c' = c ∧ ∃ q t, c.stack.head? = some q ∧
    c.rest.head? = some t ∧
    p.action? q t.type = none

theorem Canonical.step_cases (hp : p.Canonical start) (hpath : p.Path c.stack γ)
    (hrest : c.rest = t :: rest) :
    ∃ q st, c.stack = q :: st ∧ (p.action? q t.type = none ∧ p.step c = .fail c ∨
      p.action? q t.type = some .accept ∧ p.step c = .accept c ∨ ∃ c', p.step c = .next c') := by
  obtain ⟨stack, _, out, ops⟩ := c
  obtain ⟨q, st, rfl⟩ := List.exists_cons_of_ne_nil hpath.ne_nil
  cases hrest
  refine ⟨q, st, rfl, ?_⟩
  match ha : p.action? q t.type with
  | none => exact .inl ⟨rfl, step_fail ha⟩
  | some .accept => exact .inr (.inl ⟨rfl, step_accept ha⟩)
  | some (.shift j) => exact .inr (.inr ⟨_, step_shift ha⟩)
  | some (.reduce i) =>
    obtain ⟨hi, r, hr, hv⟩ := hp.reduce hpath ha
    obtain ⟨γ', q', st', j, -, -, -, -, hstep⟩ := hp.step_reduce hpath hi hr hv ha
    exact .inr (.inr ⟨_, hstep rest out ops⟩)

/-- The tokens that were read come before the first end mark, so there is a next one. -/
theorem Tracks.rest_exists (h : p.Tracks w c γ past) (hw : ∃ t ∈ w, t.type = p.grammar.endMark) :
    ∃ t rest, c.rest = t :: rest := by
  refine List.exists_cons_of_ne_nil fun hnil => ?_
  obtain ⟨t, ht, hmark⟩ := hw
  rw [h.input, hnil, List.append_nil] at ht
  exact h.past_ne t ht hmark

theorem Canonical.safe (hp : p.Canonical start) (h : p.Tracks w c γ past)
    (hw : ∃ t ∈ w, t.type = p.grammar.endMark) : p.Safe w c := by
  obtain ⟨t, rest, hrest⟩ := h.rest_exists hw
  obtain ⟨q, st, hst, hcases⟩ := hp.step_cases h.path hrest
  have hpath : p.Path (q :: st) γ := hst ▸ h.path
  refine ⟨⟨past, t, rest, hrest ▸ h.input, hrest, h.past_ne⟩, ?_, ?_⟩
  · intro q' t' i hq' ht' ha
    rw [hst] at hq'
    rw [hrest] at ht'
    cases hq'
    cases ht'
    obtain ⟨hi, r, hr, hv⟩ := hp.reduce hpath ha
    obtain ⟨γ', q', st', j, rfl, hdrop, hgoto, -, -⟩ := hp.step_reduce hpath hi hr hv ha
    refine ⟨r, (q :: st).take r.symbols.length, q', st', j, hr, ?_, ?_, hgoto⟩
    · rw [hst, ← hdrop, List.take_append_drop]
    · have hlen := hpath.length_eq
      rw [List.length_append, List.length_reverse] at hlen
      exact List.length_take_of_le (by omega)
  · intro c' hfail
    rcases hcases with ⟨ha, hstep⟩ | ⟨-, hstep⟩ | ⟨c1, hstep⟩
    · cases hstep.symm.trans hfail
      exact ⟨rfl, q, t, by rw [hst]; rfl, by rw [hrest]; rfl, ha⟩
    · cases hstep.symm.trans hfail
    · cases hstep.symm.trans hfail

/-- Every token that there is an action for is read, so the rest of the input gets shorter until
there is none. -/
theorem Canonical.run_ends (hp : p.Canonical start) (hlr : p.isLR1 = true) (hlive : p.grammar.Live)
    (hw : ∃ t ∈ w, t.type = p.grammar.endMark) (h : p.Steps { rest := w } c) :
    ∃ s, p.run c = some s := by
  generalize hn : c.rest.length = n
  induction n using Nat.strong_induction_on generalizing c with
  | _ n ih =>
    obtain ⟨γ, past, htracks⟩ := hp.tracks_steps h
    obtain ⟨t, rest, hrest⟩ := htracks.rest_exists hw
    obtain ⟨stack, _, out, ops⟩ := c
    obtain ⟨q, st, rfl⟩ := List.exists_cons_of_ne_nil htracks.path.ne_nil
    cases hrest
    match ha : p.action? q t.type with
    | none => exact ⟨_, run_of_step (step_fail ha) (by simp)⟩
    | some act =>
      obtain ⟨c', hsteps, hlast⟩ : p.Consumes ⟨q :: st, t :: rest, out, ops⟩ :=
        hp.consumes_of_action hlr hlive htracks.path ha
      rw [hsteps.run_eq]
      rcases hlast with haccept | hshort
      · exact ⟨_, run_of_step haccept (by simp)⟩
      · refine ih _ ?_ (h.trans hsteps) rfl
        rw [hshort, ← hn]
        exact Nat.lt_succ_self _

theorem Canonical.parse_ends (hp : p.Canonical start) (hlr : p.isLR1 = true)
    (hlive : p.grammar.Live) (hw : ∃ t ∈ w, t.type = p.grammar.endMark) :
    (∃ output ops, p.parse w = .accepted output ops) ∨ ∃ stack rest,
    p.parse w = .rejected stack rest := by
  obtain ⟨s, hrun⟩ := hp.run_ends hlr hlive hw .refl
  obtain ⟨c, hsteps, hlast, hne⟩ := steps_of_run hrun
  obtain ⟨γ, past, htracks⟩ := hp.tracks_steps hsteps
  obtain ⟨t, rest, hrest⟩ := htracks.rest_exists hw
  obtain ⟨q, st, -, ⟨-, hstep⟩ | ⟨-, hstep⟩ | ⟨c', hstep⟩⟩ := hp.step_cases htracks.path hrest
  · rw [hstep] at hlast
    subst hlast
    exact .inr ⟨_, _, parse_of_fail hrun⟩
  · rw [hstep] at hlast
    subst hlast
    exact .inl ⟨_, _, parse_of_accept hrun⟩
  · exact absurd (hlast.symm.trans hstep) (hne c')

/-- Every run on an input that ends with the end mark is safe. When no cell holds two things, and
what stands behind a nonterminal can be empty or begin with a terminal, the run ends. -/
theorem safe_and_parse_ends (hg : g.Proper start) : ∃ p, ofGrammar g = .ok p ∧
    ∀ toks eof, eof.type = g.endMark →
      (∀ c, p.Steps { rest := toks ++ [eof] } c → p.Safe (toks ++ [eof]) c) ∧
      (p.isLR1 = true → g.Live →
        (∃ output ops, p.parse (toks ++ [eof]) = .accepted output ops) ∨
          ∃ stack rest, p.parse (toks ++ [eof]) = .rejected stack rest) := by
  obtain ⟨p, top, q, hp, haug, hmade⟩ := ofGrammar_ok hg
  refine ⟨p, hp, fun toks eof heof => ?_⟩
  have hw : ∃ t ∈ toks ++ [eof], t.type = p.grammar.endMark :=
    ⟨eof, by simp, heof.trans haug.endMark.symm⟩
  refine ⟨fun c hsteps => ?_, fun hlr hlive => hmade.canonical.parse_ends hlr (haug.live hlive) hw⟩
  obtain ⟨γ, past, htracks⟩ := hmade.canonical.tracks_steps hsteps
  exact hmade.canonical.safe htracks hw

theorem safe_and_parse_ends_nested : ∃ p, ofGrammar Sample.nested = .ok p ∧ p.isLR1 = true ∧
    Sample.nested.Live ∧
    (∀ c, p.Steps { rest := Sample.tokens [Sample.a] } c → p.Safe (Sample.tokens [Sample.a]) c) ∧
    ((∃ output ops, p.parse (Sample.tokens [Sample.a]) = .accepted output ops) ∨
      ∃ stack rest, p.parse (Sample.tokens [Sample.a]) = .rejected stack rest) := by
  obtain ⟨p, hp, h⟩ := safe_and_parse_ends Sample.nested_proper
  have hlr := Sample.nested_isLR1 p (mem_toOption hp)
  have hlive := Sample.nested_proper.live Sample.nested_generates
  obtain ⟨hsafe, hends⟩ := h [Sample.token Sample.a] (.ofEndMark (.endMark 0)) rfl
  exact ⟨p, hp, hlr, hlive, hsafe, hends hlr hlive⟩

end AutoCool.LR1.Parser

namespace AutoCool.Sample

open LR1

namespace DeadEnd

def A : Symbol := { id := 2, name := "A", kind := .nonterminal }

def B : Symbol := { id := 3, name := "B", kind := .nonterminal }

def Q : Symbol := { id := 4, name := "Q", kind := .nonterminal }

def C : Symbol := { id := 5, name := "C", kind := .nonterminal }

def U : Symbol := { id := 6, name := "U", kind := .nonterminal }

def c : Symbol := { id := 7, name := "c", kind := .terminal }

def b : Symbol := { id := 8, name := "b", kind := .terminal }

end DeadEnd

open DeadEnd in
/-- The grammar `S → A Q U`, `A → c | B`, `B → A`, `Q → C b`, `C → ε`. There is no production for
`U`, so nothing can come after `Q`. -/
def deadEnd : Grammar Unit :=
  let g := ((({} : Grammar Unit).pushStart "S").2.nonterminalsOf "A B Q C U").2
  let g := (g.terminalsOf "c b").2
  let g := (g.extend S (.sentence [.symbol A, .symbol Q, .symbol U])).1
  let g := ((g.extend A (.symbol c)).1.extend A (.symbol B)).1
  let g := ((g.extend B (.symbol A)).1.extend Q (.sentence [.symbol C, .symbol DeadEnd.b])).1
  (g.extend C .epsilon).1

theorem deadEnd_proper : deadEnd.Proper S where
  built := by
    refine .extend (.extend (.extend (.extend (.extend (.extend (.terminals (.nonterminals .start))
      ?_ ?_) ?_ ?_) ?_ ?_) ?_ ?_) ?_ ?_) ?_ ?_ <;> decide
  plain := by decide
  names_nodup := by decide
  start_eq := rfl

/-- There is no conflict. After `c` was read the stack of the parser goes round. -/
theorem deadEnd_steps : ∀ p ∈ (Parser.ofGrammar deadEnd).toOption, p.isLR1 = true ∧
    p.step { stack := [0], rest := tokens [DeadEnd.c, DeadEnd.b] } =
      .next { stack := [1, 0], rest := tokens [DeadEnd.b], operations := [.shift] } ∧
    p.step { stack := [1, 0], rest := tokens [DeadEnd.b] } =
      .next { stack := [3, 0], rest := tokens [DeadEnd.b], output := [2], operations :=
        [.reduce] } ∧
    p.step { stack := [3, 0], rest := tokens [DeadEnd.b] } =
      .next { stack := [8, 0], rest := tokens [DeadEnd.b], output := [4], operations :=
        [.reduce] } ∧
    p.step { stack := [8, 0], rest := tokens [DeadEnd.b] } =
      .next { stack := [3, 0], rest := tokens [DeadEnd.b], output := [3], operations :=
        [.reduce] } := by
  simp only [Parser.ofGrammar, renumber, Automaton.visit, Graph.preorder_eq_walk]
  decide +kernel

/-- A parser without conflicts that never stops: before `b` it reduces by `B → A` and by `A → B` in
turn. -/
theorem deadEnd_endless : deadEnd.Proper S ∧ ∃ p, Parser.ofGrammar deadEnd = .ok p ∧
    p.isLR1 = true ∧ p.parse (tokens [DeadEnd.c, DeadEnd.b]) = .endless := by
  obtain ⟨p, -, -, hp, -, -⟩ := Parser.ofGrammar_ok deadEnd_proper
  obtain ⟨hlr, h₀, h₁, h₂, h₃⟩ := deadEnd_steps p (Parser.mem_toOption hp)
  have hnone : p.run { rest := tokens [DeadEnd.c, DeadEnd.b] } = none := by
    refine Parser.run_eq_none (I := fun c => c.stack = [0] ∧
      c.rest = tokens [DeadEnd.c, DeadEnd.b] ∨
      c.rest = tokens [DeadEnd.b] ∧ (c.stack = [1, 0] ∨ c.stack = [3, 0] ∨ c.stack = [8, 0]))
      ?_ (.inl ⟨rfl, rfl⟩)
    -- the output and the operations grow, and have no part in what is done next
    rintro ⟨stack, rest, out, ops⟩ (⟨rfl, rfl⟩ | ⟨rfl, rfl | rfl | rfl⟩)
    · obtain ⟨_, _, h⟩ := Parser.step_with_history h₀ out ops
      exact ⟨_, h, .inr ⟨rfl, .inl rfl⟩⟩
    · obtain ⟨_, _, h⟩ := Parser.step_with_history h₁ out ops
      exact ⟨_, h, .inr ⟨rfl, .inr (.inl rfl)⟩⟩
    · obtain ⟨_, _, h⟩ := Parser.step_with_history h₂ out ops
      exact ⟨_, h, .inr ⟨rfl, .inr (.inr rfl)⟩⟩
    · obtain ⟨_, _, h⟩ := Parser.step_with_history h₃ out ops
      exact ⟨_, h, .inr ⟨rfl, .inr (.inl rfl)⟩⟩
  refine ⟨deadEnd_proper, p, hp, hlr, ?_⟩
  rw [Parser.parse, hnone]

end AutoCool.Sample
