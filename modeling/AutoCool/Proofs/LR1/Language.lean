import AutoCool.Proofs.LR1.Evaluate
import AutoCool.Proofs.LR1.Simulation

/-!
# The parser and the language of its grammar

A parser without conflicts accepts every word of its grammar with the productions of any rightmost
derivation of the word, so there is only one (`Parser.parse_of_rightDerives`). Whatever a parser
accepts, with or without conflicts, has the rightmost derivation that its output tells
(`Parser.rightDerives_of_parse`).
-/

namespace AutoCool.LR1.Parser

variable {ρ : Type} {g : Grammar ρ} {start : Symbol}

/-- A word of the grammar is accepted with the productions of a rightmost derivation, and has no
other one. -/
theorem parse_of_rightDerives (hg : g.Proper start) : ∃ p, ofGrammar g = .ok p ∧ (p.isLR1 = true →
    ∀ toks eof rest ps, (∀ t ∈ toks, t.type.isTerminal = true) → eof.type = g.endMark →
      g.RightDerives [start] ps (toks.map (·.type)) →
      (∃ ops, p.parse (toks ++ eof :: rest) = .accepted ps.reverse ops) ∧
        ∀ ps', g.RightDerives [start] ps' (toks.map (·.type)) → ps' = ps) := by
  obtain ⟨p, top, q, hp, haug, hmade⟩ := ofGrammar_ok hg
  refine ⟨p, hp, fun hlr toks eof rest ps htoks heof hps => ?_⟩
  have hx : ∀ s ∈ toks.map (·.type), s.isTerminal = true := by
    intro s hs
    obtain ⟨t, ht, rfl⟩ := List.mem_map.mp hs
    exact htoks t ht
  -- the run does not know the derivation, so all derivations have its productions
  have hrun : ∀ ps', g.RightDerives [start] ps' (toks.map (·.type)) →
      ∃ c, p.run { rest := toks ++ eof :: rest } = some (.accept c) ∧
        p.produced c.output.reverse = ps'.reverse := by
    intro ps' hps'
    have hspells := (hg.spells_iff haug).mpr (hps'.spells hg.built.wf.headsNonterminal hx)
    exact hmade.canonical.run_of_spells hlr hspells rfl (heof.trans haug.endMark.symm) rest
  obtain ⟨c, hc, hout⟩ := hrun ps hps
  refine ⟨⟨c.operations.reverse, ?_⟩, fun ps' hps' => ?_⟩
  · rw [← hout]
    exact parse_of_accept hc
  · obtain ⟨c', hc', hout'⟩ := hrun ps' hps'
    cases hc.symm.trans hc'
    exact List.reverse_injective (hout'.symm.trans hout)

theorem parse_of_rightDerives_nested : ∃ p, ofGrammar Sample.nested = .ok p ∧ p.isLR1 = true ∧
    (∃ ops, p.parse (Sample.tokens [Sample.a, Sample.b]) = .accepted
      [{ head := Sample.S, body := .epsilon },
        { head := Sample.S, body := .sentence [Sample.a, Sample.S, Sample.b] }] ops) := by
  obtain ⟨p, hp, h⟩ := parse_of_rightDerives Sample.nested_proper
  have hlr := Sample.nested_isLR1 p (mem_toOption hp)
  exact ⟨p, hp, hlr,
    (h hlr ([Sample.a, Sample.b].map Sample.token) (.ofEndMark (.endMark 0)) [] _ (by decide) rfl
      Sample.nested_rightDerives).1⟩

/-- What is accepted has the rightmost derivation that the output tells backwards, to the token
types before the first end mark. The steps are the shifts of these tokens and one reduction for each
production. -/
theorem rightDerives_of_parse (hg : g.Proper start) : ∃ p, ofGrammar g = .ok p ∧
    ∀ w output ops, p.parse w = .accepted output ops →
      let past := w.takeWhile (·.type ≠ g.endMark)
      (∀ t ∈ past, t.type.isTerminal = true) ∧ g.RightDerives [start] output.reverse
        (past.map (·.type)) ∧
        ops.count .shift = past.length ∧ ops.count .reduce = output.length ∧
        ops.length = past.length + output.length := by
  obtain ⟨p, top, q, hp, haug, hmade⟩ := ofGrammar_ok hg
  refine ⟨p, hp, fun w output ops h => ?_⟩
  obtain ⟨c, hsteps, hstep, rfl, rfl⟩ := steps_of_accepted h
  obtain ⟨γ, past, htracks⟩ := hmade.canonical.tracks_steps hsteps
  obtain ⟨-, k, st, t, rest, hst, hrest, hact⟩ := of_step_accept hstep
  obtain ⟨ht, hv⟩ := hmade.canonical.accept (hst ▸ htracks.path) hact
  obtain ⟨rfl, -⟩ := hv.of_first_complete hmade.numbered
  have hpast : w.takeWhile (·.type ≠ g.endMark) = past := by
    rw [htracks.input, hrest, List.takeWhile_append_of_pos, List.takeWhile_cons_of_neg,
      List.append_nil]
    · simp [ht, haug.endMark]
    · intro t' ht'
      simpa [haug.endMark] using htracks.past_ne t' ht'
  have hspells := (hg.spells_iff haug).mp htracks.spells
  simp only [hpast, List.count_reverse, List.length_reverse]
  refine ⟨fun t' ht' => hspells.isTerminal _ (List.mem_map_of_mem ht'), hspells.rightDerives,
    htracks.shifts,
    htracks.reduces, htracks.operations⟩

theorem rightDerives_of_parse_nested : ∃ p output ops, ofGrammar Sample.nested = .ok p ∧
    p.parse (Sample.tokens [Sample.a, Sample.b]) = .accepted output ops ∧
    Sample.nested.RightDerives [Sample.S] output.reverse [Sample.a, Sample.b] ∧
    ops.count .shift = 2 ∧ ops.count .reduce = output.length := by
  obtain ⟨p, hp, h⟩ := rightDerives_of_parse Sample.nested_proper
  have hrun : ∀ p ∈ (ofGrammar Sample.nested).toOption,
      p.runWithin 5 { rest := Sample.tokens [Sample.a, Sample.b] } = some (.accept
        { stack := [7, 0], rest := Sample.tokens [], output := [2, 1],
          operations := [.reduce, .shift, .reduce, .shift] }) := by
    simp only [ofGrammar, renumber, Automaton.visit, Graph.preorder_eq_walk]
    decide +kernel
  have hparse := parse_of_accept (run_of_runWithin (hrun p (mem_toOption hp)))
  obtain ⟨-, hder, hshift, hreduce, -⟩ := h _ _ _ hparse
  exact ⟨p, _, _, hp, hparse, hder, hshift, hreduce⟩

end AutoCool.LR1.Parser
