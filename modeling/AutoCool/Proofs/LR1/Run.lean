import Mathlib.Logic.Relation
import AutoCool.Proofs.LR1.Valid

/-!
# Runs of a parser

What a step does to a configuration whose stack lies along a path of the automaton, and what every
run from the beginning keeps: `Parser.Tracks` ties the stack to the symbols it stands for, these to
the tokens that were read and to the reductions that were made. A reduction pops what the path
holds, and the state below always has somewhere to go, so a run can only stop at a missing action.
-/

namespace AutoCool.LR1

variable {ρ : Type} {i j q : Nat} {r : Rule ρ} {c c' : Configuration}

theorem Step.proceed_eq_inl {s : Step} : s.proceed = .inl c ↔ s = .next c := by
  cases s <;> simp [proceed]

theorem Step.proceed_eq_inr {s s' : Step} : s.proceed = .inr s' ↔ s = s' ∧ ∀ c, s' ≠ .next c := by
  cases s with
  | next c =>
    refine ⟨fun h => (by cases h), ?_⟩
    rintro ⟨rfl, h⟩
    exact absurd rfl (h c)
  | accept _ | fail _ | overrun =>
    rw [proceed, Sum.inr.injEq]
    · exact ⟨fun h => h ▸ ⟨rfl, by simp⟩, And.left⟩
    · simp

namespace Parser

variable {p : Parser ρ} {start : Symbol}

/-- Any number of steps. -/
def Steps (p : Parser ρ) : Configuration → Configuration → Prop :=
  Relation.ReflTransGen fun c c' => p.step c = .next c'

/-! ### Steps and runs -/

theorem Steps.head (h : p.step c = .next c1) (h' : p.Steps c1 c') : p.Steps c c' :=
  Relation.ReflTransGen.head h h'

theorem Steps.trans (h : p.Steps c c1) (h' : p.Steps c1 c') : p.Steps c c' :=
  Relation.ReflTransGen.trans h h'

theorem run_eq (p : Parser ρ) (c : Configuration) :
    p.run c = match p.step c with
      | .next c' => p.run c'
      | s => some s := by
  unfold run
  rw [Iteration.untilDone_eq]
  cases p.step c <;> rfl

theorem Steps.run_eq (h : p.Steps c c') : p.run c = p.run c' := by
  induction h using Relation.ReflTransGen.head_induction_on with
  | refl => rfl
  | head hs _ ih => rw [Parser.run_eq, hs]; exact ih

theorem run_of_step (h : p.step c = s) (hs : ∀ c', s ≠ .next c') : p.run c = some s := by
  rw [run_eq, h]
  cases s with
  | next c' => exact absurd rfl (hs c')
  | accept _ | fail _ | overrun => rfl

theorem steps_of_run (h : p.run c = some s) :
    ∃ c', p.Steps c c' ∧ p.step c' = s ∧ ∀ c'', s ≠ .next c'' := by
  have hends := Iteration.untilDone_eq_some.mp h
  clear h
  induction hends with
  | @done c s hlast => exact ⟨c, .refl, Step.proceed_eq_inr.mp hlast⟩
  | step hstep _ ih =>
    obtain ⟨c', hsteps, hlast⟩ := ih
    exact ⟨c', .head (Step.proceed_eq_inl.mp hstep) hsteps, hlast⟩

/-- Steps that lead to further steps of one kind go on for ever. -/
theorem run_eq_none {I : Configuration → Prop} (hI : ∀ c, I c → ∃ c', p.step c = .next c' ∧ I c')
    (hc : I c) : p.run c = none := by
  refine Option.eq_none_iff_forall_ne_some.mpr fun s hs => ?_
  obtain ⟨c', hsteps, hlast, hne⟩ := steps_of_run hs
  have hc' : I c' := by
    clear hs hlast
    induction hsteps with
    | refl => exact hc
    | tail _ hstep ih =>
      obtain ⟨c1, hstep1, hI1⟩ := hI _ ih
      cases hstep1.symm.trans hstep
      exact hI1
  obtain ⟨c1, hstep, -⟩ := hI c' hc'
  exact hne c1 (hlast.symm.trans hstep)

/-! ### One step -/

theorem step_shift (h : p.action? q t.type = some (.shift j)) :
    p.step ⟨q :: st, t :: rest, out, ops⟩ = .next ⟨j :: q :: st, rest, out, .shift :: ops⟩ := by
  simp [step, h]

theorem step_accept (h : p.action? q t.type = some .accept) :
    p.step ⟨q :: st, t :: rest, out, ops⟩ = .accept ⟨q :: st, t :: rest, out, ops⟩ := by
  simp [step, h]

theorem step_fail (h : p.action? q t.type = none) :
    p.step ⟨q :: st, t :: rest, out, ops⟩ = .fail ⟨q :: st, t :: rest, out, ops⟩ := by
  simp [step, h]

theorem step_of_goto (ha : p.action? q t.type = some (.reduce i)) (hr : p.rules[i]? = some r)
    (hj : ((q :: st).drop r.symbols.length).head?.bind (p.goto? · r.production.head) = some j) :
    p.step ⟨q :: st, t :: rest, out, ops⟩ =
      .next ⟨j :: (q :: st).drop r.symbols.length, t :: rest, i :: out, .reduce :: ops⟩ := by
  simp only [step, List.head?_cons, Option.bind_some, ha, Parser.reduce, hr, hj]

theorem of_step_accept (h : p.step c = .accept c') : c' = c ∧ ∃ q st t rest, c.stack = q :: st ∧
    c.rest = t :: rest ∧ p.action? q t.type = some .accept := by
  obtain ⟨stack, rest, out, ops⟩ := c
  match stack, rest with
  | _, [] | [], _ :: _ => simp [step] at h
  | q :: st, t :: rest =>
    match ha : p.action? q t.type with
    | none => rw [step_fail ha] at h; cases h
    | some (.shift j) => rw [step_shift ha] at h; cases h
    | some (.reduce i) =>
      simp only [step, List.head?_cons, Option.bind_some, ha, Parser.reduce] at h
      split at h
      · cases h
      · split at h <;> cases h
    | some .accept =>
      rw [step_accept ha] at h
      cases h
      exact ⟨rfl, q, st, t, rest, rfl, rfl, ha⟩

/-- A step looks at the stack and at the next token, which it keeps or reads. Of the rest of the
input and of what was done before it nothing matters. -/
theorem step_next (h : p.step c = .next c') : ∃ t rest stack' kept out' op, c.rest = t :: rest ∧
    (kept = [] ∨ kept = [t]) ∧ ∀ rest out ops,
      p.step ⟨c.stack, t :: rest, out, ops⟩ = .next ⟨stack', kept ++ rest, out' ++ out,
        op :: ops⟩ := by
  obtain ⟨stack, rest, out, ops⟩ := c
  match stack, rest with
  | _, [] | [], _ :: _ => simp [step] at h
  | q :: st, t :: rest =>
    match ha : p.action? q t.type with
    | none => rw [step_fail ha] at h; cases h
    | some .accept => rw [step_accept ha] at h; cases h
    | some (.shift j) =>
      exact ⟨t, rest, j :: q :: st, [], [], .shift, rfl, .inl rfl, fun _ _ _ => step_shift ha⟩
    | some (.reduce i) =>
      simp only [step, List.head?_cons, Option.bind_some, ha, Parser.reduce] at h
      split at h
      · cases h
      · rename_i hr
        split at h
        · cases h
        · rename_i hgoto
          exact ⟨t, rest, _, [t], [i], .reduce, rfl, .inr rfl, fun _ _ _ =>
            step_of_goto ha hr hgoto⟩

theorem step_with_history (h : p.step c = .next c') (out : List Nat) (ops : List Operation) :
    ∃ out' ops',
    p.step { c with output := out, operations := ops } =
      .next { c' with output := out', operations := ops' } := by
  obtain ⟨t, rest, stack', kept, out', op, hrest, -, hall⟩ := step_next h
  obtain ⟨stack, _, _, _⟩ := c
  cases hrest
  cases (hall rest _ _).symm.trans h
  exact ⟨out' ++ out, op :: ops, hall rest out ops⟩

/-- A reduction by the production of an item that is valid along the path: the path holds its right
side, and the state below moves over its head. -/
theorem Canonical.step_reduce (hp : p.Canonical start) (hpath : p.Path (q :: st) γ) (hi : i ≠ 0)
    (hr : p.rules[i]? = some r) (hv : Valid p.grammar p.rules γ i r.symbols.length t.type)
    (ha : p.action? q t.type = some (.reduce i)) :
    ∃ γ' q' st' j, γ = r.symbols.reverse ++ γ' ∧ (q :: st).drop r.symbols.length = q' :: st' ∧
      p.goto? q' r.production.head = some j ∧
      p.Path (j :: q' :: st') (r.production.head :: γ') ∧
      ∀ rest out ops, p.step ⟨q :: st, t :: rest, out, ops⟩ =
        .next ⟨j :: q' :: st', t :: rest, i :: out, .reduce :: ops⟩ := by
  obtain ⟨γ', rfl, -, hv0⟩ := hv.split hr
  rw [List.take_length] at hpath ⊢
  have hpop := hpath.pop
  rw [List.length_reverse] at hpop
  obtain ⟨q', st', hst⟩ := List.exists_cons_of_ne_nil hpop.ne_nil
  rw [hst] at hpop
  rcases hv0.parent with ⟨rfl, -⟩ | ⟨i', d, a, r', r'', hv', hi', hr'', hs, -⟩
  · exact absurd rfl hi
  cases hr.symm.trans hr''
  have hhead := hp.numbered.headsNonterminal _ (hp.numbered.rewrites hr).1
  obtain ⟨j, hgoto, hmove⟩ := hp.goto_of_valid hpop hv' hi' hs hhead
  refine ⟨γ', q', st', j, rfl, hst, hgoto, .move hpop (occurs_of_next? hi' hs) hmove,
    fun rest out ops => ?_⟩
  rw [step_of_goto ha hr (by rw [hst]; exact hgoto), hst]

theorem Steps.with_rest (h : p.Steps c c') (hrest : c'.rest = t :: rest) :
    ∃ past, c.rest = past ++ t :: rest ∧
    ∀ rest', p.Steps { c with rest := past ++ t :: rest' } { c' with rest := t :: rest' } := by
  induction h using Relation.ReflTransGen.head_induction_on with
  | refl => exact ⟨[], hrest, fun _ => .refl⟩
  | @head c c1 hstep _ ih =>
    obtain ⟨past, hpast, hsteps⟩ := ih
    obtain ⟨t1, rest1, stack1, kept, out1, op, hc, hkept, hall⟩ := step_next hstep
    obtain ⟨stack, _, out, ops⟩ := c
    cases hc
    cases (hall rest1 out ops).symm.trans hstep
    rcases hkept with rfl | rfl
    · -- the token was read
      obtain rfl : rest1 = past ++ t :: rest := hpast
      exact ⟨t1 :: past, rfl, fun rest' => .head (hall _ _ _) (hsteps rest')⟩
    · -- the token is still the next one: the first one of `past`, or the one the run comes to
      refine ⟨past, hpast, fun rest' => ?_⟩
      obtain ⟨rest2, hrest2⟩ : ∃ rest2, past ++ t :: rest' = t1 :: rest2 := by
        cases past with
        | nil => cases hpast; exact ⟨rest', rfl⟩
        | cons u past => cases hpast; exact ⟨past ++ t :: rest', rfl⟩
      have := hsteps rest'
      rw [hrest2] at this ⊢
      exact .head (hall _ _ _) this

/-! ### What every run keeps -/

/-- The productions of some reductions. -/
def produced (p : Parser ρ) (out : List Nat) : List (Production ρ) :=
  out.filterMap fun i => (p.rules[i]?).map (·.production)

theorem produced_concat (hr : p.rules[i]? = some r) (out : List Nat) :
    p.produced (out ++ [i]) = p.produced out ++ [r.production] := by
  simp [produced, hr]

/-- The configuration after reading some tokens of an input: the stack lies along a path, the
symbols of the path spell what was read by the productions of the reductions, and the operations are
counted. -/
structure Tracks (p : Parser ρ) (w : List Token) (c : Configuration) (γ : List Symbol)
    (past : List Token) : Prop where
  path : p.Path c.stack γ
  input : w = past ++ c.rest
  spells : p.grammar.Spells γ.reverse (p.produced c.output.reverse) (past.map (·.type))
  shifts : c.operations.count .shift = past.length
  reduces : c.operations.count .reduce = (p.produced c.output.reverse).length
  operations : c.operations.length = past.length + (p.produced c.output.reverse).length
  past_ne : ∀ t ∈ past, t.type ≠ p.grammar.endMark

theorem tracks_init (p : Parser ρ) (w : List Token) : p.Tracks w { rest := w } [] [] :=
  ⟨.start, rfl, .nil, rfl, rfl, rfl, by simp⟩

theorem Canonical.tracks_step (hp : p.Canonical start) (h : p.Tracks w c γ past)
    (hs : p.step c = .next c') : ∃ γ' past', p.Tracks w c' γ' past' := by
  obtain ⟨stack, rest, out, ops⟩ := c
  obtain ⟨hpath, hw, hspells, hshift, hreduce, hlen, hpast⟩ := h
  simp only at hpath hw hspells hshift hreduce hlen
  obtain ⟨q, st, rfl⟩ := List.exists_cons_of_ne_nil hpath.ne_nil
  cases rest with
  | nil => simp [step] at hs
  | cons t rest =>
    match ha : p.action? q t.type with
    | none => rw [step_fail ha] at hs; cases hs
    | some .accept => rw [step_accept ha] at hs; cases hs
    | some (.shift j) =>
      rw [step_shift ha] at hs
      cases hs
      obtain ⟨ht, hocc, hmove⟩ := hp.shift hpath ha
      refine ⟨t.type :: γ, past ++ [t], .move hpath hocc hmove, by simp [hw], ?_, by simp [hshift],
        by simpa using hreduce, by simp [hlen]; omega, ?_⟩
      · simpa using hspells.append (.terminal ht .nil)
      · intro t' ht'
        rcases List.mem_append.mp ht' with ht' | ht'
        · exact hpast t' ht'
        · rw [List.mem_singleton.mp ht']
          obtain ⟨i, r, hi, hmem⟩ := hocc
          exact fun h => hp.numbered.endMark_notMem hi (h ▸ hmem)
    | some (.reduce i) =>
      obtain ⟨hi, r, hr, hv⟩ := hp.reduce hpath ha
      obtain ⟨γ', q', st', j, rfl, -, -, hpath', hstep⟩ := hp.step_reduce hpath hi hr hv ha
      rw [hstep] at hs
      cases hs
      have hout := produced_concat hr out.reverse
      refine ⟨r.production.head :: γ', past, hpath', hw, ?_, by simpa using hshift,
        by simp [hreduce, hout], by simp [hlen, hout]; omega, hpast⟩
      -- the reductions of the right side are the last ones that were made
      rw [List.reverse_append, List.reverse_reverse] at hspells
      obtain ⟨ps, ps', y, y', hps, hy, hγ, hbody⟩ := hspells.split
      have := hγ.append (.production (hp.numbered.rewrites hr) hbody .nil)
      simpa [hout, hps, hy] using this

theorem Canonical.tracks_steps (hp : p.Canonical start) (h : p.Steps { rest := w } c) :
    ∃ γ past, p.Tracks w c γ past := by
  induction h with
  | refl => exact ⟨[], [], tracks_init p w⟩
  | tail _ hs ih =>
    obtain ⟨γ, past, ht⟩ := ih
    exact hp.tracks_step ht hs

/-! ### The outcome of a run -/

theorem parse_of_accept (h : p.run { rest := w } = some (.accept c)) :
    p.parse w = .accepted (p.produced c.output.reverse) c.operations.reverse := by
  rw [parse, h]
  rfl

theorem parse_of_fail (h : p.run { rest := w } = some (.fail c)) :
    p.parse w = .rejected c.stack.reverse c.rest := by
  rw [parse, h]

theorem steps_of_rejected (h : p.parse w = .rejected stack rest) : ∃ c c', p.Steps { rest := w } c ∧
    p.step c = .fail c' ∧ stack = c'.stack.reverse ∧ rest = c'.rest := by
  unfold parse at h
  split at h
  · cases h
  · rename_i c hrun
    obtain ⟨-, -, -, hne⟩ := steps_of_run hrun
    exact absurd rfl (hne c)
  · rename_i c' hrun
    obtain ⟨c, hsteps, hstep, -⟩ := steps_of_run hrun
    cases h
    exact ⟨c, c', hsteps, hstep, rfl, rfl⟩
  all_goals cases h

theorem steps_of_accepted (h : p.parse w = .accepted output ops) : ∃ c, p.Steps { rest := w } c ∧
    p.step c = .accept c ∧ output = p.produced c.output.reverse ∧ ops = c.operations.reverse := by
  unfold parse at h
  split at h
  · rename_i c hrun
    obtain ⟨c', hsteps, hstep, -⟩ := steps_of_run hrun
    obtain ⟨rfl, -⟩ := of_step_accept hstep
    cases h
    exact ⟨c, hsteps, hstep, rfl, rfl⟩
  all_goals cases h

end Parser

end AutoCool.LR1
