import AutoCool.Proofs.Grammar.Distinct
import AutoCool.Proofs.Grammar.Rewriting

/-!
# Runs of operations

A grammar is made by operations that declare symbols and add right sides, and an operation can fail,
perhaps after it added some right sides. Whatever the operations were, the two records of the
productions agree, no production is there twice, all of them are of one form, and the start symbol
is the first nonterminal (`Grammar.Coherent`). A new start symbol keeps this, derives what the old
one derives, and leaves the grammar it is added to as it was (`Grammar.Topped`).
-/

namespace AutoCool.Grammar

variable {ρ : Type} {g g' : Grammar ρ} {start top : Symbol} {p : Production ρ} {w : List Symbol}

/-! ### Operations -/

/-- An operation on a grammar. -/
inductive Operation (ρ : Type)
  | terminal (name : String)
  | terminals (names : String)
  | nonterminal (name : String) (isStart : Bool)
  | nonterminals (names : String)
  | extend (head : Symbol) (t : Term ρ)

/-- The grammar that an operation leaves. A declaration that fails changes nothing. -/
def Operation.run (g : Grammar ρ) : Operation ρ → Grammar ρ
  | .terminal name => (g.terminal name).toOption.elim g (·.2)
  | .terminals names => (g.terminalsOf names).2
  | .nonterminal name isStart => (g.nonterminal name isStart).toOption.elim g (·.2)
  | .nonterminals names => (g.nonterminalsOf names).2
  | .extend head t => (g.extend head t).1

/-- Right sides are added to no other nonterminals than those of the grammar, and their symbols were
made before. -/
def Operation.Over (g : Grammar ρ) : Operation ρ → Prop
  | .extend head t =>
    (head.isNonterminal = true → head ∈ g.nonterminals) ∧ ∀ s, t.Occurs s → s.id < g.nextId
  | _ => True

/-- The grammars that operations, one after the other, make of an empty one. -/
inductive Reached : Grammar ρ → Prop
  | empty (n : Nat) : Reached { endMark := Symbol.endMark n }
  | step {g : Grammar ρ} (o : Operation ρ) : Reached g → o.Over g → Reached (o.run g)

/-- A property that declaring a symbol and adding a production keep. -/
structure Durable (P : Grammar ρ → Prop) : Prop extends Stable P where
  add : ∀ {g g' p}, P g → p.head ∈ g.nonterminals →
    (∀ s, p.body.toTerm.Occurs s → s.id < g.nextId) →
    g.addProduction p = .ok g' → P g'

theorem addProduction_frame (h : g.addProduction p = .ok g') :
    ∃ ledger earlier filed, g' = { g with ledger, earlier, filed } := by
  have hset : ∀ n l, ∃ ledger earlier, g.setLedger n l = { g with ledger, earlier } := by
    intro n l
    unfold setLedger
    split
    · exact ⟨_, _, rfl⟩
    · exact ⟨_, _, rfl⟩
  obtain ⟨l, -, rfl | ⟨-, rfl⟩⟩ := addProduction_cases h
  · obtain ⟨ledger, earlier, heq⟩ := hset p.head.generation l
    exact ⟨ledger, earlier, g.filed, heq⟩
  · obtain ⟨ledger, earlier, heq⟩ :=
      hset p.head.generation { l with productions := l.productions ++ [p] }
    exact ⟨ledger, earlier, g.filed ++ [p], by rw [heq]⟩

theorem Durable.run {P : Grammar ρ → Prop} (hP : Durable P) (o : Operation ρ) (ho : o.Over g)
    (hg : P g) : P (o.run g) := by
  cases o with
  | terminal name =>
    rw [Operation.run]
    cases h : g.terminal name with
    | error e => exact hg
    | ok x => exact hP.of_terminal h hg
  | terminals names => exact hP.terminalsOf hg
  | nonterminal name isStart =>
    rw [Operation.run]
    cases h : g.nonterminal name isStart with
    | error e => exact hg
    | ok x => exact hP.of_nonterminal h hg
  | nonterminals names => exact hP.nonterminalsOf hg
  | extend head t =>
    rw [Operation.run]
    cases hhead : head.isNonterminal with
    | false =>
      rw [Grammar.extend, if_neg (by simp [hhead])]
      exact hg
    | true =>
      refine (extend_induction (P := fun g => P g ∧ head ∈ g.nonterminals ∧ ∀ s, t.Occurs s →
        s.id < g.nextId)
        ⟨hg, ho.1 hhead, ho.2⟩ ?_).1
      rintro g g' p ⟨hg, hmem, hlt⟩ rfl hoccurs h
      refine ⟨hP.add hg hmem (fun s hs => hlt s (hoccurs s hs)) h, ?_⟩
      obtain ⟨_, _, _, rfl⟩ := addProduction_frame h
      exact ⟨hmem, hlt⟩

/-! ### What holds after every run -/

/-- The invariant of the grammars that operations make. They are no copies, so all productions are
filed with them. -/
structure Settled (g : Grammar ρ) : Prop where
  wf : g.WF
  distinct : g.Distinct
  earlier_eq : g.earlier = []
  generation_eq : ∀ s ∈ g.nonterminals, s.generation = 0
  first : ∀ s, g.start = some s → g.nonterminals.head? = some s
  below : ∀ p ∈ g.filed, ∀ s, p.body.toTerm.Occurs s → s.id < g.nextId

theorem Settled.empty (n : Nat) : (({ endMark := Symbol.endMark n } : Grammar ρ)).Settled where
  wf := .empty n
  distinct := .nil
  earlier_eq := rfl
  generation_eq := by simp
  first := by simp
  below := by simp

theorem Settled.durable : Durable (Settled : Grammar ρ → Prop) where
  terminal h hname := { h with
    wf := WF.stable.terminal h.wf hname
    below := fun p hp s hs => Nat.lt_succ_of_lt (h.below p hp s hs) }
  nonterminal {g name} h hname := { h with
    wf := WF.stable.nonterminal h.wf hname
    generation_eq := by
      intro s hs
      rcases List.mem_append.mp hs with hs | hs
      · exact h.generation_eq s hs
      · rw [List.mem_singleton.mp hs, nextSymbol, h.earlier_eq, List.length_nil]
    first := fun s hs => by rw [pushNonterminal, List.head?_append, h.first s hs, Option.some_or]
    below := fun p hp s hs => Nat.lt_succ_of_lt (h.below p hp s hs) }
  start {g name} h hname := { h with
    wf := WF.stable.start h.wf hname
    generation_eq := by
      intro s hs
      rcases List.mem_cons.mp hs with rfl | hs
      · rw [nextSymbol, h.earlier_eq, List.length_nil]
      · exact h.generation_eq s hs
    first := fun _ hs => hs
    below := fun p hp s hs => Nat.lt_succ_of_lt (h.below p hp s hs) }
  add {g g' p} h hhead hlt hadd := by
    have hgen : p.head.generation = g.earlier.length := by
      rw [h.generation_eq _ hhead, h.earlier_eq, List.length_nil]
    have hwf := h.wf.addProduction hhead hgen hadd
    have hdistinct := h.distinct.addProduction hadd
    obtain ⟨l, -, rfl | rfl⟩ := WF.addProduction_eq hgen hadd
    · exact { h with wf := hwf, distinct := hdistinct }
    · refine { h with wf := hwf, distinct := hdistinct, below := fun q hq => ?_ }
      rcases List.mem_append.mp hq with hq | hq
      · exact h.below q hq
      · exact List.mem_singleton.mp hq ▸ hlt

theorem Reached.settled (h : g.Reached) : g.Settled := by
  induction h with
  | empty n => exact .empty n
  | step o _ ho ih => exact Settled.durable.run o ho ih

/-- The two records of the productions agree, no two productions are equal, all of them have rules
or none has, and the start symbol is the first nonterminal. -/
structure Coherent (g : Grammar ρ) : Prop where
  distinct : g.productions.Pairwise fun q p => q.same p = .ok false
  uniform : ∀ p ∈ g.productions, ∀ q ∈ g.productions, p.isAttributed = q.isAttributed
  own : ∀ s ∈ g.nonterminals, g.productionsOf s = g.productions.filter (·.head == s)
  first : ∀ s, g.start = some s → g.nonterminals.head? = some s

theorem WF.coherent (hg : g.WF) (hdistinct : g.Distinct)
    (hfirst : ∀ s, g.start = some s → g.nonterminals.head? = some s) : g.Coherent where
  distinct := hg.filed_eq ▸ hdistinct
  uniform p hp q hq := Option.some.inj ((hg.attributed p hp).symm.trans (hg.attributed q hq))
  own s _ := by rw [hg.filed_eq, productionsOf]
  first := hfirst

/-! ### A new start symbol -/

/-- The grammar `g'` is `g` with a new start symbol, and nothing changed for `g`. -/
structure Topped (g : Grammar ρ) (start : Symbol) (g' : Grammar ρ) (top : Symbol) : Prop where
  coherent : g'.Coherent
  start_eq : g'.start = some top
  new : top ∉ g.symbols
  nonterminals : g'.nonterminals = top :: g.nonterminals
  only : ∃ p, g'.productionsOf top = [p] ∧ p.body = .sentence [start]
  absent : ∀ q ∈ g'.productions, ¬ q.body.toTerm.Occurs top
  derives_iff : ∀ w, g'.Derives [top] w ↔ w = [top] ∨ g.Derives [start] w
  terminals : g'.terminals = g.terminals
  ledger : g'.earlier = g.earlier ++ [g.ledger]
  kept : ∀ s ∈ g.nonterminals, g'.productionsOf s = g.productionsOf s

namespace Augments

variable (h : g.Augments start g' top p) (hg : g.WF)

include h hg

theorem head_ne (hq : q ∈ g.filed) : q.head ≠ top :=
  fun heq => h.top_notMem hg (heq ▸ .tail _ (List.mem_append_right _ (hg.head_mem q hq)))

theorem filed_eq : g'.filed = g.filed ++ [p] := by
  rw [← h.wf.filed_eq, h.productions, hg.filed_eq]

theorem distinct (hdistinct : g.Distinct) : g'.Distinct := by
  rw [Distinct, h.filed_eq hg, List.pairwise_append]
  refine ⟨hdistinct, List.pairwise_singleton _ _, fun q hq p' hp' => ?_⟩
  rw [List.mem_singleton.mp hp', Production.same, if_neg]
  rw [h.head, beq_iff_eq]
  exact h.head_ne hg hq

theorem productionsOf_eq (s : Symbol) :
    g'.productionsOf s = if s = top then [p] else g.productionsOf s := by
  rw [productionsOf, h.filed_eq hg, List.filter_append]
  split
  · next heq =>
    have hnone : g.filed.filter (·.head == s) = [] :=
      List.filter_eq_nil_iff.mpr fun q hq => by simpa [heq] using h.head_ne hg hq
    rw [hnone, List.nil_append, List.filter_cons_of_pos
      (by rw [h.head, heq]; exact beq_self_eq_true _), List.filter_nil]
  · next hne =>
    rw [List.filter_cons_of_neg (by rw [h.head, beq_iff_eq]; exact fun heq => hne heq.symm),
      List.filter_nil, List.append_nil]
    rfl

theorem absent (hstart : start ∈ g.nonterminals)
    (hbelow : ∀ q ∈ g.filed, ∀ s, q.body.toTerm.Occurs s → s.id < g.nextId)
    (hq : q ∈ g'.productions) : ¬ q.body.toTerm.Occurs top := by
  intro hoccurs
  rw [h.wf.filed_eq, h.filed_eq hg] at hq
  rcases List.mem_append.mp hq with hq | hq
  · exact Nat.lt_irrefl _ (h.top_id ▸ hbelow q hq top hoccurs)
  · rw [List.mem_singleton.mp hq, h.body] at hoccurs
    rw [← List.mem_singleton.mp (Term.occurs_ofSymbols.mp hoccurs)] at hstart
    exact h.top_notMem hg (.tail _ (List.mem_append_right _ hstart))

theorem derives_iff (hstart : start ∈ g.nonterminals)
    (habsent : ∀ q ∈ g'.productions, ¬ q.body.toTerm.Occurs top) :
    g'.Derives [top] w ↔ w = [top] ∨ g.Derives [start] w := by
  have hnew : g'.Rewrites p [start] :=
    ⟨h.productions ▸ List.mem_append_right _ (.head _), by rw [h.body]; rfl⟩
  have hne : start ≠ top := fun heq =>
    h.top_notMem hg (heq ▸ .tail _ (List.mem_append_right _ hstart))
  -- no sentential form after the first one has the new symbol
  have hwords : ∀ {q b}, g'.Rewrites q b → top ∉ b := fun {q b} hq hmem => by
    refine habsent q hq.1 ?_
    obtain ⟨head, body, slots⟩ := q
    cases body with
    | epsilon => cases hq.2; cases hmem
    | sentence symbols => cases hq.2; exact Term.occurs_ofSymbols.mpr hmem
    | stray t => cases hq.2
  constructor
  · intro hw
    suffices hall : w = [top] ∨ g.Derives [start] w ∧ top ∉ w from hall.imp_right And.left
    induction hw with
    | refl => exact .inl rfl
    | tail _ hstep ih =>
      obtain @⟨u, v, q, b, hq⟩ := hstep
      have hmem : q ∈ g.productions ∨ q = p := by simpa [h.productions] using hq.1
      refine .inr ?_
      rcases ih with heq | ⟨hd, hnot⟩
      · obtain ⟨rfl, htop, rfl⟩ : u = [] ∧ q.head = top ∧ v = [] := by
          cases u with
          | nil => simpa using heq
          | cons a u => cases u <;> simp at heq
        have hqp : q = p := hmem.resolve_left fun hmem => h.head_ne hg (hg.filed_eq ▸ hmem) htop
        subst hqp
        have hb : [start] = b := Option.some.inj (hnew.2.symm.trans hq.2)
        subst hb
        exact ⟨.refl _, by simpa using hne.symm⟩
      · have hq' : q ∈ g.productions := hmem.resolve_right fun hqp => hnot (by simp [hqp, h.head])
        refine ⟨hd.tail (.apply u v ⟨hq', hq.2⟩), ?_⟩
        have hb := hwords hq
        simp only [List.mem_append, List.mem_cons, not_or] at hnot ⊢
        exact ⟨⟨hnot.1, hb⟩, hnot.2.2⟩
  · rintro (rfl | hd)
    · exact .refl _
    · have hold : g'.Derives [start] w := by
        refine hd.lift id ?_
        rintro _ _ ⟨u, v, hq⟩
        exact .apply u v (h.rewrites hq)
      rw [← h.head]
      exact (Derives.of_rewrites hnew []).trans hold

end Augments

theorem earlier_of_augmented (h : g.augmented true = .ok g') :
    g'.earlier = g.earlier ++ [g.ledger] := by
  rw [Grammar.augmented, Bool.true_or, if_pos rfl, augment] at h
  cases hs : g.start with
  | none => rw [hs] at h; cases h
  | some start =>
    simp only [hs] at h
    obtain ⟨l, -, rfl | rfl⟩ := WF.addProduction_eq rfl h <;> rfl

/-- Whatever the operations were that made a grammar, its records are coherent, and a new start
symbol, which can be asked for when there is a start symbol, keeps them so. -/
theorem Reached.coherent_topped (h : g.Reached) :
    g.Coherent ∧ ∀ start, g.start = some start → ∃ g' top, g.augmented true = .ok g' ∧
    g.Topped start g' top := by
  have hg := h.settled
  refine ⟨hg.wf.coherent hg.distinct hg.first, fun start hs => ?_⟩
  obtain ⟨g', top, p, hg', haug⟩ := hg.wf.augmented hs
  have hstart := hg.wf.start_mem start hs
  have habsent := fun q => haug.absent hg.wf hstart hg.below (q := q)
  refine ⟨g', top, hg', ?_, haug.start_eq, haug.top_notMem hg.wf, haug.nonterminals, ?_, habsent,
    fun w => haug.derives_iff hg.wf hstart habsent, haug.terminals, earlier_of_augmented hg',
      fun s hs => ?_⟩
  · refine haug.wf.coherent (haug.distinct hg.wf hg.distinct) fun s hs => ?_
    rw [haug.nonterminals, ← hs, haug.start_eq, List.head?_cons]
  · exact ⟨p, by rw [haug.productionsOf_eq hg.wf, if_pos rfl], haug.body⟩
  · rw [haug.productionsOf_eq hg.wf, if_neg]
    rintro rfl
    exact haug.top_notMem hg.wf (.tail _ (List.mem_append_right _ hs))

/-- The start symbol, a terminal, and then a second start symbol, which is refused. -/
def Sample.declared : Grammar Unit :=
  Operation.run (Operation.run (Operation.run { } (.nonterminal "S" true)) (.terminal "a"))
    (.nonterminal "T" true)

/-- Of two right sides the second one fails, after the first one was added. -/
theorem coherent_topped_failing :
    ∃ (g : Grammar Unit) (s a : Symbol), g.Reached ∧ g.productions.map (·.body.word?) = [some [a]] ∧
    g.Coherent ∧ g.start = some s ∧ ∃ g' top, g.augmented true = .ok g' ∧ g.Topped s g' top := by
  have hdeclared : Sample.declared.Reached :=
    (((Reached.empty 0).step (.nonterminal "S" true) trivial).step (.terminal "a") trivial).step
      (.nonterminal "T" true) trivial
  let s : Symbol := { id := 1, name := "S", kind := .nonterminal }
  let a : Symbol := { id := 2, name := "a", kind := .terminal }
  have hover : (Operation.extend s (.choice [.ofSymbols [a], .choice []])).Over
      Sample.declared := by
    refine ⟨fun _ => by decide +kernel, fun b hb => ?_⟩
    cases hb with
    | choice ht hb =>
      rcases List.mem_cons.mp ht with rfl | ht
      · rw [List.mem_singleton.mp (Term.occurs_ofSymbols.mp hb)]
        decide +kernel
      · rw [List.mem_singleton.mp ht] at hb
        cases hb with
        | choice ht => cases ht
  have hreached := hdeclared.step _ hover
  obtain ⟨hcoherent, htopped⟩ := hreached.coherent_topped
  have hstart : (Operation.run Sample.declared
      (.extend s (.choice [.ofSymbols [a], .choice []]))).start = some s := by
    decide +kernel
  exact ⟨_, s, a, hreached, by decide +kernel, hcoherent, hstart, htopped s hstart⟩

end AutoCool.Grammar
