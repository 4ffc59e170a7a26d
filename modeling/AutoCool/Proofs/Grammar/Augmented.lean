import AutoCool.Proofs.Grammar.Built

/-!
# A new start symbol

`Grammar.Augments` says what the new start symbol of an augmented grammar adds: one production,
whose head stands in no right side. So a phrase without the new symbol spells the same words with
the same productions in both grammars (`Augments.spells`, `Augments.of_spells`).
-/

namespace AutoCool

variable {ρ : Type}

namespace Grammar

/-- The grammar `g'` is `g` with a new start symbol `top`, whose only production `p` leads to
`start`. -/
structure Augments (g : Grammar ρ) (start : Symbol) (g' : Grammar ρ) (top : Symbol)
    (p : Production ρ) : Prop where
  wf : g'.WF
  endMark : g'.endMark = g.endMark
  terminals : g'.terminals = g.terminals
  nonterminals : g'.nonterminals = top :: g.nonterminals
  start_eq : g'.start = some top
  productions : g'.productions = g.productions ++ [p]
  head : p.head = top
  body : p.body = .sentence [start]
  top_id : top.id = g.nextId

namespace Augments

variable {g g' : Grammar ρ} {start top : Symbol} {p : Production ρ}

variable (h : g.Augments start g' top p)

include h

theorem top_notMem (hg : g.WF) : top ∉ g.symbols :=
  fun hmem => hg.id_notMem (h.top_id ▸ List.mem_map_of_mem hmem)

theorem words (hplain : g.Plain) (hstart : start ∈ g.nonterminals) :
    ∀ q ∈ g'.productions, ∃ w, q.body.word? = some w ∧ ∀ s ∈ w,
    s ∈ g.terminals ++ g.nonterminals := by
  intro q hq
  rw [h.productions] at hq
  rcases List.mem_append.mp hq with hq | hq
  · exact hplain q hq
  · cases List.mem_singleton.mp hq
    refine ⟨[start], by rw [h.body]; rfl, fun s hs => ?_⟩
    rw [List.mem_singleton.mp hs]
    exact List.mem_append_right _ hstart

theorem mem_declared (hs : s ∈ g.terminals ++ g.nonterminals) :
    s ∈ g'.terminals ++ g'.nonterminals := by
  rw [h.terminals, h.nonterminals]
  exact (List.mem_append.mp hs).elim (List.mem_append_left _)
    fun hs => List.mem_append_right _ (.tail _ hs)

theorem plain (hplain : g.Plain) (hstart : start ∈ g.nonterminals) : g'.Plain := by
  intro q hq
  obtain ⟨w, hw, hmem⟩ := h.words hplain hstart q hq
  exact ⟨w, hw, fun s hs => h.mem_declared (hmem s hs)⟩

theorem mem_of_rewrites (hplain : g.Plain) (hstart : start ∈ g.nonterminals)
    (hq : g'.Rewrites q w) : ∀ s ∈ w, s ∈ g.terminals ++ g.nonterminals := by
  obtain ⟨w', hw', hmem⟩ := h.words hplain hstart q hq.1
  rwa [Option.some.inj (hq.2.symm.trans hw')]

/-! ### Derivations -/

theorem rewrites (hq : g.Rewrites q w) : g'.Rewrites q w :=
  ⟨h.productions ▸ List.mem_append_left _ hq.1, hq.2⟩

theorem nullable (hw : g.Nullable w) : g'.Nullable w := by
  induction hw with
  | nil => exact .nil
  | cons hq _ _ ihb ihw => exact .cons (h.rewrites hq) ihb ihw

theorem begins (hw : g.Begins w t) : g'.Begins w t := by
  induction hw with
  | terminal ht => exact .terminal ht
  | enter hq _ ih => exact .enter (h.rewrites hq) ih
  | skip hq hb _ ih => exact .skip (h.rewrites hq) (h.nullable hb) ih

theorem spells (hw : g.Spells w ps x) : g'.Spells w ps x := by
  induction hw with
  | nil => exact .nil
  | terminal ht _ ih => exact .terminal ht ih
  | production hq _ _ ihb ihw => exact .production (h.rewrites hq) ihb ihw

theorem rewrites_or_new (hq : g'.Rewrites q w) : g.Rewrites q w ∨ q = p := by
  have hmem := hq.1
  rw [h.productions, List.mem_append, List.mem_singleton] at hmem
  exact hmem.imp_left fun hmem => ⟨hmem, hq.2⟩

theorem of_rewrites (hq : g'.Rewrites q w) (hne : q.head ≠ top) : g.Rewrites q w :=
  (h.rewrites_or_new hq).resolve_right fun hp => hne (hp ▸ h.head)

section Old

variable (hg : g.WF) (hplain : g.Plain) (hstart : start ∈ g.nonterminals)

include hg hplain hstart

theorem top_notMem_word (hq : g'.Rewrites q w) : top ∉ w := fun htop =>
  h.top_notMem hg (.tail _ (h.mem_of_rewrites hplain hstart hq top htop))

theorem of_spells (hs : g'.Spells w ps x) (hw : top ∉ w) : g.Spells w ps x := by
  induction hs with
  | nil => exact .nil
  | terminal ht _ ih => exact .terminal ht (ih (List.not_mem_of_not_mem_cons hw))
  | production hq _ _ ihb ihw =>
    exact .production (h.of_rewrites hq (List.ne_of_not_mem_cons hw).symm)
      (ihb (h.top_notMem_word hg hplain hstart hq)) (ihw (List.not_mem_of_not_mem_cons hw))

theorem of_nullable (hn : g'.Nullable w) (hw : top ∉ w) : g.Nullable w := by
  induction hn with
  | nil => exact .nil
  | cons hq _ _ ihb ihw =>
    exact .cons (h.of_rewrites hq (List.ne_of_not_mem_cons hw).symm)
      (ihb (h.top_notMem_word hg hplain hstart hq))
      (ihw (List.not_mem_of_not_mem_cons hw))

theorem of_begins (hb : g'.Begins w t) (hw : top ∉ w) : g.Begins w t := by
  induction hb with
  | terminal ht => exact .terminal ht
  | enter hq _ ih =>
    exact .enter (h.of_rewrites hq (List.ne_of_not_mem_cons hw).symm)
      (ih (h.top_notMem_word hg hplain hstart hq))
  | skip hq hn _ ih =>
    exact .skip (h.of_rewrites hq (List.ne_of_not_mem_cons hw).symm)
      (h.of_nullable hg hplain hstart hn (h.top_notMem_word hg hplain hstart hq))
        (ih (List.not_mem_of_not_mem_cons hw))

end Old

theorem word_eq (hp : g'.Rewrites p (u ++ s :: v)) : s = start ∧ v = [] := by
  have hword : [start] = u ++ s :: v :=
    Option.some.inj ((congrArg Body.word? h.body).symm.trans hp.2)
  cases u with
  | nil => exact ⟨(List.cons.inj hword).1.symm, (List.cons.inj hword).2.symm⟩
  | cons => simp at hword

theorem live (hlive : g.Live) : g'.Live := by
  intro q u a v hq hnt s hs
  rcases h.rewrites_or_new hq with hold | rfl
  · exact (hlive q u a v hold hnt s hs).imp h.nullable (Exists.imp fun _ => h.begins)
  · rw [(h.word_eq hq).2] at hs
    cases hs

end Augments

theorem Proper.spells_iff {g : Grammar ρ} {start : Symbol} (hg : g.Proper start)
    (h : g.Augments start g' top p) : g'.Spells [start] ps x ↔ g.Spells [start] ps x := by
  refine ⟨fun hs => h.of_spells hg.built.wf hg.plain hg.start_mem hs fun htop => ?_, h.spells⟩
  have hmem : start ∈ g.symbols := .tail _ (List.mem_append_right _ hg.start_mem)
  exact h.top_notMem hg.built.wf (List.mem_singleton.mp htop ▸ hmem)

theorem WF.augmented {g : Grammar ρ} {start : Symbol} (hg : g.WF) (hs : g.start = some start) :
    ∃ g' top p, g.augmented true = .ok g' ∧ g.Augments start g' top p := by
  let top := g.copy.nextSymbol "S'" .nonterminal
  let mid := (g.copy.pushStart "S'").2
  let p : Production ρ := {
    head := top
    body := .sentence [start]
    slots := if g.ledger.attributed == some true then some [some .inert, none] else none }
  have hmid : mid.WF := hg.copy.pushStart (by decide)
  have hgen : p.head.generation = mid.earlier.length := rfl
  have hform : mid.productions = [] ∨ mid.ledger.attributed = some p.isAttributed := by
    cases hps : g.productions with
    | nil => exact .inl hps
    | cons q qs =>
      have hatt := hg.attributed q (by simp [hps])
      right
      cases hq : q.isAttributed <;> rw [hq] at hatt <;> simp [mid, p, Grammar.copy,
        Grammar.pushStart, hatt, Production.isAttributed]
  -- no production has the new symbol as its head
  have hnew : ∀ q ∈ mid.filed, q.same p = .ok false := by
    intro q hq
    rw [Production.same, if_neg]
    intro hhead
    have hmem : q.head ∈ g.symbols := .tail _ (List.mem_append_right _ (hg.head_mem q hq))
    have hid : q.head.id = g.nextId := congrArg Symbol.id (eq_of_beq hhead)
    exact hg.id_notMem (List.mem_map.mpr ⟨q.head, hmem, hid⟩)
  have hadd := addProduction_new hgen hform hnew
  refine ⟨_, top, p, ?_, hmid.addProduction (.head _) hgen hadd, rfl, rfl, rfl, rfl, rfl, rfl,
    rfl, rfl⟩
  simp only [Grammar.augmented, Bool.true_or, if_true, Grammar.augment, hs]
  exact hadd

end Grammar

end AutoCool
