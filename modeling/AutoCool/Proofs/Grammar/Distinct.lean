import AutoCool.Proofs.Grammar.Augmented
import AutoCool.Proofs.Grammar.First

/-!
# Productions are kept once

A production is filed only when its head has no equal one, so no two productions of a grammar that
was built are equal (`Grammar.Built.distinct`). Where all right sides are words, equality of
productions can be told, and the list of productions has no repetitions
(`Grammar.Built.productions_nodup`). A new start symbol adds a production that was not there
(`Grammar.Augments.nodup`).
-/

namespace AutoCool.Grammar

variable {ρ : Type} {g g' : Grammar ρ} {p : Production ρ}

/-- No production is equal to one that was filed later. -/
def Distinct (g : Grammar ρ) : Prop := g.filed.Pairwise fun q p => q.same p = .ok false

namespace Distinct

theorem congr (hg : g.Distinct) (h : g'.filed = g.filed) : g'.Distinct := by
  rw [Distinct, h]
  exact hg

theorem addProduction (hg : g.Distinct) (h : g.addProduction p = .ok g') : g'.Distinct := by
  obtain ⟨l, -, rfl | ⟨hnew, rfl⟩⟩ := addProduction_cases h
  · exact hg.congr (filed_setLedger ..)
  · rw [Distinct, List.pairwise_append]
    exact ⟨hg, List.pairwise_singleton _ _, fun q hq p' hp' => List.mem_singleton.mp hp' ▸
      hnew q hq⟩

theorem stable : Stable (Distinct : Grammar ρ → Prop) :=
  ⟨fun hg _ => hg, fun hg _ => hg, fun hg _ => hg⟩

end Distinct

theorem Built.distinct (h : g.Built) : g.Distinct := by
  induction h with
  | empty n => exact List.Pairwise.nil
  | terminal _ h ih => exact Distinct.stable.of_terminal h ih
  | nonterminal _ h ih => exact Distinct.stable.of_nonterminal h ih
  | terminals _ ih => exact Distinct.stable.terminalsOf ih
  | nonterminals _ ih => exact Distinct.stable.nonterminalsOf ih
  | extend _ _ _ ih => exact extend_induction ih fun _ _ _ hg _ _ => hg.addProduction
  | copy _ ih => exact ih.congr rfl

theorem Distinct.nodup (hg : g.Distinct) (hwords : ∀ p ∈ g.filed, ∃ w, p.body.word? = some w) :
    g.filed.Nodup := by
  refine List.Pairwise.imp_of_mem (fun {q p} hq _ hne heq => ?_) hg
  obtain ⟨w, hw⟩ := hwords q hq
  subst heq
  rw [Production.same, if_pos (beq_self_eq_true q.head), FirstTable.same_self hw] at hne
  cases hne

theorem Built.productions_nodup (hg : g.Built) (hplain : g.Plain) : g.productions.Nodup := by
  rw [hg.wf.filed_eq]
  refine hg.distinct.nodup fun p hp => ?_
  obtain ⟨w, hw, -⟩ := hplain p (hg.wf.filed_eq ▸ hp)
  exact ⟨w, hw⟩

theorem Proper.productions_nodup {start : Symbol} (hg : g.Proper start) : g.productions.Nodup :=
  hg.built.productions_nodup hg.plain

theorem Augments.nodup {start top : Symbol} (h : g.Augments start g' top p) (hg : g.WF)
    (hnodup : g.productions.Nodup) : g'.productions.Nodup := by
  rw [h.productions, List.nodup_append]
  refine ⟨hnodup, List.nodup_singleton p, fun q hq p' hp' heq => ?_⟩
  cases List.mem_singleton.mp hp'
  have hhead : q.head ∈ g.nonterminals := hg.head_mem q (hg.filed_eq ▸ hq)
  rw [heq, h.head] at hhead
  exact h.top_notMem hg (.tail _ (List.mem_append_right _ hhead))

theorem WF.nodup_flatMap_productionsOf (hg : g.WF) (hnodup : g.productions.Nodup) :
    (g.nonterminals.flatMap g.productionsOf).Nodup := by
  rw [hg.filed_eq] at hnodup
  refine List.nodup_flatMap.mpr ⟨fun s _ => hnodup.filter _, ?_⟩
  refine (List.nodup_append.mp hg.declared_nodup).2.1.imp fun {s s'} hne q hq hq' => hne ?_
  have hs := eq_of_beq (List.mem_filter.mp hq).2
  have hs' := eq_of_beq (List.mem_filter.mp hq').2
  exact hs.symm.trans hs'

end AutoCool.Grammar
