import AutoCool.Proofs.LR1.Construction

/-!
# Item sets and their kernels

States are told apart by their kernels. The kernel can be read off the closure: what the closure
adds stands at the beginning of a production other than the first one, where no item of a kernel
stands (`Parser.Framed.eq_of_closure`). So no two states have the same items, before and after the
states are numbered (`Parser.Framed.label_injective`).
-/

namespace AutoCool.LR1

variable {ρ : Type}

namespace Setting

variable {t : Setting ρ} {g : Grammar ρ} {items : List Item} {i d n : Nat}

/-- The search goes on as long as something is pending, so it does not matter how long it may go on
after that. -/
theorem explore_of_pending_nil (h : (t.explore fuel f).pending = []) (hle : fuel ≤ fuel') :
    t.explore fuel' f = t.explore fuel f := by
  induction fuel generalizing f fuel' with
  | zero =>
    cases fuel' with
    | zero => rfl
    | succ fuel' =>
      rw [explore] at h
      simp only [explore, h]
  | succ fuel ih =>
    obtain ⟨fuel', rfl⟩ : ∃ k, fuel' = k + 1 := ⟨fuel' - 1, by omega⟩
    rw [explore] at h ⊢
    rw [explore]
    split at h
    · rfl
    · exact ih h (by omega)

theorem ItemSet.ext (h : t.ItemSet items) (h' : t.ItemSet items')
    (hstands : ∀ i d, Stands items i d ↔ Stands items' i d)
    (hhas : ∀ i d n, Has items i d n ↔ Has items' i d n) : items = items' := by
  refine h.eq_of_filled h' (Finset.ext fun c => ?_)
  obtain ⟨i, d, n⟩ := c
  rw [h.mem_filled, h'.mem_filled, hstands, hhas]

end Setting

/-! ### Reading the kernel off the closure -/

/-- No item is at the beginning of a production, but for the first one. -/
def IsKernel (items : List Item) : Prop := ∀ {i d}, Stands items i d → 0 < d ∨ i = 0

theorem isKernel_kernel (rules : Array (Rule ρ)) (items : List Item) (s : Symbol) :
    IsKernel (kernel rules items s) := by
  rintro i d ⟨x, hx, rfl, rfl⟩
  obtain ⟨y, -, rfl, -⟩ := Setting.mem_kernel.mp hx
  exact .inl (Nat.succ_pos _)

namespace Parser.Framed

variable {p : Parser ρ} {start : Symbol} {i d n : Nat} {K K' : List Item}

theorem stands_kernel (h : p.Framed start) (hK : IsKernel K) :
    Stands K i d ↔ Stands (closure p.rules (edgesOf p.rules) p.grammar.nextId K) i d ∧
    (0 < d ∨ i = 0) := by
  constructor
  · exact fun hs => ⟨Setting.stands_closure_of_stands (t := p.setting) hs, hK hs⟩
  · rintro ⟨hs, hd | rfl⟩
    · exact (h.exact.stands_closure hs).resolve_right fun hc => Nat.ne_of_gt hd hc.1
    · exact h.stands_first hs

theorem has_kernel_iff (h : p.Framed start) (hset : p.setting.ItemSet K) (hK : IsKernel K) :
    Has K i d n ↔ Has (closure p.rules (edgesOf p.rules) p.grammar.nextId K) i d n ∧
    (0 < d ∨ i = 0) := by
  have hclosure : Has (closure p.rules (edgesOf p.rules) p.grammar.nextId K) i d n ↔
      Closes p.grammar p.rules (Has K) i d n := h.exact.has_closure hset.ahead
  rw [hclosure]
  constructor
  · exact fun hn => ⟨.given hn, hK hn.stands⟩
  · rintro ⟨hn, hor⟩
    cases hn with
    | given hn => exact hn
    | expand _ hr hs hr' =>
      -- the first production is brought in by none
      obtain rfl := hor.resolve_left (Nat.lt_irrefl 0)
      exact absurd (List.mem_of_getElem? hs) (h.numbered.head_first hr hr')

theorem eq_of_closure (h : p.Framed start) (hset : p.setting.ItemSet K)
    (hset' : p.setting.ItemSet K') (hK : IsKernel K) (hK' : IsKernel K')
    (heq : closure p.rules (edgesOf p.rules) p.grammar.nextId K = closure p.rules (edgesOf p.rules)
      p.grammar.nextId K') : K = K' := by
  refine hset.ext hset' (fun i d => ?_) fun i d n => ?_
  · rw [h.stands_kernel hK, heq, ← h.stands_kernel hK']
  · rw [h.has_kernel_iff hset hK, heq, ← h.has_kernel_iff hset' hK']

theorem label_injective (h : p.Framed start)
    (hauto : p.automaton = renumber (p.setting.search p.firstItem).automaton)
    {q q' : State (List Item)} (hq : p.automaton.states[i]? = some q)
    (hq' : p.automaton.states[j]? = some q') (heq : q.label = q'.label) : i = j := by
  obtain ⟨hsettled, -, -, hkernels⟩ := h.exact.settled_search (first_itemSet h.wf h.numbered)
  have hkernel : ∀ k ∈ (p.setting.search p.firstItem).kernels, IsKernel k := by
    refine hkernels ?_ fun k s _ _ => isKernel_kernel _ _ s
    rintro i d ⟨x, hx, rfl, rfl⟩
    cases List.mem_singleton.mp hx
    exact .inr rfl
  -- a state in its place comes from a state that was found, and from its kernel
  have hold : ∀ {i : Nat} {q : State (List Item)}, p.automaton.states[i]? = some q →
      ∃ k K, (p.setting.search p.firstItem).automaton.visit[i]? = some k ∧
        (p.setting.search p.firstItem).kernels[k]? = some K ∧
        q.label = closure p.rules (edgesOf p.rules) p.grammar.nextId K := by
    intro i q hq
    rw [hauto, states_renumber] at hq
    obtain ⟨q0, hq0, rfl⟩ := Option.map_eq_some_iff.mp hq
    obtain ⟨k, hk, hq0⟩ := Option.bind_eq_some_iff.mp hq0
    have hlt : k < (p.setting.search p.firstItem).kernels.size :=
      hsettled.size_eq ▸ (Array.getElem?_eq_some_iff.mp hq0).1
    exact ⟨k, _, hk, Array.getElem?_eq_getElem hlt,
      hsettled.label (q := q0) (Array.getElem?_eq_getElem hlt) hq0⟩
  obtain ⟨k, K, hk, hK, hlabel⟩ := hold hq
  obtain ⟨k', K', hk', hK', hlabel'⟩ := hold hq'
  have hKK : K = K' := h.eq_of_closure (hsettled.itemSet hK) (hsettled.itemSet hK')
    (hkernel K (Array.mem_of_getElem? hK)) (hkernel K' (Array.mem_of_getElem? hK'))
    (hlabel.symm.trans (heq.trans hlabel'))
  have hkk : k = k' := by
    rw [← Array.getElem?_toList] at hK hK'
    exact (List.getElem?_inj (List.getElem?_eq_some_iff.mp hK).1 hsettled.nodup).mp
      (by rw [hK, hK', hKK])
  exact (List.getElem?_inj (List.getElem?_eq_some_iff.mp hk).1 visit_nodup).mp
    (by rw [hk, hk', hkk])

end Parser.Framed

end AutoCool.LR1
