import Mathlib.Algebra.Group.Action.Defs
import Mathlib.Algebra.Order.BigOperators.Group.List
import Mathlib.Algebra.Order.Ring.Nat
import AutoCool.Grammar.First
import AutoCool.Proofs.Grammar.Built
import AutoCool.Proofs.MarkedSet

/-!
# FIRST sets are exact

The table of FIRST sets grows until it is closed under the productions. While it grows it is sound:
a set has nothing but what its phrase can begin with, in the sense of `Grammar.Begins` and
`Grammar.Nullable`. When it stops it is complete. The number of rounds that is allowed is enough,
because a round that changes the table makes it bigger and a table with full sets cannot grow.
-/

namespace AutoCool

/-- Rounds until nothing changes. Each round but the last makes bigger what is to stay below a
bound, so the rounds end before they are used up, and however many more are allowed they are not
begun. -/
theorem rounds_ok {iterate : Nat → T → Except E T} {size : T → Nat} {Inv Closed : T → Prop}
    (hbound : ∀ {t}, Inv t → size t < bound) (hround : ∀ {t}, Inv t → ∃ t', Inv t' ∧
      (∀ n, iterate (n + 1) t = if size t' == size t then .ok t' else iterate n t') ∧
      (size t < size t' ∨ size t' = size t ∧ Closed t')) (ht : Inv t)
        (hfuel : bound ≤ fuel + size t) :
    ∃ t', (∀ n, fuel ≤ n → iterate n t = .ok t') ∧ Inv t' ∧ Closed t' := by
  induction fuel generalizing t with
  | zero =>
    have := hbound ht
    omega
  | succ fuel ih =>
    obtain ⟨t', ht', hnext, hor⟩ := hround ht
    have hpos : ∀ n, fuel + 1 ≤ n → ∃ m, n = m + 1 ∧ fuel ≤ m :=
      fun n hn => ⟨n - 1, by omega, by omega⟩
    rcases hor with hlt | ⟨heq, hclosed⟩
    · obtain ⟨t'', hiter, hrest⟩ := ih ht' (by omega)
      refine ⟨t'', fun n hn => ?_, hrest⟩
      obtain ⟨m, rfl, hm⟩ := hpos n hn
      rw [hnext, if_neg (by simpa using Nat.ne_of_gt hlt), hiter m hm]
    · refine ⟨t', fun n hn => ?_, ht', hclosed⟩
      obtain ⟨m, rfl, -⟩ := hpos n hn
      rw [hnext, if_pos (by simpa using heq)]

variable {ρ : Type}

theorem lookup_eq_of_mem [BEq α] [LawfulBEq α] {l : List (α × β)}
    (hnodup : (l.map (·.1)).Nodup) (h : (a, b) ∈ l) : l.lookup a = some b := by
  induction l with
  | nil => cases h
  | cons e l ih =>
    rw [List.map_cons, List.nodup_cons] at hnodup
    rcases List.mem_cons.mp h with rfl | h
    · simp
    · have hne : (a == e.1) = false :=
        beq_false_of_ne fun he => hnodup.1 (he ▸ List.mem_map_of_mem h)
      rw [List.lookup_cons, hne]
      exact ih hnodup.2 h

theorem nodup_map_concat (hl : (l.map f).Nodup)
    (ha : ∀ e ∈ l, f e ≠ f a) : ((l ++ [a]).map f).Nodup := by
  rw [List.map_append, List.map_singleton, List.nodup_append]
  refine ⟨hl, List.nodup_singleton _, fun x hx y hy => ?_⟩
  obtain ⟨e, he, rfl⟩ := List.mem_map.mp hx
  exact List.mem_singleton.mp hy ▸ ha e he

/-- A list whose elements stay or get bigger one by one: nothing changes, or the sum gets bigger. -/
theorem map_stays_or_grows {size : α → Nat} {l : List α}
    (hf : ∀ e ∈ l, f e = e ∨ size e < size (f e)) :
    (∀ e ∈ l, f e = e) ∨ (l.map size).sum < ((l.map f).map size).sum := by
  induction l with
  | nil => exact .inl (by simp)
  | cons e l ih =>
    have hl := ih fun e' he => hf e' (.tail e he)
    have hle : (l.map size).sum ≤ ((l.map f).map size).sum := by
      rcases hl with hl | hl
      · exact Nat.le_of_eq (by rw [List.map_congr_left hl, List.map_id'])
      · exact Nat.le_of_lt hl
    simp only [List.map_cons, List.sum_cons]
    rcases hf e (.head _) with he | he
    · rcases hl with hl | hl
      · left
        intro e' he'
        rcases List.mem_cons.mp he' with rfl | he'
        · exact he
        · exact hl e' he'
      · right; rw [he]; omega
    · right; omega

theorem modify_stays_or_grows {size : α → Nat} {l : List α}
    (hf : ∀ e ∈ l, f e = e ∨ size e < size (f e)) :
    l.modify k f = l ∨ (l.map size).sum < ((l.modify k f).map size).sum := by
  induction l generalizing k with
  | nil => exact .inl (by simp)
  | cons e l ih =>
    cases k with
    | zero =>
      simp only [List.modify_zero_cons, List.map_cons, List.sum_cons]
      rcases hf e (.head _) with he | he
      · exact .inl (by rw [he])
      · right; omega
    | succ k =>
      simp only [List.modify_succ_cons, List.map_cons, List.sum_cons]
      rcases ih (k := k) fun e' he => hf e' (.tail e he) with hl | hl
      · exact .inl (by rw [hl])
      · right; omega

namespace Grammar

/-- The set has nothing but what the phrase can begin with, each terminal once. -/
structure FirstSound (g : Grammar ρ) (w : List Symbol) (set : MarkedSet Symbol) : Prop where
  nodup : set.items.Nodup
  begins : ∀ x ∈ set.items, g.Begins w x
  nullable : set.epsilon = true → g.Nullable w

namespace FirstSound

variable {g : Grammar ρ} {w : List Symbol} {set set' : MarkedSet Symbol}

theorem empty : g.FirstSound w {} := ⟨List.nodup_nil, by simp, by simp⟩

theorem join (h : g.FirstSound w set) (h' : g.FirstSound w set') :
    g.FirstSound w (set.join set') where
  nodup := MarkedSet.nodup_join h.nodup
  begins x hx := (MarkedSet.mem_join.mp hx).elim (h.begins x) (h'.begins x)
  nullable he := by
    rw [MarkedSet.epsilon_join, Bool.or_eq_true] at he
    exact he.elim h.nullable h'.nullable

theorem head (hp : g.Rewrites p w) (h : g.FirstSound w set) :
    g.FirstSound [p.head] set where
  nodup := h.nodup
  begins x hx := .enter hp (h.begins x hx)
  nullable he := .cons hp (h.nullable he) .nil

theorem cons (h : g.FirstSound [s] set) (he : set.epsilon = false) :
    g.FirstSound (s :: w) set where
  nodup := h.nodup
  begins x hx := (h.begins x hx).append_left (v := w)
  nullable he' := by rw [he] at he'; cases he'

theorem cons_join (h : g.FirstSound [s] set) (he : set.epsilon = true) (hw : g.FirstSound w set') :
    g.FirstSound (s :: w) (MarkedSet.join { items := set.items } set') where
  nodup := MarkedSet.nodup_join h.nodup
  begins x hx := (MarkedSet.mem_join.mp hx).elim
    (fun hx => (h.begins x hx).append_left (v := w))
    (fun hx => (h.nullable he).begins_append (hw.begins x hx))
  nullable he' := by
    rw [MarkedSet.epsilon_join, Bool.false_or] at he'
    exact (h.nullable he).append (hw.nullable he')

end FirstSound

/-- A phrase of declared symbols begins with declared terminals. -/
theorem Plain.mem_terminals {g : Grammar ρ} (hg : g.Formed) (hplain : g.Plain)
    (h : g.Begins w x) (hw : ∀ s ∈ w, s ∈ g.terminals ++ g.nonterminals) : x ∈ g.terminals := by
  induction h with
  | @terminal s w hs =>
    rcases List.mem_append.mp (hw s (.head _)) with h | h
    · exact h
    · simp [hg.not_isTerminal h] at hs
  | enter hp _ ih =>
    obtain ⟨b, hb, hmem⟩ := hplain _ hp.1
    exact ih (Option.some.inj (hp.2.symm.trans hb) ▸ hmem)
  | skip _ _ _ ih => exact ih fun s hs => hw s (.tail _ hs)

end Grammar

namespace FirstTable

variable {g : Grammar ρ} {t t' : FirstTable ρ} {s : Symbol} {w : List Symbol}
  {f r set : MarkedSet Symbol}

/-! ### The set of a phrase -/

theorem get_eq (h : t.get? s = some f) : t.get s = .ok f := by
  rw [get, h]; rfl

theorem phrase_cons_ok (h : t.phrase (s :: w) = .ok r) : ∃ f, t.get? s = some f ∧
    (f.epsilon = false ∧ r = f ∨ f.epsilon = true ∧ ∃ r', t.phrase w = .ok r' ∧
      r = MarkedSet.join { items := f.items } r') := by
  rw [phrase, get] at h
  cases hs : t.get? s with
  | none => rw [hs] at h; cases h
  | some f =>
    refine ⟨f, rfl, ?_⟩
    rw [hs] at h
    change (if f.epsilon = true then _ else _) = _ at h
    cases he : f.epsilon with
    | false => rw [he] at h; cases h; exact .inl ⟨rfl, rfl⟩
    | true =>
      rw [he, if_pos rfl] at h
      cases hw : t.phrase w with
      | error e => rw [hw] at h; cases h
      | ok r' => rw [hw] at h; cases h; exact .inr ⟨rfl, r', rfl, rfl⟩

theorem phrase_ok (h : ∀ s ∈ w, ∃ f, t.get? s = some f) : ∃ r, t.phrase w = .ok r := by
  induction w with
  | nil => exact ⟨_, rfl⟩
  | cons s w ih =>
    obtain ⟨f, hf⟩ := h s (.head _)
    obtain ⟨r, hr⟩ := ih fun x hx => h x (.tail s hx)
    rw [phrase, get_eq hf, hr]
    cases he : f.epsilon with
    | false => exact ⟨f, by simp [bind, Except.bind, he]; rfl⟩
    | true => exact ⟨_, by simp [bind, Except.bind, he]; rfl⟩

theorem phrase_congr (h : t'.symbols = t.symbols) : t'.phrase w = t.phrase w := by
  have hget : ∀ s, t'.get s = t.get s := fun s => by rw [get, get, get?, get?, h]
  induction w with
  | nil => rfl
  | cons s w ih => rw [phrase, phrase, hget, ih]

theorem phrase_mono (hmono : ∀ s f, t.get? s = some f → t'.get? s = some f)
    (h : t.phrase w = .ok r) : t'.phrase w = .ok r := by
  induction w generalizing r with
  | nil => exact h
  | cons s w ih =>
    obtain ⟨f, hf, ⟨he, rfl⟩ | ⟨he, r', hr', rfl⟩⟩ := phrase_cons_ok h
    · rw [FirstTable.phrase, get_eq (hmono s _ hf)]
      simp only [bind, Except.bind, he]
      rfl
    · rw [FirstTable.phrase, get_eq (hmono s f hf), ih hr']
      simp only [bind, Except.bind, he]
      rfl

theorem body_eq (h : b.word? = some w) : t.body b = t.phrase w := by
  cases b with
  | epsilon => cases h; rfl
  | sentence symbols => cases h; rfl
  | stray e => cases h

/-- The sets of the symbols have nothing but what the symbols can begin with. -/
def Sound (t : FirstTable ρ) (g : Grammar ρ) : Prop := ∀ s f, t.get? s = some f → g.FirstSound [s] f

theorem Sound.phrase (ht : t.Sound g) (h : t.phrase w = .ok r) : g.FirstSound w r := by
  induction w generalizing r with
  | nil => cases h; exact ⟨List.nodup_nil, by simp, fun _ => .nil⟩
  | cons s w ih =>
    obtain ⟨f, hf, ⟨he, rfl⟩ | ⟨he, r', hr', rfl⟩⟩ := phrase_cons_ok h
    · exact (ht s _ hf).cons he
    · exact (ht s f hf).cons_join he (ih hr')

/-- The set of a right side is a part of that of its head. -/
def ClosedAt (t : FirstTable ρ) (p : Production ρ) : Prop :=
  ∀ w, p.body.word? = some w → ∃ f r, t.get? p.head = some f ∧ t.phrase w = .ok r ∧ r.Sub f

theorem ClosedAt.congr (h : t'.symbols = t.symbols) (hp : t.ClosedAt p) : t'.ClosedAt p := by
  intro w hw
  obtain ⟨f, r, hf, hr, hsub⟩ := hp w hw
  exact ⟨f, r, by rw [get?, h]; exact hf, phrase_congr h ▸ hr, hsub⟩

/-- The right side of the production has an entry, and its set is complete. -/
def HasBody (t : FirstTable ρ) (p : Production ρ) : Prop :=
  ∃ e ∈ t.bodies, e.body = p.body ∧ ∀ w r, p.body.word? = some w → t.phrase w = .ok r → r.Sub e.set

theorem HasBody.mono (h : t'.symbols = t.symbols) (hbodies : t.bodies <+: t'.bodies)
    (hp : t.HasBody p) : t'.HasBody p := by
  obtain ⟨e, he, hbody, hsub⟩ := hp
  exact ⟨e, hbodies.subset he, hbody, fun w r hw hr => hsub w r hw (phrase_congr h ▸ hr)⟩

/-- Nothing is missing: a terminal begins with itself, and a head with what its right sides begin
with. -/
structure Closed (t : FirstTable ρ) (g : Grammar ρ) : Prop where
  terminal : ∀ s f, t.get? s = some f → s.isTerminal = true → s ∈ f.items
  production : ∀ p ∈ g.productions, t.ClosedAt p

theorem Closed.epsilon (ht : t.Closed g) (hw : g.Nullable w) (h : t.phrase w = .ok r) :
    r.epsilon = true := by
  induction hw generalizing r with
  | nil => cases h; rfl
  | cons hp _ _ ihb ihw =>
    obtain ⟨f', rb, hf', hrb, hsub⟩ := ht.production _ hp.1 _ hp.2
    obtain ⟨f, hf, hor⟩ := phrase_cons_ok h
    obtain rfl : f = f' := Option.some.inj (hf.symm.trans hf')
    have he : f.epsilon = true := hsub.epsilon (ihb hrb)
    rcases hor with ⟨he', -⟩ | ⟨-, r', hr', rfl⟩
    · rw [he] at he'; cases he'
    · rw [MarkedSet.epsilon_join, ihw hr', Bool.or_true]

theorem Closed.mem (ht : t.Closed g) (hw : g.Begins w x) (h : t.phrase w = .ok r) :
    x ∈ r.items := by
  -- the set of the first symbol is a part of that of the phrase
  have hfirst : ∀ {s w r f}, t.phrase (s :: w) = .ok r → t.get? s = some f → x ∈ f.items →
      x ∈ r.items := by
    intro s w r f h hf hx
    obtain ⟨f', hf', ⟨-, rfl⟩ | ⟨-, r', -, rfl⟩⟩ := phrase_cons_ok h
    · cases hf'.symm.trans hf; exact hx
    · cases hf'.symm.trans hf; exact MarkedSet.mem_join.mpr (.inl hx)
  induction hw generalizing r with
  | terminal hs =>
    obtain ⟨f, hf, -⟩ := phrase_cons_ok h
    exact hfirst h hf (ht.terminal _ f hf hs)
  | enter hp _ ih =>
    obtain ⟨f, rb, hf, hrb, hsub⟩ := ht.production _ hp.1 _ hp.2
    exact hfirst h hf (hsub.items _ (ih hrb hfirst))
  | skip hp hb _ ih =>
    obtain ⟨f', rb, hf', hrb, hsub⟩ := ht.production _ hp.1 _ hp.2
    obtain ⟨f, hf, hor⟩ := phrase_cons_ok h
    obtain rfl : f = f' := Option.some.inj (hf.symm.trans hf')
    have he : f.epsilon = true := hsub.epsilon (ht.epsilon hb hrb)
    rcases hor with ⟨he', -⟩ | ⟨-, r', hr', rfl⟩
    · rw [he] at he'; cases he'
    · exact MarkedSet.mem_join.mpr (.inr (ih hr' hfirst))

/-! ### Growth -/

theorem total_eq (t : FirstTable ρ) :
    t.total = (t.symbols.map (·.2.size)).sum + (t.bodies.map (·.set.size)).sum := by
  rw [total, ← List.sum_eq_foldr, List.sum_append]

theorem joinSymbol_or (t : FirstTable ρ) (s : Symbol) (set : MarkedSet Symbol) :
    t.joinSymbol s set = t ∧ (∀ e ∈ t.symbols, e.1 = s → set.Sub e.2) ∨
      t.total < (t.joinSymbol s set).total := by
  let f : Symbol × MarkedSet Symbol → Symbol × MarkedSet Symbol := fun e =>
    if e.1 == s then (e.1, e.2.join set) else (e.1, e.2)
  have hf : ∀ e ∈ t.symbols, f e = e ∨ e.2.size < (f e).2.size := by
    intro e _
    by_cases he : e.1 == s
    · simp only [f, he, if_true]
      exact (e.2.join_eq_or set).imp (fun h => Prod.ext rfl h) id
    · exact .inl (if_neg he)
  have hsym : (t.joinSymbol s set).symbols = t.symbols.map f := rfl
  rcases map_stays_or_grows hf with h | h
  · left
    refine ⟨?_, fun e he hs => MarkedSet.sub_of_join_eq ?_⟩
    · have : t.symbols.map f = t.symbols := by rw [List.map_congr_left h, List.map_id']
      exact congrArg (fun l => { t with symbols := l }) this
    · simpa [f, hs] using congrArg Prod.snd (h e he)
  · right
    rw [total_eq, total_eq, hsym]
    exact Nat.add_lt_add_right h _

theorem joinBody_or (t : FirstTable ρ) (k : Nat) (set : MarkedSet Symbol) :
    t.joinBody k set = t ∧ (∀ e, t.bodies[k]? = some e → set.Sub e.set) ∨
      t.total < (t.joinBody k set).total := by
  have hf : ∀ e ∈ t.bodies, ({ e with set := e.set.join set } : BodyFirst ρ) = e ∨
      e.set.size < (e.set.join set).size :=
    fun e _ => (e.set.join_eq_or set).imp (fun h => by rw [h]) id
  rcases modify_stays_or_grows (k := k) hf with h | h
  · refine .inl ⟨congrArg (fun l => { t with bodies := l }) h, fun e he =>
      MarkedSet.sub_of_join_eq ?_⟩
    have hk := congrArg (·[k]?) h
    simp only [List.getElem?_modify_eq, he, Option.map_eq_map, Option.map_some,
      Option.some.injEq] at hk
    exact congrArg BodyFirst.set hk
  · right
    rw [total_eq, total_eq]
    exact Nat.add_lt_add_left h _

/-! ### The invariant of the iteration -/

/-- The table while it grows: the sets of all symbols, and the sets of the right sides that were
met. -/
structure Inv (t : FirstTable ρ) (g : Grammar ρ) : Prop where
  keys : t.symbols.map (·.1) = g.terminals ++ g.nonterminals
  sound : ∀ e ∈ t.symbols, g.FirstSound [e.1] e.2
  terminal : ∀ e ∈ t.symbols, e.1.isTerminal = true → e.1 ∈ e.2.items
  owner_nodup : (t.bodies.map (·.owner)).Nodup
  body_nodup : (t.bodies.map (·.body)).Nodup
  origin : ∀ e ∈ t.bodies, ∃ p, g.productions[e.owner]? = some p ∧ e.body = p.body
  body_sound : ∀ e ∈ t.bodies, ∀ w, e.body.word? = some w → g.FirstSound w e.set

theorem mem_of_get? (h : t.get? s = some f) : (s, f) ∈ t.symbols := by
  obtain ⟨l1, l2, h, -⟩ := List.lookup_eq_some_iff.mp h
  rw [h]; simp

namespace Inv

variable {p : Production ρ} {k : Nat}

theorem get?_of_mem (hg : g.Formed) (ht : t.Inv g) (h : (s, f) ∈ t.symbols) : t.get? s = some f :=
  lookup_eq_of_mem (ht.keys ▸ hg.declared_nodup) h

theorem get?_exists (hg : g.Formed) (ht : t.Inv g) (h : s ∈ g.terminals ++ g.nonterminals) :
    ∃ f, t.get? s = some f := by
  rw [← ht.keys] at h
  obtain ⟨e, he, rfl⟩ := List.mem_map.mp h
  exact ⟨e.2, ht.get?_of_mem hg he⟩

theorem table_sound (ht : t.Inv g) : t.Sound g := fun _ _ h => ht.sound _ (mem_of_get? h)

theorem total_lt (hg : g.Formed) (hplain : g.Plain) (ht : t.Inv g) : t.total < g.firstsBound := by
  have hsize : ∀ {w set}, (∀ s ∈ w, s ∈ g.terminals ++ g.nonterminals) → g.FirstSound w set →
      set.size ≤ g.terminals.length + 1 := fun hw h =>
    MarkedSet.size_le_of_subset h.nodup fun x hx => hplain.mem_terminals hg (h.begins x hx) hw
  have hsymbols : (t.symbols.map (·.2.size)).sum ≤
      (g.terminals.length + g.nonterminals.length) * (g.terminals.length + 1) := by
    have hlen : t.symbols.length = g.terminals.length + g.nonterminals.length := by
      rw [← List.length_append, ← ht.keys, List.length_map]
    have := List.sum_le_card_nsmul (t.symbols.map (·.2.size)) (g.terminals.length + 1)
        fun n hn => by
      obtain ⟨e, he, rfl⟩ := List.mem_map.mp hn
      refine hsize (fun s hs => ?_) (ht.sound e he)
      rw [List.mem_singleton.mp hs, ← ht.keys]
      exact List.mem_map_of_mem he
    rwa [List.length_map, hlen, smul_eq_mul] at this
  have hbodies : (t.bodies.map (·.set.size)).sum ≤ g.productions.length *
      (g.terminals.length + 1) := by
    have hlen : t.bodies.length ≤ g.productions.length := by
      rw [← List.length_map (·.owner), ← List.length_range (n := g.productions.length)]
      refine (List.subperm_of_subset ht.owner_nodup fun n hn => ?_).length_le
      obtain ⟨e, he, rfl⟩ := List.mem_map.mp hn
      obtain ⟨p, hp, -⟩ := ht.origin e he
      exact List.mem_range.mpr (List.getElem?_eq_some_iff.mp hp).1
    have := List.sum_le_card_nsmul (t.bodies.map (·.set.size)) (g.terminals.length + 1)
        fun n hn => by
      obtain ⟨e, he, rfl⟩ := List.mem_map.mp hn
      obtain ⟨p, hp, hbody⟩ := ht.origin e he
      obtain ⟨w, hw, hmem⟩ := hplain p (List.mem_of_getElem? hp)
      exact hsize hmem (ht.body_sound e he w (hbody ▸ hw))
    rw [List.length_map, smul_eq_mul] at this
    exact this.trans (Nat.mul_le_mul_right _ hlen)
  rw [total_eq, Grammar.firstsBound, Nat.add_mul]
  exact Nat.lt_succ_of_le (Nat.add_le_add hsymbols hbodies)

theorem joinSymbol (ht : t.Inv g) (hp : g.Rewrites p w) (hset : g.FirstSound w set) :
    (t.joinSymbol p.head set).Inv g := by
  have hmem : ∀ e ∈ (t.joinSymbol p.head set).symbols, ∃ e' ∈ t.symbols, e.1 = e'.1 ∧
      (e = e' ∨ e.1 = p.head ∧ e.2 = e'.2.join set) := by
    intro e he
    obtain ⟨e', he', rfl⟩ := List.mem_map.mp he
    refine ⟨e', he', ?_⟩
    by_cases h : e'.1 = p.head
    · simp [h]
    · simp [h]
  refine { ht with keys := ?_, sound := ?_, terminal := ?_ }
  · rw [← ht.keys, FirstTable.joinSymbol, List.map_map]
    refine List.map_congr_left fun e _ => ?_
    simp only [Function.comp_apply]
    split <;> rfl
  · intro e he
    obtain ⟨e', he', hfst, rfl | ⟨hhead, hsnd⟩⟩ := hmem e he
    · exact ht.sound e he'
    · rw [hsnd, hfst]
      exact (ht.sound e' he').join (hfst ▸ hhead ▸ hset.head hp)
  · intro e he hs
    obtain ⟨e', he', hfst, rfl | ⟨-, hsnd⟩⟩ := hmem e he
    · exact ht.terminal e he' hs
    · rw [hsnd, hfst]
      exact MarkedSet.mem_join.mpr (.inl (ht.terminal e' he' (hfst ▸ hs)))

theorem joinBody (ht : t.Inv g) (hk : ∀ e, t.bodies[k]? = some e → e.body.word? = some w)
    (hset : g.FirstSound w set) : (t.joinBody k set).Inv g := by
  have hmem : ∀ e ∈ (t.joinBody k set).bodies, ∃ e' ∈ t.bodies, e.owner = e'.owner ∧
      e.body = e'.body ∧
      (e = e' ∨ e'.body.word? = some w ∧ e.set = e'.set.join set) := by
    intro e he
    obtain ⟨i, hi⟩ := List.mem_iff_getElem?.mp he
    rw [FirstTable.joinBody, List.getElem?_modify] at hi
    obtain ⟨e', he', rfl⟩ := Option.map_eq_some_iff.mp hi
    refine ⟨e', List.mem_of_getElem? he', ?_⟩
    by_cases h : k = i
    · subst h
      simp [hk e' he']
    · simp [h]
  -- joining sets leaves what an entry is for
  have hmap : ∀ {β : Type} (f : BodyFirst ρ → β), (∀ e set, f { e with set } = f e) →
      (t.joinBody k set).bodies.map f = t.bodies.map f := by
    intro β f hf
    refine List.ext_getElem? fun i => ?_
    simp only [FirstTable.joinBody, List.getElem?_map, List.getElem?_modify]
    cases t.bodies[i]? with
    | none => rfl
    | some e => by_cases h : k = i <;> simp [h, hf]
  refine { ht with owner_nodup := ?_, body_nodup := ?_, origin := ?_, body_sound := ?_ }
  · exact hmap (·.owner) (fun _ _ => rfl) ▸ ht.owner_nodup
  · exact hmap (·.body) (fun _ _ => rfl) ▸ ht.body_nodup
  · intro e he
    obtain ⟨e', he', howner, hbody, -⟩ := hmem e he
    rw [howner, hbody]
    exact ht.origin e' he'
  · intro e he v hv
    obtain ⟨e', he', -, hbody, rfl | ⟨hw, hjoin⟩⟩ := hmem e he
    · exact ht.body_sound e he' v hv
    · rw [hbody] at hv
      cases hw.symm.trans hv
      rw [hjoin]
      exact (ht.body_sound e' he' w hw).join hset

end Inv

/-! ### Places of right sides -/

theorem eq_of_alikeParts {v : List Symbol}
    (h : Term.alikeParts (u.map fun s => (.symbol s : Term ρ)) (v.map .symbol) = true) : u = v := by
  induction u generalizing v with
  | nil =>
    cases v with
    | nil => rfl
    | cons s v => cases h
  | cons s u ih =>
    cases v with
    | nil => cases h
    | cons s' v =>
      simp only [List.map_cons, Term.alikeParts, Term.alike, Bool.and_eq_true, beq_iff_eq] at h
      rw [h.1, ih h.2]

theorem eq_of_alike {b : Body ρ} (ha : a.word? = some u) (hb : b.word? = some v)
    (h : a.toTerm.alike b.toTerm = true) : a = b := by
  cases a with
  | stray e => cases ha
  | epsilon =>
    cases b with
    | epsilon => rfl
    | sentence symbols => simp [Body.toTerm, Term.ofSymbols, Term.alike] at h
    | stray e => cases hb
  | sentence symbols =>
    cases b with
    | epsilon => simp [Body.toTerm, Term.ofSymbols, Term.alike] at h
    | sentence symbols' =>
      simp only [Body.toTerm, Term.ofSymbols, Term.alike] at h
      rw [eq_of_alikeParts h]
    | stray e => cases hb

theorem alikeParts_self (u : List Symbol) :
    Term.alikeParts (u.map fun s => (.symbol s : Term ρ)) (u.map .symbol) = true := by
  induction u with
  | nil => rfl
  | cons s u ih => simp [Term.alikeParts, Term.alike, ih]

theorem alike_self {b : Body ρ} (h : b.word? = some w) : b.toTerm.alike b.toTerm = true := by
  cases b with
  | epsilon => simp [Body.toTerm, Term.alike]
  | sentence symbols =>
    simpa [Body.toTerm, Term.ofSymbols, Term.alike] using alikeParts_self symbols
  | stray e => cases h

theorem same_self {b : Body ρ} (h : b.word? = some w) : b.same b = .ok true := by
  cases b with
  | epsilon => simp [Body.same, Body.toTerm, Term.same]
  | sentence symbols => simp [Body.same_sentence]
  | stray e => cases h

namespace Inv

variable {p : Production ρ} {k : Nat}

theorem place?_ok (hplain : g.Plain) (ht : t.Inv g) (hk : g.productions[k]? = some p)
    (hw : p.body.word? = some w) : ∃ i?, t.place? k p.body = .ok i? ∧
      (i? = none → ∀ e ∈ t.bodies, e.owner ≠ k ∧ e.body ≠ p.body) ∧
      ∀ i, i? = some i → ∃ e, t.bodies[i]? = some e ∧ e.body = p.body := by
  unfold place?
  cases hfind : t.bodies.findIdx? fun e => e.owner == k || e.body.toTerm.alike p.body.toTerm with
  | none =>
    refine ⟨none, rfl, fun _ e he => ?_, by simp⟩
    have hnot := List.findIdx?_eq_none_iff.mp hfind e he
    rw [Bool.or_eq_false_iff] at hnot
    refine ⟨by simpa using hnot.1, fun hbody => ?_⟩
    rw [hbody, alike_self hw] at hnot
    cases hnot.2
  | some i =>
    obtain ⟨hi, hor, -⟩ := List.findIdx?_eq_some_iff_getElem.mp hfind
    obtain ⟨e, he⟩ : ∃ e, t.bodies[i] = e := ⟨_, rfl⟩
    have hget : t.bodies[i]? = some e := he ▸ List.getElem?_eq_getElem hi
    rw [he] at hor
    simp only [hget]
    -- it is the right side of this production, which was met before, or an equal one
    have heq : e.body = p.body := by
      obtain ⟨q, hq, hbody⟩ := ht.origin e (List.mem_of_getElem? hget)
      by_cases howner : e.owner = k
      · rw [howner, hk] at hq
        rw [hbody, Option.some.inj hq]
      · obtain ⟨v, hv, -⟩ := hplain q (List.mem_of_getElem? hq)
        exact eq_of_alike (hbody ▸ hv) hw (by simpa [howner] using hor)
    refine ⟨some i, ?_, by simp, ?_⟩
    · simp only [heq, same_self hw, bind, Except.bind, Bool.or_true, if_true]
      rfl
    · rintro _ ⟨⟩
      exact ⟨e, hget, heq⟩

theorem meet_ok (hplain : g.Plain) (ht : t.Inv g) (hk : g.productions[k]? = some p)
    (hw : p.body.word? = some w) : ∃ i t', t.meet k p.body = .ok (i, t') ∧ t'.Inv g ∧
      t'.symbols = t.symbols ∧ t'.total = t.total ∧ t.bodies <+: t'.bodies ∧
      ∃ e, t'.bodies[i]? = some e ∧ e.body = p.body := by
  obtain ⟨i?, hplace, hnone, hsome⟩ := ht.place?_ok hplain hk hw
  rw [meet, hplace]
  cases i? with
  | some i => exact ⟨i, t, rfl, ht, rfl, rfl, List.prefix_rfl, hsome i rfl⟩
  | none =>
    have hkey : p.body.toTerm.isKey = true := by
      cases hb : p.body with
      | epsilon => simp [Body.toTerm, Term.isKey]
      | sentence symbols => simp [Body.toTerm, Term.ofSymbols, Term.isKey]
      | stray e => rw [hb] at hw; cases hw
    refine ⟨t.bodies.length, { t with bodies := t.bodies ++ [{ owner := k, body := p.body }] }, ?_,
      ?_, rfl,
      ?_, List.prefix_append .., ?_⟩
    · simp only [bind, Except.bind, hkey]; rfl
    · refine { ht with owner_nodup := ?_, body_nodup := ?_, origin := ?_, body_sound := ?_ }
      · exact nodup_map_concat ht.owner_nodup fun e he => (hnone rfl e he).1
      · exact nodup_map_concat ht.body_nodup fun e he => (hnone rfl e he).2
      · intro e he
        rcases List.mem_append.mp he with he | he
        · exact ht.origin e he
        · rw [List.mem_singleton.mp he]; exact ⟨p, hk, rfl⟩
      · intro e he v hv
        rcases List.mem_append.mp he with he | he
        · exact ht.body_sound e he v hv
        · rw [List.mem_singleton.mp he]; exact .empty
    · simp [total_eq, MarkedSet.size]
    · exact ⟨_, List.getElem?_concat_length, rfl⟩

/-- One production: the table is closed under it and has its right side, or gets bigger. -/
theorem step_ok (hg : g.Formed) (hplain : g.Plain) (ht : t.Inv g)
    (hk : g.productions[k]? = some p) :
    ∃ t', t.step (p, k) = .ok t' ∧ t'.Inv g ∧ (t.total < t'.total ∨
      t'.total = t.total ∧ t'.symbols = t.symbols ∧ t.bodies <+: t'.bodies ∧ t.ClosedAt p ∧
        t'.HasBody p) := by
  have hp : p ∈ g.productions := List.mem_of_getElem? hk
  obtain ⟨w, hw, hmem⟩ := hplain p hp
  obtain ⟨f, hf⟩ := ht.get?_exists hg (s := p.head)
    (List.mem_append_right _ (hg.head_mem p hp))
  obtain ⟨i, t1, hmeet, ht1, hsym1, htot1, hpre1, e, he, hbody⟩ := ht.meet_ok hplain hk hw
  obtain ⟨r, hr⟩ := t1.phrase_ok fun s hs => ht1.get?_exists hg (hmem s hs)
  have hsound := ht1.table_sound.phrase hr
  refine ⟨(t1.joinBody i r).joinSymbol p.head r, ?_,
    (ht1.joinBody (fun e' he' => ?_) hsound).joinSymbol ⟨hp, hw⟩ hsound, ?_⟩
  · simp only [step, get_eq hf, hmeet, bind, Except.bind, body_eq hw, hr]
    rfl
  · cases he.symm.trans he'
    rw [hbody, hw]
  · rw [← htot1]
    rcases joinBody_or t1 i r with ⟨h1, hsub1⟩ | h1 <;>
      rcases joinSymbol_or (t1.joinBody i r) p.head r with ⟨h2, hsub⟩ | h2
    · right
      rw [h2, h1]
      refine ⟨rfl, hsym1, hpre1, fun v hv => ?_, e, List.mem_of_getElem? he, hbody,
        fun v r' hv hr' => ?_⟩
      · cases hw.symm.trans hv
        exact ⟨f, r, hf, phrase_congr hsym1 ▸ hr,
          hsub (p.head, f) (by rw [h1, hsym1]; exact mem_of_get? hf) rfl⟩
      · cases hw.symm.trans hv
        cases hr.symm.trans hr'
        exact hsub1 e he
    · left; rwa [h1] at h2 ⊢
    · left; rwa [h2]
    · exact .inl (h1.trans h2)

theorem foldlM_ok (hg : g.Formed) (hplain : g.Plain) (ht : t.Inv g) {l : List (Production ρ × Nat)}
    (hl : ∀ e ∈ l, g.productions[e.2]? = some e.1) :
    ∃ t', l.foldlM step t = .ok t' ∧ t'.Inv g ∧ (t.total < t'.total ∨ t'.total = t.total ∧
      t'.symbols = t.symbols ∧ t.bodies <+: t'.bodies ∧ ∀ e ∈ l, t.ClosedAt e.1 ∧
        t'.HasBody e.1) := by
  induction l generalizing t with
  | nil => exact ⟨t, rfl, ht, .inr ⟨rfl, rfl, List.prefix_rfl, by simp⟩⟩
  | cons e l ih =>
    obtain ⟨t1, hstep, ht1, hor1⟩ := ht.step_ok hg hplain (hl e (.head _))
    obtain ⟨t2, hfold, ht2, hor2⟩ := ih ht1 fun e' he => hl e' (.tail e he)
    refine ⟨t2, by rw [List.foldlM_cons, hstep]; exact hfold, ht2, ?_⟩
    rcases hor1 with h1 | ⟨htot1, hsym1, hpre1, hclosed1, hhas1⟩ <;>
      rcases hor2 with h2 | ⟨htot2, hsym2, hpre2, hl2⟩
    · exact .inl (h1.trans h2)
    · exact .inl (htot2 ▸ h1)
    · exact .inl (htot1 ▸ h2)
    · refine .inr ⟨htot2.trans htot1, hsym2.trans hsym1, hpre1.trans hpre2, fun e' he => ?_⟩
      rcases List.mem_cons.mp he with rfl | he
      · exact ⟨hclosed1, hhas1.mono hsym2 hpre2⟩
      · exact ⟨.congr hsym1.symm (hl2 e' he).1, (hl2 e' he).2⟩

theorem iterate_ok (hg : g.Formed) (hplain : g.Plain) (ht : t.Inv g)
    (hfuel : g.firstsBound ≤ fuel + t.total) :
    ∃ t', (∀ n, fuel ≤ n → iterate g.productions n t = .ok t') ∧ t'.Inv g ∧
      ∀ p ∈ g.productions, t'.ClosedAt p ∧ t'.HasBody p := by
  refine rounds_ok (fun ht => ht.total_lt hg hplain) (fun {t} ht => ?_) ht hfuel
  obtain ⟨t', hfold, ht', hor⟩ := ht.foldlM_ok hg hplain (l := g.productions.zipIdx)
    fun e he => List.mem_zipIdx_iff_getElem?.mp he
  refine ⟨t', ht', fun n => by rw [iterate, hfold]; rfl, hor.imp_right ?_⟩
  rintro ⟨htot, hsym, -, hl⟩
  refine ⟨htot, fun p hp => ?_⟩
  obtain ⟨k, hk⟩ := List.mem_iff_getElem?.mp hp
  obtain ⟨hclosed, hhas⟩ := hl (p, k) (List.mem_zipIdx_iff_getElem?.mpr hk)
  exact ⟨.congr hsym hclosed, hhas⟩

theorem base (hg : g.Formed) : g.firstsBase.Inv g := by
  have hmem : ∀ e ∈ g.firstsBase.symbols,
      (∃ s ∈ g.terminals, e = (s, { items := [s] })) ∨ ∃ s ∈ g.nonterminals, e = (s, {}) := by
    intro e he
    rcases List.mem_append.mp he with he | he
    · obtain ⟨s, hs, rfl⟩ := List.mem_map.mp he
      exact .inl ⟨s, hs, rfl⟩
    · obtain ⟨s, hs, rfl⟩ := List.mem_map.mp he
      exact .inr ⟨s, hs, rfl⟩
  refine ⟨?_, fun e he => ?_, fun e he hs => ?_, List.nodup_nil, List.nodup_nil,
    by simp [Grammar.firstsBase], by simp [Grammar.firstsBase]⟩
  · simp [Grammar.firstsBase, Function.comp_def]
  · obtain ⟨s, hs, rfl⟩ | ⟨s, -, rfl⟩ := hmem e he
    · refine ⟨List.nodup_singleton s, fun x hx => ?_, by simp⟩
      rw [List.mem_singleton.mp hx]
      exact .terminal (hg.isTerminal hs)
    · exact .empty
  · obtain ⟨s, -, rfl⟩ | ⟨s, hs', rfl⟩ := hmem e he
    · exact List.mem_singleton.mpr rfl
    · simp [hg.not_isTerminal hs'] at hs

end Inv

end FirstTable

/-- The rounds end by themselves with a table that is sound and from which nothing is missing,
neither for a symbol nor for a right side. -/
theorem Grammar.Formed.firsts_ok {g : Grammar ρ} (hg : g.Formed) (hplain : g.Plain) :
    ∃ t, (∀ n, g.firstsBound ≤ n → FirstTable.iterate g.productions n g.firstsBase = .ok t) ∧
      t.Inv g ∧
      t.Closed g ∧ ∀ p ∈ g.productions, t.HasBody p := by
  obtain ⟨t, hiter, ht, hl⟩ := (FirstTable.Inv.base hg).iterate_ok hg hplain (Nat.le_add_right _ _)
  exact ⟨t, hiter, ht, ⟨fun s f hf hs => ht.terminal _ (FirstTable.mem_of_get? hf) hs, fun p hp =>
    (hl p hp).1⟩,
    fun p hp => (hl p hp).2⟩

/-- The FIRST sets of a grammar are exact: what they have is sound, and nothing is missing. -/
theorem Grammar.firsts_ok {g : Grammar ρ} (hg : g.WF) (hplain : g.Plain) :
    ∃ t, g.firsts = .ok t ∧ t.Sound g ∧ t.Closed g ∧
      ∀ s, (∃ f, t.get? s = some f) ↔ s ∈ g.terminals ++ g.nonterminals := by
  obtain ⟨t, hiter, ht, hclosed, -⟩ := hg.formed.firsts_ok hplain
  refine ⟨t, hiter _ (Nat.le_refl _), ht.table_sound, hclosed, fun s =>
    ⟨?_, ht.get?_exists hg.formed⟩⟩
  rintro ⟨f, hf⟩
  rw [← ht.keys]
  exact List.mem_map_of_mem (FirstTable.mem_of_get? hf)

end AutoCool
