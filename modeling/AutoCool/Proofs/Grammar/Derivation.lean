import AutoCool.Grammar.Basic

/-!
# Derivations

What a grammar derives, in two forms. `Grammar.RightDerives` rewrites the last nonterminal of a
sentential form, one production after the other. `Grammar.Spells` follows the syntax tree from left
to right and lists the productions bottom up, a production after those of its right side. On words
of terminals the two are one relation read in opposite directions (`Spells.rightDerives`,
`RightDerives.spells`), so a parser that reduces bottom up can be compared with rightmost
derivations.

`Grammar.Nullable` and `Grammar.Begins` say what a word derived from a phrase can begin with. They
are defined on sentential forms: a phrase begins with a terminal also when what comes after it
derives no word at all.
-/

namespace AutoCool

variable {ρ : Type}

/-- The word of a right side: its symbols in order. What is neither a sentence nor empty has
none. -/
def Body.word? : Body ρ → Option (List Symbol)
  | .epsilon => some []
  | .sentence symbols => some symbols
  | .stray _ => none

namespace Grammar

/-- The production is one of the grammar and its right side is the given word. -/
def Rewrites (g : Grammar ρ) (p : Production ρ) (w : List Symbol) : Prop :=
  p ∈ g.productions ∧ p.body.word? = some w

/-- Rightmost derivations: the given productions, one after the other, each applied to the last
nonterminal, lead from one sentential form to another. -/
inductive RightDerives (g : Grammar ρ) : List Symbol → List (Production ρ) → List Symbol → Prop
  | refl (u : List Symbol) : RightDerives g u [] u
  | step {p w v u ps x} : g.Rewrites p w → (∀ s ∈ v, s.isTerminal = true) →
      RightDerives g (u ++ w ++ v) ps x →
    RightDerives g (u ++ p.head :: v) (p :: ps) x

/-- The word of terminals that a phrase spells, with the productions of its syntax tree bottom up
and from left to right. -/
inductive Spells (g : Grammar ρ) : List Symbol → List (Production ρ) → List Symbol → Prop
  | nil : Spells g [] [] []
  | terminal {s w ps x} : s.isTerminal = true → Spells g w ps x → Spells g (s :: w) ps (s :: x)
  | production {p b ps x w qs y} : g.Rewrites p b → Spells g b ps x → Spells g w qs y →
    Spells g (p.head :: w) (ps ++ p :: qs) (x ++ y)

/-- The phrase derives the empty word. -/
inductive Nullable (g : Grammar ρ) : List Symbol → Prop
  | nil : Nullable g []
  | cons : g.Rewrites p b → Nullable g b → Nullable g w → Nullable g (p.head :: w)

/-- The phrase derives a sentential form that begins with the terminal. -/
inductive Begins (g : Grammar ρ) : List Symbol → Symbol → Prop
  | terminal : s.isTerminal = true → Begins g (s :: w) s
  | enter : g.Rewrites p b → Begins g b t → Begins g (p.head :: w) t
  | skip : g.Rewrites p b → Nullable g b → Begins g w t → Begins g (p.head :: w) t

/-- The symbol derives the word of terminals. -/
def Generates (g : Grammar ρ) (s : Symbol) (x : List Symbol) : Prop :=
  (∀ t ∈ x, t.isTerminal = true) ∧ ∃ ps, g.RightDerives [s] ps x

/-- What stands behind a nonterminal in a right side can be empty or begin with a terminal. -/
def Live (g : Grammar ρ) : Prop :=
  ∀ p u a v, g.Rewrites p (u ++ a :: v) → a.isNonterminal = true →
    ∀ s ∈ v, g.Nullable [s] ∨ ∃ t, g.Begins [s] t

/-- The heads of the productions are nonterminals. -/
def HeadsNonterminal (g : Grammar ρ) : Prop := ∀ p ∈ g.productions, p.head.isNonterminal = true

variable {g : Grammar ρ}

theorem HeadsNonterminal.not_isTerminal (hg : g.HeadsNonterminal) (h : g.Rewrites p w) :
    p.head.isTerminal = false := by
  simp [Symbol.isTerminal, hg p h.1]

/-! ### Phrases side by side -/

theorem Spells.append (hu : g.Spells u ps x) (hv : g.Spells v qs y) :
    g.Spells (u ++ v) (ps ++ qs) (x ++ y) := by
  induction hu with
  | nil => exact hv
  | terminal hs _ ih => exact .terminal hs ih
  | production hp hb _ _ ih =>
    simp only [List.append_assoc, List.cons_append]
    exact .production hp hb ih

theorem Spells.split (h : g.Spells (u ++ v) qs x) :
    ∃ ps ps' y y', qs = ps ++ ps' ∧ x = y ++ y' ∧ g.Spells u ps y ∧ g.Spells v ps' y' := by
  induction u generalizing qs x with
  | nil => exact ⟨[], qs, [], x, rfl, rfl, .nil, h⟩
  | cons s u ih =>
    rw [List.cons_append] at h
    generalize hw : s :: (u ++ v) = w at h
    cases h with
    | nil => cases hw
    | terminal hs h =>
      cases hw
      obtain ⟨ps, ps', y, y', rfl, rfl, hu, hv⟩ := ih h
      exact ⟨ps, ps', s :: y, y', rfl, rfl, .terminal hs hu, hv⟩
    | @production p b rs z w qs y hp hb h =>
      cases hw
      obtain ⟨ps, ps', y, y', rfl, rfl, hu, hv⟩ := ih h
      exact ⟨rs ++ p :: ps, ps', z ++ y, y', by simp, by simp, .production hp hb hu, hv⟩

theorem Spells.of_terminals (h : ∀ s ∈ x, s.isTerminal = true) : g.Spells x [] x := by
  induction x with
  | nil => exact .nil
  | cons s x ih => exact .terminal (h s (by simp)) (ih fun t ht => h t (by simp [ht]))

theorem Spells.isTerminal (h : g.Spells w ps x) : ∀ s ∈ x, s.isTerminal = true := by
  induction h with
  | nil => simp
  | terminal hs _ ih => simpa [hs] using ih
  | production _ _ _ ihb ihw =>
    intro s hs
    exact (List.mem_append.mp hs).elim (ihb s) (ihw s)

theorem Spells.eq_of_terminals (hg : g.HeadsNonterminal) (h : g.Spells w ps x)
    (hw : ∀ s ∈ w, s.isTerminal = true) : ps = [] ∧ x = w := by
  induction h with
  | nil => exact ⟨rfl, rfl⟩
  | terminal _ _ ih =>
    obtain ⟨rfl, rfl⟩ := ih fun t ht => hw t (by simp [ht])
    exact ⟨rfl, rfl⟩
  | production hp =>
    have := hw _ (.head _)
    simp [hg.not_isTerminal hp] at this

/-! ### Rightmost derivations and syntax trees -/

theorem RightDerives.trans (h : g.RightDerives u ps v) (h' : g.RightDerives v qs w) :
    g.RightDerives u (ps ++ qs) w := by
  induction h with
  | refl => exact h'
  | step hp hv _ ih => exact .step hp hv (ih h')

/-- A phrase in a context: what stands before it is left alone, and what stands after it is a word
of terminals. -/
theorem Spells.rightDerives_context (h : g.Spells w qs x) :
    ∀ {u v : List Symbol}, (∀ s ∈ v, s.isTerminal = true) →
      g.RightDerives (u ++ w ++ v) qs.reverse (u ++ x ++ v) := by
  induction h with
  | nil => exact fun _ => .refl _
  | @terminal s w ps x _ _ ih =>
    intro u v hv
    simpa using ih (u := u ++ [s]) hv
  | @production p b ps x w qs y hp hb hw ihb ihw =>
    intro u v hv
    have hyv : ∀ s ∈ y ++ v, s.isTerminal = true := fun s hs =>
      (List.mem_append.mp hs).elim (hw.isTerminal s) (hv s)
    -- the rest of the phrase is derived first, then the head, then the right side
    have hrest : g.RightDerives (u ++ p.head :: w ++ v) qs.reverse (u ++ p.head :: (y ++ v)) := by
      simpa using ihw (u := u ++ [p.head]) hv
    have hhead : g.RightDerives (u ++ p.head :: (y ++ v)) (p :: ps.reverse) (u ++ x ++ (y ++ v)) :=
      .step hp hyv (ihb hyv)
    simpa using hrest.trans hhead

/-- The productions of a syntax tree, read backwards, are a rightmost derivation. -/
theorem Spells.rightDerives (h : g.Spells w qs x) : g.RightDerives w qs.reverse x := by
  simpa using h.rightDerives_context (u := []) (v := []) (by simp)

/-- A rightmost derivation of a word of terminals, read backwards, lists a syntax tree bottom up. -/
theorem RightDerives.spells (hg : g.HeadsNonterminal) (h : g.RightDerives w ps x)
    (hx : ∀ s ∈ x, s.isTerminal = true) : g.Spells w ps.reverse x := by
  induction h with
  | refl => exact .of_terminals hx
  | @step p w v u ps x hp hv _ ih =>
    obtain ⟨qs, qs', y, y', hqs, rfl, huw, hv'⟩ := (ih hx).split
    obtain ⟨ps1, ps2, y1, y2, rfl, rfl, hu, hw⟩ := huw.split
    obtain ⟨rfl, rfl⟩ := hv'.eq_of_terminals hg hv
    have := hu.append (.production hp hw (.of_terminals hv))
    simpa [hqs] using this

theorem generates_iff_spells (hg : g.HeadsNonterminal) :
    g.Generates s x ↔ ∃ ps, g.Spells [s] ps x := by
  constructor
  · rintro ⟨hx, ps, h⟩
    exact ⟨_, h.spells hg hx⟩
  · rintro ⟨ps, h⟩
    exact ⟨h.isTerminal, _, h.rightDerives⟩

/-! ### What a phrase can begin with -/

theorem Nullable.append (hu : g.Nullable u) (hv : g.Nullable v) : g.Nullable (u ++ v) := by
  induction hu with
  | nil => exact hv
  | cons hp hb _ _ ih => exact .cons hp hb ih

theorem Begins.append_left (h : g.Begins u t) : g.Begins (u ++ v) t := by
  induction h with
  | terminal hs => exact .terminal hs
  | enter hp hb => exact .enter hp hb
  | skip hp hb _ ih => exact .skip hp hb ih

theorem Nullable.begins_append (hu : g.Nullable u) (hv : g.Begins v t) : g.Begins (u ++ v) t := by
  induction hu with
  | nil => exact hv
  | cons hp hb _ _ ih => exact .skip hp hb ih

theorem begins_append_iff : g.Begins (u ++ v) t ↔ g.Begins u t ∨ g.Nullable u ∧ g.Begins v t := by
  constructor
  · intro h
    induction u with
    | nil => exact .inr ⟨.nil, h⟩
    | cons s u ih =>
      rw [List.cons_append] at h
      generalize hw : s :: (u ++ v) = w at h
      cases h with
      | terminal hs => cases hw; exact .inl (.terminal hs)
      | enter hp hb => cases hw; exact .inl (.enter hp hb)
      | skip hp hb h =>
        cases hw
        rcases ih h with h | ⟨hu, h⟩
        · exact .inl (.skip hp hb h)
        · exact .inr ⟨.cons hp hb hu, h⟩
  · rintro (h | ⟨hu, hv⟩)
    · exact h.append_left
    · exact hu.begins_append hv

/-- A phrase before a terminal begins with what it begins with by itself, and with the terminal when
it can be empty. -/
theorem begins_concat_iff (ha : a.isTerminal = true) (hg : g.HeadsNonterminal) :
    g.Begins (w ++ [a]) b ↔ g.Begins w b ∨ g.Nullable w ∧ b = a := by
  rw [begins_append_iff]
  refine or_congr_right (and_congr_right fun _ =>
    ⟨fun h => ?_, fun h => by rw [h]; exact .terminal ha⟩)
  generalize hw : [a] = w at h
  cases h with
  | terminal => cases hw; rfl
  | enter hp | skip hp =>
    cases hw
    rw [hg.not_isTerminal hp] at ha
    cases ha

theorem nullable_or_begins (hw : ∀ s ∈ w, g.Nullable [s] ∨ ∃ t, g.Begins [s] t) :
    g.Nullable w ∨ ∃ t, g.Begins w t := by
  induction w with
  | nil => exact .inl .nil
  | cons s w ih =>
    rcases hw s (.head _) with hs | ⟨t, ht⟩
    · rcases ih fun t ht => hw t (.tail s ht) with hw | ⟨t, ht⟩
      · exact .inl (hs.append hw)
      · exact .inr ⟨t, hs.begins_append ht⟩
    · exact .inr ⟨t, ht.append_left (u := [s])⟩

theorem Begins.isTerminal (h : g.Begins w t) : t.isTerminal = true := by
  induction h with
  | terminal hs => exact hs
  | enter _ _ ih => exact ih
  | skip _ _ _ ih => exact ih

theorem Nullable.spells (h : g.Nullable w) : ∃ ps, g.Spells w ps [] := by
  induction h with
  | nil => exact ⟨[], .nil⟩
  | cons hp _ _ ihb ihw =>
    obtain ⟨ps, hb⟩ := ihb
    obtain ⟨qs, hw⟩ := ihw
    exact ⟨_, .production hp hb hw⟩

theorem Spells.nullable (h : g.Spells w ps []) : g.Nullable w := by
  generalize hx : ([] : List Symbol) = x at h
  induction h with
  | nil => exact .nil
  | terminal => cases hx
  | production hp _ _ ihb ihw =>
    obtain ⟨hx, hy⟩ := List.append_eq_nil_iff.mp hx.symm
    exact .cons hp (ihb hx.symm) (ihw hy.symm)

theorem Spells.begins (h : g.Spells w ps (t :: x)) : g.Begins w t := by
  generalize hx : t :: x = y at h
  induction h generalizing x with
  | nil => cases hx
  | terminal hs => cases hx; exact .terminal hs
  | @production p b ps z w qs y hp hb _ ihb ihw =>
    cases z with
    | nil => exact .skip hp hb.nullable (ihw hx)
    | cons s z => cases hx; exact .enter hp (ihb rfl)

theorem Spells.nullable_or_begins (h : g.Spells w ps x) : g.Nullable w ∨ ∃ t, g.Begins w t := by
  cases x with
  | nil => exact .inl h.nullable
  | cons t x => exact .inr ⟨t, h.begins⟩

theorem Spells.begins_append (h : g.Spells w ps x) (hv : g.Begins v b) :
    g.Begins (w ++ v) ((x ++ [b]).headD b) := by
  cases x with
  | nil => exact h.nullable.begins_append hv
  | cons t x => exact h.begins.append_left

end Grammar

end AutoCool
