import Mathlib.Data.Nat.Bitwise
import AutoCool.Proofs.LR1.Conflicts

/-!
# The simple condition

A grammar is simple when no two items that can be valid together ask for different things before the
symbols that can come after their heads. This is decided on numbers, so that it can be evaluated for
a whole grammar: rules are given by the numbers of their symbols, and sets of items and of symbols
by the bits of a number.

`Tables` hold what is said about the rules. Whatever they hold, once `Tables.checks` accepts them
the rules are `Decisive` (`Tables.decisive`). `Shape.tables` finds them by passing over the rules
until nothing changes.
-/

namespace AutoCool.LR1

/-- Rules by the numbers of their heads and of their symbols. -/
abbrev Shape := List (Nat × List Nat)

/-- The members of one set are members of the other. -/
def within (m n : Nat) : Bool := (m &&& n).beq m

/-- The sets have a member in common. -/
def meets (m n : Nat) : Bool := !(m &&& n).beq 0

theorem testBit_of_within (h : within m n = true) (hm : m.testBit k = true) :
    n.testBit k = true := by
  have hand : m &&& n = m := Nat.eq_of_beq_eq_true h
  rw [← hand, Nat.testBit_and, Bool.and_eq_true] at hm
  exact hm.2

theorem meets_of_testBit (hm : m.testBit k = true) (hn : n.testBit k = true) :
    meets m n = true := by
  have hk : (m &&& n).testBit k = true := by rw [Nat.testBit_and, hm, hn, Bool.and_self]
  rw [meets, Bool.not_eq_true', ← Bool.not_eq_true]
  intro h
  rw [Nat.eq_of_beq_eq_true h, Nat.zero_testBit] at hk
  cases hk

theorem exists_testBit_of_meets (h : meets m n = true) :
    ∃ k, m.testBit k = true ∧ n.testBit k = true := by
  have hne : m &&& n ≠ 0 := fun h0 => by simp [meets, h0] at h
  obtain ⟨k, hk⟩ := Nat.exists_testBit_of_ne_zero hne
  exact ⟨k, by simpa [Nat.testBit_and] using hk⟩

namespace Shape

/-- The number of the item at place `d` of rule number `i`. -/
def place (i d : Nat) : Nat := 16 * i + d

/-- The items that are given for each rule by the numbers of their places. -/
def collect (places : Nat × List Nat → Nat) : Shape → Nat
  | [] => 0
  | e :: shape => places e ||| collect places shape <<< 16

/-- The places before the symbols that are picked. -/
def before (pick : Nat → Bool) : List Nat → Nat
  | [] => 0
  | s :: u => (bif pick s then 1 else 0) ||| before pick u <<< 1

/-- The items that expect one of the symbols that are picked. -/
def expecting (shape : Shape) (pick : Nat → Bool) : Nat := shape.collect fun e => before pick e.2

/-- The first items of the rules with the given head. -/
def opening (shape : Shape) (a : Nat) : Nat := shape.collect fun e => bif e.1.beq a then 1 else 0

/-- The complete items. -/
def completed (shape : Shape) : Nat := shape.collect fun e => 1 <<< e.2.length

def heads (shape : Shape) : List Nat := (shape.map Prod.fst).eraseDups

/-- The items with what is given for each head that they expect. -/
def spread (shape : Shape) (given : Nat → Nat) (m : Nat) : Nat :=
  shape.heads.foldl (fun n a => bif meets m (shape.expecting a.beq) then n ||| given a else n) m

theorem testBit_collect {shape : Shape}
    (h : shape[i]? = some e) (hd : (places e).testBit d = true) :
    (shape.collect places).testBit (place i d) = true := by
  induction shape generalizing i with
  | nil => cases h
  | cons e' shape ih =>
    rw [collect, Nat.testBit_or, Bool.or_eq_true]
    cases i with
    | zero =>
      obtain rfl := Option.some.inj h
      exact .inl (by simpa [place] using hd)
    | succ i =>
      have hplace : place (i + 1) d - 16 = place i d := by unfold place; omega
      refine .inr ?_
      rw [Nat.testBit_shiftLeft, hplace, ih h, Bool.and_true, decide_eq_true_eq]
      unfold place
      omega

theorem testBit_before (h : u[d]? = some s) (hs : pick s = true) :
    (before pick u).testBit d = true := by
  induction u generalizing d with
  | nil => cases h
  | cons s' u ih =>
    rw [before, Nat.testBit_or, Bool.or_eq_true]
    cases d with
    | zero =>
      obtain rfl := Option.some.inj h
      exact .inl (by rw [hs]; rfl)
    | succ d => exact .inr (by rw [Nat.testBit_shiftLeft]; simpa using ih h)

section

variable {shape : Shape} {i d s : Nat} {e : Nat × List Nat}

theorem testBit_expecting (pick : Nat → Bool) (h : shape[i]? = some e) (hd : e.2[d]? = some s)
    (hs : pick s = true) : (shape.expecting pick).testBit (place i d) = true :=
  testBit_collect h (testBit_before hd hs)

theorem testBit_opening (h : shape[i]? = some e) : (shape.opening e.1).testBit (place i 0) = true :=
  testBit_collect h (by simp)

theorem testBit_completed (h : shape[i]? = some e) :
    shape.completed.testBit (place i e.2.length) = true :=
  testBit_collect h (by rw [Nat.one_shiftLeft]; simp)

theorem mem_heads (h : shape[i]? = some e) : e.1 ∈ shape.heads :=
  List.mem_eraseDups.mpr (List.mem_map_of_mem (List.mem_of_getElem? h))

theorem testBit_foldl_or {heads : List Nat} {pick : Nat → Bool} {given : Nat → Nat} :
    (heads.foldl (fun n a => bif pick a then n ||| given a else n) m).testBit k = true ↔
      m.testBit k = true ∨ ∃ a ∈ heads, pick a = true ∧ (given a).testBit k = true := by
  induction heads generalizing m with
  | nil => simp
  | cons a heads ih =>
    rw [List.foldl_cons, ih]
    cases ha : pick a <;> simp [ha, or_assoc]

theorem testBit_spread :
    (shape.spread given m).testBit k = true ↔
      m.testBit k = true ∨ ∃ a ∈ shape.heads, meets m (shape.expecting a.beq) = true ∧
        (given a).testBit k = true :=
  testBit_foldl_or

end

end Shape

/-- What is said about the rules, for the numbers of symbols. -/
structure Tables where
  /-- The items that an item expecting the head brings in. -/
  opened : Nat → Nat
  /-- The items that can be valid together with one that expects the symbol. -/
  mates : Nat → Nat
  /-- The symbols that what is derived from the head can begin with. -/
  firsts : Nat → Nat
  /-- The symbols that can come after the symbol. -/
  follows : Nat → Nat
  /-- The head derives the empty word. -/
  isEmpty : Nat → Bool

namespace Tables

variable (t : Tables) (shape : Shape)

/-- The items after the symbol. -/
def move (m s : Nat) : Nat := shape.spread t.opened ((m &&& shape.expecting s.beq) <<< 1)

/-- The items that can be valid together with one, by the head of its rule and the symbols before
its place. -/
def matesAfter (a : Nat) (u : List Nat) : Nat := u.foldl (t.move shape) (t.mates a)

/-- The symbols that what is derived from the word can begin with. -/
def begins : List Nat → Nat
  | [] => 0
  | s :: u => 1 <<< s ||| t.firsts s ||| bif t.isEmpty s then begins u else 0

/-- The heads that are expected are opened. -/
def isClosed (m : Nat) : Bool :=
  shape.heads.all fun a => !meets m (shape.expecting a.beq) || within (t.opened a) m

/-- The items `m` are mates of each symbol that is expected on the way over the word, and those at
its end pass the test. -/
def leads (last : Nat → Bool) : Nat → List Nat → Bool
  | m, [] => last m
  | m, s :: u => within m (t.mates s) && leads last (t.move shape m s) u

/-- What can come after the symbols of the word, in a rule with head `a`, comes after them. -/
def trails (a : Nat) : List Nat → Bool
  | [] => true
  | s :: u =>
    within (t.begins u) (t.follows s) && (!u.all t.isEmpty || within (t.follows a) (t.follows s)) &&
      trails a u

/-- A rule can be reduced: no other item is complete, and none expects what can come after the
head. -/
def decides (i : Nat) (e : Nat × List Nat) (m : Nat) : Bool :=
  (m &&& shape.completed).beq (1 <<< Shape.place i e.2.length) && !meets m
    (shape.expecting (t.follows e.1).testBit)

def checksRule (i : Nat) (e : Nat × List Nat) : Bool :=
  e.2.length.blt 16 && (!e.2.all t.isEmpty || t.isEmpty e.1) && within (t.begins e.2)
    (t.firsts e.1) &&
    t.trails e.1 e.2 && t.leads shape (t.decides shape i e) (t.mates e.1) e.2

def checksHead (a : Nat) : Bool :=
  within (shape.opening a) (t.opened a) && t.isClosed shape (t.opened a) && t.isClosed shape
    (t.mates a)

def checksStart (last : Nat) : Bool :=
  shape.head?.all fun e => (t.mates e.1).testBit 0 && (t.follows e.1).testBit last

/-- The tables hold all that the rules ask for, and the rules can be told apart by them. The number
of the symbol after every word is given. -/
def checks (last : Nat) : Bool :=
  t.checksStart shape last && shape.heads.all (t.checksHead shape) &&
    shape.zipIdx.all fun x => t.checksRule shape x.2 x.1

section

variable {t : Tables} {shape : Shape} {e e' : Nat × List Nat} {i j d a s m last : Nat}

theorem checks_start (h : t.checks shape last = true) (he : shape[0]? = some e) :
    (t.mates e.1).testBit 0 = true ∧ (t.follows e.1).testBit last = true := by
  simp only [checks, Bool.and_eq_true] at h
  rw [← List.head?_eq_getElem?] at he
  have hstart := h.1.1
  rw [checksStart, he, Option.all_some, Bool.and_eq_true] at hstart
  exact hstart

theorem checks_head (h : t.checks shape last = true) (ha : a ∈ shape.heads) :
    within (shape.opening a) (t.opened a) = true ∧ t.isClosed shape (t.opened a) = true ∧
      t.isClosed shape (t.mates a) = true := by
  simp only [checks, checksHead, Bool.and_eq_true, List.all_eq_true] at h
  exact ⟨(h.1.2 a ha).1.1, (h.1.2 a ha).1.2, (h.1.2 a ha).2⟩

theorem checks_rule (h : t.checks shape last = true) (he : shape[i]? = some e) :
    e.2.length < 16 ∧ (e.2.all t.isEmpty = true → t.isEmpty e.1 = true) ∧
      within (t.begins e.2) (t.firsts e.1) = true ∧ t.trails e.1 e.2 = true ∧
      t.leads shape (t.decides shape i e) (t.mates e.1) e.2 = true := by
  simp only [checks, Bool.and_eq_true, List.all_eq_true] at h
  have hrule := h.2 (e, i) (List.mem_zipIdx_iff_getElem?.mpr he)
  simp only [checksRule, Bool.and_eq_true] at hrule
  obtain ⟨⟨⟨⟨hlength, hempty⟩, hfirsts⟩, htrails⟩, hleads⟩ := hrule
  exact ⟨Nat.blt_eq.mp hlength, fun hall => by simpa [hall] using hempty, hfirsts, htrails, hleads⟩

theorem within_of_leads (h : t.leads shape test m u = true) (hs : u[d]? = some s) :
    within ((u.take d).foldl (t.move shape) m) (t.mates s) = true := by
  induction u generalizing m d with
  | nil => cases hs
  | cons s' u ih =>
    rw [leads, Bool.and_eq_true] at h
    cases d with
    | zero =>
      obtain rfl := Option.some.inj hs
      exact h.1
    | succ d => exact ih h.2 hs

theorem test_of_leads (h : t.leads shape test m u = true) :
    test (u.foldl (t.move shape) m) = true := by
  induction u generalizing m with
  | nil => exact h
  | cons s u ih =>
    rw [leads, Bool.and_eq_true] at h
    exact ih h.2

theorem within_of_trails (h : t.trails a u = true) (hs : u[d]? = some s) :
    within (t.begins (u.drop (d + 1))) (t.follows s) = true ∧
      ((u.drop (d + 1)).all t.isEmpty = true → within (t.follows a) (t.follows s) = true) := by
  induction u generalizing d with
  | nil => cases hs
  | cons s' u ih =>
    simp only [trails, Bool.and_eq_true] at h
    cases d with
    | zero =>
      obtain rfl := Option.some.inj hs
      exact ⟨h.1.1, fun hall => by simpa [show u.all t.isEmpty = true from hall] using h.1.2⟩
    | succ d => exact ih h.2 hs

/-- The heads that the items expect are opened. -/
def Closed (t : Tables) (shape : Shape) (m : Nat) : Prop :=
  ∀ a ∈ shape.heads, meets m (shape.expecting a.beq) = true → ∀ k, (t.opened a).testBit k = true →
    m.testBit k = true

theorem isClosed.closed (h : t.isClosed shape m = true) : t.Closed shape m := by
  intro a ha hm k hk
  have hwithin := List.all_eq_true.mp h a ha
  rw [hm, Bool.not_true, Bool.false_or] at hwithin
  exact testBit_of_within hwithin hk

theorem closed_spread (h : t.checks shape last = true) :
    t.Closed shape (shape.spread t.opened m) := by
  intro a ha hm k hk
  obtain ⟨x, hx, hx'⟩ := exists_testBit_of_meets hm
  refine Shape.testBit_spread.mpr ?_
  rcases Shape.testBit_spread.mp hx with hx | ⟨b, hb, hmeets, hx⟩
  · exact .inr ⟨a, ha, meets_of_testBit hx hx', hk⟩
  · have hclosed := isClosed.closed (checks_head h hb).2.1
    exact .inr ⟨b, hb, hmeets, hclosed a ha (meets_of_testBit hx hx') k hk⟩

theorem Closed.expand (hm : t.Closed shape m) (h : t.checks shape last = true)
    (he : shape[i]? = some e) (hx : m.testBit (Shape.place i d) = true) (hs : e.2[d]? = some e'.1)
    (he' : shape[j]? = some e') : m.testBit (Shape.place j 0) = true := by
  have hmem := Shape.mem_heads he'
  have hmeets := meets_of_testBit hx (Shape.testBit_expecting e'.1.beq he hs (Nat.beq_refl _))
  exact hm _ hmem hmeets _ (testBit_of_within (checks_head h hmem).1 (Shape.testBit_opening he'))

end

end Tables

/-- The head and the symbols of a rule by their numbers. -/
def Rule.code {ρ : Type} (r : Rule ρ) : Nat × List Nat :=
  (r.production.head.id, r.symbols.map (·.id))

def Shape.ofRules {ρ : Type} (rules : Array (Rule ρ)) : Shape := rules.toList.map Rule.code

namespace Tables

variable {ρ : Type} {g : Grammar ρ} {start : Symbol} {rules : Array (Rule ρ)} {t : Tables}
  {i j d k m : Nat}
  {r r' : Rule ρ} {γ : List Symbol} {a b s : Symbol}

theorem getElem?_code (h : rules[i]? = some r) : (Shape.ofRules rules)[i]? = some r.code := by
  rw [Shape.ofRules, List.getElem?_map, Array.getElem?_toList, h, Option.map_some]

theorem getElem?_id (h : r.next? d = some s) : r.code.2[d]? = some s.id := by
  rw [Rule.code, List.getElem?_map, show r.symbols[d]? = some s from h, Option.map_some]

theorem exists_code (hr : Numbered g start rules) (hp : g.Rewrites p w) :
    ∃ i : Nat, (Shape.ofRules rules)[i]? = some (p.head.id, w.map (·.id)) := by
  obtain ⟨i, r, hi, rfl⟩ := hr.rule_of_mem hp.1
  cases (hr.rewrites hi).2.symm.trans hp.2
  exact ⟨i, getElem?_code hi⟩

theorem isEmpty_of_nullable (hr : Numbered g start rules)
    (h : t.checks (.ofRules rules) g.endMark.id = true) (hw : g.Nullable w) :
    (w.map (·.id)).all t.isEmpty = true := by
  induction hw with
  | nil => rfl
  | cons hp _ _ ihb ihw =>
    obtain ⟨i, hi⟩ := exists_code hr hp
    rw [List.map_cons, List.all_cons, Bool.and_eq_true]
    exact ⟨(checks_rule h hi).2.1 ihb, ihw⟩

theorem testBit_begins (hr : Numbered g start rules)
    (h : t.checks (.ofRules rules) g.endMark.id = true) (hw : g.Begins w s) :
    (t.begins (w.map (·.id))).testBit s.id = true := by
  induction hw with
  | terminal => simp [begins, Nat.one_shiftLeft]
  | enter hp _ ih =>
    obtain ⟨i, hi⟩ := exists_code hr hp
    have hfirst := testBit_of_within (checks_rule h hi).2.2.1 ih
    simp [begins, hfirst]
  | skip hp hb _ ih =>
    obtain ⟨i, hi⟩ := exists_code hr hp
    have hempty := (checks_rule h hi).2.1 (isEmpty_of_nullable hr h hb)
    simp [begins, hempty, ih]

theorem testBit_follows (hr : Numbered g start rules)
    (h : t.checks (.ofRules rules) g.endMark.id = true) (hv : Valid g rules γ i d a)
    (hi : rules[i]? = some r) : (t.follows r.code.1).testBit a.id = true := by
  induction hv generalizing r with
  | start => exact (checks_start h (getElem?_code hi)).2
  | advance _ hi' _ ih => exact ih hi
  | @expand γ i d a j b r1 r2 hv hi' hs hj hb ih =>
    cases hj.symm.trans hi
    have htrails := (checks_rule h (getElem?_code hi')).2.2.2.1
    obtain ⟨hbegin, hempty⟩ := within_of_trails htrails (getElem?_id hs)
    have hdrop : r1.code.2.drop (d + 1) = (r1.symbols.drop (d + 1)).map (·.id) := List.map_drop.symm
    rw [hdrop] at hbegin hempty
    rcases (Grammar.begins_concat_iff (hv.isTerminal hr) hr.headsNonterminal).mp
      hb with hb | ⟨hnull, rfl⟩
    · exact testBit_of_within hbegin (testBit_begins hr h hb)
    · exact testBit_of_within (hempty (isEmpty_of_nullable hr h hnull)) (ih hi')

theorem Closed.testBit (hm : t.Closed (.ofRules rules) m)
    (h : t.checks (.ofRules rules) g.endMark.id = true)
    (hv : Valid g rules γ j k b) (hstart : γ = [] → m.testBit (Shape.place 0 0) = true)
    (hmove : ∀ {γ' s j k b} {r : Rule ρ}, γ = s :: γ' → Valid g rules γ' j k b →
      rules[j]? = some r →
      r.next? k = some s → m.testBit (Shape.place j (k + 1)) = true) :
    m.testBit (Shape.place j k) = true := by
  induction hv with
  | start => exact hstart rfl
  | advance hv hj hs => exact hmove rfl hv hj hs
  | expand _ hj hs hk _ ih =>
    exact hm.expand h (getElem?_code hj) (ih hstart hmove) (getElem?_id hs) (getElem?_code hk)

theorem testBit_move (hm : m.testBit (Shape.place j k) = true) (hj : rules[j]? = some r)
    (hs : r.next? k = some s) : (t.move (.ofRules rules) m s.id).testBit (Shape.place j (k + 1)) =
      true := by
  have hexpects := Shape.testBit_expecting s.id.beq (getElem?_code hj) (getElem?_id hs)
      (Nat.beq_refl _)
  have hplace : Shape.place j (k + 1) = Shape.place j k + 1 := rfl
  refine Shape.testBit_spread.mpr (.inl ?_)
  rw [Nat.testBit_shiftLeft, hplace, Nat.add_sub_cancel, Nat.testBit_and, hm, hexpects]
  simp

theorem testBit_matesAfter (h : t.checks (.ofRules rules) g.endMark.id = true)
    (hv : Valid g rules γ i d a) (hi : rules[i]? = some r) (hv' : Valid g rules γ j k b) :
    (t.matesAfter (.ofRules rules) r.code.1 (r.code.2.take d)).testBit (Shape.place j k) =
      true := by
  induction hv generalizing r j k b with
  | start =>
    have hclosed := isClosed.closed (checks_head h (Shape.mem_heads (getElem?_code hi))).2.2
    exact hclosed.testBit h hv' (fun _ => (checks_start h (getElem?_code hi)).1) nofun
  | @advance γ i d a s r' hv hi' hs ih =>
    cases hi'.symm.trans hi
    have hword : r'.code.2.take (d + 1) = r'.code.2.take d ++ [s.id] := by
      rw [List.take_add_one, getElem?_id hs, Option.toList_some]
    rw [hword, matesAfter, List.foldl_append, List.foldl_cons, List.foldl_nil]
    refine (closed_spread h).testBit h hv' nofun fun hγ hw hj hs' => ?_
    obtain ⟨rfl, rfl⟩ := List.cons.inj hγ
    exact testBit_move (ih hi hw) hj hs'
  | @expand γ i d a j b r1 r2 hv hi' hs hj hb ih =>
    cases hj.symm.trans hi
    have hleads := (checks_rule h (getElem?_code hi')).2.2.2.2
    exact testBit_of_within (within_of_leads hleads (getElem?_id hs)) (ih hi' hv')

theorem mate_of_complete (hr : Numbered g start rules)
    (h : t.checks (.ofRules rules) g.endMark.id = true) (hi : rules[i]? = some r)
    (hj : rules[j]? = some r') (hv : Valid g rules γ i r.symbols.length s)
    (hv' : Valid g rules γ j k b) : (k = r'.symbols.length → i = j) ∧ r'.next? k ≠ some s := by
  have hmate := testBit_matesAfter h hv hi hv'
  have hlength : r.code.2.length = r.symbols.length := List.length_map _
  rw [← hlength, List.take_length, matesAfter] at hmate
  have hlast := test_of_leads (checks_rule h (getElem?_code hi)).2.2.2.2
  simp only [decides, Bool.and_eq_true, Bool.not_eq_true'] at hlast
  refine ⟨fun hk => ?_, fun hs => ?_⟩
  · have hcomplete := Shape.testBit_completed (getElem?_code hj)
    have hlength' : r'.code.2.length = k := by rw [hk]; exact List.length_map _
    rw [hlength'] at hcomplete
    have hbit : ((1 <<< Shape.place i r.code.2.length).testBit (Shape.place j k)) = true := by
      rw [← Nat.eq_of_beq_eq_true hlast.1, Nat.testBit_and, hmate, hcomplete, Bool.and_self]
    rw [Nat.one_shiftLeft, Nat.testBit_two_pow, decide_eq_true_eq] at hbit
    have hshort := (checks_rule h (getElem?_code hi)).1
    have hshort' := (checks_rule h (getElem?_code hj)).1
    unfold Shape.place at hbit
    omega
  · have hexpects := Shape.testBit_expecting (t.follows r.code.1).testBit (getElem?_code hj)
        (getElem?_id hs)
      (testBit_follows hr h hv hi)
    rw [meets_of_testBit hmate hexpects] at hlast
    cases hlast.2

theorem decisive (hr : Numbered g start rules) (h : t.checks (.ofRules rules) g.endMark.id = true) :
    Decisive g rules where
  shift hv hi hs _ hj hv' := (mate_of_complete hr h hj hi hv' hv).2 hs
  reduce hi hj hv hv' := (mate_of_complete hr h hi hj hv hv').1 rfl

end Tables

namespace Shape

/-!
### Finding the tables

A table with a number for each symbol is kept in one number, which passes over the rules fill until
they change nothing. Nothing is to be proved about them: the tables that they give are checked.
-/

variable (shape : Shape)

/-- What the table holds for a symbol, in the given number of bits. -/
def row (width table s : Nat) : Nat := (table >>> (width * s)) % (1 <<< width)

def enter (width s m table : Nat) : Nat := table ||| m <<< (width * s)

def repeatedly (pass : Nat → Nat) : Nat → Nat → Nat
  | 0, table => table
  | k + 1, table => repeatedly pass k (pass table)

/-- The items that an item expecting the head brings in on the way over fewer than `2 ^ k` heads. -/
def opened : Nat → Nat → Nat
  | 0 => shape.opening
  | k + 1 => fun a => shape.spread (opened k) (opened k a)

def emptyPass (table : Nat) : Nat :=
  shape.foldr (fun e table => bif e.2.all table.testBit then table ||| 1 <<< e.1 else table) table

/-- The tables that are read from the numbers. -/
def read (mates firsts follows empty : Nat) : Tables where
  opened := shape.opened 4
  mates := row 1024 mates
  firsts := row 64 firsts
  follows := row 64 follows
  isEmpty := empty.testBit

def firstsPass (empty table : Nat) : Nat :=
  shape.foldr (fun e table => enter 64 e.1 ((shape.read 0 table 0 empty).begins e.2) table) table

def enterFollows (t : Tables) (a table : Nat) : List Nat → Nat
  | [] => table
  | s :: u =>
    enterFollows t a (enter 64 s (t.begins u ||| bif u.all t.isEmpty then row 64 table a else 0)
      table) u

def followsPass (t : Tables) (table : Nat) : Nat :=
  shape.foldl (fun table e => enterFollows t e.1 table e.2) table

def enterMates : Nat → Nat → List Nat → Nat
  | table, _, [] => table
  | table, m, s :: u => enterMates (enter 1024 s m table) ((shape.read 0 0 0 0).move shape m s) u

def matesPass (table : Nat) : Nat :=
  shape.foldl (fun table e => shape.enterMates table (row 1024 table e.1) e.2) table

/-- The tables after the given number of passes, for rules with the given head of the first one and
the symbol after every word. -/
def tables (passes top last : Nat) : Tables :=
  let empty := repeatedly shape.emptyPass passes 0
  let firsts := repeatedly (shape.firstsPass empty) passes 0
  let follows := repeatedly (shape.followsPass (shape.read 0 firsts 0 empty)) passes
      (enter 64 top (1 <<< last) 0)
  let mates := repeatedly shape.matesPass passes
      (enter 1024 top (shape.spread (shape.opened 4) 1) 0)
  shape.read mates firsts follows empty

end Shape

/-! ### The shape of a parser -/

/-- The head and the symbols of a production by their numbers. -/
def codeOf {ρ : Type} (q : Production ρ) : Nat × List Nat :=
  (q.head.id, (q.body.word?.getD []).map (·.id))

namespace Parser

variable {ρ : Type} {g : Grammar ρ} {start top : Symbol} {q : Production ρ} {p : Parser ρ}

theorem ofRules_rulesOf (hplain : p.grammar.Plain) (hwf : p.grammar.WF)
    (h : rulesOf p.grammar = .ok p.rules) :
    Shape.ofRules p.rules =
      (p.grammar.nonterminals.flatMap p.grammar.productionsOf).map codeOf := by
  simp only [rulesOf, bind, Except.bind] at h
  split at h
  · cases h
  · rw [Shape.ofRules, ← Except.ok.inj h, List.toList_toArray, List.map_map]
    refine List.map_congr_left fun q hq => ?_
    obtain ⟨s, -, hq⟩ := List.mem_flatMap.mp hq
    obtain ⟨w, hw, -⟩ := hplain q (hwf.filed_eq ▸ (List.mem_filter.mp hq).1)
    rw [Function.comp_apply, ruleOf_word hw, Rule.code, codeOf, hw, Option.getD_some]

theorem shape_ofGrammar (hg : g.Proper start) (hp : ofGrammar g = .ok p) :
    Shape.ofRules p.rules = (g.nextId, [start.id]) :: (g.nonterminals.map (·.id)).flatMap fun a =>
      (g.productions.map codeOf).filter (·.1 == a) := by
  have hwf := hg.built.wf
  obtain ⟨_, top, q, hp', haug, htabled⟩ := ofGrammar_tabled hwf hg.plain hg.start_eq
  cases hp.symm.trans hp'
  have hmem : ∀ s ∈ g.nonterminals, s ∈ g.symbols :=
    fun s hs => .tail _ (List.mem_append_right _ hs)
  have htop : codeOf q = (g.nextId, [start.id]) := by
    rw [codeOf, haug.body, haug.head, haug.top_id]
    rfl
  rw [ofRules_rulesOf htabled.plain htabled.wf (parts_of_ofGrammar hp).1,
    flatMap_productionsOf hwf haug, List.map_cons, htop,
    List.map_flatMap, List.flatMap_map]
  refine congrArg _ (List.flatMap_congr fun s hs => ?_)
  rw [Grammar.productionsOf, ← hwf.filed_eq, List.filter_map]
  refine congrArg _ (List.filter_congr fun q hq => ?_)
  rw [Bool.eq_iff_iff, Function.comp_apply, beq_iff_eq, beq_iff_eq]
  exact ⟨fun h => h ▸ rfl, hwf.eq_of_id (hmem _ (hwf.head_mem q (hwf.filed_eq ▸ hq))) (hmem s hs)⟩

theorem Constructed.isLR1_of_checks (h : p.Constructed start) (hlive : p.grammar.Live) {t : Tables}
    (ht : t.checks (.ofRules p.rules) p.grammar.endMark.id = true) : p.isLR1 = true :=
  h.isLR1 hlive (Tables.decisive h.numbered ht)

end Parser

end AutoCool.LR1
