import AutoCool.Proofs.Cool.InferPasses
import AutoCool.Proofs.Cool.InferRepeat

/-!
# What a walk of inference changes

A walk of inference goes in steps, and `Step` lists them: a note, a bound, a variable whose bounds
give no type, a variable or a result whose type becomes known. In the last cases the type is written
where the table of types has it (`Home`), and it is said so once. Every walk that nothing cuts short
is a sequence of such steps (`steps_of_infer`), so what each step keeps is kept by any number of
walks. More is known of the order: a `Trace` tells which expressions are met in which scopes, and
which variable each name and each assignment finds there. And a walk goes the way of an earlier one
wherever both see the same (`Echo`): the walk over a program is put together from computations of
which both is known (`Traces`).
-/

namespace AutoCool.Cool

/-- The variable that stands for a place in the table. The types of the classes come after those
that are built in; the variables of the scope of a class are its attributes, and those of the scope
of a method are the object itself and the parameters. -/
inductive Home (p : Program) (t : ScopeTree) : Cell → VarId → Prop
  | attribute {n : Nat} {c s name v} : p.classes[n]? = some c →
      (t.get ScopeTree.root).children[n]? = some s →
      (t.get s).locals.lookup name = some v → Home p t (.attribute (8 + n) name) v
  | param {n j i : Nat} {c s s' name params type body x v} : p.classes[n]? = some c →
      (t.get ScopeTree.root).children[n]? = some s →
        c.features[j]? = some (.method name params type body) →
      (t.get s).children[j]? = some s' → (t.get s').locals[i + 1]? = some (x, v) →
        Home p t (.param (8 + n) name.text i) v

/-- A scope below that of a feature. -/
def Inner (t : ScopeTree) (s : ScopeId) : Prop :=
  ∃ i j k, (t.get s).parent = some i ∧ (t.get i).parent = some j ∧ (t.get j).parent = some k

/-- The type of a variable is learned: what is then written into the table and what is said. -/
inductive Learned (p : Program) (a : Analysis) (v : VarId) (y : Variable) : Types → Finding → Prop
  | binding {s place} : Inner a.scopes s → v ∈ (a.scopes.get s).locals.map (·.2) →
      Learned p a v y a.types (.binding place y.name (a.types.name y.type))
  | attribute {cls name} : Home p a.scopes (.attribute cls name) v →
      Learned p a v y (a.types.modifyAttribute cls name fun x => { x with type := y.type })
        (.attribute (a.types.name cls) name (a.types.name y.type))
  | param {cls method i} : Home p a.scopes (.param cls method i) v →
      Learned p a v y (a.types.modifyMethod cls method fun m =>
        { m with paramTypes := m.paramTypes.set i y.type })
        (.param method (a.types.name cls) y.name (a.types.name y.type))

open Inferring Analyzing

/-- A type is inferred, or a variable whose bounds give none loses these. -/
inductive Infers (p : Program) (a : Analysis) : Analysis → Prop
  | forget {v y} : a.types.infer (a.scopes.getVar v) = .ok (false, y) →
      Infers p a (inferredTo a v false y)
  | learn {v y types f} : a.types.infer (a.scopes.getVar v) = .ok (true, y) →
      Learned p a v y types f →
      Infers p a { inferredTo a v true y with types, findings := a.findings.push f }
  | result {cls m r y} : (a.types.get cls).methods.find? (·.name == m.name) = some m →
      a.types.infer (m.result.addLower r) = .ok (true, y) →
      Infers p a { a with
        types := a.types.modifyMethod cls m.name fun m =>
          { m with result := y, returnType := y.type }
        findings := a.findings.push (.result m.name (a.types.name cls) (a.types.name y.type))
        changed := true }

/-- A step of inference. -/
inductive Step (p : Program) : Analysis → Analysis → Prop
  | restart {a} : Step p a a.restarted
  | note {a notes cursor} : Step p a { a with notes, cursor }
  | upper {a v u} : Step p a { a with scopes := a.scopes.modify v (·.addUpper u) }
  | lower {a v u} : Step p a { a with scopes := a.scopes.modify v (·.addLower u) }
  | infers {a a'} : Infers p a a' → Step p a a'

/-- Any number of steps of inference. -/
abbrev Steps (p : Program) : Analysis → Analysis → Prop := Relation.ReflTransGen (Step p)

/-- A name that stands in a scope is looked up there. The variable that it finds may get an upper
bound, and the type of the name is that of the variable. -/
inductive Named (t : ScopeTree) (s : ScopeId) (name : String) (a : Analysis) :
    Analysis → TypeId → Prop
  | unknown : t.find s name = none → Named t s name a a TypeId.error
  | known {v} : t.find s name = some v →
      Named t s name a a ((knownType (a.scopes.getVar v)).getD TypeId.auto)
  | bounded {v u a'} : t.find s name = some v →
      a' = { a with scopes := a.scopes.modify v (·.addUpper u) } →
      Named t s name a a' ((knownType (a'.scopes.getVar v)).getD TypeId.auto)

/-- The variables that get upper bounds without being looked up, from the values that they begin
with: those that are made inside of a feature, and attributes. -/
inductive Owned (p : Program) (t : ScopeTree) (v : VarId) : Prop
  | binding {s} : Inner t s → v ∈ (t.get s).locals.map (·.2) → Owned p t v
  | attribute {cls name} : Home p t (.attribute cls name) v → Owned p t v

/-- A part of a walk in the scopes `t`, in which the expressions `w` are met in the scopes `l`, in
this order. A name is dealt with at once. The variable of an assignment gets a lower bound once the
value has been walked over. -/
inductive Trace (p : Program) (t : ScopeTree) : List Nat → List Expr → Analysis → Analysis → Prop
  | nil {a} : Trace p t [] [] a a
  | enter {s x l w a a'} : Expr.lookup? x = none → Trace p t l w (a.entered s) a' →
      Trace p t (s :: l) (x :: w) a a'
  | name {s token r l w a a₁ a'} : Named t s (Token.text token) (a.entered s) a₁ r →
      Trace p t l w (a₁.settled a.cursor (some r)) a' →
      Trace p t (s :: l) (.atom .name token :: w) a a'
  | assign {s v name r l l' x w a a₁ a'} : t.find s (Token.text name) = some v →
      Trace p t l (Expr.nodes x) (a.entered s) a₁ →
      Trace p t l' w
        ({ a₁ with scopes := a₁.scopes.modify v (·.addLower r) }.settled a.cursor r) a' →
      Trace p t (s :: (l ++ l')) (.assign name x :: (x.nodes ++ w)) a a'
  | settle {i x r l w a a'} : p.nodes[i]? = some x → x.lookup? = none →
      Trace p t l w (a.settled i r) a' → Trace p t l w a a'
  | bound {v u l w a a'} : Owned p t v →
      Trace p t l w { a with scopes := a.scopes.modify v (·.addUpper u) } a' → Trace p t l w a a'
  | infer {l w a a₁ a'} : Infers p a a₁ → Trace p t l w a₁ a' → Trace p t l w a a'

variable {p : Program} {t t' : ScopeTree} {cls : TypeId} {s i j : Nat} {name : String}
  {a a' a'' b b' : Analysis} {e x : Expr} {v : VarId} {r : Option TypeId} {l l' : List Nat}
  {w w' : List Expr} {α β : Type} {m : Analyzing α} {f : α → Analyzing β}

theorem Step.get_eq (h : Step p a a') (s : Nat) : a'.scopes.get s = a.scopes.get s := by
  cases h with
  | infers h => cases h <;> rfl
  | _ => rfl

theorem Steps.get_eq (h : Steps p a a') (s : Nat) : a'.scopes.get s = a.scopes.get s := by
  induction h with
  | refl => rfl
  | tail _ hstep ih => rw [hstep.get_eq, ih]

theorem Infers.refines (hts : a.types.WellFormed) (h : Infers p a a') :
    a.types.Refines a'.types := by
  cases h with
  | forget => exact .refl
  | learn _ hl =>
    obtain - | - | - := hl
    · exact .refl
    · exact Types.refines_modifyAttribute fun _ => rfl
    · refine Types.refines_modifyMethod fun m _ _ => ⟨rfl, fun hm => { hm with length_eq := ?_ }⟩
      rw [List.length_set]
      exact hm.length_eq
  | @result cls m r y hm hy =>
    obtain ⟨hevolves, -, -, hunbounded⟩ := Types.infer_eq_ok hy
    have hcoherent := (Variable.evolves_addLower (t := r)).coherent
        (hts cls m (List.mem_of_find?_eq_some hm)).coherent
    exact Types.refines_modifyMethod fun m' _ _ =>
      ⟨rfl, fun hwf => ⟨hwf.length_eq, rfl, hevolves.coherent hcoherent, hunbounded hcoherent⟩⟩

theorem Step.refines (hts : a.types.WellFormed) (h : Step p a a') :
    a.types.Refines a'.types := by
  cases h with
  | infers h => exact h.refines hts
  | _ => exact .refl

theorem Inner.congr (h : Inner t s) (ht : ∀ s, t'.get s = t.get s) : Inner t' s := by
  simpa only [Inner, ht] using h

theorem Home.congr (h : Home p t cell v) (ht : ∀ s, t'.get s = t.get s) : Home p t' cell v := by
  match h with
  | .attribute hn hs hlookup => exact .attribute hn ((ht _).symm ▸ hs) ((ht _).symm ▸ hlookup)
  | .param hn hs hj hi hx =>
    exact .param hn ((ht _).symm ▸ hs) hj ((ht _).symm ▸ hi) ((ht _).symm ▸ hx)

theorem Named.steps (h : Named t s name a a' u) : Steps p a a' := by
  cases h with
  | unknown | known => exact .refl
  | bounded _ heq => exact heq ▸ .single .upper

theorem Named.congr (h : Named t s name a a' u) (ht : ∀ s name, t'.find s name = t.find s name) :
    Named t' s name a a' u := by
  cases h with
  | unknown h => exact .unknown ((ht _ _).trans h)
  | known h => exact .known ((ht _ _).trans h)
  | bounded h heq => exact .bounded ((ht _ _).trans h) heq

theorem Owned.congr (h : Owned p t v) (ht : ∀ s, t'.get s = t.get s) : Owned p t' v := by
  match h with
  | .binding hs hv => exact .binding (hs.congr ht) ((ht _).symm ▸ hv)
  | .attribute h => exact .attribute (h.congr ht)

namespace Trace

theorem steps (h : Trace p t l w a a') : Steps p a a' := by
  induction h with
  | nil => exact .refl
  | enter _ _ ih | settle _ _ _ ih => exact .head .note ih
  | name h _ ih => exact .head .note (h.steps.trans (.head .note ih))
  | assign _ _ _ ihx ih => exact .head .note (ihx.trans (.head .lower (.head .note ih)))
  | bound _ _ ih => exact .head .upper ih
  | infer h _ ih => exact .head (.infers h) ih

theorem trans (h : Trace p t l w a a') (h' : Trace p t l' w' a' a'') :
    Trace p t (l ++ l') (w ++ w') a a'' := by
  induction h with
  | nil => exact h'
  | enter hx _ ih => exact .enter hx (ih h')
  | name hname _ ih => exact .name hname (ih h')
  | assign hv hx _ _ ih =>
    simpa only [List.cons_append, List.append_assoc] using hx.assign hv (ih h')
  | settle hi hx _ ih => exact .settle hi hx (ih h')
  | bound hv _ ih => exact .bound hv (ih h')
  | infer h _ ih => exact .infer h (ih h')

/-- Only the scopes count, not what is known of the variables. -/
theorem congr (h : Trace p t l w a a') (ht : ∀ s, t'.get s = t.get s) : Trace p t' l w a a' := by
  have hfind : ∀ s name, t'.find s name = t.find s name := fun s name =>
    ScopeTree.findWithin_congr fun i _ => by rw [ht]; exact ⟨rfl, rfl, rfl⟩
  induction h with
  | nil => exact .nil
  | enter hx _ ih => exact .enter hx ih
  | name hname _ ih => exact .name (hname.congr hfind) ih
  | assign hv _ _ ihx ih => exact .assign ((hfind _ _).trans hv) ihx ih
  | settle hi hx _ ih => exact .settle hi hx ih
  | bound hv _ ih => exact .bound (hv.congr ht) ih
  | infer h _ ih => exact .infer h ih

end Trace

/-! ## Computations that go in steps -/

/-- A walk over a program is in the scopes `t`. -/
structure Amid (p : Program) (t : ScopeTree) (a : Analysis) : Prop where
  wellFormed : a.types.WellFormed
  going : Going t a.types p.nodes a
  hosts : ∀ n c, p.classes[n]? = some c → Hosts a.types (8 + n) c
  fits : ∀ (n : Nat) c s, p.classes[n]? = some c → (t.get ScopeTree.root).children[n]? = some s →
    FitsClass a.types t s c

theorem Infers.going (h : Infers p a a') (hg : Going t a.types p.nodes a) :
    Going t a'.types p.nodes a' := by
  have hmoved : ∀ {a'}, Moved (fun _ => True) a a' → Going t a'.types p.nodes a' := hg.onward
  cases h with
  | forget hy => exact hmoved (moved_inferredTo hy)
  | learn hy _ => exact { hmoved (moved_inferredTo hy) with types_eq := rfl }
  | result => exact { hg with types_eq := rfl }

theorem Infers.amid (h : Infers p a a') (ha : Amid p t a) : Amid p t a' :=
  have hr := h.refines ha.wellFormed
  ⟨hr.wellFormed ha.wellFormed, h.going ha.going, fun n c hc => (ha.hosts n c hc).refines hr,
    fun n c s hc hs => (ha.fits n c s hc hs).refines hr⟩

theorem Amid.moved (ha : Amid p t a) (hmoved : Moved (fun _ => True) a a')
    (htypes : a'.types = a.types) : Amid p t a' := by
  obtain ⟨hwf, hgoing, hhosts, hfits⟩ := ha
  rw [← htypes] at hwf hgoing hhosts hfits
  exact ⟨hwf, hgoing.moved hmoved htypes, hhosts, hfits⟩

/-- What is known after a computation has met the expressions `w` in the scopes `l`, and the earlier
one as well. -/
structure Abreast (p : Program) (t : ScopeTree) (c : Analysis) (l : List Nat) (w : List Expr)
    (a a' b' : Analysis) : Prop where
  amid : Amid p t a'
  trace : Trace p t l w a a'
  echo : Echo p.nodes c a' b'
  cursor_eq : a'.cursor = a.cursor + w.length

theorem Abreast.trans (h : Abreast p t c l w a a' b) (h' : Abreast p t c l' w' a' a'' b') :
    Abreast p t c (l ++ l') (w ++ w') a a'' b' :=
  ⟨h'.amid, h.trace.trans h'.trace, h'.echo, by rw [h'.cursor_eq, h.cursor_eq, List.length_append,
    Nat.add_assoc]⟩

/-- In the scopes `t`, a computation goes in steps and meets the expressions `w` in the scopes `l`.
Where two states agree on what it looks up it goes the same way from both. -/
def Traces (p : Program) (t : ScopeTree) (l : List Nat) (w : List Expr) (m : Analyzing α) : Prop :=
  ∀ c a b, Amid p t a → Placed p.nodes a.cursor w → Echo p.nodes c a b →
    Mirrors m (fun _ a' b' => Abreast p t c l w a a' b') a b

theorem Traces.ensures (h : Traces p t l w m) (ha : Amid p t a) (hp : Placed p.nodes a.cursor w) :
    Ensures m (fun _ a' => Trace p t l w a a') (fun _ _ => True) a := by
  unfold Ensures
  split
  · next hrun =>
    obtain ⟨_, _, h⟩ := h a a a ha hp .refl _ _ hrun
    exact h.trace
  · trivial

theorem Traces.bind (h : Traces p t l w m) (hf : ∀ x, Traces p t l' w' (f x)) :
    Traces p t (l ++ l') (w ++ w') (m >>= f) := by
  intro c a b ha hp hb
  refine (h c a b ha hp.left hb).bind fun x a1 b1 h1 => ?_
  exact (hf x c a1 b1 h1.amid (h1.cursor_eq ▸ hp.right) h1.echo).imp fun _ _ _ => h1.trans

theorem Traces.skip (h : Traces p t [] [] m) (hf : ∀ x, Traces p t l w (f x)) :
    Traces p t l w (m >>= f) := h.bind hf

theorem Traces.last (h : Traces p t l w m) (hf : ∀ x, Traces p t [] [] (f x)) :
    Traces p t l w (m >>= f) := by
  simpa using h.bind hf

theorem traces_of_run (h : ∀ a, Amid p t a → ∃ m', Traces p t l w m' ∧ ∀ b : Analysis,
      b.types = a.types → b.scopes = a.scopes → m.run.run b = m'.run.run b) : Traces p t l w m := by
  intro c a b ha hp hb x a' hrun
  obtain ⟨m', hm', heq⟩ := h a ha
  obtain ⟨b', hrun', h⟩ := hm' c a b ha hp hb x a' ((heq a rfl rfl).symm.trans hrun)
  exact ⟨b', (heq b hb.types_eq hb.scopes_eq).trans hrun', h⟩

theorem traces_of_blind (hm : Blind m) (h : ∀ a, Amid p t a →
    Ensures m (fun _ a' => Amid p t a' ∧ Trace p t [] [] a a') (fun _ _ => True) a) :
    Traces p t [] [] m := fun _ a _ ha _ hb =>
  ((hb.blind hm).and (h a ha)).imp fun _ _ _ ⟨⟨hb', _, hcursor⟩, hamid, htrace⟩ =>
    ⟨hamid, htrace, hb', hcursor⟩

theorem Amid.inferred (ha : Amid p t a) (h : a' = a ∨ Infers p a a') :
    Amid p t a' ∧ Trace p t [] [] a a' := by
  rcases h with rfl | h
  · exact ⟨ha, .nil⟩
  · exact ⟨h.amid ha, .infer h .nil⟩

theorem traces_of_reads (hm : Blind m)
    (h : ∀ a, Ensures m (fun _ a' => a' = a) (fun _ _ => True) a) : Traces p t [] [] m :=
  traces_of_blind hm fun a ha => (h a).imp fun _ _ heq => ha.inferred (.inl heq)

theorem traces_pure {x : α} : Traces p t [] [] (pure x) := traces_of_reads blind_pure fun _ => rfl

theorem traces_throw {e : Failure} : Traces p t l w (throw e : Analyzing α) :=
  fun _ _ _ _ _ _ => mirrors_throw

theorem mirrors_enter {f : Nat → Analyzing β} {Q : β → Analysis → Analysis → Prop}
    (ha : Amid p t a) (hp : Placed p.nodes a.cursor (e :: w)) (hb : Echo p.nodes c a b)
    (h : ∀ b', Amid p t (a.entered s) → Echo p.nodes c (a.entered s) b' →
      Mirrors (f a.cursor) Q (a.entered s) b') : Mirrors (enter s >>= f) Q a b := by
  have hlt : a.cursor < a.notes.size :=
    ha.going.size_notes ▸ (List.getElem?_eq_some_iff.1 hp.head).1
  intro y a' hrun
  obtain ⟨b', hrun', h⟩ :=
    h (b.entered s) (ha.moved (moved_entered hlt) rfl) (hb.entered hlt) y a' hrun
  refine ⟨b', ?_, h⟩
  rw [← hb.cursor_eq] at hrun'
  exact hrun'

theorem cursor_entered (h : a'.cursor = (a.entered s).cursor + w.length) :
    a'.cursor = a.cursor + (e :: w).length := by
  rw [h, List.length_cons, Nat.add_comm w.length, ← Nat.add_assoc]
  rfl

theorem traces_enter {f : Nat → Analyzing β} (he : e.lookup? = none)
    (h : ∀ i, p.nodes[i]? = some e → Traces p t l w (f i)) :
    Traces p t (s :: l) (e :: w) (enter s >>= f) := by
  intro c a b ha hp hb
  refine mirrors_enter ha hp hb fun b' hamid hb' => ?_
  exact (h _ hp.head c _ b' hamid (Placed.right (l := [e]) hp) hb').imp fun _ _ _ h =>
    ⟨h.amid, .enter he h.trace, h.echo, cursor_entered h.cursor_eq⟩

theorem traces_settle (hi : p.nodes[i]? = some e) (he : e.lookup? = none) :
    Traces p t [] [] (settle i r) := by
  rintro c a b ha - hb _ _ ⟨⟩
  exact ⟨b.settled i r, rfl, ha.moved moved_settled rfl, .settle hi he .nil, hb.settled, rfl⟩

theorem named_of_inferName {token : Token} {expected : Option TypeId}
    (hg : Going t a.types p.nodes a) :
    Ensures (inferName s expected token) (fun r a' => Named t s token.text a a' r)
      (fun _ _ => True) a := by
  rw [inferName, ensures_bind, ensures_resolve, hg.find_eq]
  cases hv : t.find s token.text with
  | none => exact .unknown hv
  | some v =>
    cases expected with
    | none => exact .known hv
    | some u => exact .bounded hv rfl

theorem Named.amid (h : Named t s name a a' u) (ha : Amid p t a) : Amid p t a' := by
  cases h with
  | unknown | known => exact ha
  | bounded _ heq => exact heq ▸ ha.moved (moved_addUpper trivial) rfl

theorem blind_inferName {token : Token} {expected : Option TypeId} :
    Blind (inferName s expected token) := by
  refine blind_resolve.bind fun v => ?_
  cases v with
  | none => exact blind_pure
  | some v =>
    have hknown : Blind (variableOf v >>= fun x => pure ((knownType x).getD TypeId.auto)) :=
      blind_variableOf.bind fun _ => blind_pure
    cases expected with
    | none => exact hknown
    | some u => exact blind_modifyVariable.bind fun _ => hknown

theorem traces_name {token : Token} {expected : Option TypeId} :
    Traces p t [s] [.atom .name token]
      (enter s >>= fun i => inferName s expected token >>= fun r => settle i (some r)) := by
  intro c a b ha hp hb
  refine mirrors_enter ha hp hb fun b' hamid hb' => ?_
  refine ((hb'.blind blind_inferName).and (named_of_inferName hamid.going)).bind ?_
  rintro r a₁ b₁ ⟨⟨hb₁, -, hcursor⟩, hname⟩ _ _ ⟨⟩
  exact ⟨b₁.settled a.cursor (some r), rfl, (hname.amid hamid).moved moved_settled rfl,
    .name hname .nil,
    hb₁.settled, cursor_entered (s := s) hcursor⟩

theorem traces_typeSoFar (hj : Foreseen p.nodes j) : Traces p t [] [] (typeSoFar j) := by
  have hrun : ∀ a : Analysis, (typeSoFar j).run.run a = (.ok (a.typeAt j).join, a) := fun a => by
    change (Except.ok ((a.notes[j]?).bind fun n => n.type.join), a) = _
    rw [Analysis.typeAt]
    cases a.notes[j]? <;> rfl
  intro c a b ha _ hb x a' hx
  rw [hrun] at hx
  cases hx
  exact ⟨b, by rw [hrun, hb.foreseen j hj], ha, .nil, hb, rfl⟩

theorem traces_addUpper (hv : Owned p t v) : Traces p t [] [] (modifyVariable v (·.addUpper r)) :=
  traces_of_blind blind_modifyVariable fun _ ha =>
    ⟨ha.moved (moved_addUpper trivial) rfl, .bound hv .nil⟩

theorem traces_join {u w : Option TypeId} : Traces p t [] [] (join u w) :=
  traces_of_reads blind_join fun _ => by simp

theorem traces_present {o : Option α} : Traces p t [] [] (present o) :=
  traces_of_reads blind_present fun _ => by simp

theorem traces_variableOf : Traces p t [] [] (variableOf v) :=
  traces_of_reads blind_variableOf fun _ => by simp

theorem traces_resolve {name : String} : Traces p t [] [] (resolve s name) :=
  traces_of_reads blind_resolve fun _ => by simp

theorem traces_childrenOf {f : List ScopeId → Analyzing β}
    (h : Traces p t l w (f (t.get s).children)) :
    Traces p t l w (childrenOf s >>= f) := traces_of_run fun a ha => ⟨_, h, fun b _ hb => by
  rw [← ha.going.get_eq, ← hb]
  rfl⟩

theorem traces_localsOf {f : List VarId → Analyzing β}
    (h : Traces p t l w (f ((t.get s).locals.map (·.2)))) :
    Traces p t l w (localsOf s >>= f) := traces_of_run fun a ha => ⟨_, h, fun b _ hb => by
  rw [← ha.going.get_eq, ← hb]
  rfl⟩

theorem traces_childAt {f : ScopeId → Analyzing β} (hi : (t.get s).children[j]? = some i)
    (h : Traces p t l w (f i)) :
    Traces p t l w (childAt s j >>= f) := traces_of_run fun a ha => ⟨_, h, fun b _ hb => by
  have hchild : Ensures (childAt s j) (fun x b' => x = i ∧ b' = b) (fun _ _ => False) b := by
    rw [ensures_childAt, hb, ha.going.get_eq, hi]
    exact ⟨fun x hx => ⟨(Option.some.inj hx).symm, rfl⟩, fun h => by cases h⟩
  obtain ⟨_, _, hrun, rfl, rfl⟩ := hchild.exists_run
  exact run_bind_ok hrun⟩

theorem Mirrors.resolve {name : String} {f : Option VarId → Analyzing β}
    {Q : β → Analysis → Analysis → Prop} (hg : Going t a.types p.nodes a) (hb : Echo p.nodes c a b)
    (h : Mirrors (f (t.find s name)) Q a b) : Mirrors (Analyzing.resolve s name >>= f) Q a b :=
  h.congr (by rw [← hg.find_eq]; rfl) (by rw [← hg.find_eq, ← hb.scopes_eq]; rfl)

theorem traces_find {name : String} {f : Option VarId → Analyzing β} (hv : t.find s name = some v)
    (h : Traces p t l w (f (some v))) :
    Traces p t l w (resolve s name >>= f) := traces_of_run fun a ha => ⟨_, h, fun b _ hb => by
  rw [← hv, ← ha.going.find_eq, ← hb]
  rfl⟩

theorem run_ask {g : Types → Except Failure α} {x : α} (hx : g a.types = .ok x) :
    (ask g >>= f).run.run a = (f x).run.run a := by
  have hask : Ensures (ask g) (fun y a' => y = x ∧ a' = a) (fun _ _ => False) a := by
    simp [hx, eq_comm]
  obtain ⟨_, _, hrun, rfl, rfl⟩ := hask.exists_run
  exact run_bind_ok hrun

theorem Mirrors.ask {g : Types → Except Failure α} {x : α} {Q : β → Analysis → Analysis → Prop}
    (hx : g a.types = .ok x) (hb : b.types = a.types) (h : Mirrors (f x) Q a b) :
    Mirrors (Analyzing.ask g >>= f) Q a b :=
  h.congr (run_ask hx) (run_ask (hb.symm ▸ hx))

theorem getVar_inferredTo {y : Variable} (hy : a.types.infer (a.scopes.getVar v) = .ok (true, y)) :
    (inferredTo a v true y).scopes.getVar v = y := by
  rw [inferredTo, ScopeTree.getVar_modify, if_pos ⟨rfl, lt_size_of_known hy⟩]

/-- The type of a variable is inferred, and if it became known something is done that counts as one
step together with it. -/
theorem traces_learn {g : Analyzing Unit} {learned rest : Analyzing β}
    (heq : learned = g >>= fun _ => rest)
    (hblind : Blind g) (hfound : ∀ a y, Amid p t a →
      a.types.infer (a.scopes.getVar v) = .ok (true, y) →
      Ensures g (fun _ a' => Infers p a a') (fun _ _ => True) (inferredTo a v true y))
        (hrest : Traces p t l w rest) :
    Traces p t l w (inferVariable v >>= fun known => if known = true then learned else rest) := by
  have hlearn : Traces p t [] []
      (inferVariable v >>= fun known => if known = true then g else pure ()) := by
    refine traces_of_blind (blind_inferVariable.bind fun _ => blind_ite hblind blind_pure)
      fun a ha => ?_
    rw [ensures_bind]
    refine ensures_inferVariable.weaken fun known a₁ ⟨y, hy, heq⟩ => ?_
    subst heq
    cases known with
    | false => exact ha.inferred (.inr (.forget hy))
    | true => exact (hfound a y ha hy).imp fun _ _ h => ha.inferred (.inr h)
  have hsplit : (inferVariable v >>= fun known => if known = true then learned else rest) =
      (inferVariable v >>= fun known => if known = true then g else pure ()) >>= fun _ => rest := by
    rw [bind_assoc, heq]
    refine bind_congr fun known => ?_
    cases known <;> simp
  rw [hsplit]
  exact hlearn.skip fun _ => hrest

theorem step_foundBinding {name : Token} {y : Variable} (hs : Inner t s)
    (hv : v ∈ (t.get s).locals.map (·.2)) (ha : Amid p t a)
    (hy : a.types.infer (a.scopes.getVar v) = .ok (true, y)) :
    Ensures (foundBinding name v) (fun _ a' => Infers p a a') (fun _ _ => True)
      (inferredTo a v true y) := by
  simp only [foundBinding, ensures_bind, ensures_variableOf, ensures_nameOf, ensures_found,
    getVar_inferredTo hy]
  refine .learn hy (.binding (hs.congr ha.going.get_eq) ?_)
  rwa [ha.going.get_eq]

/-! ## Expressions -/

theorem Inner.child (h : Inner t s) (hi : (t.get i).parent = some s) : Inner t i := by
  obtain ⟨j, k, _, hj, hk, -⟩ := h
  exact ⟨s, j, k, hi, hj, hk⟩

/-- A walk over an expression goes in steps, and meets it and all below it in their scopes. -/
def TracesExpr (p : Program) (t : ScopeTree) (cls : TypeId) (e : Expr) : Prop :=
  ∀ lead s expected, Inner t s → Fits t lead s e → Traces p t (e.scopes t s) e.nodes
    (inferExpr cls s expected e)

/-- A walk over some parts of an expression, which are in the scopes `is`. -/
abbrev TracesParts (p : Program) (t : ScopeTree) (is : List Nat) (parts : List Part)
    (m : Analyzing α) : Prop :=
  Traces p t (scopesOfParts t is parts) (nodesOfParts parts) m

section

variable {is : List Nat} {es : List Expr} {part : Part} {parts : List Part}
  {expected : Option TypeId}

theorem Traces.ending (h : Traces p t [] [] m) : TracesParts p t is [] m := by
  rwa [TracesParts, scopesOfParts, List.zip_nil_right]

theorem TracesExpr.next {f : Option TypeId → Analyzing β} (hx : TracesExpr p t cls x)
    (hs : Inner t s) (hparent : (t.get i).parent = some s)
    (hfit : ∀ x, part.expr = some x → Fits t part.names i x) (hpart : part.expr = some x)
    (hf : ∀ r, TracesParts p t is parts (f r)) :
    TracesParts p t (i :: is) (part :: parts) (inferExpr cls i expected x >>= f) := by
  rw [TracesParts, scopesOfParts_cons, nodesOfParts_cons, hpart, Option.elim_some, Option.elim_some]
  exact (hx _ i expected (hs.child hparent) (hfit x hpart)).bind hf

theorem traces_block (hs : Inner t s) (hes : ∀ x ∈ es, TracesExpr p t cls x)
    (hfits : FitsAll t s is (es.map fun x => { expr := some x })) :
    TracesParts p t is (es.map fun x => { expr := some x })
      (inferBlock cls expected is.getLast? is.dropLast es) := by
  induction es generalizing is with
  | nil =>
    rw [inferBlock]
    exact traces_throw
  | cons x es ih =>
    obtain ⟨hx, hes⟩ := List.forall_mem_cons.1 hes
    cases hfits with
    | cons _ _ hparent hfit hrest =>
      cases es with
      | nil =>
        cases hrest
        rw [inferBlock_last, ← bind_pure (inferExpr _ _ _ _)]
        exact hx.next hs hparent hfit rfl fun _ => traces_pure
      | cons y es =>
        rw [inferBlock_next (by rintro rfl; cases hrest)]
        exact hx.next hs hparent hfit rfl fun _ => ih hes hrest

theorem traces_args {xs : List (Option TypeId)} (hs : Inner t s)
    (hes : ∀ x ∈ es, TracesExpr p t cls x)
    (hlen : xs.length = es.length) (hfits : FitsAll t s is (es.map fun x => { expr := some x })) :
    TracesParts p t is (es.map fun x => { expr := some x }) (inferArgs cls is xs es) := by
  induction es generalizing is xs with
  | nil =>
    cases hfits
    rw [inferArgs]
    · exact traces_pure
    · simp
  | cons x es ih =>
    obtain ⟨hx, hes⟩ := List.forall_mem_cons.1 hes
    cases xs with
    | nil => cases hlen
    | cons u xs =>
      cases hfits with
      | cons _ _ hparent hfit hrest =>
        rw [inferArgs]
        exact hx.next hs hparent hfit rfl fun _ => ih hes (Nat.succ.inj hlen) hrest

theorem traces_branches {bs : List Branch} {k : Nat} {total : Option TypeId}
    (hk : p.nodes[k]? = some e) (he : e.lookup? = none) (hs : Inner t s)
    (hbs : ∀ b ∈ bs, TracesExpr p t cls b.body)
    (hfits : FitsAll t s is (bs.map fun b => { names := [b.name], expr := some b.body })) :
    TracesParts p t is (bs.map fun b => { names := [b.name], expr := some b.body })
      (inferBranches cls k total is bs) := by
  induction bs generalizing is total with
  | nil =>
    cases hfits
    rw [inferBranches]
    · exact traces_pure
    · simp
  | cons b bs ih =>
    obtain ⟨name, type, body⟩ := b
    obtain ⟨hb, hbs⟩ := List.forall_mem_cons.1 hbs
    cases hfits with
    | cons _ _ hparent hfit hrest =>
      rw [inferBranches]
      refine hb.next hs hparent hfit rfl fun r => ?_
      cases total with
      | none => exact (traces_settle hk he).skip fun _ => ih hbs hrest
      | some u => exact traces_join.skip fun _ => (traces_settle hk he).skip fun _ => ih hbs hrest

theorem traces_bindings {bs : List Binding} {vs : List VarId} (hs : Inner t s)
    (hbs : ∀ b ∈ bs, ∀ x, b.value = some x → TracesExpr p t cls x)
      (hvs : ∀ v ∈ vs, v ∈ (t.get s).locals.map (·.2))
    (hlen : bs.length ≤ vs.length) (hfits : FitsAll t s is (bs.map fun b => { expr := b.value })) :
    TracesParts p t is (bs.map fun b => { expr := b.value }) (inferBindings cls is vs bs) := by
  induction bs generalizing is vs with
  | nil =>
    cases hfits
    rw [inferBindings]
    · exact traces_pure
    · simp
  | cons b bs ih =>
    obtain ⟨name, type, value⟩ := b
    obtain ⟨hb, hbs⟩ := List.forall_mem_cons.1 hbs
    cases vs with
    | nil => cases hlen
    | cons v vs =>
      obtain ⟨hv, hvs⟩ := List.forall_mem_cons.1 hvs
      cases hfits with
      | cons _ _ hparent hfit hrest =>
        have hnext := ih hbs hvs (Nat.le_of_succ_le_succ hlen) hrest
        cases value with
        | none =>
          rw [inferBindings, List.map_cons, TracesParts, scopesOfParts_cons]
          exact hnext
        | some x =>
          rw [inferBindings]
          refine traces_variableOf.skip fun _ => (hb x rfl).next hs hparent hfit rfl fun r => ?_
          refine (traces_addUpper (.binding hs hv)).skip fun _ => ?_
          exact traces_learn rfl blind_foundBinding
            (fun a y ha hy => step_foundBinding hs hv ha hy) hnext

theorem traces_locals {bs : List Binding} {vs : List VarId} (hs : Inner t s)
    (hvs : ∀ v ∈ vs, v ∈ (t.get s).locals.map (·.2)) : Traces p t [] [] (inferLocals vs bs) := by
  induction vs generalizing bs with
  | nil => exact traces_pure
  | cons v vs ih =>
    obtain ⟨hv, hvs⟩ := List.forall_mem_cons.1 hvs
    cases bs with
    | nil => exact traces_learn rfl blind_throw (fun _ _ _ _ => trivial) (ih hvs)
    | cons b bs =>
      obtain ⟨name, type, value⟩ := b
      exact traces_learn rfl blind_foundBinding (fun a y ha hy => step_foundBinding hs hv ha hy)
        (ih hvs)

theorem traces_dispatch {name : Token} {target : TypeId} {k : Nat} (hk : p.nodes[k]? = some e)
    (he : e.lookup? = none) (hs : Inner t s) (hes : ∀ x ∈ es, TracesExpr p t cls x)
    (hfits : FitsAll t s ((t.get s).children.drop j) (es.map fun x => { expr := some x })) :
    TracesParts p t ((t.get s).children.drop j) (es.map fun x => { expr := some x }) (do
      let (type, method) ← callee name target
      inferArgs cls ((← childrenOf s).drop j) (expectations es method) es
      settle k (some type)) := by
  intro c a b ha hp hb
  have hcallee : Ensures (callee name target) (fun m a' => a' = a ∧ ∀ m', m.2 = some m' →
      m'.WellFormed) (fun _ _ => True) a := by
    refine ensures_callee.weaken fun m a' ⟨heq, hm⟩ => ⟨heq, fun m' hm' => ?_⟩
    obtain ⟨o, ho⟩ := hm m' hm'
    exact ha.wellFormed o m' ho
  refine ((hb.blind blind_callee).and hcallee).bind fun m a' b' ⟨⟨hb', _, _⟩, heq, hm⟩ => ?_
  subst heq
  exact traces_childrenOf ((traces_args hs hes (length_expectations es hm) hfits).last
    fun _ => traces_settle hk he) c _ b' ha hp hb'

end

/-- A walk over the parts of an expression from number `j` on. -/
abbrev TracesFrom (p : Program) (t : ScopeTree) (s : Nat) (e : Expr) (j : Nat) (m : Analyzing α) :
    Prop :=
  TracesParts p t ((t.get s).children.drop j) (e.parts.drop j) m

theorem Traces.enter {f : Nat → Analyzing β} (he : e.lookup? = none)
    (h : ∀ i, p.nodes[i]? = some e → TracesFrom p t s e 0 (f i)) :
    Traces p t (e.scopes t s) e.nodes (enter s >>= f) := by
  rw [e.scopes_eq, e.nodes_eq]
  exact traces_enter he h

theorem TracesExpr.childAt {lead : List String} {part : Part} {expected : Option TypeId}
    {f : Option TypeId → Analyzing β} (hx : TracesExpr p t cls x) (hs : Inner t s)
    (hfits : Fits t lead s e) (hj : e.parts[j]? = some part) (hpart : part.expr = some x)
    (hf : ∀ r, TracesFrom p t s e (j + 1) (f r)) :
    TracesFrom p t s e j (childAt s j >>= fun i => inferExpr cls i expected x >>= f) := by
  obtain ⟨i, hi, hparent, hfit⟩ := hfits.children.getElem? hj
  have hdrop := hi
  obtain ⟨hlt, rfl⟩ := List.getElem?_eq_some_iff.1 hdrop
  obtain ⟨hlt', rfl⟩ := List.getElem?_eq_some_iff.1 hj
  rw [TracesFrom, List.drop_eq_getElem_cons hlt, List.drop_eq_getElem_cons hlt']
  exact traces_childAt hi (hx.next hs hparent hfit hpart hf)

/-- An assignment finds its variable before the value is walked over, and the variable gets the
bound afterwards. -/
theorem TracesExpr.assign {token : Token} (hx : TracesExpr p t cls x) :
    TracesExpr p t cls (.assign token x) := by
  intro lead s expected hs hfits
  have hchildren := hfits.children
  generalize hjs : (t.get s).children = js at hchildren
  obtain - | @⟨_, i, _, _, _, -, -, hparent, hfit, hrest⟩ := hchildren
  cases hrest
  have hpart : ∀ wanted, Traces p t (x.scopes t i) x.nodes
      (Inferring.childAt s 0 >>= fun i => inferExpr cls i wanted x) := fun wanted =>
    traces_childAt (by rw [hjs]; rfl) (hx _ i wanted (hs.child hparent) (hfit x rfl))
  rw [inferExpr, Expr.scopes_eq, hjs, Expr.parts, scopesOfParts_cons, scopesOfParts_nil,
    Option.elim_some, List.append_nil, Expr.nodes]
  intro c a b ha hp hb
  refine mirrors_enter ha hp hb fun b' hamid hb' => Mirrors.resolve hamid.going hb' ?_
  generalize hv : t.find s token.text = found
  have hvalue : ∀ wanted, Mirrors (do
      let r ← inferExpr cls (← Inferring.childAt s 0) wanted x
      modifyVariable (← present found) (·.addLower r)
      settle a.cursor r)
      (fun _ a' b' => Abreast p t c (s :: x.scopes t i) (.assign token x :: x.nodes) a a' b')
      (a.entered s) b' := by
    intro wanted
    rw [← bind_assoc]
    refine (hpart wanted c _ b' hamid (Placed.right (l := [.assign token x]) hp) hb').bind ?_
    intro r a₁ b₁ h₁
    cases found with
    | none => exact mirrors_throw
    | some v =>
      have hlower : Ensures (modifyVariable v (·.addLower r))
          (fun _ a' => a' = { a₁ with scopes := a₁.scopes.modify v (·.addLower r) })
          (fun _ _ => True) a₁ := rfl
      simp only [present, pure_bind]
      refine ((h₁.echo.blind blind_modifyVariable).and hlower).bind ?_
      rintro _ _ b₂ ⟨⟨hb₂, -, -⟩, rfl⟩ _ _ ⟨⟩
      have hamid := h₁.amid.moved (moved_addLower (t := r) (v := v) trivial) rfl
      have htrace := Trace.assign (r := r) hv h₁.trace .nil
      rw [List.append_nil, List.append_nil] at htrace
      exact ⟨b₂.settled a.cursor r, rfl, hamid.moved moved_settled rfl, htrace, hb₂.settled,
        cursor_entered h₁.cursor_eq⟩
  cases found with
  | none => exact hvalue expected
  | some v =>
    have hvar : b'.scopes.getVar v = a.scopes.getVar v := by rw [hb'.scopes_eq]; rfl
    refine Mirrors.congr ?_ ?_ (hvalue ((knownType (a.scopes.getVar v)).or expected))
    · rfl
    · rw [← hvar]
      rfl

theorem traces_expr (e : Expr) : TracesExpr p t cls e := by
  induction e using Expr.induction with
  | ifThenElse c x y hc hx hy =>
    intro lead s expected hs hfits
    rw [inferExpr]
    refine .enter rfl fun _ hk => hc.childAt hs hfits rfl rfl fun _ =>
      hx.childAt hs hfits rfl rfl fun _ => ?_
    exact hy.childAt hs hfits rfl rfl fun _ =>
      (traces_join.skip fun _ => traces_settle hk rfl).ending
  | whileLoop c x hc hx =>
    intro lead s expected hs hfits
    rw [inferExpr]
    refine .enter rfl fun _ hk => hc.childAt hs hfits rfl rfl fun _ => ?_
    exact hx.childAt hs hfits rfl rfl fun _ => (traces_settle hk rfl).ending
  | block es hes =>
    intro lead s expected hs hfits
    rw [inferExpr]
    exact .enter rfl fun _ hk => traces_childrenOf
      ((traces_block hs hes hfits.children).last fun _ => traces_settle hk rfl)
  | letIn bs x hbs hx =>
    intro lead s expected hs hfits
    obtain ⟨is, i, hi, hinit, hparent, hfit⟩ := hfits.children.append_inv
    have hlen : bs.length ≤ ((t.get s).locals.map (·.2)).length := by
      have := congrArg List.length hfits.names
      simp only [Expr.ownNames, List.length_append, List.length_map] at this ⊢
      omega
    rw [inferExpr]
    refine .enter rfl fun _ hk => traces_childrenOf (traces_localsOf ?_)
    rw [List.drop_zero, List.drop_zero, Expr.parts, hi, List.dropLast_concat, List.getLast?_concat,
      scopesOfParts_append hinit.length_eq, nodesOfParts_append]
    refine (traces_bindings hs hbs (fun _ h => h) hlen hinit).bind fun _ =>
      hx.next hs hparent hfit rfl fun _ => ?_
    exact traces_localsOf ((traces_locals hs fun _ h => h).skip fun _ => traces_settle hk rfl)
  | caseOf x bs hx hbs =>
    intro lead s expected hs hfits
    rw [inferExpr]
    refine .enter rfl fun _ hk => hx.childAt hs hfits rfl rfl fun _ =>
      (traces_settle hk rfl).skip fun _ => traces_childrenOf ?_
    exact traces_branches hk rfl hs hbs hfits.children.drop_one
  | assign token x hx => exact hx.assign
  | unary op x hx =>
    intro lead s expected hs hfits
    rw [inferExpr]
    refine .enter rfl fun _ hk => ?_
    cases op <;> exact hx.childAt hs hfits rfl rfl fun _ => (traces_settle hk rfl).ending
  | binary op x y hx hy =>
    intro lead s expected hs hfits
    rw [inferExpr]
    refine .enter rfl fun k hk => ?_
    have hoperands : ∀ (u : Option TypeId) (g : Option TypeId →
        Option TypeId) (type : Option TypeId),
        TracesFrom p t s (.binary op x y) 0 (do
          let leftType ← inferExpr cls (← childAt s 0) u x
          let _ ← inferExpr cls (← childAt s 1) (g leftType) y
          settle k type) := fun u g type =>
      hx.childAt hs hfits rfl rfl fun _ => hy.childAt hs hfits rfl rfl fun _ =>
        (traces_settle hk rfl).ending
    cases op with
    | equal => exact (traces_typeSoFar ⟨k, x, y, hk, rfl⟩).skip fun r => hoperands r id _
    | lessEqual | less | plus | minus | star | div =>
      exact hoperands _ (fun _ => some Builtin.int) _
  | call x name es type hx hes =>
    intro lead s expected hs hfits
    rw [inferExpr]
    have hnamed : Traces p t [] [] (dispatchType type) :=
      traces_of_reads blind_dispatchType fun _ => ensures_dispatchType.imp fun _ _ h => h.1
    refine .enter rfl fun _ hk => hnamed.skip fun named => hx.childAt hs hfits rfl rfl fun _ =>
      traces_present.skip fun target => ?_
    exact traces_dispatch hk rfl hs hes hfits.children.drop_one
  | selfCall name es hes =>
    intro lead s expected hs hfits
    rw [inferExpr]
    exact .enter rfl fun _ hk => traces_dispatch (j := 0) hk rfl hs hes hfits.children
  | new type =>
    intro lead s expected hs hfits
    rw [inferExpr]
    exact .enter rfl fun _ hk =>
      ((traces_of_reads blind_typeOrWrong fun _ => ensures_typeOrWrong).skip fun _ =>
      traces_settle hk rfl).ending
  | atom kind token =>
    intro lead s expected hs hfits
    cases kind with
    | integer | string | bool =>
      rw [inferExpr]
      exact .enter rfl fun _ hk => (traces_settle hk rfl).ending
    | name =>
      rw [inferExpr, Expr.scopes_eq, Expr.parts, scopesOfParts, List.zip_nil_right]
      exact traces_name

/-! ## Features -/

variable {n : Nat} {c : ClassDecl} {f : Feature} {y : Variable}

theorem step_foundAttribute (hv : Home p t (.attribute cls name) v) (ha : Amid p t a)
    (hy : a.types.infer (a.scopes.getVar v) = .ok (true, y)) :
    Ensures (foundAttribute cls cls name v) (fun _ a' => Infers p a a') (fun _ _ => True)
      (inferredTo a v true y) := by
  simp only [foundAttribute, ensures_bind, ensures_variableOf, ensures_modify, ensures_nameOf,
    ensures_found, getVar_inferredTo hy]
  simp only [inferredTo, Types.name_modifyAttribute]
  exact .learn hy (.attribute (hv.congr ha.going.get_eq))

theorem traces_params {vs : List VarId}
    (hvs : ∀ k v, vs[k]? = some v → Home p t (.param cls name (i + k)) v) :
    Traces p t [] [] (inferParams cls cls name i vs) := by
  induction vs generalizing i with
  | nil => exact traces_pure
  | cons v vs ih =>
    have hrest : Traces p t [] [] (inferParams cls cls name (i + 1) vs) := by
      refine ih fun k u hu => ?_
      rw [Nat.add_right_comm]
      exact hvs (k + 1) u hu
    refine traces_learn (g := do
      let x ← variableOf v
      modify fun a => { a with
        types := a.types.modifyMethod cls name fun m =>
          { m with paramTypes := m.paramTypes.set i x.type } }
      found (.param name (← nameOf cls) x.name (← nameOf x.type))) (by simp) ?_
        (fun a y ha hy => ?_) hrest
    · exact blind_variableOf.bind fun _ => (blind_modify fun _ _ _ => rfl).bind fun _ =>
        blind_nameOf.bind fun _ => blind_nameOf.bind fun _ => blind_found
    · simp only [ensures_bind, ensures_variableOf, ensures_modify, ensures_nameOf, ensures_found,
        getVar_inferredTo hy]
      simp only [inferredTo, Types.name_modifyMethod]
      exact .learn hy (.param ((hvs 0 v rfl).congr ha.going.get_eq))

theorem step_result {m m0 : Method} {E : Failure → Analysis → Prop} (hts : a.types.WellFormed)
    (hd : Distinct (a.types.get cls)) (hm0 : m0 ∈ (a.types.get cls).methods)
    (hm : (m0.name, m0.result) = (m.name, m.result)) :
    Ensures (inferResult cls cls m r) (fun _ a' => a' = a ∨ Infers p a a') E a := by
  refine (ensures_inferResult hts hd hm0 hm).imp fun _ a' h => h.imp_right ?_
  rintro ⟨y, hy, rfl⟩
  exact .result (find?_of_nodup hd.2 hm0) hy

theorem traces_value {expected : Option TypeId} (ht : t.Tidy)
    (hs : s ∈ (t.get ScopeTree.root).children)
    (hi : i ∈ (t.get s).children) (hfit : FitsFeature t s i f)
      (hparts : f.parts = [{ expr := some x }]) :
    Traces p t (f.scopes t i) x.nodes (childAt i 0 >>= fun j => inferExpr cls j expected x) := by
  have hchildren := hfit.children
  rw [hparts] at hchildren
  generalize hjs : (t.get i).children = js at hchildren
  obtain - | ⟨-, -, hparent, hfits, hrest⟩ := hchildren
  cases hrest
  rw [Feature.scopes, hparts, hjs, scopesOfParts_cons, scopesOfParts_nil, List.append_nil]
  refine traces_childAt (by rw [hjs]; rfl)
    (traces_expr x _ _ expected ⟨i, s, _, hparent, ?_, ht.parent_eq _ s hs⟩ (hfits x rfl))
  exact ht.parent_eq s i hi

section

variable (ht : t.Tidy) (hn : p.classes[n]? = some c)
  (hs : (t.get ScopeTree.root).children[n]? = some s)

include ht hn hs

theorem traces_method {params : List Param} {name type : Token}
    (hj : c.features[j]? = some (.method name params type x)) (hi : (t.get s).children[j]? = some i)
    (hfit : FitsFeature t s i (.method name params type x)) :
    Traces p t (Feature.scopes t i (.method name params type x)) x.nodes
      (inferFeature (8 + n) i (.method name params type x)) := by
  intro c0 a b ha hp hb
  obtain ⟨m, hfind, hm, hname⟩ := (ha.hosts n c hn).findMethod (List.mem_of_getElem? hj)
  rw [inferFeature]
  refine Mirrors.ask hfind hb.types_eq ?_
  have hbody : Traces p t _ x.nodes (childAt i 0 >>= fun j =>
      inferExpr (8 + n) j (some (ownType (8 + n) m.returnType)) x) :=
    traces_value ht (List.mem_of_getElem? hs) (List.mem_of_getElem? hi) hfit rfl
  have hparams : Traces p t [] [] (localsOf i >>= fun vs =>
      inferParams (8 + n) (8 + n) m.name 0 (vs.drop 1)) := by
    refine traces_localsOf (traces_params fun k v hk => ?_)
    rw [List.getElem?_drop, List.getElem?_map, Option.map_eq_some_iff] at hk
    obtain ⟨x, hx, rfl⟩ := hk
    rw [hname, Nat.zero_add]
    rw [Nat.add_comm] at hx
    exact .param hn hs hj hi hx
  -- the parameters leave the result as it was when the method was looked up
  have hends : ∀ r a1 b1, Abreast p t c0 (Feature.scopes t i (.method name params type x)) x.nodes a
      a1 b1 → a1.types = a.types →
      Mirrors ((localsOf i >>= fun vs => inferParams (8 + n) (8 + n) m.name 0 (vs.drop 1)) >>=
        fun _ => inferResult (8 + n) (8 + n) m r)
        (fun _ a' b' => Abreast p t c0 (Feature.scopes t i (.method name params type x)) x.nodes a
          a' b') a1 b1 := by
    intro r a1 b1 h1 htypes
    refine ((hparams c0 a1 b1 h1.amid List.nil_prefix h1.echo).and
      (ensures_bind.mpr (infers_params h1.amid.going))).bind ?_
    rintro _ a2 b2 ⟨h2, -, hresults, -⟩
    have hmem : (m.name, m.result) ∈ (a2.types.get (8 + n)).methods.map fun m =>
        (m.name, m.result) := by
      rw [hresults, htypes]
      exact List.mem_map.2 ⟨m, hm, rfl⟩
    obtain ⟨m0, hm0, heq⟩ := List.mem_map.1 hmem
    have hstep := step_result (p := p) (r := r) (E := fun _ _ => True) h2.amid.wellFormed
        (h2.amid.hosts n c hn).distinct hm0 heq
    refine ((h2.echo.blind blind_inferResult).and hstep).imp ?_
    rintro _ a3 b3 ⟨⟨hb3, -, hcursor⟩, hstep⟩
    obtain ⟨hamid, htrace⟩ := h2.amid.inferred hstep
    simpa using (h1.trans h2).trans ⟨hamid, htrace, hb3, hcursor⟩
  have hmirrors :=
    ((hbody c0 a b ha hp hb).and (ensures_bind.mpr
      (infers_value ha.wellFormed ha.going hfit rfl hp))).bind fun r a1 b1 h =>
      hends r a1 b1 h.1 h.2.2
  simpa only [bind_assoc] using hmirrors

theorem traces_feature (hj : c.features[j]? = some f) (hi : (t.get s).children[j]? = some i)
    (hfit : FitsFeature t s i f) :
    Traces p t (f.scopes t i) f.nodes (inferFeature (8 + n) i f) := by
  obtain ⟨name, type, _ | x⟩ | ⟨name, params, type, x⟩ := f
  · rw [Feature.scopes, Feature.parts, scopesOfParts, Option.toList_none, List.map_nil,
      List.zip_nil_right]
    exact traces_pure
  · refine traces_of_run fun a ha => ?_
    have hc := ha.hosts n c hn
    have hf := List.mem_of_getElem? hj
    obtain ⟨y, hfind, hname⟩ := hc.findAttribute hf
    obtain ⟨v, hv, hlookup⟩ :=
      hfit.find ((ha.fits n c s hn hs).locals_eq _ hc.find_eq ▸ hc.attributes name type _ hf)
    refine ⟨_, ?_, fun b hb _ => run_ask (hb.symm ▸ hfind)⟩
    simp only [← bind_assoc (childAt i 0)]
    refine (traces_value ht (List.mem_of_getElem? hs) (List.mem_of_getElem? hi) hfit rfl).last
      fun r => ?_
    refine traces_find hv ?_
    simp only [present, pure_bind]
    have hhome : Home p t (.attribute (8 + n) y.name) v := hname ▸ .attribute hn hs hlookup
    refine (traces_addUpper (.attribute hhome)).skip fun _ =>
      traces_learn (bind_pure_unit).symm blind_foundAttribute (fun a y ha hy => ?_) traces_pure
    exact step_foundAttribute hhome ha hy
  · exact traces_method ht hn hs hj hi hfit

theorem traces_features {is : List Nat} {fs : List Feature}
    (hfits : List.Forall₂ (fun i f => FitsFeature t s i f ∧
      ∃ j : Nat, (t.get s).children[j]? = some i ∧ c.features[j]? = some f) is fs) :
    Traces p t (scopesOfFeatures t is fs) (fs.flatMap Feature.nodes)
      (inferFeatures (8 + n) is fs) := by
  induction hfits with
  | nil => exact traces_pure
  | cons hfit _ ih =>
    obtain ⟨hfit, j, hi, hj⟩ := hfit
    exact (traces_feature ht hn hs hj hi hfit).bind fun _ => ih

end

theorem forall₂_getElem? {α β : Type} {R : α → β → Prop} {l : List α} {l' : List β}
    (h : List.Forall₂ R l l') :
    List.Forall₂ (fun x y => R x y ∧ ∃ j : Nat, l[j]? = some x ∧ l'[j]? = some y) l l' := by
  refine List.forall₂_iff_get.2 ⟨h.length_eq, fun j hj hj' => ⟨h.get hj hj', j, ?_, ?_⟩⟩ <;> simp

/-! ## Classes -/

theorem traces_attributes {as : List Attribute} {vs : List VarId}
    (h : List.Forall₂ (fun x v => Home p t (.attribute cls x.name) v) as vs) :
    Traces p t [] [] (inferAttributes cls as vs) := by
  induction h with
  | nil =>
    rw [inferAttributes]
    · exact traces_pure
    · simp
  | cons hv _ ih =>
    rw [inferAttributes]
    exact traces_learn rfl blind_foundAttribute (fun a y ha hy => step_foundAttribute hv ha hy) ih

theorem forall₂_lookup {as : List Attribute} {l : List (String × VarId)}
    (hnames : l.map (·.1) = as.map (·.name)) (hnodup : (as.map (·.name)).Nodup) :
    List.Forall₂ (fun x v => l.lookup x.name = some v) as (l.map (·.2)) := by
  have hlen : as.length = l.length := by simpa using (congrArg List.length hnames).symm
  refine List.forall₂_iff_get.2 ⟨by simpa using hlen, fun j hj hj' => ?_⟩
  have hname : (l.map (·.1))[j]? = (as.map (·.name))[j]? := by rw [hnames]
  have hjl : j < l.length := hlen ▸ hj
  simp only [List.getElem?_map, List.getElem?_eq_getElem hj, List.getElem?_eq_getElem hjl,
    Option.map_some, Option.some.injEq] at hname
  refine lookup_of_mem (hnames ▸ hnodup) ?_
  rw [List.get_eq_getElem, ← hname]
  simp

theorem traces_class (ht : t.Tidy) (hn : p.classes[n]? = some c)
    (hs : (t.get ScopeTree.root).children[n]? = some s) :
    Traces p t (c.scopes t s) c.nodes (inferClass s c) := by
  refine traces_of_run fun a ha => ⟨_, ?_, fun b hb _ =>
    run_ask (hb.symm ▸ (ha.hosts n c hn).find_eq)⟩
  have hfits := forall₂_getElem? (ha.fits n c s hn hs).features
  refine traces_childrenOf ((traces_features ht hn hs hfits).last fun _ =>
    traces_of_run fun a1 ha1 => ?_)
  have hc := ha1.hosts n c hn
  have hlookup := forall₂_lookup ((ha1.fits n c s hn hs).locals_eq _ hc.find_eq) hc.distinct.1
  have hattributes :=
    traces_localsOf (s := s) (f := inferAttributes (8 + n) (a1.types.get (8 + n)).attributes)
    (traces_attributes (hlookup.imp fun _ _ h => .attribute hn hs h))
  refine ⟨_, hattributes, fun b hb _ => ?_⟩
  rw [← hb]
  rfl

theorem traces_classes {is : List Nat} {cs : List ClassDecl} (ht : t.Tidy)
    (h : List.Forall₂ (fun s c =>
      ∃ n : Nat, (t.get ScopeTree.root).children[n]? = some s ∧ p.classes[n]? = some c) is cs) :
    Traces p t (scopesOfClasses t is cs) (cs.flatMap ClassDecl.nodes) (inferClasses is cs) := by
  induction h with
  | nil => exact traces_pure
  | cons h _ ih =>
    obtain ⟨n, hs, hn⟩ := h
    exact (traces_class ht hn hs).bind fun _ => ih

theorem Walkable.amid (h : Walkable p a) : Amid p a.scopes a.restarted where
  wellFormed := h.wellFormed
  going := h.going
  hosts := h.hosts
  fits n c s hn hs := by
    obtain ⟨hlt, rfl⟩ := List.getElem?_eq_some_iff.1 hn
    obtain ⟨hlt', rfl⟩ := List.getElem?_eq_some_iff.1 hs
    exact h.fits.get hlt' hlt

theorem Walkable.traces (h : Walkable p a) : Traces p a.scopes (p.scopes a.scopes) p.nodes
    (inferClasses (a.scopes.get ScopeTree.root).children p.classes) :=
  traces_classes h.tidy ((forall₂_getElem? h.fits).imp fun _ _ h => h.2)

theorem Walkable.trace (h : Walkable p a) (hrun : (infer p).outcome a = (none, a')) :
    Trace p a.scopes (p.scopes a.scopes) p.nodes a.restarted a' := by
  have hinfer : Ensures (infer p)
      (fun _ a' => Trace p a.scopes (p.scopes a.scopes) p.nodes a.restarted a')
      (fun _ _ => True) a := by
    simp only [infer, ensures_bind, ensures_modify, ensures_get, ensures_pure]
    exact h.traces.ensures h.amid (List.prefix_refl _)
  obtain ⟨_, htrace⟩ := hinfer.of_outcome hrun
  exact htrace

theorem steps_of_infer (h : Walkable p a) (hrun : (infer p).outcome a = (none, a')) :
    Steps p a.restarted a' := (h.trace hrun).steps

theorem After.steps (h : After p a a') (ha : Walkable p a) : Steps p a a' := by
  induction h with
  | refl => exact .refl
  | step hafter hrun ih =>
    exact ih.trans (.head .restart (steps_of_infer (hafter.walkable ha).1 hrun))

end AutoCool.Cool
