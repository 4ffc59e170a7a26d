import Mathlib.Data.List.NodupEquivFin
import AutoCool.Proofs.Cool.Declared
import AutoCool.Proofs.Cool.Judgement

/-!
# What is bound where a name stands

The variables that are bound where an expression stands come in frames, from the inside out: those
of the expressions around it, those of the method and those of the class. A binding of a `let` is
seen by the values of the bindings after it and by the body, and the variable of a branch of a
`case` by the branch alone (`Expr.rooms`). `Program.Framed` gives the frames of every expression of
a program.

A name means the last variable of that name in the nearest frame that has one (`Innermost`), or the
first one (`Earliest`). Where the frame has only one such variable, this makes no difference
(`Innermost.earliest`).
-/

namespace AutoCool.Cool

/-- What binds variables: a class, a feature of it, or an expression, by number. The variable of a
branch belongs to its body. -/
inductive Owner
  | cls (i : Nat)
  | feature (i j : Nat)
  | expr (k : Nat)
deriving DecidableEq, Repr

/-- Variables of one owner that can be seen, with their types, in the order in which they are
bound. -/
structure Frame where
  owner : Owner
  vars : List (String × TypeId)
deriving DecidableEq, Repr

/-- The last variable of a name in the nearest frame that has one. -/
inductive Innermost (name : String) : List Frame → Owner → Nat → TypeId → Prop
  | here {f : Frame} {frames : List Frame} {m : Nat} {t : TypeId} : f.vars[m]? = some (name, t) →
      (∀ m' > m, ∀ u, f.vars[m']? ≠ some (name, u)) → Innermost name (f :: frames) f.owner m t
  | outside {f : Frame} {frames : List Frame} {o : Owner} {m : Nat} {t : TypeId} :
      name ∉ f.vars.map (·.1) →
      Innermost name frames o m t → Innermost name (f :: frames) o m t

/-- The first variable of a name in the nearest frame that has one. -/
inductive Earliest (name : String) : List Frame → Owner → Nat → TypeId → Prop
  | here {f : Frame} {frames : List Frame} {m : Nat} {t : TypeId} : f.vars[m]? = some (name, t) →
      (∀ m' < m, ∀ u, f.vars[m']? ≠ some (name, u)) → Earliest name (f :: frames) f.owner m t
  | outside {f : Frame} {frames : List Frame} {o : Owner} {m : Nat} {t : TypeId} :
      name ∉ f.vars.map (·.1) →
      Earliest name frames o m t → Earliest name (f :: frames) o m t

theorem Innermost.of_last (hm : f.vars[m]? = some (name, t)) (hlast : f.vars.length = m + 1) :
    Innermost name (f :: frames) f.owner m t :=
  .here hm fun _ hlt _ hm' => Nat.not_lt.2 hlt ((List.getElem?_eq_some_iff.1 hm').1.trans_eq hlast)

theorem Innermost.earliest (h : Innermost name frames o m t)
    (hone : ∀ f ∈ frames, f.owner = o → (f.vars.map (·.1)).count name ≤ 1) :
    Earliest name frames o m t := by
  induction h with
  | @here f frames m t hm _ =>
    refine .here hm fun m' hlt u hm' => ?_
    have hname {n : Nat} {v : TypeId} (hn : f.vars[n]? = some (name, v)) :
        ∃ h : n < (f.vars.map (·.1)).length,
        name = (f.vars.map (·.1)).get ⟨n, h⟩ := by
      obtain ⟨hlt, heq⟩ := List.getElem?_eq_some_iff.1 hn
      exact ⟨by simpa using hlt, by simp [heq]⟩
    obtain ⟨h1, heq1⟩ := hname hm'
    obtain ⟨h2, heq2⟩ := hname hm
    have htwice := List.duplicate_iff_exists_distinct_get.2 ⟨⟨m', h1⟩, ⟨m, h2⟩, hlt, heq1, heq2⟩
    exact Nat.not_succ_le_self 1 (Nat.le_trans (List.duplicate_iff_two_le_count.1 htwice)
      (hone f (.head _) rfl))
  | outside hf _ ih => exact .outside hf (ih fun g hg => hone g (.tail _ hg))

theorem exists_earliest (h : (name, t) ∈ f.vars) (hnodup : (f.vars.map (·.1)).Nodup) :
    ∃ m, Earliest name (f :: frames) f.owner m t := by
  obtain ⟨m, hm⟩ := List.mem_iff_getElem?.1 h
  have hname {n : Nat} {u : TypeId} (hn : f.vars[n]? = some (name, u)) : (f.vars.map (·.1))[n]? =
      some name := by
    rw [List.getElem?_map, hn, Option.map_some]
  refine ⟨m, .here hm fun m' hlt u hm' => ?_⟩
  have hlength := (List.getElem?_eq_some_iff.1 (hname hm')).1
  exact Nat.ne_of_lt hlt ((List.getElem?_inj hlength hnodup).1 ((hname hm').trans (hname hm).symm))

theorem Earliest.append {inner : List Frame} (hinner : ∀ f ∈ inner, name ∉ f.vars.map (·.1))
    (h : Earliest name outer o m t) : Earliest name (inner ++ outer) o m t := by
  induction inner with
  | nil => exact h
  | cons f inner ih =>
    obtain ⟨hf, hinner⟩ := List.forall_mem_cons.1 hinner
    exact .outside hf (ih hinner)

/-! ## Expressions -/

/-- A part of an expression as something to stand in: the variables of the expression that can be
seen there, those that are bound for the part alone, and the part. -/
structure Room where
  seen : List (String × TypeId) := []
  own : List (String × TypeId) := []
  expr : Option Expr

def Room.nodes (room : Room) : List Expr := room.expr.elim [] Expr.nodes

def Binding.variable (ts : Types) (cls : TypeId) : Binding → String × TypeId
  | .mk name type _ => (name.text, ownType cls (typeNamed ts type.text))

def Branch.variable (ts : Types) : Branch → String × TypeId
  | .mk name type _ => (name.text, dispatchNamed ts type.text)

/-- The value of a binding stands where the bindings before it can be seen. -/
def Binding.rooms (ts : Types) (cls : TypeId) :
    (seen : List (String × TypeId)) → List Binding → List Room
  | _, [] => []
  | seen, b :: bs => { seen, expr := b.value } :: rooms ts cls (seen ++ [b.variable ts cls]) bs

/-- The parts of an expression with the variables that it binds for them. -/
def Expr.rooms (ts : Types) (cls : TypeId) : Expr → List Room
  | .letIn bindings body =>
    Binding.rooms ts cls [] bindings ++
      [{ seen := bindings.map (Binding.variable ts cls), expr := some body }]
  | .caseOf subject branches =>
    { expr := some subject } :: branches.map fun b =>
      { own := [b.variable ts], expr := some b.body }
  | e => e.parts.map fun part => { expr := part.expr }

mutual

/-- In the expression of number `k`, whose own frame is `f`, the expression of number `k'` sees some
frames. -/
inductive Framed (ts : Types) (cls : TypeId) :
    Nat → Expr → Frame → List Frame → Nat → Expr → List Frame → Prop
  | here {k : Nat} {e : Expr} {f : Frame} {outer : List Frame} : Framed ts cls k e f outer k e
      (f :: outer)
  | inside {k k' : Nat} {e x : Expr} {f : Frame} {outer frames : List Frame} :
      FramedIn ts cls (k + 1) f outer (e.rooms ts cls) k' x frames →
        Framed ts cls k e f outer k' x frames

/-- The same for some parts of an expression. The first expression in them has number `k`. -/
inductive FramedIn (ts : Types) (cls : TypeId) :
    Nat → Frame → List Frame → List Room → Nat → Expr → List Frame → Prop
  | first {k k' : Nat} {e x : Expr} {f : Frame} {outer frames : List Frame}
      {seen own : List (String × TypeId)} {rooms : List Room} :
      Framed ts cls k e ⟨.expr k, own⟩ ({ f with vars := f.vars ++ seen } :: outer) k' x frames →
      FramedIn ts cls k f outer (⟨seen, own, some e⟩ :: rooms) k' x frames
  | later {k k' : Nat} {x : Expr} {f : Frame} {outer frames : List Frame} {room : Room}
      {rooms : List Room} :
      FramedIn ts cls (k + room.nodes.length) f outer rooms k' x frames →
        FramedIn ts cls k f outer (room :: rooms) k' x frames

end

variable {ts : Types} {cls : TypeId}

theorem Binding.map_expr_rooms :
    (Binding.rooms ts cls seen bs).map (·.expr) = bs.map Binding.value := by
  induction bs generalizing seen with
  | nil => rfl
  | cons b bs ih => rw [Binding.rooms, List.map_cons, List.map_cons, ih]

theorem Expr.map_expr_rooms (e : Expr) : (e.rooms ts cls).map (·.expr) = e.parts.map (·.expr) := by
  cases e with
  | letIn bs x => simp [Expr.rooms, Expr.parts, Binding.map_expr_rooms, Function.comp_def]
  | caseOf x bs => simp [Expr.rooms, Expr.parts, Function.comp_def]
  | _ => simp only [Expr.rooms, List.map_map, Function.comp_def]

theorem Expr.nodes_eq_rooms (ts : Types) (cls : TypeId) (e : Expr) :
    e.nodes = e :: (e.rooms ts cls).flatMap Room.nodes := by
  have hnodes (rooms : List Room) : rooms.flatMap Room.nodes = (rooms.map (·.expr)).flatMap fun x =>
      x.elim [] Expr.nodes := by
    rw [List.flatMap_map]
    rfl
  rw [e.nodes_eq, hnodes, e.map_expr_rooms, List.flatMap_map]
  rfl

theorem Expr.induction_rooms (ts : Types) (cls : TypeId) {P : Expr → Prop}
    (h : ∀ e, (∀ room ∈ e.rooms ts cls, ∀ x, room.expr = some x → P x) → P e) (e : Expr) : P e := by
  refine Expr.induction_parts (fun e ih => h e fun room hroom x hx => ?_) e
  have hmem : some x ∈ (e.rooms ts cls).map (·.expr) := List.mem_map.2 ⟨room, hroom, hx⟩
  rw [e.map_expr_rooms] at hmem
  obtain ⟨part, hpart, hx⟩ := List.mem_map.1 hmem
  exact ih part hpart x hx

theorem exists_framedIn
    (hrooms : ∀ room ∈ rooms, ∀ e, room.expr = some e →
      ∀ {k m : Nat} {x : Expr} {f : Frame} {outer : List Frame},
      e.nodes[m]? = some x → ∃ frames, Framed ts cls k e f outer (k + m) x frames)
    (hx : (rooms.flatMap Room.nodes)[m]? = some x) :
    ∃ frames, FramedIn ts cls k f outer rooms (k + m) x frames := by
  induction rooms generalizing k m with
  | nil => cases hx
  | cons room rooms ih =>
    obtain ⟨hroom, hrest⟩ := List.forall_mem_cons.1 hrooms
    rw [List.flatMap_cons] at hx
    rcases Nat.lt_or_ge m room.nodes.length with hlt | hge
    · rw [List.getElem?_append_left hlt] at hx
      obtain ⟨seen, own, _ | e⟩ := room
      · cases hlt
      · obtain ⟨frames, h⟩ := hroom e rfl hx
        exact ⟨frames, .first h⟩
    · rw [List.getElem?_append_right hge] at hx
      obtain ⟨frames, h⟩ := ih (k := k + room.nodes.length) hrest hx
      rw [Nat.add_assoc, Nat.add_sub_of_le hge] at h
      exact ⟨frames, .later h⟩

theorem Expr.exists_framed (ts : Types) (cls : TypeId) (e : Expr) {x : Expr} {f : Frame}
    {outer : List Frame} (hx : e.nodes[m]? = some x) :
    ∃ frames, Framed ts cls k e f outer (k + m) x frames := by
  induction e using Expr.induction_rooms ts cls generalizing k m x f outer with
  | h e ih =>
    rw [e.nodes_eq_rooms ts cls] at hx
    cases m with
    | zero =>
      cases hx
      exact ⟨_, .here⟩
    | succ m =>
      have hrooms : ∃ frames, FramedIn ts cls (k + 1) f outer (e.rooms ts cls)
          (k + 1 + m) x frames :=
        exists_framedIn (fun room hroom e he => ih room hroom e he) hx
      obtain ⟨frames, h⟩ := hrooms
      rw [Nat.add_assoc, Nat.add_comm 1] at h
      exact ⟨frames, .inside h⟩

mutual

theorem Framed.node {f : Frame}
    (h : Framed ts cls k e f outer k' x frames) : ∃ m, k' = k + m ∧ e.nodes[m]? = some x :=
  match h with
  | .here => ⟨0, rfl, by rw [e.nodes_eq]; rfl⟩
  | .inside hin => by
    obtain ⟨m, rfl, hm⟩ := hin.node
    refine ⟨m + 1, by rw [Nat.add_assoc, Nat.add_comm 1], ?_⟩
    rw [e.nodes_eq_rooms ts cls]
    exact hm

theorem FramedIn.node {x : Expr} {f : Frame} {rooms : List Room}
    (h : FramedIn ts cls k f outer rooms k' x frames) :
    ∃ m, k' = k + m ∧ (rooms.flatMap Room.nodes)[m]? = some x :=
  match h with
  | .first hframed => by
    obtain ⟨m, rfl, hm⟩ := hframed.node
    exact ⟨m, rfl, (List.getElem?_append_left (List.getElem?_eq_some_iff.1 hm).1).trans hm⟩
  | @FramedIn.later _ _ _ _ _ _ _ _ room rooms hrest => by
    obtain ⟨m, rfl, hm⟩ := hrest.node
    refine ⟨room.nodes.length + m, Nat.add_assoc .., ?_⟩
    rw [List.flatMap_cons, List.getElem?_append_right (Nat.le_add_right ..),
      Nat.add_sub_cancel_left]
    exact hm

end

mutual

/-- What is bound around an expression is bound for all in it, and what comes nearer belongs to
expressions. -/
theorem Framed.exists_append {f : Frame} (h : Framed ts cls k e f outer k' x frames) :
    ∃ inner g, frames = inner ++ g :: outer ∧ g.owner = f.owner ∧ ∀ g ∈ inner, ∃ n,
    g.owner = .expr n :=
  match h with
  | .here => ⟨[], f, rfl, rfl, fun _ hg => absurd hg List.not_mem_nil⟩
  | .inside hin => hin.exists_append

theorem FramedIn.exists_append {x : Expr} {f : Frame} {rooms : List Room}
    (h : FramedIn ts cls k f outer rooms k' x frames) :
    ∃ inner g, frames = inner ++ g :: outer ∧ g.owner = f.owner ∧ ∀ g ∈ inner, ∃ n,
    g.owner = .expr n :=
  match h with
  | .first hframed => by
    obtain ⟨inner, g, rfl, hg, hinner⟩ := hframed.exists_append
    refine ⟨inner ++ [g], _, (List.append_cons _ _ _).trans rfl, rfl, fun g' hg' => ?_⟩
    rcases List.mem_append.1 hg' with hg' | hg'
    · exact hinner g' hg'
    · exact List.mem_singleton.1 hg' ▸ ⟨_, hg⟩
  | .later hrest => hrest.exists_append

end

/-! ## Programs -/

def Feature.expr : Feature → Option Expr
  | .attribute _ _ value => value
  | .method _ _ _ body => some body

/-- The variables that a feature binds: a method binds the object itself and the parameters. -/
def Feature.variables (ts : Types) (cls : TypeId) : Feature → List (String × TypeId)
  | .attribute .. => []
  | .method _ params _ _ => ("self", cls) :: params.map fun p => (p.name.text, ts.named p.type.text)

/-- The attributes of a type as variables. -/
def attributeVars (ts : Types) (cls : TypeId) : List (String × TypeId) :=
  (ts.get cls).attributes.map fun x => (x.name, x.type)

/-- In feature `j` of class `i` of a program, the expression of number `k` in the program sees some
frames. -/
inductive Program.Framed (p : Program) (ts : Types) (i j k : Nat) (x : Expr) (frames : List Frame) :
    Prop
  | intro {c : ClassDecl} {f : Feature} {e : Expr} {cls : TypeId} {start : Nat} :
      p.classes[i]? = some c →
      ts.find c.name.text = .ok cls → c.features[j]? = some f → f.expr = some e →
      start = ((p.classes.take i).flatMap ClassDecl.nodes).length +
        ((c.features.take j).flatMap Feature.nodes).length →
      Cool.Framed ts cls start e ⟨.expr start, []⟩ [⟨.feature i j, f.variables ts cls⟩,
        ⟨.cls i, attributeVars ts cls⟩] k x frames →
      Program.Framed p ts i j k x frames

theorem exists_of_getElem?_flatMap {l : List α} {g : α → List β} {k : Nat} {x : β}
    (h : (l.flatMap g)[k]? = some x) :
    ∃ i y m, l[i]? = some y ∧ (g y)[m]? = some x ∧ k = ((l.take i).flatMap g).length + m := by
  induction l generalizing k with
  | nil => cases h
  | cons y l ih =>
    rw [List.flatMap_cons] at h
    rcases Nat.lt_or_ge k (g y).length with hlt | hge
    · rw [List.getElem?_append_left hlt] at h
      exact ⟨0, y, k, rfl, h, (Nat.zero_add k).symm⟩
    · rw [List.getElem?_append_right hge] at h
      obtain ⟨i, z, m, hz, hx, hk⟩ := ih h
      refine ⟨i + 1, z, m, hz, hx, ?_⟩
      rw [List.take_succ_cons, List.flatMap_cons, List.length_append, Nat.add_assoc, ← hk,
        Nat.add_sub_of_le hge]

theorem Feature.nodes_eq_elim (f : Feature) : f.nodes = f.expr.elim [] Expr.nodes := by
  obtain ⟨name, type, _ | e⟩ | ⟨name, params, type, e⟩ := f <;> rfl

theorem getElem?_flatMap_of_take {l : List α} {g : α → List β} {y : α} (hy : l[i]? = some y)
    (hx : (g y)[m]? = some x) : (l.flatMap g)[((l.take i).flatMap g).length + m]? = some x := by
  obtain ⟨hi, rfl⟩ := List.getElem?_eq_some_iff.1 hy
  have hsplit : l.flatMap g = (l.take i).flatMap g ++ (g l[i] ++ (l.drop (i + 1)).flatMap g) := by
    rw [← List.flatMap_cons, ← List.drop_eq_getElem_cons hi, ← List.flatMap_append,
      List.take_append_drop]
  rw [hsplit, List.getElem?_append_right (Nat.le_add_right ..), Nat.add_sub_cancel_left,
    List.getElem?_append_left (List.getElem?_eq_some_iff.1 hx).1, hx]

theorem Program.Framed.node {p : Program} {x : Expr} {frames : List Frame}
    (h : p.Framed ts i j k x frames) : p.nodes[k]? = some x := by
  obtain @⟨c, f, e, cls, start, hc, -, hf, he, rfl, hframed⟩ := h
  obtain ⟨m, rfl, hm⟩ := hframed.node
  rw [Nat.add_assoc]
  refine getElem?_flatMap_of_take hc (getElem?_flatMap_of_take hf ?_)
  rw [f.nodes_eq_elim, he]
  exact hm

theorem Program.Framed.class_frame {p : Program} {x : Expr} {frames : List Frame} {c : ClassDecl}
    (h : p.Framed ts i j k x frames) (hc : p.classes[i]? = some c)
    (hcls : ts.find c.name.text = .ok cls) :
    ∃ inner, frames = inner ++ [⟨.cls i, attributeVars ts cls⟩] ∧ ∀ f ∈ inner,
    f.owner ≠ .cls i := by
  obtain @⟨c', f, e, cls', start, hc', hcls', -, -, -, hframed⟩ := h
  cases hc'.symm.trans hc
  cases hcls'.symm.trans hcls
  obtain ⟨inner, g, rfl, hg, hinner⟩ := hframed.exists_append
  refine ⟨inner ++ [g, ⟨.feature i j, f.variables ts cls⟩], by simp, fun f' hf' => ?_⟩
  rcases List.mem_append.1 hf' with hf' | hf'
  · obtain ⟨n, hn⟩ := hinner f' hf'
    simp [hn]
  · rcases List.mem_pair.1 hf' with rfl | rfl
    · simp [hg]
    · simp

theorem Declared.exists_framed (hd : Declared p ts) {k : Nat} {x : Expr}
    (hx : p.nodes[k]? = some x) : ∃ i j frames, p.Framed ts i j k x frames := by
  obtain ⟨i, c, m, hc, hm, rfl⟩ := exists_of_getElem?_flatMap hx
  obtain ⟨j, f, m', hf, hm', rfl⟩ := exists_of_getElem?_flatMap hm
  rw [f.nodes_eq_elim] at hm'
  cases he : f.expr with
  | none =>
    rw [he] at hm'
    cases hm'
  | some e =>
    rw [he] at hm'
    obtain ⟨frames, h⟩ := e.exists_framed ts (8 + i) hm'
    refine ⟨i, j, frames, .intro hc (hd.find_class hc) hf he rfl ?_⟩
    rw [← Nat.add_assoc]
    exact h

end AutoCool.Cool
