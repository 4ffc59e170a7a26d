import AutoCool.Proofs.Cool.Cut
import AutoCool.Proofs.Cool.InferScopes

/-!
# One scope for each expression

The checker makes the scopes of a program, and inference finds them again by their places. Both meet
every expression of the program once and in the same scope, and what a name or an assignment finds
there is the same variable for both (`scopes_agree`).
-/

namespace AutoCool.Cool

variable {p : Program} {ts : Types} {t : ScopeTree} {s k lo : Nat} {x : Expr} {name : String}
  {a a' b c : Analysis}

theorem LaidClasses.noteScopes_eq (h : LaidClasses p.classes { types := ts } a) :
    a.noteScopes = p.scopes a.scopes := by
  obtain ⟨is, hroot, -, hnotes⟩ := h.laid
  rw [hnotes, Program.scopes, hroot]
  rfl

/-- From the moment at which the checker meets an expression to the end of its walk, a name that the
expression looks up means the same. -/
theorem Moment.find_eq (h : Moment lo k x c a) (hs : c.scopeAt k = some s)
    (hx : x.lookup? = some name) (hgrown : c.scopes.Grows t) (hgrows : t.Grows a.scopes) :
    t.find s name = a.scopes.find s name := by
  obtain ⟨s', -, hsize, hnote, hlocals⟩ := h.scope
  rw [scopeAt_eq, hnote] at hs
  cases hs
  have hlast := hlocals (Expr.ownNames_of_lookup? hx)
  have hnow : (t.get s).locals = (c.scopes.get s).locals := by
    have hlower := hgrown.locals s hsize
    have hupper := hgrows.locals s (Nat.lt_of_lt_of_le hsize hgrown.size_le)
    rw [hlast] at hupper
    exact hupper.eq_of_length_le hlower.length_le
  rw [hgrown.find_eq h.tidy hsize (by rw [hnow]), h.grows.find_eq h.tidy hsize (by rw [hlast])]

/-- Whatever is noted of the expressions beforehand, a walk of inference that nothing cuts short
meets the expressions of the program in their order, each one once, and notes the scopes that the
checker noted. The variable that a name or an assignment finds on the way is the one that it finds
in the scopes that the checker left: this one it bounds, and the type of a name is taken from it.
And the checker, from the moment at which it meets an expression that looks up a name in its scope,
finds the same variable there, or none as well. -/
theorem scopes_agree {ts₀ : Types}
    (hcollect : (collect p.classes).outcome Builtin.types = (none, ts₀))
    (hbuild : (build p).outcome ts₀ = (none, ts))
    (hcheck : (check p).outcome { types := ts } = (none, a)) (hafter : After p a a')
    (notes : Array Note) (cursor : Nat) (hnotes : notes.size = a'.notes.size)
    (hinfer : (infer p).outcome { a' with notes, cursor } = (none, b)) :
    (b.cursor = p.nodes.length ∧ b.noteScopes = p.scopes a.scopes ∧
        a.noteScopes = p.scopes a.scopes ∧ (p.scopes a.scopes).length = p.nodes.length ∧
        (p.scopes a.scopes).Nodup) ∧
      Trace p a.scopes (p.scopes a.scopes) p.nodes { a' with notes, cursor }.restarted b ∧
      ∀ k x, p.nodes[k]? = some x → ∃ s c, a.scopeAt k = some s ∧ b.scopeAt k = some s ∧
        (check (p.cut k)).outcome { types := ts } = (some .outOfRange, c) ∧ c.cursor = k + 1 ∧
          c.scopeAt k = some s ∧ c.scopes.Grows a.scopes ∧ ∀ name, x.lookup? = some name →
            ∀ t, c.scopes.Grows t → t.Grows a.scopes → t.find s name = a.scopes.find s name := by
  have hd := declared_of_build hcollect hbuild
  have hlaid := laidClasses_of_check hd.find_ne_auto hcheck
  have hwalkable := hd.walkable hlaid
  have hsteps := hafter.steps hwalkable
  have hwalkable' := (hafter.walkable hwalkable).1
  have hrenoted : Walkable p { a' with notes, cursor } :=
    { hwalkable' with size_notes := hnotes.trans hwalkable'.size_notes }
  obtain ⟨_, -, hmoved, hcursor⟩ := (infer_walks hrenoted).of_outcome hinfer
  have hchecked := hlaid.noteScopes_eq
  have hscopes : p.scopes a'.scopes = p.scopes a.scopes := by
    rw [Program.scopes, Program.scopes, hsteps.get_eq]
    exact scopesOfClasses_congr hwalkable.fits fun j _ _ => hsteps.get_eq j
  have hinferred : b.noteScopes = p.scopes a.scopes :=
    (hrenoted.noteScopes_eq hinfer).trans hscopes
  have htrace := (hrenoted.trace hinfer).congr fun s => (hsteps.get_eq s).symm
  have hlength : (p.scopes a.scopes).length = p.nodes.length := by
    rw [← hchecked, Analysis.noteScopes, List.length_map, Array.length_toList, hwalkable.size_notes]
  refine ⟨⟨hcursor, hinferred, hchecked, hlength, hwalkable.fits.nodup_scopes hwalkable.tidy⟩,
    hscopes ▸ htrace, fun k x hx => ?_⟩
  obtain ⟨c, hc, hmoment⟩ := moment_of_check hd.find_ne_auto hcheck hx
  obtain ⟨s, -, -, hnote, -⟩ := hmoment.scope
  have hs : c.scopeAt k = some s := (scopeAt_eq c k).trans hnote
  have ha : a.scopeAt k = some s := by
    rw [scopeAt_eq]
    obtain ⟨l, hl⟩ := hmoment.notes
    rw [← hl, List.getElem?_append_left (List.getElem?_eq_some_iff.1 hnote).1, hnote]
  have hb : b.scopeAt k = some s := by
    rw [scopeAt_eq, hinferred, ← hchecked, ← scopeAt_eq, ha]
  exact ⟨s, c, ha, hb, hc, hmoment.cursor_eq, hs, hmoment.grows,
    fun name hname t => hmoment.find_eq hs hname⟩

/-- Names of an attribute, of the variables of a branch and of a `let`, and one of no variable. -/
def Sample.shadowing : Program where
  classes := [
    { name := word "Main"
      features := [
        .attribute (word "x") (word "Int") (some (.atom .integer (word "1"))),
        .method (word "main") [] (word "Object")
          (.caseOf (.atom .name (word "x")) [
            .mk (word "y") (word "Int")
              (.letIn [
                  .mk (word "z") (word "Int") (some (.atom .name (word "y"))),
                  .mk (word "y") (word "AUTO_TYPE") (some (.atom .name (word "z")))]
                (.assign (word "y") (.binary .plus (.atom .name (word "x"))
                  (.atom .name (word "w")))))])] }]

/-- The state in which the checker leaves it, with other notes. -/
def Sample.renoted : Analysis :=
  { Sample.shadowing.checked with notes := .replicate 10 { scope := 0 }, cursor := 3 }

set_option maxRecDepth 10000 in
theorem scopes_agree_shadowing :
    ∃ b, (infer Sample.shadowing).outcome Sample.renoted = (none, b) ∧
      b.noteScopes = Sample.shadowing.checked.noteScopes ∧
      Trace Sample.shadowing Sample.shadowing.checked.scopes b.noteScopes Sample.shadowing.nodes
        Sample.renoted.restarted b ∧
      ∃ c, (check (Sample.shadowing.cut 6)).outcome { types := Sample.shadowing.types } =
          (some .outOfRange, c) ∧
        c.cursor = 7 ∧ c.scopeAt 6 = some 10 ∧ c.scopes.find 10 "y" = some 2 := by
  obtain ⟨hcollect, hbuild, hcheck⟩ := Sample.shadowing.checks (by decide +kernel)
  have hends : ((infer Sample.shadowing).outcome Sample.renoted).1 = none := by decide +kernel
  generalize hinfer : (infer Sample.shadowing).outcome Sample.renoted = outcome at hends ⊢
  obtain ⟨_, b⟩ := outcome
  cases hends
  have hscope : Sample.shadowing.checked.scopeAt 6 = some 10 := by decide +kernel
  have hfind : Sample.shadowing.checked.scopes.find 10 "y" = some 2 := by decide +kernel
  have hassign : Sample.shadowing.nodes[6]? = some (.assign (word "y")
      (.binary .plus (.atom .name (word "x")) (.atom .name (word "w")))) := rfl
  obtain ⟨⟨-, hb, ha, -, -⟩, htrace, hmoment⟩ :=
    scopes_agree hcollect hbuild hcheck .refl (.replicate 10 { scope := 0 }) 3 (by decide +kernel)
      hinfer
  obtain ⟨s, c, hs, -, hcut, hcursor, hc, hgrows, hname⟩ := hmoment 6 _ hassign
  cases hscope.symm.trans hs
  refine ⟨b, rfl, hb.trans ha.symm, ?_, c, hcut, hcursor, hc,
    (hname "y" rfl c.scopes .refl hgrows).trans hfind⟩
  rw [hb]
  exact htrace

end AutoCool.Cool
