import AutoCool.Proofs.Cool.CheckTypes
import AutoCool.Proofs.Cool.InferEnds
import AutoCool.Proofs.Cool.InferTypes
import AutoCool.Proofs.Cool.SameScopes

/-!
# Inference when there is nothing to infer

Checker and inference each tell the types of all expressions. Where a program leaves no type to be
inferred, both follow the same rules, so that a walk of inference finds what the checker found
(`infer_conservative`). Where types are left open the checker need not accept those that are
inferred for them (`inferred_not_accepted`).
-/

namespace AutoCool.Cool

variable {p : Program} {ts ts₀ : Types} {a b : Analysis}

theorem Declared.closed (hd : Declared p ts) (hacyclic : ts.Acyclic)
    (hcheck : (check p).outcome { types := ts } = (none, a))
    (hautos : p.autos = 0) : Closed ts a.scopes := by
  have hlaid := laidClasses_of_check hd.find_ne_auto hcheck
  obtain ⟨slots, -, hlength, hslots⟩ := hd.exists_slots hcheck
  have hnone : ∀ x, a.typeOf x ≠ some TypeId.auto := by
    intro x hx
    have hmem := (hslots x).2 hx
    rw [List.eq_nil_of_length_eq_zero (hlength.trans hautos)] at hmem
    cases hmem
  refine ⟨hd.wellFormed, hlaid.ready.valid, fun v hv => ?_, fun cls m hm => ?_⟩
  · rw [(hlaid.ready.coherent v hv).inferred_eq, bne_iff_ne]
    exact fun hauto => hnone (.var v) (congrArg some hauto)
  · have hwf := hd.wellFormed cls m hm
    rw [hwf.coherent.inferred_eq, bne_iff_ne]
    intro hauto
    refine hnone (.result cls m.name) ?_
    rw [Analysis.typeOf, hlaid.types_eq hacyclic, Types.cell, find?_of_nodup (hd.distinct cls).2 hm,
      ← hauto, hwf.type_eq]
    rfl

theorem notes_eq (hscopes : b.noteScopes = a.noteScopes) (htypes : ∀ k, b.typeAt k = a.typeAt k) :
    b.notes = a.notes := by
  refine Array.ext_getElem? fun k => ?_
  have hscope : b.scopeAt k = a.scopeAt k := by rw [scopeAt_eq, hscopes, scopeAt_eq]
  have htype := htypes k
  rw [Analysis.scopeAt, Analysis.scopeAt] at hscope
  rw [Analysis.typeAt, Analysis.typeAt] at htype
  cases hb : b.notes[k]? with
  | none =>
    rw [hb] at hscope
    exact (Option.map_eq_none_iff.1 hscope.symm).symm
  | some y =>
    rw [hb] at hscope htype
    obtain ⟨x, hx, hscope⟩ := Option.map_eq_some_iff.1 hscope.symm
    rw [hx] at htype ⊢
    obtain ⟨_, _⟩ := x
    cases hscope
    cases htype
    rfl

/-- If a program leaves no type to be inferred, declares its types without a cycle and assigns to
variables only, a walk of inference over what the checker left, whatever is noted there of the
expressions, is not cut short and infers nothing. It leaves the types, the scopes and the findings
as they are, and notes for each expression the scope and the type that the checker noted. -/
theorem infer_conservative (hcollect : (collect p.classes).outcome Builtin.types = (none, ts₀))
    (hbuild : (build p).outcome ts₀ = (none, ts)) (hacyclic : ts.Acyclic)
    (hcheck : (check p).outcome { types := ts } = (none, a)) (hautos : p.autos = 0)
    (htargets : Targets a.scopes (p.nodes.zip a.noteScopes)) (notes : Array Note)
      (hnotes : notes.size = a.notes.size) :
    (infer p).run.run { a with notes } = (.ok false, a) := by
  have hd := declared_of_build hcollect hbuild
  have hlaid := laidClasses_of_check hd.find_ne_auto hcheck
  have htypes : a.types = ts := hlaid.types_eq hacyclic
  have hwalkable := hd.walkable hlaid
  have hrenoted : Walkable p { a with notes } :=
    { hwalkable with size_notes := hnotes.trans hwalkable.size_notes }
  have hhosts : ∀ c ∈ p.classes, ∃ cls, Hosts ts cls c := htypes ▸ hwalkable.exists_hosts
  have hfits : FitsProgram ts a.scopes p := htypes ▸ hwalkable.fits
  rw [hlaid.noteScopes_eq] at htargets
  obtain ⟨l, hjudged, hlisted⟩ := judged_of_check hacyclic hd.find_ne_auto hcheck
  have hlength : l.length = a.notes.size :=
    (hjudged.length_eq fun _ _ _ h => h.length_eq).trans hwalkable.size_notes.symm
  have hinfer : Ensures (infer p) (fun y b => y = false ∧
      Noting none l ({ a with notes } : Analysis).restarted b)
      (fun _ _ => False) { a with notes } := by
    have hgives := gives_classes (o := none) (hd.closed hacyclic hcheck hautos) hhosts hfits hjudged
        htargets
    have hroom : 0 + l.length ≤ notes.size := by rw [Nat.zero_add, hlength, hnotes]
    simp only [infer, ensures_bind, ensures_modify, ensures_get, ensures_pure]
    refine (hgives ({ a with notes } : Analysis).restarted ⟨htypes, rfl, fun _ hi => (by cases hi),
      hroom⟩).imp ?_
    rintro _ b ⟨⟨-, h⟩, -⟩
    refine ⟨?_, h⟩
    rw [h.eq]
    rfl
  obtain ⟨_, b, hrun, rfl, hnoting⟩ := hinfer.exists_run
  have hscopes : b.noteScopes = a.noteScopes :=
    (hrenoted.noteScopes_eq (outcome_of_run hrun)).trans hlaid.noteScopes_eq.symm
  have hsame : ∀ k, b.typeAt k = a.typeAt k := by
    intro k
    by_cases hk : k < l.length
    · have hb := hnoting.listed k hk
      have ha := hlisted k hk
      rw [Nat.zero_add] at ha
      rw [ha, ← hb]
      exact congrArg b.typeAt (Nat.zero_add k).symm
    · have hb : b.notes.size = l.length := hnoting.size_notes.trans (hnotes.trans hlength.symm)
      rw [Analysis.typeAt, Analysis.typeAt, Array.getElem?_eq_none (by omega),
        Array.getElem?_eq_none (by omega)]
  have hcursor : ({ a with notes } : Analysis).restarted.cursor + l.length = a.cursor := by
    rw [hlaid.ready.cursor_eq, ← hlength]
    exact Nat.zero_add _
  have hchanged : a.changed = false := hlaid.changed_eq
  rw [hrun, hnoting.eq, notes_eq hscopes hsame, hcursor, Analysis.restarted, ← hchanged]

/-- Every type is given, and there are an assignment, branches of both kinds and calls of all
kinds. -/
def Sample.typed : Program where
  classes := [
    { name := word "A", features := [] },
    { name := word "B", features := [] },
    { name := word "Main"
      features := [
        .attribute (word "x") (word "Int") (some (.atom .integer (word "1"))),
        .method (word "next") [{ name := word "y", type := word "Int" }] (word "SELF_TYPE")
          (.block [
            .caseOf (.atom .name (word "y")) [
              .mk (word "z") (word "Int")
                (.letIn [.mk (word "w") (word "Int") (some (.atom .name (word "z")))]
                  (.assign (word "x") (.binary .plus (.atom .name (word "x"))
                    (.atom .name (word "w"))))),
              .mk (word "z") (word "String") (.atom .name (word "z"))],
            .atom .name (word "self")]),
        .method (word "main") [] (word "Object")
          (.ifThenElse (.unary .isVoid (.call (.selfCall (word "next") [.atom .name (word "x")])
            (word "copy") [] (some (word "Object"))))
            (.new (word "A")) (.new (word "B")))] }]

set_option maxRecDepth 10000 in
theorem infer_conservative_typed :
    (infer Sample.typed).run.run
      { Sample.typed.checked with notes := .replicate 19 { scope := 0 } } =
      (.ok false, Sample.typed.checked) := by
  obtain ⟨hcollect, hbuild, hcheck⟩ := Sample.typed.checks (by decide +kernel)
  have hacyclic : Sample.typed.types.Acyclic := Types.acyclic_of_parent_lt (by decide +kernel)
  exact infer_conservative hcollect hbuild hacyclic hcheck (by decide +kernel) (by decide +kernel) _
    (by decide +kernel)

/-- Two classes are each above the other one when the first call is checked, and no longer when the
checker is done. -/
def Sample.circular : Program where
  classes := [
    { name := word "Main"
      features := [.method (word "main") [] (word "Int")
        (.call (.new (word "B")) (word "foo") [] none)] },
    { name := word "B", parent := some (word "C"), features := [] },
    { name := word "C"
      parent := some (word "B")
      features := [.method (word "foo") [] (word "Int") (.atom .integer (word "1"))] }]

set_option maxRecDepth 10000 in
theorem infer_not_conservative_circular :
    (collect Sample.circular.classes).outcome Builtin.types = (none, Sample.circular.names) ∧
      (build Sample.circular).outcome Sample.circular.names = (none, Sample.circular.types) ∧
      (check Sample.circular).outcome { types := Sample.circular.types } =
        (none, Sample.circular.checked) ∧
      Sample.circular.autos = 0 ∧
      Targets Sample.circular.checked.scopes
        (Sample.circular.nodes.zip Sample.circular.checked.noteScopes) ∧
      (infer Sample.circular).run.run Sample.circular.checked =
        (.ok false, Sample.circular.walked 1) ∧
      Sample.circular.checked.typeAt 0 = some (some Builtin.int) ∧
      (Sample.circular.walked 1).typeAt 0 = some (some TypeId.error) := by
  exact ⟨outcome_eq (by decide +kernel), outcome_eq (by decide +kernel),
    outcome_eq (by decide +kernel), by decide +kernel,
    by decide +kernel, Program.run_walked (n := 0) (by decide +kernel), by decide +kernel, by
      decide +kernel⟩

/-- A text is the argument for a parameter that is added to a number. -/
def Sample.lent (type : String) : Program where
  classes := [
    { name := word "Main"
      features := [
        .method (word "f") [⟨word "x", word type⟩] (word "Int")
          (.binary .plus (.atom .name (word "x")) (.atom .integer (word "1"))),
        .method (word "main") [] (word "Int")
          (.selfCall (word "f") [.atom .string (word "hello")])] }]

set_option maxRecDepth 10000 in
/-- A parameter takes every argument as long as its type is open, and inference does not look at the
arguments. So the checker accepts a program in which a type is open, and not the one with the type
that is inferred for it. -/
theorem inferred_not_accepted :
    (Sample.lent "AUTO_TYPE").checked.diagnostics = #[] ∧
      ((Sample.lent "AUTO_TYPE").walked 1).types.cell (.param 8 "f" 0) = some Builtin.int ∧
      (Sample.lent "Int").checked.diagnostics.map (·.complaint) =
        #[.cannotConvert "String" "Int"] := by
  exact ⟨by decide +kernel, by decide +kernel, by decide +kernel⟩

end AutoCool.Cool
