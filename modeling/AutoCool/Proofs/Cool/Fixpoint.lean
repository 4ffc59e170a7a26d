import AutoCool.Proofs.Cool.InferTrace

/-!
# Where inference ends

The walks of inference are repeated until one of them infers nothing. The last walk leaves
everything but notes as it was, so one more walk goes its way, provided that the last one noted the
same types for the right operands of comparisons as the walk before (`infer_again`). Without this
proviso one more walk may infer a type (`infer_again_infers`).
-/

namespace AutoCool.Cool

variable {ts : Types} {a a' b : Analysis} {p : Program}

open Inferring

/-- A walk that infers nothing is repeated step by step by the next one, if it noted the types that
were there already for the right operands of comparisons. -/
theorem Walkable.repeats (h : Walkable p a) (hrun : (infer p).run.run a = (.ok false, b))
    (hforeseen : ∀ j, Foreseen p.nodes j → b.typeAt j = a.typeAt j) :
    (infer p).run.run b = (.ok false, b) := by
  obtain ⟨hchanged, hmoved, hcursor⟩ := (infer_walks h).of_run hrun
  have hb := h.eq_of_quiet hmoved hchanged.symm
  have hscopes : b.scopes = a.scopes := by rw [hb]; rfl
  have hstart : Echo p.nodes b a.restarted b.restarted := by
    refine ⟨?_, hmoved.size_notes, fun j hj => hforeseen j hj, fun _ => .inr rfl, fun _ => .inr rfl⟩
    rw [hb]
    rfl
  -- both walks begin anew, in the same scopes, and answer whether they have inferred a type
  have hends : ∀ a1 b1, Echo p.nodes b a1 b1 → Mirrors (get >>= fun c : Analysis => pure c.changed)
      (fun _ a' b' => Echo p.nodes b a' b') a1 b1 := fun a1 b1 h1 =>
    (h1.blind (blind_get (fun _ _ _ => rfl) fun _ => blind_pure)).imp fun _ _ _ h => h.1
  have hwalk := (h.traces b _ _ h.amid (List.prefix_refl _) hstart).bind fun _ a1 b1 h1 =>
      hends a1 b1 h1.echo
  obtain ⟨c, hc, hecho⟩ := hwalk false b hrun
  rw [← hscopes] at hc
  rw [hecho.notes_eq] at hc
  exact hc

/-- The walks of inference end where one more walk changes nothing at all, if the last one noted the
types that were there already for the right operands of comparisons. -/
theorem infer_again {ts₀ : Types} (hcollect : (collect p.classes).outcome Builtin.types =
      (none, ts₀))
    (hbuild : (build p).outcome ts₀ = (none, ts))
      (hcheck : (check p).outcome { types := ts } = (none, a)) (hafter : After p a a')
    (hrun : (infer p).run.run a' = (.ok false, b)) (hforeseen : ∀ j, Foreseen p.nodes j →
      b.typeAt j = a'.typeAt j) :
    (infer p).run.run b = (.ok false, b) := by
  have hd := declared_of_build hcollect hbuild
  have hwalkable := hd.walkable (laidClasses_of_check hd.find_ne_auto hcheck)
  exact (hafter.walkable hwalkable).1.repeats hrun hforeseen

/-- Two parameters are compared, and then the second one is used. -/
def Sample.compared : Program where
  classes := [
    { name := word "Main"
      features := [
        .method (word "f") [⟨word "a", word "AUTO_TYPE"⟩, ⟨word "b", word "AUTO_TYPE"⟩] (word "Int")
          (.block [.binary .equal (.atom .name (word "a")) (.atom .name (word "b")),
            .binary .plus (.atom .name (word "b")) (.atom .integer (word "1"))])] }]

set_option maxRecDepth 10000 in
/-- The second walk infers nothing, but now it is noted that the second parameter is a number. So
the third walk infers that the first one is a number as well. -/
theorem infer_again_infers : (infer Sample.compared).run.run (Sample.compared.walked 0) =
      (.ok true, Sample.compared.walked 1) ∧ (infer Sample.compared).run.run
      (Sample.compared.walked 1) = (.ok false, Sample.compared.walked 2) ∧
    (infer Sample.compared).run.run (Sample.compared.walked 2) =
      (.ok true, Sample.compared.walked 3) ∧ (Sample.compared.walked 2).findings.toList =
      [.param "f" "Main" "b" "Int"] ∧ (Sample.compared.walked 3).findings.toList =
      [.param "f" "Main" "b" "Int", .param "f" "Main" "a" "Int"] :=
  ⟨Program.run_walked (by decide +kernel), Program.run_walked (by decide +kernel),
    Program.run_walked (by decide +kernel),
    by decide +kernel, by decide +kernel⟩

set_option maxRecDepth 10000 in
theorem infer_again_compared : (infer Sample.compared).run.run (Sample.compared.walked 3) =
      (.ok false, Sample.compared.walked 4) ∧ (infer Sample.compared).run.run
      (Sample.compared.walked 4) = (.ok false, Sample.compared.walked 4) := by
  obtain ⟨hcollect, hbuild, hcheck⟩ := Sample.compared.checks (by decide +kernel)
  have hrun₁ : (infer Sample.compared).run.run (Sample.compared.walked 0) = (.ok true, _) :=
    Program.run_walked (by decide +kernel)
  have hrun₂ : (infer Sample.compared).run.run (Sample.compared.walked 1) = (.ok false, _) :=
    Program.run_walked (by decide +kernel)
  have hrun₃ : (infer Sample.compared).run.run (Sample.compared.walked 2) = (.ok true, _) :=
    Program.run_walked (by decide +kernel)
  have hrun₄ : (infer Sample.compared).run.run (Sample.compared.walked 3) = (.ok false, _) :=
    Program.run_walked (by decide +kernel)
  have hafter : After Sample.compared Sample.compared.checked (Sample.compared.walked 3) :=
    .step (.step (.step .refl (outcome_of_run hrun₁)) (outcome_of_run hrun₂)) (outcome_of_run hrun₃)
  have htype : (Sample.compared.walked 4).typeAt 3 = (Sample.compared.walked 3).typeAt 3 := by
    decide +kernel
  refine ⟨hrun₄, infer_again hcollect hbuild hcheck hafter hrun₄ ?_⟩
  -- the only comparison has number 1, and its right operand number 3
  rintro _ ⟨k, x, y, hk, rfl⟩
  rcases k with _ | _ | _ | _ | _ | _ | _ | k
  all_goals cases hk
  exact htype

end AutoCool.Cool
