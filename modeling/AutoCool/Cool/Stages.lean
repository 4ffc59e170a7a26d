import AutoCool.Cool.Inference
import AutoCool.Cool.Lexer

/-!
# The stages of the analysis of a program

A program is collected, built, checked and then inferred until nothing changes. `stages` keeps what
each stage leaves, up to the first one that is cut short, and `analyze` gives the result of all of
them.
-/

namespace AutoCool.Cool

inductive Stage
  | collect (failure : Option Failure) (types : Types)
  | build (failure : Option Failure) (types : Types)
  | check (failure : Option Failure) (after : Analysis)
  | infer (failure : Option Failure) (findings : List Finding) (after : Analysis)

namespace Stage

def inferring (p : Program) : (fuel : Nat) → Analysis → List Stage
  | 0, _ => []
  | fuel + 1, before =>
    let (failure, after) := (Cool.infer p).outcome before
    let findings := after.findings.toList.drop before.findings.size
    .infer failure findings after ::
      if failure.isNone && after.changed then inferring p fuel after else []

def checking (p : Program) (types : Types) : List Stage :=
  let (failure, after) := (Cool.check p).outcome { types }
  .check failure after :: if failure.isNone then inferring p after.walks after else []

def building (p : Program) (types : Types) : List Stage :=
  let (failure, types) := (Cool.build p).outcome types
  .build failure types :: if failure.isNone then checking p types else []

end Stage

def stages (p : Program) : List Stage :=
  let (failure, types) := (Cool.collect p.classes).outcome Builtin.types
  .collect failure types :: if failure.isNone then Stage.building p types else []

def analyze (p : Program) : Except Failure Analysis := do
  let types ← ofOutcome ((Cool.collect p.classes).outcome Builtin.types)
  let types ← ofOutcome ((Cool.build p).outcome types)
  let a ← ofOutcome ((Cool.check p).outcome { types })
  ofOutcome ((Analysis.inferAll p a.walks).outcome a)
where
  ofOutcome {α : Type} : Option Failure × α → Except Failure α
    | (none, a) => .ok a
    | (some f, _) => .error f

def Builtin.built : Types := (buildBuiltins.outcome Builtin.types).2

end AutoCool.Cool
