import ServiceBindings.Generate.Compile

/-! Runs over whole services. An operation that fails does not stop the others. -/
namespace ServiceBindings.Generate
open Plan (Call)

/-- What came of compiling the operations of a service. -/
structure Report where
  calls : Fields Call
  failures : List (String × CompileError)

def Report.success (report : Report) : Bool :=
  report.failures.isEmpty

/-- A run: its job, its ledger and the place for its items. -/
structure Run (σ : Type) where
  job : Job
  ledger : Ledger
  sink : σ

namespace Run
variable {σ : Type} [Sink σ]

def start (job : Job) (sink : σ) : Run σ where
  job
  ledger := .ofModel job.model
  sink

def perform {α : Type} (run : Run σ) (work : Work σ α) : Except CompileError α × Run σ :=
  let (result, ledger, sink) := work.run.run (run.ledger, run.sink)
  (result, { run with ledger, sink })

def compile (run : Run σ) (name : String) : Except CompileError Call × Run σ :=
  run.perform (compileCall run.job name)

def compileAll (run : Run σ) : List String → Report × Run σ
  | [] => (⟨[], []⟩, run)
  | name :: rest =>
    let (result, run) := run.compile name
    let (report, run) := run.compileAll rest
    match result with
    | .ok call => ({ report with calls := (name, call) :: report.calls }, run)
    | .error error => ({ report with failures := (name, error) :: report.failures }, run)

def all (run : Run σ) : Report × Run σ :=
  run.compileAll (run.job.model.operations.names.mergeSort fun a b => a ≤ b)

end Run
end ServiceBindings.Generate
