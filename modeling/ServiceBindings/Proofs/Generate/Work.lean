import Mathlib.Tactic.Common
import ServiceBindings.Generate.Ledger

/-! What steps of compilation lead to, put together from what each of them does. -/
namespace ServiceBindings.Generate
open Naming (Names)

namespace Work
variable {σ α β : Type}

/-- Work that begins in a state ends in what `post` says of its result and of the state then. -/
def Ends (work : Work σ α) (state : Ledger × σ)
    (post : Except CompileError α → Ledger × σ → Prop) : Prop :=
  post (work.run.run state).run.1 (work.run.run state).run.2

theorem Ends.mono {work : Work σ α} {state : Ledger × σ}
    {post weaker : Except CompileError α → Ledger × σ → Prop} (h : work.Ends state post)
    (himp : ∀ result after, post result after → weaker result after) : work.Ends state weaker :=
  himp _ _ h

/-- Work goes on only after success. -/
theorem ends_bind {work : Work σ α} {next : α → Work σ β} {state : Ledger × σ}
    {post : Except CompileError β → Ledger × σ → Prop} :
    (work >>= next).Ends state post ↔ work.Ends state fun result after =>
      match result with
      | .ok a => (next a).Ends after post
      | .error error => post (.error error) after := by
  unfold Ends
  rw [ExceptT.run_bind, StateT.run_bind, Id.run_bind]
  rcases (work.run.run state).run with ⟨_ | a, after⟩ <;> exact Iff.rfl

theorem ends_ofModel {answer : Except ModelError α} {state : Ledger × σ}
    {post : Except CompileError α → Ledger × σ → Prop} :
    (ofModel answer).Ends state post ↔ post (answer.mapError .model) state := by
  cases answer <;> exact Iff.rfl

theorem ends_lookUp {table : Ledger → Fields α} {name : String} {state : Ledger × σ}
    {post : Except CompileError (Option α) → Ledger × σ → Prop} :
    (lookUp table name).Ends state post ↔
      match Fields.get? (table state.1) name with
      | some found => post (.ok (some found)) ({ state.1 with hits := state.1.hits + 1 }, state.2)
      | none => post (.ok none) state := by
  show Ends (do
    let found := Fields.get? (table state.1) name
    if found.isSome then update fun ledger => { ledger with hits := ledger.hits + 1 }
    return found) state post ↔ _
  cases Fields.get? (table state.1) name <;> exact Iff.rfl

theorem ends_enter {name : String} {state : Ledger × σ}
    {post : Except CompileError Unit → Ledger × σ → Prop} :
    (enter name).Ends state post ↔
      if name ∈ state.1.visiting then post (.error (.model (.recursiveShape name))) state
      else post (.ok ()) ({ state.1 with visiting := name :: state.1.visiting }, state.2) := by
  show Ends (do
    if name ∈ state.1.visiting then throw (.model (.recursiveShape name))
    update fun ledger => { ledger with visiting := name :: ledger.visiting }) state post ↔ _
  split_ifs <;> exact Iff.rfl

/-- Work inside a shape fails at once if the shape is being compiled. Else it begins with the shape
on top of the stack, which is taken off again whatever comes of the work. -/
theorem ends_inside {name : String} {work : Work σ α} {state : Ledger × σ}
    {post : Except CompileError α → Ledger × σ → Prop} :
    (inside name work).Ends state post ↔
      if name ∈ state.1.visiting then post (.error (.model (.recursiveShape name))) state
      else work.Ends ({ state.1 with visiting := name :: state.1.visiting }, state.2)
        fun result after => post result
          ({ after.1 with visiting := after.1.visiting.erase name }, after.2) := by
  rw [inside, ends_bind, ends_enter]
  split_ifs <;> exact Iff.rfl

theorem ends_nameShape {shape : Shape} {state : Ledger × σ}
    {post : Except CompileError Naming.Identifier → Ledger × σ → Prop} :
    (nameShape shape).Ends state post ↔
      post (.ok (state.1.names.shape shape).1)
        ({ state.1 with names := (state.1.names.shape shape).2 }, state.2) := Iff.rfl

theorem ends_nameOperation {name : String} {state : Ledger × σ}
    {post : Except CompileError Naming.Identifier → Ledger × σ → Prop} :
    (nameOperation name).Ends state post ↔
      post (.ok (state.1.names.operation name).1)
        ({ state.1 with names := (state.1.names.operation name).2 }, state.2) := Iff.rfl

theorem ends_emit [sink : Sink σ] {artifact : Artifact} {state : Ledger × σ}
    {post : Except CompileError Unit → Ledger × σ → Prop} :
    (emit artifact).Ends state post ↔
      post ((Sink.write artifact state.2).1.map (fun _ => ()) |>.mapError .emit)
        (state.1, (Sink.write artifact state.2).2) := by
  obtain ⟨write⟩ := sink
  unfold emit
  rw [ends_bind]
  show Ends _ (state.1, (write artifact state.2).2) post ↔
    post ((write artifact state.2).1.map (fun _ => ()) |>.mapError .emit)
      (state.1, (write artifact state.2).2)
  cases (write artifact state.2).1 <;> exact Iff.rfl

/-- Work goes on to nothing when its result is not asked for. -/
theorem ends_discard {work : Work σ α} {state : Ledger × σ}
    {post : Except CompileError Unit → Ledger × σ → Prop} :
    (discard work).Ends state post ↔
      work.Ends state fun result after => post (result.map fun _ => ()) after := by
  have hbind : discard work = work >>= fun _ => pure () := by
    rw [discard, LawfulFunctor.map_const, Function.comp_apply, map_eq_pure_bind]
  rw [hbind, Work.ends_bind]
  constructor <;> refine fun h => Work.Ends.mono h fun result after h => ?_ <;>
    cases result <;> exact h

end Work
end ServiceBindings.Generate
