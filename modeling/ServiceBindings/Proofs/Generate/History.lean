import Mathlib.Data.String.Basic
import ServiceBindings.Generate.Run
import ServiceBindings.Proofs.Generate.Settled
import ServiceBindings.Proofs.Model.Texts

/-! What a run makes of an operation does not depend on what it did before. -/
namespace ServiceBindings.Generate
open Naming (Identifier)
open Plan (Call)

/-- Results are alike: plans that differ at most in the numbers of identifiers, or one error. -/
def AlikeResult : Except CompileError Call → Except CompileError Call → Prop
  | .ok a, .ok b => a.Alike b
  | .error a, .error b => a = b
  | _, _ => False

namespace Run
variable {σ : Type} [Sink σ]

/-- What can be asked of a run. -/
inductive Step where
  | compile (name : String)
  | all

def after (run : Run σ) : List Step → Run σ
  | [] => run
  | .compile name :: rest => (run.compile name).2.after rest
  | .all :: rest => run.all.2.after rest

/-- The state of a run is sound, and nothing is being compiled. -/
structure IsSound (promise : Promise σ) (run : Run σ) : Prop where
  sound : Sound run.job promise (run.ledger, run.sink)
  visiting : run.ledger.visiting = []

theorem isSound_start {promise : Promise σ} (job : Job) {sink : σ}
    (hsink : promise.holds (fun _ => False) sink) : IsSound promise (start job sink) := by
  refine ⟨⟨rfl, Naming.Names.sound_ofModel job.model, ?_, ?_, ?_, ?_, ?_, ?_⟩, rfl⟩
  · intro shape ident _ h
    simp [start, Ledger.ofModel, Naming.Names.ofModel] at h
  · intro name ident h
    simp [start, Ledger.ofModel, Naming.Names.ofModel] at h
  · intro name e h
    simp [start, Ledger.ofModel] at h
  · intro name layout h
    simp [start, Ledger.ofModel] at h
  · intro name call h
    simp [start, Ledger.ofModel] at h
  · exact promise.mono (fun _ => False.elim) hsink

/-- Compiling an operation keeps a run sound and comes to the result of a fresh run. -/
theorem IsSound.compile {promise : Promise σ} {run : Run σ} (h : run.IsSound promise)
    (hm : run.job.model.WellFormed) (name : String) :
    (run.compile name).2.IsSound promise ∧ (run.compile name).2.job = run.job ∧
      Agrees promise (Call.Related Identifier.Numbers) (plainCall run.job name)
        (run.compile name).1 := by
  have hsettles := compileCall_settles hm h.sound h.visiting name
  exact ⟨⟨hsettles.sound, hsettles.grows.visiting.trans h.visiting⟩, rfl, hsettles.agrees⟩

/-- What a report tells of operations compiled one after the other. -/
structure Reports (promise : Promise σ) (job : Job) (names : List String) (report : Report) :
    Prop where
  once : (Fields.names report.calls ++ report.failures.map Prod.fst).Perm names
  order : (Fields.names report.calls).Sublist names
  calls : ∀ name call, (name, call) ∈ report.calls →
    Agrees promise (Call.Related Identifier.Numbers) (plainCall job name) (.ok call)
  failures : ∀ name error, (name, error) ∈ report.failures →
    Agrees promise (Call.Related Identifier.Numbers) (plainCall job name) (.error error)

def enterResult (name : String) (result : Except CompileError Call) (report : Report) : Report :=
  match result with
  | .ok call => { report with calls := (name, call) :: report.calls }
  | .error error => { report with failures := (name, error) :: report.failures }

theorem compileAll_cons (run : Run σ) (name : String) (rest : List String) :
    run.compileAll (name :: rest) =
      (enterResult name (run.compile name).1 ((run.compile name).2.compileAll rest).1,
        ((run.compile name).2.compileAll rest).2) := by
  rcases h : run.compile name with ⟨result, next⟩
  rcases h' : next.compileAll rest with ⟨report, last⟩
  cases result <;> simp [compileAll, h, h', enterResult]

theorem Reports.nil (promise : Promise σ) (job : Job) : Reports promise job [] ⟨[], []⟩ :=
  ⟨.refl _, .refl _, fun _ _ h => by simp at h, fun _ _ h => by simp at h⟩

theorem Reports.cons {promise : Promise σ} {job : Job} {name : String} {rest : List String}
    {report : Report} (h : Reports promise job rest report) {result : Except CompileError Call}
    (hresult : Agrees promise (Call.Related Identifier.Numbers) (plainCall job name) result) :
    Reports promise job (name :: rest) (enterResult name result report) := by
  cases result with
  | ok call =>
    refine ⟨h.once.cons name, h.order.cons_cons name, fun other found hmem => ?_, h.failures⟩
    rcases List.mem_cons.1 hmem with heq | hmem
    · obtain ⟨rfl, rfl⟩ := Prod.mk.inj heq
      exact hresult
    · exact h.calls other found hmem
  | error error =>
    refine ⟨List.perm_middle.trans (h.once.cons name), h.order.cons name, h.calls,
      fun other found hmem => ?_⟩
    rcases List.mem_cons.1 hmem with heq | hmem
    · obtain ⟨rfl, rfl⟩ := Prod.mk.inj heq
      exact hresult
    · exact h.failures other found hmem

theorem IsSound.compileAll {promise : Promise σ} {run : Run σ} (h : run.IsSound promise)
    (hm : run.job.model.WellFormed) (names : List String) :
    (run.compileAll names).2.IsSound promise ∧ (run.compileAll names).2.job = run.job ∧
      Reports promise run.job names (run.compileAll names).1 := by
  induction names generalizing run with
  | nil => exact ⟨h, rfl, .nil promise run.job⟩
  | cons name rest ih =>
    obtain ⟨hsound, hjob, hagrees⟩ := h.compile hm name
    obtain ⟨hsound', hjob', hreports⟩ := ih hsound (hjob ▸ hm)
    rw [hjob] at hjob' hreports
    rw [compileAll_cons]
    exact ⟨hsound', hjob', hreports.cons hagrees⟩

/-- Steps keep a run sound. -/
theorem IsSound.after {promise : Promise σ} {run : Run σ} (h : run.IsSound promise)
    (hm : run.job.model.WellFormed) (steps : List Step) :
    (run.after steps).IsSound promise ∧ (run.after steps).job = run.job := by
  induction steps generalizing run with
  | nil => exact ⟨h, rfl⟩
  | cons step rest ih =>
    cases step with
    | compile name =>
      obtain ⟨hsound, hjob, -⟩ := h.compile hm name
      obtain ⟨hsound', hjob'⟩ := ih hsound (hjob ▸ hm)
      exact ⟨hsound', hjob'.trans hjob⟩
    | all =>
      obtain ⟨hsound, hjob, -⟩ := h.compileAll hm _
      obtain ⟨hsound', hjob'⟩ := ih hsound (hjob ▸ hm)
      exact ⟨hsound', hjob'.trans hjob⟩

theorem alikeResult_of_agrees {plain : Except ModelError Call} {a b : Except CompileError Call}
    (ha : Agrees Memory.promise (Call.Related Identifier.Numbers) plain a)
    (hb : Agrees Memory.promise (Call.Related Identifier.Numbers) plain b) : AlikeResult a b := by
  match a, b with
  | .ok a, .ok b =>
    obtain ⟨p, hp, hrel⟩ := ha
    obtain ⟨p', hp', hrel'⟩ := hb
    obtain rfl := Except.ok.inj (hp.symm.trans hp')
    have hjoin (plain a b : Identifier) (ha : plain.Numbers a) (hb : plain.Numbers b) : a.Alike b :=
      ha.alike hb
    exact Call.Related.join hjoin hrel hrel'
  | .error (.model fault), .error (.model fault') =>
    obtain rfl := Except.error.inj (Eq.trans (Eq.symm ha) hb)
    rfl
  | .ok a, .error (.model fault) =>
    obtain ⟨p, hp, -⟩ := ha
    cases hp.symm.trans hb
  | .error (.model fault), .ok b =>
    obtain ⟨p, hp, -⟩ := hb
    cases hp.symm.trans ha
  | .error (.emit _), _ => exact False.elim ha
  | _, .error (.emit _) => exact False.elim hb

/-- The names of operations in their order. -/
theorem pairwise_sortedNames {names : List String} (h : names.Nodup) :
    (names.mergeSort fun a b => a ≤ b).Pairwise (· < ·) := by
  have htrans (a b c : String) (hab : decide (a ≤ b) = true) (hbc : decide (b ≤ c) = true) :
      decide (a ≤ c) = true :=
    decide_eq_true ((of_decide_eq_true hab).trans (of_decide_eq_true hbc))
  have htotal (a b : String) : (decide (a ≤ b) || decide (b ≤ a)) = true := by
    simpa using le_total a b
  have hsorted := List.pairwise_mergeSort htrans htotal names
  have hnodup : (names.mergeSort fun a b => a ≤ b).Nodup := (List.mergeSort_perm _ _).nodup_iff.2 h
  exact (hsorted.and hnodup).imp fun ⟨hle, hne⟩ => lt_of_le_of_ne (of_decide_eq_true hle) hne

/-- Whatever a run did before, it makes of every operation what a fresh run makes of it, up to the
numbers of identifiers; and compiling everything accounts for every operation once. -/
theorem compile_and_all_after_any_steps {model : ServiceModel} (hmodel : model.Loaded)
    (settings : Settings) (steps : List Step) :
    let fresh : Run Memory := start ⟨model, settings⟩ {}
    let run := fresh.after steps
    let report := run.all.1
    (∀ name, AlikeResult (run.compile name).1 (fresh.compile name).1) ∧
    (Fields.names report.calls ++ report.failures.map Prod.fst).Nodup ∧
    (Fields.names report.calls ++ report.failures.map Prod.fst).Perm
      (Fields.names model.operations) ∧
    (Fields.names report.calls).Pairwise (· < ·) ∧
    (∀ name call, (name, call) ∈ report.calls →
      AlikeResult (.ok call) (fresh.compile name).1) ∧
    ∀ name error, (name, error) ∈ report.failures → (fresh.compile name).1 = .error error := by
  intro fresh run report
  have hm : model.WellFormed := hmodel.wellFormed
  have hfresh : fresh.IsSound Memory.promise :=
    isSound_start ⟨model, settings⟩ fun artifact hmem => by simp at hmem
  obtain ⟨hrun, hjob⟩ := hfresh.after hm steps
  have halone (name : String) := (hfresh.compile hm name).2.2
  have hjob : run.job = ⟨model, settings⟩ := hjob
  have hreports := (hrun.compileAll (hjob ▸ hm)
    (model.operations.names.mergeSort fun a b => a ≤ b)).2.2
  have hreport : report =
      (run.compileAll (model.operations.names.mergeSort fun a b => a ≤ b)).1 := by
    show (run.compileAll (run.job.model.operations.names.mergeSort fun a b => a ≤ b)).1 = _
    rw [hjob]
  rw [← hreport, hjob] at hreports
  have hperm := hreports.once.trans (List.mergeSort_perm _ _)
  have hsorted := pairwise_sortedNames hm.operationNames
  refine ⟨fun name => ?_, hperm.nodup_iff.2 hm.operationNames, hperm,
    hsorted.sublist hreports.order, fun name call hmem => ?_, fun name error hmem => ?_⟩
  · have hagrees := (hrun.compile (hjob ▸ hm) name).2.2
    rw [hjob] at hagrees
    exact alikeResult_of_agrees hagrees (halone name)
  · exact alikeResult_of_agrees (hreports.calls name call hmem) (halone name)
  · have halike := alikeResult_of_agrees (hreports.failures name error hmem) (halone name)
    cases hresult : (fresh.compile name).1 with
    | ok call =>
      rw [hresult] at halike
      exact halike.elim
    | error fault =>
      rw [hresult] at halike
      exact congrArg Except.error halike.symm

/-- The text of a model with an operation whose input is missing. -/
def gapText : String :=
  "\x7b\"metadata\":\x7b\"protocol\":\"json\",\"apiVersion\":\"1\"\x7d," ++
  "\"operations\":\x7b\"Put\":\x7b\"input\":\x7b\"shape\":\"Lost\"\x7d\x7d," ++
  "\"Get\":\x7b\"input\":\x7b\"shape\":\"In\"\x7d\x7d\x7d," ++
  "\"shapes\":\x7b\"In\":\x7b\"type\":\"structure\"," ++
  "\"members\":\x7b\"a\":\x7b\"shape\":\"S\"\x7d\x7d\x7d," ++
  "\"S\":\x7b\"type\":\"string\"\x7d\x7d\x7d"

/-- The document of `gapText`. -/
def gapDocument : Document := .object [
  ("metadata", .object [("protocol", .string "json"), ("apiVersion", .string "1")]),
  ("operations", .object [
    ("Put", .object [("input", .object [("shape", .string "Lost")])]),
    ("Get", .object [("input", .object [("shape", .string "In")])])]),
  ("shapes", .object [
    ("In", .object [("type", .string "structure"),
      ("members", .object [("a", .object [("shape", .string "S")])])]),
    ("S", .object [("type", .string "string")])])]

/-- The model that `gapText` describes. -/
def gapModel : ServiceModel where
  service := ⟨"Service", "1", .json, none, none, none⟩
  shapes := [
    ("In", ⟨"In", .structure ⟨[⟨"a", "S", false, .body, none, false, none, false, none⟩], none⟩,
      none, none, none, false⟩),
    ("S", ⟨"S", .scalar .string, none, none, none, false⟩)]
  operations := [
    ("Put", ⟨"Put", "Lost", none, "POST", "/", none, none⟩),
    ("Get", ⟨"Get", "In", none, "POST", "/", none, none⟩)]

theorem compile_and_all_after_failure :
    ServiceModel.load gapText = .ok gapModel ∧
      let fresh : Run Memory := start ⟨gapModel, {}⟩ {}
      let run := fresh.after [.compile "Put", .all]
      AlikeResult (run.compile "Get").1 (fresh.compile "Get").1 ∧
        (Fields.names run.all.1.calls ++ run.all.1.failures.map Prod.fst).Perm ["Put", "Get"] := by
  have htext : gapText = (Json.Node.ofDocument gapDocument).text := by decide +kernel
  have hload : ServiceModel.load gapText = .ok gapModel := by
    rw [htext]
    exact ServiceModel.load_text (by decide) rfl
  obtain ⟨halike, -, hperm, -⟩ :=
    compile_and_all_after_any_steps (.load hload) {} [.compile "Put", .all]
  exact ⟨hload, halike "Get", hperm⟩

end Run
end ServiceBindings.Generate
