import ServiceBindings.Proofs.Generate.Enumeration
import ServiceBindings.Proofs.Generate.Intact
import ServiceBindings.Proofs.Naming.Spelling

/-! What every ledger has, whatever is asked of it: shapes with names that are spelled, and
enumerations with the constants of some values. -/
namespace ServiceBindings

namespace Naming

/-- A shape gets a name that is spelled, if the shapes before it did. -/
theorem Names.isSpelled_shape {names : Names} (h : ∀ entry ∈ names.shapes, IsSpelled entry.2.name)
    (s : Shape) :
    IsSpelled (names.shape s).1.name ∧
      ∀ entry ∈ (names.shape s).2.shapes, IsSpelled entry.2.name := by
  rcases names.shape_cases s with ⟨hfound, hsame⟩ | ⟨-, hident, hnames⟩
  · rw [hsame]
    exact ⟨h _ (Fields.mem_of_get? hfound), h⟩
  · have hspelled : IsSpelled (names.shape s).1.name := by
      rw [hident]
      exact (isNumbered_freeName names.taken (names.areaOf s) (typeName s.name)).isSpelled
        (isSpelled_typeName s.name)
    refine ⟨hspelled, fun entry hmem => ?_⟩
    rw [hnames] at hmem
    rcases List.mem_append.1 hmem with hmem | hmem
    · exact h entry hmem
    · obtain rfl := List.mem_singleton.1 hmem
      exact hspelled

end Naming

namespace Generate
open Naming (IsSpelled)
open Plan (Enumeration Kept Layout Target)

/-- The name of an enumeration is spelled, and its constants are those of some values. -/
structure Regular (e : Enumeration) : Prop where
  name : IsSpelled e.ident.name
  constants : ∃ values, Kept values e.constants

/-- Names of shapes are spelled, and enumerations are regular. -/
structure Ledger.Regular (ledger : Ledger) : Prop where
  shapes : ∀ entry ∈ ledger.names.shapes, IsSpelled entry.2.name
  enumerations : ∀ entry ∈ ledger.enumerations, Generate.Regular entry.2

theorem Ledger.regular_ofModel (model : ServiceModel) : (Ledger.ofModel model).Regular :=
  ⟨List.forall_mem_nil _, List.forall_mem_nil _⟩

variable {σ α β : Type}

namespace Work

/-- Work keeps a regular ledger regular, whether it fails or not. -/
def KeepsRegular (work : Work σ α) : Prop :=
  ∀ state : Ledger × σ, state.1.Regular → work.Ends state fun _ after => after.1.Regular

theorem keepsRegular_pure (a : α) : (pure a : Work σ α).KeepsRegular :=
  fun _ h => h

theorem keepsRegular_throw (fault : CompileError) : (throw fault : Work σ α).KeepsRegular :=
  fun _ h => h

theorem KeepsRegular.bind {work : Work σ α} {next : α → Work σ β} (hwork : work.KeepsRegular)
    (hnext : ∀ a, (next a).KeepsRegular) : (work >>= next).KeepsRegular := by
  intro state h
  rw [ends_bind]
  refine (hwork state h).mono fun result after hafter => ?_
  cases result with
  | ok a => exact hnext a after hafter
  | error fault => exact hafter

theorem keepsRegular_ofModel (answer : Except ModelError α) :
    (ofModel answer : Work σ α).KeepsRegular := by
  intro state h
  rw [ends_ofModel]
  exact h

theorem keepsRegular_lookUp (table : Ledger → Fields α) (name : String) :
    (lookUp table name : Work σ (Option α)).KeepsRegular := by
  intro state h
  rw [ends_lookUp]
  split
  · exact ⟨h.shapes, h.enumerations⟩
  · exact h

theorem KeepsRegular.inside {work : Work σ α} (hwork : work.KeepsRegular) (name : String) :
    (inside name work).KeepsRegular := by
  intro state h
  rw [ends_inside]
  split_ifs
  · exact h
  · have hpushed : Ledger.Regular { state.1 with visiting := name :: state.1.visiting } :=
      ⟨h.shapes, h.enumerations⟩
    refine (hwork (_, state.2) hpushed).mono fun _ after hafter => ?_
    exact ⟨hafter.shapes, hafter.enumerations⟩

theorem keepsRegular_nameShape (shape : Shape) :
    (nameShape shape : Work σ Naming.Identifier).KeepsRegular := by
  intro state h
  rw [ends_nameShape]
  exact ⟨(Naming.Names.isSpelled_shape h.shapes shape).2, h.enumerations⟩

theorem keepsRegular_nameOperation (name : String) :
    (nameOperation name : Work σ Naming.Identifier).KeepsRegular := by
  intro state h
  rw [ends_nameOperation]
  rcases state.1.names.operation_cases name with ⟨-, hsame⟩ | ⟨-, -, hnames⟩
  · rw [hsame]
    exact h
  · rw [hnames]
    exact ⟨h.shapes, h.enumerations⟩

theorem keepsRegular_emit [Sink σ] (artifact : Artifact) :
    (emit artifact : Work σ Unit).KeepsRegular := by
  intro state h
  rw [ends_emit]
  exact h

theorem keepsRegular_update {change : Ledger → Ledger}
    (hchange : ∀ ledger : Ledger, ledger.Regular → (change ledger).Regular) :
    (update change : Work σ Unit).KeepsRegular :=
  fun state h => hchange state.1 h

end Work

section
open Work
variable {job : Job}

theorem keepsRegular_compileMembers
    {step : Shape → Option Time.Format → Bool → Work σ Target}
    (hstep : ∀ shape format flattened, (step shape format flattened).KeepsRegular)
    (members : List Member) : (compileMembers job step members).KeepsRegular := by
  induction members with
  | nil => exact keepsRegular_pure []
  | cons member rest ih =>
    refine (keepsRegular_ofModel _).bind fun shape => ?_
    refine (hstep shape _ _).bind fun target => ?_
    exact ih.bind fun targets => keepsRegular_pure _

variable [Sink σ]

theorem keepsRegular_compileEnumeration (job : Job) (shape : Shape) :
    (compileEnumeration job shape : Work σ Enumeration).KeepsRegular := by
  intro state h
  cases hkind : shape.kind with
  | scalar | list | map | «structure» =>
    unfold compileEnumeration
    rw [hkind]
    exact h
  | enumeration values =>
    cases hfound : Fields.get? state.1.enumerations shape.name with
    | some found =>
      unfold compileEnumeration
      rw [hkind]
      dsimp only
      rw [ends_bind, ends_lookUp, hfound]
      exact ⟨h.shapes, h.enumerations⟩
    | none =>
      rw [ends_compileEnumeration hkind hfound]
      cases hconstants : Plan.constantsOf job.settings.enumCollision shape.name values with
      | error fault => exact h
      | ok constants =>
        obtain ⟨hname, hshapes⟩ := Naming.Names.isSpelled_shape h.shapes shape
        dsimp only
        rcases Sink.write _ state.2 with ⟨fault | outcome, sink⟩
        · exact ⟨hshapes, h.enumerations⟩
        · refine ⟨hshapes, fun entry hmem => ?_⟩
          rcases Fields.mem_of_mem_set hmem with rfl | hmem
          · exact ⟨hname, values, Plan.kept_of_constantsOf hconstants⟩
          · exact h.enumerations entry hmem

theorem keepsRegular_compileStructureWith
    {step : Shape → Option Time.Format → Bool → Work σ Target}
    (hstep : ∀ shape format flattened, (step shape format flattened).KeepsRegular)
    (name : String) : (compileStructureWith job step name).KeepsRegular := by
  refine (keepsRegular_lookUp (·.structures) name).bind fun found => ?_
  cases found with
  | some layout => exact keepsRegular_pure layout
  | none =>
    refine (keepsRegular_ofModel _).bind fun shape => ?_
    refine (keepsRegular_ofModel _).bind fun described => ?_
    have hlayout : (compileLayout job step shape described).KeepsRegular :=
      (keepsRegular_nameShape shape).bind fun ident =>
        (keepsRegular_compileMembers hstep described.members).bind fun _ => keepsRegular_pure _
    refine (hlayout.inside name).bind fun layout => ?_
    refine (keepsRegular_emit _).bind fun _ => ?_
    refine (keepsRegular_update fun ledger h => ?_).bind fun _ => keepsRegular_pure layout
    exact ⟨h.shapes, h.enumerations⟩

theorem keepsRegular_compileLevel
    {deeper : Shape → Option Time.Format → Bool → Work σ Target}
    (hdeeper : ∀ shape format flattened, (deeper shape format flattened).KeepsRegular)
    (shape : Shape) (format : Option Time.Format) (flattened : Bool) :
    (compileLevel job deeper shape format flattened).KeepsRegular := by
  unfold compileLevel
  cases shape.kind with
  | scalar kind => exact keepsRegular_pure _
  | enumeration values =>
    exact (keepsRegular_compileEnumeration job shape).bind fun e => keepsRegular_pure _
  | «structure» s =>
    exact (keepsRegular_compileStructureWith hdeeper shape.name).bind fun _ => keepsRegular_pure _
  | list item listFlattened =>
    have hitem := (keepsRegular_ofModel (σ := σ) (job.model.shape item.target)).bind fun found =>
      hdeeper found none false
    exact (hitem.inside shape.name).bind fun target => keepsRegular_pure _
  | map key value mapFlattened =>
    have htargets : KeepsRegular (σ := σ) do
        let keyTarget ← deeper (← .ofModel (job.model.shape key.target)) none false
        let valueTarget ← deeper (← .ofModel (job.model.shape value.target)) none false
        return (keyTarget, valueTarget) :=
      (keepsRegular_ofModel _).bind fun keyShape => (hdeeper keyShape none false).bind fun _ =>
        (keepsRegular_ofModel _).bind fun valueShape =>
          (hdeeper valueShape none false).bind fun _ => keepsRegular_pure _
    exact (htargets.inside shape.name).bind fun _ => keepsRegular_pure _

theorem keepsRegular_compileTarget (fuel : Nat) (shape : Shape) (format : Option Time.Format)
    (flattened : Bool) :
    (compileTarget job fuel shape format flattened : Work σ Target).KeepsRegular :=
  forall_compileTarget (fun _ => keepsRegular_throw _) (fun _ => keepsRegular_compileLevel) fuel
    shape format flattened

theorem keepsRegular_compileStructure (name : String) :
    (compileStructure job name : Work σ Layout).KeepsRegular :=
  keepsRegular_compileStructureWith (keepsRegular_compileTarget _) name

theorem keepsRegular_compileCall (name : String) :
    (compileCall job name : Work σ Plan.Call).KeepsRegular := by
  refine (keepsRegular_lookUp (·.calls) name).bind fun found => ?_
  cases found with
  | some call => exact keepsRegular_pure call
  | none =>
    refine (keepsRegular_ofModel _).bind fun operation => ?_
    refine (keepsRegular_compileStructure operation.input).bind fun input => ?_
    have houtput : (operation.output.mapM (compileStructure job) : Work σ _).KeepsRegular := by
      cases operation.output with
      | none => exact keepsRegular_pure none
      | some output =>
        exact (keepsRegular_compileStructure output).bind fun _ => keepsRegular_pure _
    refine houtput.bind fun output => ?_
    refine (keepsRegular_ofModel _).bind fun template => ?_
    refine (keepsRegular_ofModel _).bind fun _ => ?_
    refine (keepsRegular_nameOperation name).bind fun ident => ?_
    refine (keepsRegular_emit _).bind fun _ => ?_
    refine (keepsRegular_update fun ledger h => ?_).bind fun _ => keepsRegular_pure _
    exact ⟨h.shapes, h.enumerations⟩

end

/-- Every request keeps the ledger regular. -/
theorem Ledger.Reachable.regular {ledger : Ledger} (h : ledger.Reachable) : ledger.Regular := by
  induction h with
  | fresh => exact regular_ofModel _
  | @request ledger job σ sinks request sink _ _ ih =>
    have hwork : (request.work job : Work σ Unit).KeepsRegular := by
      intro state hstate
      cases request with
      | «structure» name =>
        exact Work.ends_discard.2 (keepsRegular_compileStructure name state hstate)
      | enumeration shape =>
        exact Work.ends_discard.2 (keepsRegular_compileEnumeration job shape state hstate)
      | operation name =>
        exact Work.ends_discard.2 (keepsRegular_compileCall name state hstate)
      | nameShape shape =>
        exact Work.ends_discard.2 (Work.keepsRegular_nameShape shape state hstate)
      | nameOperation name =>
        exact Work.ends_discard.2 (Work.keepsRegular_nameOperation name state hstate)
    exact hwork (ledger, sink) ih

end Generate
end ServiceBindings
