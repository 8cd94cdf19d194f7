import ServiceBindings.Proofs.Generate.History
import ServiceBindings.Proofs.Value.Typing

/-! What holds of every plan that a run over a loaded model comes to. -/
namespace ServiceBindings.Plan
open Naming (Identifier)

section
variable {r : Identifier → Identifier → Prop} {p : List (Binding × Target) → Prop}

mutual

/-- What depends on the places of members alone holds of related targets alike. -/
theorem Target.EachStructure.of_related
    (hp : ∀ a b : List (Binding × Target), a.map Prod.fst = b.map Prod.fst → p a → p b)
    {a b : Target} (h : a.Related r b) (ha : a.EachStructure p) : b.EachStructure p := by
  cases a with
  | scalar =>
    cases b <;> first | exact h.elim | trivial
  | enumeration =>
    cases b <;> first | exact h.elim | trivial
  | list =>
    cases b <;> try exact h.elim
    obtain ⟨-, hitem, -⟩ := h
    have hrest := Target.EachStructure.of_related hp hitem ha
    exact hrest
  | map =>
    cases b <;> try exact h.elim
    obtain ⟨-, -, hvalue, -⟩ := h
    have hrest := Target.EachStructure.of_related hp hvalue ha
    exact hrest
  | «structure» =>
    cases b <;> try exact h.elim
    obtain ⟨-, hmembers⟩ := h
    exact ⟨hp _ _ hmembers.map_fst ha.1, Target.EachMember.of_related hp hmembers ha.2⟩

theorem Target.EachMember.of_related
    (hp : ∀ a b : List (Binding × Target), a.map Prod.fst = b.map Prod.fst → p a → p b)
    {a b : List (Binding × Target)} (h : RelatedMembers r a b) (ha : EachMember p a) :
    EachMember p b := by
  match a, b with
  | [], [] => trivial
  | (_, _) :: _, (_, _) :: _ =>
    obtain ⟨-, htarget, hrest⟩ := h
    exact ⟨Target.EachStructure.of_related hp htarget ha.1,
      Target.EachMember.of_related hp hrest ha.2⟩

end

end

theorem haveOwnNames_of_map_fst (a b : List (Binding × Target))
    (h : a.map Prod.fst = b.map Prod.fst) (ha : HaveOwnNames a) : HaveOwnNames b := by
  have hnames (members : List (Binding × Target)) :
      members.map (·.1.name) = (members.map Prod.fst).map (·.name) := by
    rw [List.map_map]
    rfl
  rw [HaveOwnNames, hnames] at ha ⊢
  rwa [← h]

theorem Layout.Related.haveOwnNames {r : Identifier → Identifier → Prop} {a b : Layout}
    (h : a.Related r b) (ha : a.toTarget.EachStructure HaveOwnNames) :
    b.toTarget.EachStructure HaveOwnNames := by
  have hrel : a.toTarget.Related r b.toTarget := ⟨h.heading, h.members⟩
  exact Target.EachStructure.of_related haveOwnNames_of_map_fst hrel ha

end ServiceBindings.Plan

namespace ServiceBindings.Generate
open Plan (Binding Call HaveOwnNames Layout Target)

theorem names_of_plainMembers {job : Job}
    {step : Shape → Option Time.Format → Bool → Except ModelError Target} {members : List Member}
    {result : List (Binding × Target)} (h : plainMembers job step members = .ok result) :
    result.map (·.1.name) = members.map (·.name) := by
  refine map_eq_map_of_forall₂ (plainMembers_eq_ok.1 h) fun member entry hentry => ?_
  rw [hentry.1]
  rfl

theorem eachMember_of_plainMembers {job : Job} {p : List (Binding × Target) → Prop}
    {step : Shape → Option Time.Format → Bool → Except ModelError Target} {members : List Member}
    {result : List (Binding × Target)} (h : plainMembers job step members = .ok result)
    (hstep : ∀ shape format flattened target, step shape format flattened = .ok target →
      target.EachStructure p) : Target.EachMember p result := by
  rw [plainMembers_eq_ok] at h
  induction h with
  | nil => trivial
  | cons hentry _ ih =>
    obtain ⟨-, shape, -, htarget⟩ := hentry
    exact ⟨hstep shape _ _ _ htarget, ih⟩

theorem eachStructure_of_plainStructureWith {job : Job} (hm : job.model.WellFormed)
    {step : List String → Shape → Option Time.Format → Bool → Except ModelError Target}
    {visiting : List String} {name : String} {layout : Layout}
    (h : plainStructureWith job step visiting name = .ok layout)
    (hstep : ∀ visiting shape format flattened target,
      step visiting shape format flattened = .ok target → target.EachStructure HaveOwnNames) :
    layout.toTarget.EachStructure HaveOwnNames := by
  obtain ⟨shape, s, members, hshape, hkind, -, hmembers, rfl⟩ := plainStructureWith_eq_ok.1 h
  have hnodup := hm.shapes.memberNames _ (Fields.mem_of_get? hshape) s hkind
  refine ⟨?_, eachMember_of_plainMembers hmembers (hstep _)⟩
  rw [HaveOwnNames, names_of_plainMembers hmembers]
  exact hnodup

/-- Plans that are made without a ledger have members with names of their own. -/
theorem eachStructure_of_plainTarget {job : Job} (hm : job.model.WellFormed) (fuel : Nat)
    (visiting : List String) (shape : Shape) (format : Option Time.Format) (flattened : Bool)
    (target : Target) (h : plainTarget job fuel visiting shape format flattened = .ok target) :
    target.EachStructure HaveOwnNames := by
  refine forall_plainTarget (fun _ _ _ => trivial) (fun _ => trivial) (fun _ _ _ _ hitem => hitem)
    (fun _ _ _ _ _ _ hvalue => hvalue) (fun _ _ _ _ hlayout hstep => ?_) h
  exact eachStructure_of_plainStructureWith hm hlayout hstep

section
variable {σ : Type} [Sink σ]

/-- A run over a loaded model has come through some steps, whatever takes its items. -/
def Run.IsReached (run : Run σ) : Prop :=
  ∃ job sink steps, job.model.Loaded ∧ run = (start job sink).after steps

theorem Run.IsReached.isSound {run : Run σ} (h : run.IsReached) :
    run.IsSound (.none σ) ∧ run.job.model.WellFormed := by
  obtain ⟨job, sink, steps, hmodel, rfl⟩ := h
  have hstart : (start job sink).IsSound (.none σ) := isSound_start job trivial
  obtain ⟨hsound, hjob⟩ := hstart.after hmodel.wellFormed steps
  rw [hjob]
  exact ⟨hsound, hmodel.wellFormed⟩

end

end ServiceBindings.Generate

namespace ServiceBindings.Plan
open Generate (Run Sink)

/-- A run came to this plan of a structure. -/
def Layout.Compiled (layout : Layout) : Prop :=
  ∃ (σ : Type) (_ : Sink σ) (run : Run σ) (name : String),
    run.IsReached ∧ Fields.get? run.ledger.structures name = some layout

/-- A run comes to this plan of an operation. -/
def Call.Compiled (call : Call) : Prop :=
  ∃ (σ : Type) (_ : Sink σ) (run : Run σ) (name : String),
    run.IsReached ∧ (run.compile name).1 = .ok call

/-- In compiled structures, members have names of their own throughout. -/
theorem Layout.Compiled.haveOwnNames {layout : Layout} (h : layout.Compiled) :
    layout.toTarget.EachStructure HaveOwnNames := by
  obtain ⟨σ, _, run, name, hreached, hlayout⟩ := h
  obtain ⟨hsound, hm⟩ := hreached.isSound
  obtain ⟨fuel, visiting, plain, hplain, hrel, -⟩ := hsound.sound.structures name layout hlayout
  exact hrel.haveOwnNames (Generate.eachStructure_of_plainStructureWith hm hplain
    (Generate.eachStructure_of_plainTarget hm fuel))

/-- A compiled operation has the plan that is made without a ledger, up to the numbers in names. -/
theorem Call.Compiled.exists_plain {call : Call} (h : call.Compiled) :
    ∃ (job : Generate.Job) (name : String) (plain : Call), job.model.WellFormed ∧
      Generate.plainCall job name = .ok plain ∧ plain.Related Naming.Identifier.Numbers call := by
  obtain ⟨σ, _, run, name, hreached, hcall⟩ := h
  obtain ⟨hsound, hm⟩ := hreached.isSound
  obtain ⟨-, -, hagrees⟩ := hsound.compile hm name
  rw [hcall] at hagrees
  obtain ⟨plain, hplain, hrel⟩ := hagrees
  exact ⟨run.job, name, plain, hm, hplain, hrel⟩

/-- The template of a compiled operation fits its input, whose members have names of their own. -/
theorem Call.Compiled.input {call : Call} (h : call.Compiled) :
    call.input.toTarget.EachStructure HaveOwnNames ∧
      templateOf call.operation call.input = .ok call.template := by
  obtain ⟨job, name, plain, hm, hplain, hrel⟩ := h.exists_plain
  obtain ⟨operation, input, output, template, -, hinput, -, htemplate, -, rfl⟩ :=
    Generate.plainCall_eq_ok.1 hplain
  have hnames := Generate.eachStructure_of_plainStructureWith hm hinput
    (Generate.eachStructure_of_plainTarget hm _)
  refine ⟨hrel.input.haveOwnNames hnames, ?_⟩
  rw [← hrel.operation, ← hrel.template, ← htemplate]
  exact (hrel.input.samePlaces.templateOf operation).symm

/-- In the output of a compiled operation, members have names of their own throughout. -/
theorem Call.Compiled.output {call : Call} (h : call.Compiled) {layout : Layout}
    (houtput : call.output = some layout) : layout.toTarget.EachStructure HaveOwnNames := by
  obtain ⟨job, name, plain, hm, hplain, hrel⟩ := h.exists_plain
  obtain ⟨operation, input, output, template, -, -, hfound, -, -, rfl⟩ :=
    Generate.plainCall_eq_ok.1 hplain
  have hrel := hrel.output
  rw [houtput] at hrel
  cases hrel with
  | @some plan _ hrel =>
    refine hrel.haveOwnNames ?_
    cases hshape : operation.output with
    | none =>
      rw [hshape] at hfound
      cases hfound
    | some shape =>
      rw [hshape] at hfound
      obtain ⟨_, hplan, heq⟩ := map_eq_ok.1 hfound
      obtain rfl := Option.some.inj heq
      exact Generate.eachStructure_of_plainStructureWith hm hplan
        (Generate.eachStructure_of_plainTarget hm _)

end ServiceBindings.Plan
