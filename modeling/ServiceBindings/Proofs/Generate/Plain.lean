import Mathlib.Data.List.Perm.Subperm
import Mathlib.Logic.Relation
import ServiceBindings.Generate.Compile
import ServiceBindings.Proofs.Model.Loaded

/-! What shapes and operations are compiled to when nothing was compiled before and every name is
free. Whatever the order of a run, it comes to the same plans and the same faults. -/
namespace ServiceBindings.Generate
open Naming (Identifier Names)
open Plan (Binding Call Enumeration Layout Target)

/-- The name that a shape has when every name is free. -/
def Job.plainIdent (job : Job) (shape : Shape) : Identifier :=
  ⟨(Names.ofModel job.model).areaOf shape, Naming.typeName shape.name⟩

/-- Works on a shape, unless it is being worked on already. -/
def plainInside {α : Type} (visiting : List String) (name : String)
    (work : List String → Except ModelError α) : Except ModelError α :=
  if name ∈ visiting then .error (.recursiveShape name) else work (name :: visiting)

def plainEnumeration (job : Job) (shape : Shape) (values : List String) :
    Except ModelError Enumeration :=
  (Plan.constantsOf job.settings.enumCollision shape.name values).map fun constants =>
    { ident := job.plainIdent shape, shape := shape.name, constants }

def plainMembers (job : Job)
    (step : Shape → Option Time.Format → Bool → Except ModelError Target) :
    List Member → Except ModelError (List (Binding × Target))
  | [] => .ok []
  | member :: rest => do
    let shape ← job.model.shape member.target
    let target ← step shape member.timestampFormat member.flattened
    return (bindingOf member target, target) :: (← plainMembers job step rest)

/-- The plan of a structure's shape, made with the given step for the shapes of its members. -/
def plainLayout (job : Job)
    (step : Shape → Option Time.Format → Bool → Except ModelError Target) (shape : Shape)
    (described : Structure) : Except ModelError Layout := do
  let members ← plainMembers job step described.members
  return {
    heading := {
      shape := shape.name
      ident := job.plainIdent shape
      locationName := shape.locationName
      xmlNamespace := shape.xmlNamespace }
    members }

/-- The plan of a structure, made with the given step for the shapes of its members. -/
def plainStructureWith (job : Job)
    (step : List String → Shape → Option Time.Format → Bool → Except ModelError Target)
    (visiting : List String) (name : String) : Except ModelError Layout := do
  let shape ← job.model.shape name
  let described ← shape.members
  plainInside visiting name fun visiting => plainLayout job (step visiting) shape described

def plainTarget (job : Job) :
    Nat → List String → Shape → Option Time.Format → Bool → Except ModelError Target
  | fuel, visiting, shape, format, flattened =>
    match shape.kind, fuel with
    | .scalar kind, _ => .ok (.scalar kind (format.or shape.timestampFormat) shape.streaming)
    | .enumeration values, _ => (plainEnumeration job shape values).map .enumeration
    | _, 0 => .error (.recursiveShape shape.name)
    | .structure _, fuel + 1 =>
      (plainStructureWith job (plainTarget job fuel) visiting shape.name).map Layout.toTarget
    | .list item listFlattened, fuel + 1 => do
      let itemTarget ← plainInside visiting shape.name fun visiting => do
        plainTarget job fuel visiting (← job.model.shape item.target) none false
      return .list shape.name itemTarget item.locationName (flattened || listFlattened)
    | .map key value mapFlattened, fuel + 1 => do
      let (keyTarget, valueTarget) ← plainInside visiting shape.name fun visiting => do
        let keyTarget ← plainTarget job fuel visiting (← job.model.shape key.target) none false
        let valueTarget ← plainTarget job fuel visiting (← job.model.shape value.target) none false
        return (keyTarget, valueTarget)
      return .map shape.name keyTarget valueTarget key.locationName value.locationName
        (flattened || mapFlattened)

def plainStructure (job : Job) (name : String) : Except ModelError Layout :=
  plainStructureWith job (plainTarget job (job.model.shapes.length + 1)) [] name

def plainCall (job : Job) (name : String) : Except ModelError Call := do
  let operation ← job.model.operation name
  let input ← plainStructure job operation.input
  let output ← operation.output.mapM (plainStructure job)
  let template ← Plan.templateOf operation input
  Plan.checkPagination operation input output
  return {
    service := job.model.service
    operation
    ident := ⟨.client, Naming.memberName name⟩
    input
    output
    template }

end ServiceBindings.Generate

namespace ServiceBindings

def Shape.references (shape : Shape) : List String :=
  match shape.kind with
  | .list item _ => [item.target]
  | .map key value _ => [key.target, value.target]
  | .structure s => s.members.map (·.target)
  | _ => []

namespace ServiceModel

/-- One shape refers to another one. -/
def Refers (model : ServiceModel) (name other : String) : Prop :=
  ∃ shape, Fields.get? model.shapes name = some shape ∧ other ∈ shape.references

/-- One shape refers to another one, or to a shape from which the other one is reached. -/
def Reaches (model : ServiceModel) : String → String → Prop :=
  Relation.TransGen model.Refers

end ServiceModel
end ServiceBindings

namespace ServiceBindings.Generate
open Plan (Binding Call Enumeration Layout Target)

theorem shape_eq_ok {model : ServiceModel} {name : String} {shape : Shape} :
    model.shape name = .ok shape ↔ Fields.get? model.shapes name = some shape := by
  unfold ServiceModel.shape
  split <;> simp_all

theorem members_eq_ok {shape : Shape} {s : Structure} :
    shape.members = .ok s ↔ shape.kind = .structure s := by
  unfold Shape.members
  split <;> simp_all

theorem plainInside_eq_ok {α : Type} {visiting : List String} {name : String}
    {work : List String → Except ModelError α} {a : α} :
    plainInside visiting name work = .ok a ↔ name ∉ visiting ∧ work (name :: visiting) = .ok a := by
  unfold plainInside
  split_ifs with h <;> simp [h]

section
variable {job : Job} {visiting : List String} {shape : Shape} {format : Option Time.Format}
  {flattened : Bool} {target : Target}

theorem plainTarget_scalar (fuel : Nat) {kind : Scalar} (h : shape.kind = .scalar kind) :
    plainTarget job fuel visiting shape format flattened =
      .ok (.scalar kind (format.or shape.timestampFormat) shape.streaming) := by
  rw [plainTarget.eq_def]
  simp only [h]

theorem plainTarget_enumeration (fuel : Nat) {values : List String}
    (h : shape.kind = .enumeration values) :
    plainTarget job fuel visiting shape format flattened =
      (plainEnumeration job shape values).map .enumeration := by
  rw [plainTarget.eq_def]
  simp only [h]

theorem plainTarget_structure (fuel : Nat) {s : Structure} (h : shape.kind = .structure s) :
    plainTarget job (fuel + 1) visiting shape format flattened =
      (plainStructureWith job (plainTarget job fuel) visiting shape.name).map Layout.toTarget := by
  rw [plainTarget.eq_def]
  simp only [h]

theorem plainTarget_list (fuel : Nat) {item : Ref} {listFlattened : Bool}
    (h : shape.kind = .list item listFlattened) :
    plainTarget job (fuel + 1) visiting shape format flattened = (do
      let itemTarget ← plainInside visiting shape.name fun visiting => do
        plainTarget job fuel visiting (← job.model.shape item.target) none false
      return .list shape.name itemTarget item.locationName (flattened || listFlattened)) := by
  rw [plainTarget.eq_def]
  simp only [h]

theorem plainTarget_map (fuel : Nat) {key value : Ref} {mapFlattened : Bool}
    (h : shape.kind = .map key value mapFlattened) :
    plainTarget job (fuel + 1) visiting shape format flattened = (do
      let (keyTarget, valueTarget) ← plainInside visiting shape.name fun visiting => do
        let keyTarget ← plainTarget job fuel visiting (← job.model.shape key.target) none false
        let valueTarget ← plainTarget job fuel visiting (← job.model.shape value.target) none false
        return (keyTarget, valueTarget)
      return .map shape.name keyTarget valueTarget key.locationName value.locationName
        (flattened || mapFlattened)) := by
  rw [plainTarget.eq_def]
  simp only [h]

/-- Without fuel, only shapes that refer to no other shape have plans. -/
theorem references_of_plainTarget_zero
    (h : plainTarget job 0 visiting shape format flattened = .ok target) :
    shape.references = [] := by
  unfold Shape.references
  cases hkind : shape.kind <;> simp_all [plainTarget]

end

/-- Members have plans when the shape of each of them has one. -/
theorem plainMembers_eq_ok {job : Job}
    {step : Shape → Option Time.Format → Bool → Except ModelError Target} {members : List Member}
    {result : List (Binding × Target)} :
    plainMembers job step members = .ok result ↔
      List.Forall₂ (fun member entry => entry.1 = bindingOf member entry.2 ∧
        ∃ shape, Fields.get? job.model.shapes member.target = some shape ∧
          step shape member.timestampFormat member.flattened = .ok entry.2) members result := by
  induction members generalizing result with
  | nil =>
    rw [plainMembers, List.forall₂_nil_left_iff, Except.ok.injEq, eq_comm]
  | cons member rest ih =>
    rw [plainMembers]
    simp only [bind_eq_ok, shape_eq_ok, ih]
    constructor
    · rintro ⟨shape, hshape, target, htarget, others, hothers, h⟩
      obtain rfl := Except.ok.inj h
      exact .cons ⟨rfl, shape, hshape, htarget⟩ hothers
    · rintro (_ | ⟨⟨hbinding, shape, hshape, htarget⟩, hothers⟩)
      exact ⟨shape, hshape, _, htarget, _, hothers, by rw [← hbinding]; rfl⟩

theorem exists_of_plainMembers {job : Job}
    {step : Shape → Option Time.Format → Bool → Except ModelError Target} {members : List Member}
    {result : List (Binding × Target)} (h : plainMembers job step members = .ok result)
    {member : Member} (hmem : member ∈ members) :
    ∃ shape target, Fields.get? job.model.shapes member.target = some shape ∧
      step shape member.timestampFormat member.flattened = .ok target := by
  obtain ⟨entry, -, -, shape, hshape, htarget⟩ :=
    exists_of_mem_forall₂_right (plainMembers_eq_ok.1 h).flip hmem
  exact ⟨shape, entry.2, hshape, htarget⟩

/-- The members of a structure that has a plan have plans within it. -/
theorem plainStructureWith_eq_ok {job : Job}
    {step : List String → Shape → Option Time.Format → Bool → Except ModelError Target}
    {visiting : List String} {name : String} {layout : Layout} :
    plainStructureWith job step visiting name = .ok layout ↔
      ∃ shape s members, Fields.get? job.model.shapes name = some shape ∧
        shape.kind = .structure s ∧ name ∉ visiting ∧
        plainMembers job (step (name :: visiting)) s.members = .ok members ∧
        layout = ⟨⟨shape.name, job.plainIdent shape, shape.locationName, shape.xmlNamespace⟩,
          members⟩ := by
  unfold plainStructureWith plainLayout
  simp only [bind_eq_ok, shape_eq_ok, members_eq_ok, plainInside_eq_ok]
  constructor
  · rintro ⟨shape, hshape, s, hs, hnew, members, hmembers, h⟩
    exact ⟨shape, s, members, hshape, hs, hnew, hmembers, (Except.ok.inj h).symm⟩
  · rintro ⟨shape, s, members, hshape, hs, hnew, hmembers, rfl⟩
    exact ⟨shape, hshape, s, hs, hnew, members, hmembers, rfl⟩

/-- An operation has a plan when its input and its output have plans, its template fits the input
and its rules of pages fit both. -/
theorem plainCall_eq_ok {job : Job} {name : String} {plain : Call} :
    plainCall job name = .ok plain ↔ ∃ operation input output template,
      job.model.operation name = .ok operation ∧
      plainStructure job operation.input = .ok input ∧
      operation.output.mapM (plainStructure job) = .ok output ∧
      Plan.templateOf operation input = .ok template ∧
      Plan.checkPagination operation input output = .ok () ∧
      plain = ⟨job.model.service, operation, ⟨.client, Naming.memberName name⟩, input, output,
        template⟩ := by
  unfold plainCall
  simp only [bind_eq_ok]
  constructor
  · rintro ⟨operation, hoperation, input, hinput, output, houtput, template, htemplate, _,
      hpagination, h⟩
    exact ⟨operation, input, output, template, hoperation, hinput, houtput, htemplate, hpagination,
      (Except.ok.inj h).symm⟩
  · rintro ⟨operation, input, output, template, hoperation, hinput, houtput, htemplate, hpagination,
      rfl⟩
    exact ⟨operation, hoperation, input, hinput, output, houtput, template, htemplate, _,
      hpagination, rfl⟩

section
variable {job : Job} {fuel : Nat} {visiting : List String} {shape : Shape}
  {format : Option Time.Format} {flattened : Bool} {target : Target}

/-- A list has a plan when its item's shape has one inside it. -/
theorem plainTarget_list_eq_ok {item : Ref} {listFlattened : Bool}
    (hkind : shape.kind = .list item listFlattened) :
    plainTarget job (fuel + 1) visiting shape format flattened = .ok target ↔
      shape.name ∉ visiting ∧ ∃ itemShape itemTarget,
        Fields.get? job.model.shapes item.target = some itemShape ∧
        plainTarget job fuel (shape.name :: visiting) itemShape none false = .ok itemTarget ∧
        target = .list shape.name itemTarget item.locationName (flattened || listFlattened) := by
  rw [plainTarget_list _ hkind]
  simp only [bind_eq_ok, plainInside_eq_ok, shape_eq_ok]
  constructor
  · rintro ⟨itemTarget, ⟨hnew, itemShape, hshape, hitem⟩, h⟩
    exact ⟨hnew, itemShape, itemTarget, hshape, hitem, (Except.ok.inj h).symm⟩
  · rintro ⟨hnew, itemShape, itemTarget, hshape, hitem, rfl⟩
    exact ⟨itemTarget, ⟨hnew, itemShape, hshape, hitem⟩, rfl⟩

/-- A map has a plan when the shapes of its keys and its values have plans inside it. -/
theorem plainTarget_map_eq_ok {key value : Ref} {mapFlattened : Bool}
    (hkind : shape.kind = .map key value mapFlattened) :
    plainTarget job (fuel + 1) visiting shape format flattened = .ok target ↔
      shape.name ∉ visiting ∧ ∃ keyShape keyTarget valueShape valueTarget,
        Fields.get? job.model.shapes key.target = some keyShape ∧
        plainTarget job fuel (shape.name :: visiting) keyShape none false = .ok keyTarget ∧
        Fields.get? job.model.shapes value.target = some valueShape ∧
        plainTarget job fuel (shape.name :: visiting) valueShape none false = .ok valueTarget ∧
        target = .map shape.name keyTarget valueTarget key.locationName value.locationName
          (flattened || mapFlattened) := by
  rw [plainTarget_map _ hkind]
  simp only [bind_eq_ok, plainInside_eq_ok, shape_eq_ok]
  constructor
  · rintro ⟨_, ⟨hnew, keyShape, hkeyShape, keyTarget, hkey, valueShape, hvalueShape, valueTarget,
      hvalue, hpair⟩, h⟩
    obtain rfl := Except.ok.inj hpair
    exact ⟨hnew, keyShape, keyTarget, valueShape, valueTarget, hkeyShape, hkey, hvalueShape, hvalue,
      (Except.ok.inj h).symm⟩
  · rintro ⟨hnew, keyShape, keyTarget, valueShape, valueTarget, hkeyShape, hkey, hvalueShape,
      hvalue, rfl⟩
    exact ⟨_, ⟨hnew, keyShape, hkeyShape, keyTarget, hkey, valueShape, hvalueShape, valueTarget,
      hvalue, rfl⟩, rfl⟩

/-- A structure has a plan when its members have plans inside it. -/
theorem plainTarget_structure_eq_ok {s : Structure}
    (hshape : Fields.get? job.model.shapes shape.name = some shape)
    (hkind : shape.kind = .structure s) :
    plainTarget job (fuel + 1) visiting shape format flattened = .ok target ↔
      shape.name ∉ visiting ∧ ∃ members,
        plainMembers job (plainTarget job fuel (shape.name :: visiting)) s.members = .ok members ∧
        target = .structure ⟨shape.name, job.plainIdent shape, shape.locationName,
          shape.xmlNamespace⟩ members := by
  rw [plainTarget_structure _ hkind, map_eq_ok]
  simp only [plainStructureWith_eq_ok]
  constructor
  · rintro ⟨_, ⟨found, s', members, hfound, hs, hnew, hmembers, rfl⟩, rfl⟩
    obtain rfl : shape = found := Option.some.inj (hshape.symm.trans hfound)
    obtain rfl : s = s' := ShapeKind.structure.inj (hkind.symm.trans hs)
    exact ⟨hnew, members, hmembers, rfl⟩
  · rintro ⟨hnew, members, hmembers, rfl⟩
    exact ⟨_, ⟨shape, s, members, hshape, hkind, hnew, hmembers, rfl⟩, rfl⟩

/-- What holds of simple plans, and of any other plan if it holds of those that it is made of, holds
of all plans. -/
theorem forall_plainTarget {P : Target → Prop}
    (scalar : ∀ kind format streaming, P (.scalar kind format streaming))
    (enumeration : ∀ e, P (.enumeration e))
    (list : ∀ shape item itemName flattened, P item → P (.list shape item itemName flattened))
    (map : ∀ shape key value keyName valueName flattened,
      P value → P (.map shape key value keyName valueName flattened))
    («structure» : ∀ step visiting name layout,
      plainStructureWith job step visiting name = .ok layout →
      (∀ visiting shape format flattened target,
        step visiting shape format flattened = .ok target → P target) → P layout.toTarget)
    (h : plainTarget job fuel visiting shape format flattened = .ok target) : P target := by
  induction fuel generalizing visiting shape format flattened target with
  | zero =>
    cases hkind : shape.kind with
    | scalar kind =>
      obtain rfl := Except.ok.inj (plainTarget_scalar _ hkind ▸ h)
      exact scalar ..
    | enumeration values =>
      rw [plainTarget_enumeration _ hkind] at h
      obtain ⟨e, -, rfl⟩ := map_eq_ok.1 h
      exact enumeration e
    | list | map | «structure» => simp [plainTarget, hkind] at h
  | succ fuel ih =>
    cases hkind : shape.kind with
    | scalar kind =>
      obtain rfl := Except.ok.inj (plainTarget_scalar _ hkind ▸ h)
      exact scalar ..
    | enumeration values =>
      rw [plainTarget_enumeration _ hkind] at h
      obtain ⟨e, -, rfl⟩ := map_eq_ok.1 h
      exact enumeration e
    | list item listFlattened =>
      obtain ⟨-, _, _, -, hitem, rfl⟩ := (plainTarget_list_eq_ok hkind).1 h
      exact list _ _ _ _ (ih hitem)
    | map key value mapFlattened =>
      obtain ⟨-, _, _, _, _, -, -, -, hvalue, rfl⟩ := (plainTarget_map_eq_ok hkind).1 h
      exact map _ _ _ _ _ _ (ih hvalue)
    | «structure» s =>
      rw [plainTarget_structure _ hkind] at h
      obtain ⟨layout, hlayout, rfl⟩ := map_eq_ok.1 h
      exact «structure» _ _ _ _ hlayout fun _ _ _ _ _ htarget => ih htarget

end

/-- A shape has a plan, with so much fuel. -/
def HasPlan (job : Job) (fuel : Nat) (name : String) : Prop :=
  ∃ visiting shape format flattened target, Fields.get? job.model.shapes name = some shape ∧
    plainTarget job fuel visiting shape format flattened = .ok target

/-- What a shape with a plan refers to has a plan with less fuel. -/
theorem HasPlan.of_refers {job : Job} (hm : job.model.WellFormed) {fuel : Nat}
    {name other : String} (h : HasPlan job fuel name) (hrefers : job.model.Refers name other) :
    ∃ less < fuel, HasPlan job less other := by
  obtain ⟨visiting, shape, format, flattened, target, hshape, htarget⟩ := h
  obtain ⟨shape', hshape', hother⟩ := hrefers
  obtain rfl : shape = shape' := Option.some.inj (hshape.symm.trans hshape')
  cases fuel with
  | zero => simp [references_of_plainTarget_zero htarget] at hother
  | succ fuel =>
    refine ⟨fuel, Nat.lt_succ_self fuel, ?_⟩
    have hname := hm.name_of_get? hshape
    unfold Shape.references at hother
    split at hother
    · next item listFlattened hkind =>
      obtain rfl := List.mem_singleton.1 hother
      obtain ⟨-, itemShape, _, hitemShape, hitem, -⟩ := (plainTarget_list_eq_ok hkind).1 htarget
      exact ⟨_, itemShape, _, _, _, hitemShape, hitem⟩
    · next key value mapFlattened hkind =>
      obtain ⟨-, keyShape, _, valueShape, _, hkeyShape, hkey, hvalueShape, hvalue, -⟩ :=
        (plainTarget_map_eq_ok hkind).1 htarget
      simp only [List.mem_cons, List.not_mem_nil, or_false] at hother
      rcases hother with rfl | rfl
      · exact ⟨_, keyShape, _, _, _, hkeyShape, hkey⟩
      · exact ⟨_, valueShape, _, _, _, hvalueShape, hvalue⟩
    · next s hkind =>
      obtain ⟨member, hmember, rfl⟩ := List.mem_map.1 hother
      obtain ⟨-, members, hmembers, -⟩ :=
        (plainTarget_structure_eq_ok (hname ▸ hshape) hkind).1 htarget
      obtain ⟨memberShape, memberTarget, hmemberShape, hmemberTarget⟩ :=
        exists_of_plainMembers hmembers hmember
      exact ⟨_, memberShape, _, _, _, hmemberShape, hmemberTarget⟩
    · simp at hother

theorem HasPlan.of_reaches {job : Job} (hm : job.model.WellFormed) {fuel : Nat}
    {name other : String} (h : HasPlan job fuel name) (hreaches : job.model.Reaches name other) :
    ∃ less < fuel, HasPlan job less other := by
  induction hreaches with
  | single hrefers => exact h.of_refers hm hrefers
  | tail _ hrefers ih =>
    obtain ⟨less, hless, hplan⟩ := ih
    obtain ⟨lesser, hlesser, hplan⟩ := hplan.of_refers hm hrefers
    exact ⟨lesser, by omega, hplan⟩

/-- No shape that has a plan is reached from itself. -/
theorem HasPlan.not_reaches_self {job : Job} (hm : job.model.WellFormed) {fuel : Nat}
    {name : String} (h : HasPlan job fuel name) : ¬job.model.Reaches name name := by
  intro hreaches
  induction fuel using Nat.strongRecOn with
  | _ fuel ih =>
    obtain ⟨less, hless, hplan⟩ := h.of_reaches hm hreaches
    exact ih less hless hplan

/-- The shapes being worked on all reach the one that comes next, and there is fuel for all others.
-/
structure Stack (job : Job) (visiting : List String) (fuel : Nat) (name : String) : Prop where
  nodup : visiting.Nodup
  known : visiting ⊆ Fields.names job.model.shapes
  reaches : ∀ v ∈ visiting, job.model.Reaches v name
  fuel : job.model.shapes.length + 1 ≤ fuel + visiting.length

theorem Stack.fuel_pos {job : Job} {visiting : List String} {fuel : Nat} {name : String}
    (h : Stack job visiting fuel name) : ∃ less, fuel = less + 1 := by
  have hlength := (h.nodup.subperm h.known).length_le
  have hfuel := h.fuel
  simp only [Fields.names, List.length_map] at hlength
  exact Nat.exists_eq_add_one.2 (by omega)

/-- Nothing is being worked on. -/
theorem stack_nil (job : Job) {fuel : Nat} (h : job.model.shapes.length + 1 ≤ fuel)
    (name : String) : Stack job [] fuel name :=
  ⟨List.nodup_nil, List.nil_subset _, by simp, h⟩

theorem Stack.enter {job : Job} {visiting : List String} {fuel : Nat} {name other : String}
    (h : Stack job visiting (fuel + 1) name) (hnew : name ∉ visiting)
    (hrefers : job.model.Refers name other) : Stack job (name :: visiting) fuel other := by
  obtain ⟨shape, hshape, -⟩ := id hrefers
  refine ⟨List.nodup_cons.2 ⟨hnew, h.nodup⟩, ?_, ?_, ?_⟩
  · refine List.cons_subset.2 ⟨?_, h.known⟩
    rw [← Fields.isSome_get?, hshape, Option.isSome_some]
  · intro v hv
    rcases List.mem_cons.1 hv with rfl | hv
    · exact .single hrefers
    · exact (h.reaches v hv).tail hrefers
  · have := h.fuel
    simp only [List.length_cons]
    omega

/-- What has a plan is none of the shapes being worked on. -/
theorem Stack.notMem {job : Job} (hm : job.model.WellFormed) {visiting : List String}
    {fuel less : Nat} {name : String} (h : Stack job visiting fuel name)
    (hplan : HasPlan job less name) : name ∉ visiting := fun hmem =>
  hplan.not_reaches_self hm (h.reaches name hmem)

theorem plainMembers_congr {job : Job}
    {step other : Shape → Option Time.Format → Bool → Except ModelError Target}
    {members : List Member} {result : List (Binding × Target)}
    (h : plainMembers job step members = .ok result)
    (hother : ∀ member ∈ members, ∀ shape target,
      Fields.get? job.model.shapes member.target = some shape →
      step shape member.timestampFormat member.flattened = .ok target →
      other shape member.timestampFormat member.flattened = .ok target) :
    plainMembers job other members = .ok result := by
  induction members generalizing result with
  | nil => exact h
  | cons member rest ih =>
    rw [plainMembers] at h ⊢
    obtain ⟨shape, hshape, h⟩ := bind_eq_ok.1 h
    obtain ⟨target, htarget, h⟩ := bind_eq_ok.1 h
    obtain ⟨others, hothers, h⟩ := bind_eq_ok.1 h
    rw [hshape, ok_bind, hother member List.mem_cons_self shape target (shape_eq_ok.1 hshape)
      htarget, ok_bind, ih hothers fun m hm => hother m (List.mem_cons_of_mem _ hm), ok_bind]
    exact h

/-- A plan does not depend on the shapes being worked on, as long as they form a stack. -/
theorem plainTarget_transfer {job : Job} (hm : job.model.WellFormed) {fuel more : Nat}
    {visiting others : List String} {shape : Shape} {format : Option Time.Format}
    {flattened : Bool} {target : Target}
    (hshape : Fields.get? job.model.shapes shape.name = some shape)
    (h : plainTarget job fuel visiting shape format flattened = .ok target)
    (hstack : Stack job others more shape.name) :
    plainTarget job more others shape format flattened = .ok target := by
  induction fuel generalizing visiting others more shape format flattened target with
  | zero =>
    cases hkind : shape.kind with
    | scalar kind => rw [plainTarget_scalar _ hkind] at h ⊢; exact h
    | enumeration values => rw [plainTarget_enumeration _ hkind] at h ⊢; exact h
    | list | map | «structure» => simp [plainTarget, hkind] at h
  | succ fuel ih =>
    obtain ⟨more, rfl⟩ := hstack.fuel_pos
    have hnew := hstack.notMem hm ⟨_, shape, _, _, _, hshape, h⟩
    have hnext : ∀ other found, other ∈ shape.references →
        Fields.get? job.model.shapes other = some found →
        Fields.get? job.model.shapes found.name = some found ∧
          Stack job (shape.name :: others) more found.name := by
      intro other found hother hfound
      have hname := hm.name_of_get? hfound
      exact ⟨hname ▸ hfound, hname ▸ hstack.enter hnew ⟨shape, hshape, hother⟩⟩
    cases hkind : shape.kind with
    | scalar kind => rw [plainTarget_scalar _ hkind] at h ⊢; exact h
    | enumeration values => rw [plainTarget_enumeration _ hkind] at h ⊢; exact h
    | list item listFlattened =>
      obtain ⟨-, itemShape, itemTarget, hitemShape, hitem, rfl⟩ :=
        (plainTarget_list_eq_ok hkind).1 h
      obtain ⟨hkey, hstack'⟩ := hnext item.target itemShape
        (by simp [Shape.references, hkind]) hitemShape
      exact (plainTarget_list_eq_ok hkind).2
        ⟨hnew, itemShape, itemTarget, hitemShape, ih hkey hitem hstack', rfl⟩
    | map key value mapFlattened =>
      obtain ⟨-, keyShape, keyTarget, valueShape, valueTarget, hkeyShape, hkey, hvalueShape, hvalue,
        rfl⟩ := (plainTarget_map_eq_ok hkind).1 h
      obtain ⟨hkeyName, hkeyStack⟩ := hnext key.target keyShape
        (by simp [Shape.references, hkind]) hkeyShape
      obtain ⟨hvalueName, hvalueStack⟩ := hnext value.target valueShape
        (by simp [Shape.references, hkind]) hvalueShape
      exact (plainTarget_map_eq_ok hkind).2 ⟨hnew, keyShape, keyTarget, valueShape, valueTarget,
        hkeyShape, ih hkeyName hkey hkeyStack, hvalueShape, ih hvalueName hvalue hvalueStack, rfl⟩
    | «structure» s =>
      obtain ⟨-, members, hmembers, rfl⟩ := (plainTarget_structure_eq_ok hshape hkind).1 h
      refine (plainTarget_structure_eq_ok hshape hkind).2
        ⟨hnew, members, plainMembers_congr hmembers ?_, rfl⟩
      intro member hmember found memberTarget hfound htarget
      obtain ⟨hname, hstack'⟩ := hnext member.target found
        (by simpa [Shape.references, hkind] using ⟨member, hmember, rfl⟩) hfound
      exact ih hname htarget hstack'

/-- The plan of a structure does not depend on the shapes being worked on either. -/
theorem plainStructureWith_transfer {job : Job} (hm : job.model.WellFormed) {fuel more : Nat}
    {visiting others : List String} {name : String} {layout : Layout}
    (h : plainStructureWith job (plainTarget job fuel) visiting name = .ok layout)
    (hstack : Stack job others (more + 1) name) :
    plainStructureWith job (plainTarget job more) others name = .ok layout := by
  obtain ⟨shape, s, members, hshape, hkind, -⟩ := plainStructureWith_eq_ok.1 h
  have hname := hm.name_of_get? hshape
  have htarget : plainTarget job (fuel + 1) visiting shape none false = .ok layout.toTarget := by
    rw [plainTarget_structure _ hkind, hname, h]
    rfl
  have htransfer := plainTarget_transfer hm (hname ▸ hshape) htarget (hname ▸ hstack)
  rw [plainTarget_structure _ hkind, hname] at htransfer
  obtain ⟨other, hother, heq⟩ := map_eq_ok.1 htransfer
  have : other = layout := by
    obtain ⟨heading, members⟩ := other
    obtain ⟨heading', members'⟩ := layout
    simpa [Layout.toTarget] using heq
  rw [hother, this]

end ServiceBindings.Generate
