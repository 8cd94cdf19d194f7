import ServiceBindings.Proofs.Generate.History

/-! How deep compiling goes. Shapes inside one another all differ, so what would be done deeper than
there are shapes is never done. -/
namespace ServiceBindings.Generate
open Naming (Identifier)
open Plan (Binding Layout Target)

namespace Work
variable {σ α β : Type} {state : Ledger × σ}

/-- Work comes to the same as other work from a state on. -/
def Same (work other : Work σ α) (state : Ledger × σ) : Prop :=
  (work.run.run state).run = (other.run.run state).run

theorem Same.refl (work : Work σ α) (state : Ledger × σ) : work.Same work state := rfl

/-- Work that comes to the same goes on with what comes to the same in the state that it leaves. -/
theorem Same.bind {work other : Work σ α} {next more : α → Work σ β} (h : work.Same other state)
    (hnext : work.Ends state fun result after =>
      ∀ a, result = .ok a → (next a).Same (more a) after) :
    (work >>= next).Same (other >>= more) state := by
  unfold Same at h ⊢
  unfold Ends at hnext
  rw [ExceptT.run_bind, ExceptT.run_bind, StateT.run_bind, StateT.run_bind, Id.run_bind,
    Id.run_bind, ← h]
  rcases hresult : (work.run.run state).run with ⟨error | a, after⟩
  · rfl
  · rw [hresult] at hnext
    exact hnext a rfl

/-- Work that comes to the same goes on in the same way. -/
theorem Same.bind_left {work other : Work σ α} (h : work.Same other state)
    (next : α → Work σ β) : (work >>= next).Same (other >>= next) state :=
  h.bind fun _ _ => .refl _ _

theorem Same.ofModel_bind {answer : Except ModelError α} {next more : α → Work σ β}
    (hnext : ∀ a, answer = .ok a → (next a).Same (more a) state) :
    (ofModel answer >>= next).Same (ofModel answer >>= more) state := by
  apply (Same.refl _ _).bind
  rw [ends_ofModel]
  intro a ha
  exact hnext a (mapError_eq_ok.1 ha)

/-- Work inside a shape comes to the same when it does with the shape on top. -/
theorem Same.inside {name : String} {work other : Work σ α}
    (h : name ∉ state.1.visiting →
      work.Same other ({ state.1 with visiting := name :: state.1.visiting }, state.2)) :
    (inside name work).Same (inside name other) state := by
  have hends (work : Work σ α) (outcome : Except CompileError α × Ledger × σ) :
      ((Work.inside name work).run.run state).run = outcome ↔
        if name ∈ state.1.visiting then (.error (.model (.recursiveShape name)), state) = outcome
        else work.Ends ({ state.1 with visiting := name :: state.1.visiting }, state.2)
          fun result after =>
            (result, { after.1 with visiting := after.1.visiting.erase name }, after.2) =
              outcome := by
    have hinside : (Work.inside name work).Ends state (fun result after =>
        (result, after) = outcome) ↔ _ := ends_inside
    exact hinside
  unfold Same
  rw [hends]
  split_ifs with hmem
  · exact (((hends other _).2 (by rw [if_pos hmem])).symm)
  · have hother := (hends other _).2 (by rw [if_neg hmem]; exact rfl)
    unfold Ends
    rw [h hmem]
    exact hother.symm

end Work

variable {σ : Type} [Sink σ]

/-- Compiles a shape, with the given step for the shapes to which it refers. -/
def compileLevel (job : Job) (deeper : Shape → Option Time.Format → Bool → Work σ Target)
    (shape : Shape) (format : Option Time.Format) (flattened : Bool) : Work σ Target := do
  match shape.kind with
  | .scalar kind => return .scalar kind (format.or shape.timestampFormat) shape.streaming
  | .enumeration _ => return .enumeration (← compileEnumeration job shape)
  | .structure _ => return (← compileStructureWith job deeper shape.name).toTarget
  | .list item listFlattened =>
    let itemTarget ← Work.inside shape.name do
      deeper (← .ofModel (job.model.shape item.target)) none false
    return .list shape.name itemTarget item.locationName (flattened || listFlattened)
  | .map key value mapFlattened =>
    let (keyTarget, valueTarget) ← Work.inside shape.name do
      let keyTarget ← deeper (← .ofModel (job.model.shape key.target)) none false
      let valueTarget ← deeper (← .ofModel (job.model.shape value.target)) none false
      return (keyTarget, valueTarget)
    return .map shape.name keyTarget valueTarget key.locationName value.locationName
      (flattened || mapFlattened)

theorem compileTarget_succ (job : Job) (fuel : Nat) :
    (compileTarget job (fuel + 1) : Shape → Option Time.Format → Bool → Work σ Target) =
      compileLevel job (compileTarget job fuel) := by
  funext shape format flattened
  rw [compileLevel]
  cases hkind : shape.kind with
  | scalar kind => rw [compileTarget_scalar _ hkind]
  | enumeration values => rw [compileTarget_enumeration _ hkind]
  | list item listFlattened => rw [compileTarget_list _ hkind]
  | map key value mapFlattened => rw [compileTarget_map _ hkind]
  | «structure» s => rw [compileTarget_structure _ hkind]

/-- Without fuel there are shapes without parts alone. -/
theorem compileTarget_zero {job : Job} {shape : Shape} {format : Option Time.Format}
    {flattened : Bool} (hscalar : ∀ kind, shape.kind ≠ .scalar kind)
    (henumeration : ∀ values, shape.kind ≠ .enumeration values) :
    (compileTarget job 0 shape format flattened : Work σ Target) =
      throw (.model (.recursiveShape shape.name)) := by
  rw [compileTarget.eq_def]
  cases hkind : shape.kind with
  | scalar kind => exact absurd hkind (hscalar kind)
  | enumeration values => exact absurd hkind (henumeration values)
  | list | map | «structure» => simp only [hkind]

/-- What relates failures, and levels if it relates what comes below them, relates the compiling of
shapes with any fuel, also where the items go to different places. -/
theorem compileTarget_rel {τ : Type} [Sink τ] {job : Job}
    {r : Work τ Target → Work σ Target → Prop}
    (hthrow : ∀ fault, r (throw (.model fault)) (throw (.model fault)))
    (hlevel : ∀ deeper other,
      (∀ shape format flattened, r (deeper shape format flattened) (other shape format flattened)) →
      ∀ shape format flattened,
        r (compileLevel job deeper shape format flattened)
          (compileLevel job other shape format flattened))
    (fuel : Nat) (shape : Shape) (format : Option Time.Format) (flattened : Bool) :
    r (compileTarget job fuel shape format flattened)
      (compileTarget job fuel shape format flattened) := by
  induction fuel generalizing shape format flattened with
  | succ fuel ih =>
    rw [compileTarget_succ, compileTarget_succ]
    exact hlevel _ _ ih shape format flattened
  | zero =>
    -- A shape without parts is compiled as at any level, since nothing comes below it.
    have hsimple := hlevel (fun shape _ _ => throw (.model (.recursiveShape shape.name)))
      (fun shape _ _ => throw (.model (.recursiveShape shape.name))) (fun _ _ _ => hthrow _)
      shape format flattened
    unfold compileLevel at hsimple
    cases hkind : shape.kind with
    | scalar kind =>
      rw [hkind] at hsimple
      rw [compileTarget_scalar _ hkind, compileTarget_scalar _ hkind]
      exact hsimple
    | enumeration values =>
      rw [hkind] at hsimple
      rw [compileTarget_enumeration _ hkind, compileTarget_enumeration _ hkind]
      exact hsimple
    | list | map | «structure» =>
      rw [compileTarget_zero (by simp [hkind]) (by simp [hkind]),
        compileTarget_zero (by simp [hkind]) (by simp [hkind])]
      exact hthrow _

/-- What holds of failures, and of a level if it holds of what comes below it, holds of compiling
shapes with any fuel. -/
theorem forall_compileTarget {job : Job} {p : Work σ Target → Prop}
    (hthrow : ∀ fault, p (throw (.model fault)))
    (hlevel : ∀ deeper, (∀ shape format flattened, p (deeper shape format flattened)) →
      ∀ shape format flattened, p (compileLevel job deeper shape format flattened))
    (fuel : Nat) (shape : Shape) (format : Option Time.Format) (flattened : Bool) :
    p (compileTarget job fuel shape format flattened) :=
  compileTarget_rel (r := fun (_ work : Work σ Target) => p work) hthrow
    (fun _ other hother => hlevel other hother) fuel shape format flattened

/-- A step does what compiling with so much fuel does, whatever was compiled before. -/
def StepAgrees (job : Job) (promise : Promise σ) (fuel : Nat)
    (deeper : Shape → Option Time.Format → Bool → Work σ Target) : Prop :=
  ∀ shape format flattened (state : Ledger × σ),
    Fields.get? job.model.shapes shape.name = some shape → Sound job promise state →
    Stack job state.1.visiting fuel shape.name →
    (compileTarget job fuel shape format flattened).Same (deeper shape format flattened) state

section
variable {job : Job} {promise : Promise σ} {state : Ledger × σ} {fuel : Nat}
  {deeper : Shape → Option Time.Format → Bool → Work σ Target}

/-- Shapes to which the one on top of the stack refers are compiled alike, and leave a sound state
with the same stack. -/
theorem same_reference (hm : job.model.WellFormed) (hstep : StepSettles job promise fuel)
    (hsame : StepAgrees job promise fuel deeper) {name target : String} {visiting : List String}
    (hstack : Stack job visiting (fuel + 1) name) (hnew : name ∉ visiting)
    (hrefers : job.model.Refers name target) (format : Option Time.Format) (flattened : Bool)
    {later : Ledger × σ} (hsound : Sound job promise later)
    (hvisiting : later.1.visiting = name :: visiting) {found : Shape}
    (hfound : Fields.get? job.model.shapes target = some found) :
    (compileTarget job fuel found format flattened).Same (deeper found format flattened) later ∧
      (compileTarget job fuel found format flattened).Ends later fun _ after =>
        Sound job promise after ∧ after.1.visiting = name :: visiting := by
  have hname := hm.name_of_get? hfound
  have hentered : Stack job later.1.visiting fuel found.name := by
    rw [hvisiting, hname]
    exact hstack.enter hnew hrefers
  have hknown : Fields.get? job.model.shapes found.name = some found := hname ▸ hfound
  refine ⟨hsame found format flattened later hknown hsound hentered, ?_⟩
  refine (hstep found format flattened later hknown hsound hentered).mono fun _ after h => ?_
  exact ⟨h.sound, h.grows.visiting.trans hvisiting⟩

omit [Sink σ] in
/-- Members are compiled alike when the shapes of each of them are. -/
theorem compileMembers_same (inv : Ledger × σ → Prop)
    {step : Shape → Option Time.Format → Bool → Work σ Target} {members : List Member}
    (hinv : inv state)
    (hstep : ∀ member ∈ members, ∀ shape (later : Ledger × σ),
      Fields.get? job.model.shapes member.target = some shape → inv later →
      (step shape member.timestampFormat member.flattened).Same
        (deeper shape member.timestampFormat member.flattened) later ∧
      (step shape member.timestampFormat member.flattened).Ends later fun _ after => inv after) :
    (compileMembers job step members).Same (compileMembers job deeper members) state := by
  induction members generalizing state with
  | nil => exact .refl _ _
  | cons member rest ih =>
    rw [compileMembers, compileMembers]
    apply Work.Same.ofModel_bind
    intro shape hshape
    obtain ⟨hsame, hends⟩ := hstep member List.mem_cons_self shape state (shape_eq_ok.1 hshape) hinv
    apply hsame.bind
    refine hends.mono fun _ after hafter target _ => ?_
    apply Work.Same.bind_left
    exact ih hafter fun member hmem => hstep member (List.mem_cons_of_mem _ hmem)

/-- A structure is compiled alike when the shapes to which it refers are. -/
theorem compileStructureWith_same (hm : job.model.WellFormed)
    (hstep : StepSettles job promise fuel) (hsame : StepAgrees job promise fuel deeper)
    {name : String} (hsound : Sound job promise state)
    (hstack : Stack job state.1.visiting (fuel + 1) name) :
    (compileStructureWith job (compileTarget job fuel) name).Same
      (compileStructureWith job deeper name) state := by
  unfold compileStructureWith
  apply (Work.Same.refl _ _).bind
  rw [Work.ends_lookUp]
  cases hfound : Fields.get? state.1.structures name with
  | some found =>
    intro result hresult
    obtain rfl := Except.ok.inj hresult
    exact .refl _ _
  | none =>
    intro result hresult
    obtain rfl := Except.ok.inj hresult
    apply Work.Same.ofModel_bind
    intro shape hshape
    apply Work.Same.ofModel_bind
    intro described hdescribed
    rw [shape_eq_ok] at hshape
    rw [members_eq_ok] at hdescribed
    apply Work.Same.bind_left
    apply Work.Same.inside
    intro hnew
    have hname := hm.name_of_get? hshape
    have hpushed := (hsound.push hfound).nameShape (hname ▸ hshape)
    apply (Work.Same.refl _ _).bind
    rw [Work.ends_nameShape]
    intro ident _
    apply Work.Same.bind_left
    refine compileMembers_same (fun later =>
      Sound job promise later ∧ later.1.visiting = name :: state.1.visiting) ⟨hpushed, rfl⟩ ?_
    intro member hmember found later hfound ⟨hlater, hvisiting⟩
    have hrefers : job.model.Refers name member.target :=
      ⟨shape, hshape, by simpa [Shape.references, hdescribed] using ⟨member, hmember, rfl⟩⟩
    exact same_reference hm hstep hsame hstack hnew hrefers _ _ hlater hvisiting hfound

theorem compileLevel_same (hm : job.model.WellFormed) (hsame : StepAgrees job promise fuel deeper) :
    StepAgrees job promise (fuel + 1) (compileLevel job deeper) := by
  have hstep : StepSettles job promise fuel := compileTarget_settles hm fuel
  intro shape format flattened state hshape hsound hstack
  rw [compileTarget_succ]
  unfold compileLevel
  have hinside (hkind : ∀ s, shape.kind ≠ .structure s) :
      Sound job promise
        ({ state.1 with visiting := shape.name :: state.1.visiting }, state.2) := by
    apply hsound.push
    rw [Option.eq_none_iff_forall_ne_some]
    intro layout hlayout
    obtain ⟨s, hs⟩ := hsound.structure_kind hlayout hshape
    exact hkind s hs
  cases hkind : shape.kind with
  | scalar kind => exact .refl _ _
  | enumeration values => exact .refl _ _
  | «structure» s =>
    apply Work.Same.bind_left
    exact compileStructureWith_same hm hstep hsame hsound hstack
  | list item listFlattened =>
    have hitem : job.model.Refers shape.name item.target :=
      ⟨shape, hshape, by simp [Shape.references, hkind]⟩
    apply Work.Same.bind_left
    apply Work.Same.inside
    intro hnew
    apply Work.Same.ofModel_bind
    intro found hfound
    rw [shape_eq_ok] at hfound
    exact (same_reference hm hstep hsame hstack hnew hitem none false (hinside (by simp [hkind]))
      rfl hfound).1
  | map key value mapFlattened =>
    have hkey : job.model.Refers shape.name key.target :=
      ⟨shape, hshape, by simp [Shape.references, hkind]⟩
    have hvalue : job.model.Refers shape.name value.target :=
      ⟨shape, hshape, by simp [Shape.references, hkind]⟩
    apply Work.Same.bind_left
    apply Work.Same.inside
    intro hnew
    apply Work.Same.ofModel_bind
    intro keyShape hkeyShape
    rw [shape_eq_ok] at hkeyShape
    obtain ⟨hsameKey, hends⟩ := same_reference hm hstep hsame hstack hnew hkey none false
      (hinside (by simp [hkind])) rfl hkeyShape
    apply hsameKey.bind
    refine hends.mono fun _ after hended keyTarget _ => ?_
    obtain ⟨hafter, hvisiting⟩ := hended
    apply Work.Same.ofModel_bind
    intro valueShape hvalueShape
    rw [shape_eq_ok] at hvalueShape
    apply Work.Same.bind_left
    exact (same_reference hm hstep hsame hstack hnew hvalue none false hafter hvisiting
      hvalueShape).1

end

/-- Whatever would be done deeper than the fuel allows, nothing of it is done. -/
theorem stepAgrees_iterate {job : Job} {promise : Promise σ} (hm : job.model.WellFormed)
    (deeper : Shape → Option Time.Format → Bool → Work σ Target) (fuel : Nat) :
    StepAgrees job promise fuel ((compileLevel job)^[fuel] deeper) := by
  induction fuel with
  | zero =>
    -- Even the last level has fuel for one more.
    intro shape format flattened state hshape hsound hstack
    exact absurd hstack.fuel_pos (by simp)
  | succ fuel ih =>
    rw [Function.iterate_succ_apply']
    exact compileLevel_same hm ih

theorem compileTarget_eq_iterate (job : Job) (fuel more : Nat) :
    (compileTarget job (fuel + more) : Shape → Option Time.Format → Bool → Work σ Target) =
      (compileLevel job)^[fuel] (compileTarget job more) := by
  induction fuel with
  | zero => rw [Nat.zero_add, Function.iterate_zero_apply]
  | succ fuel ih => rw [Nat.add_right_comm, compileTarget_succ, ih, Function.iterate_succ_apply']

/-- Compiling a structure goes no deeper than there are shapes: it is done whatever would come
below. -/
theorem compileStructure_same {job : Job} {promise : Promise σ} (hm : job.model.WellFormed)
    {state : Ledger × σ} (hsound : Sound job promise state) (hvisiting : state.1.visiting = [])
    (name : String) {depth : Nat} (hdepth : job.model.shapes.length ≤ depth)
    (deeper : Shape → Option Time.Format → Bool → Work σ Target) :
    (compileStructureWith job ((compileLevel job)^[depth] deeper) name).Same
      (compileStructure job name) state := by
  have hstack : Stack job state.1.visiting (job.model.shapes.length + 1) name := by
    rw [hvisiting]
    exact stack_nil job (Nat.le_refl _) name
  have hsame (deeper : Shape → Option Time.Format → Bool → Work σ Target) :
      (compileStructureWith job (compileTarget job job.model.shapes.length) name).Same
        (compileStructureWith job ((compileLevel job)^[job.model.shapes.length] deeper) name)
        state :=
    compileStructureWith_same hm (compileTarget_settles hm _) (stepAgrees_iterate hm deeper _)
      hsound hstack
  obtain ⟨more, rfl⟩ := Nat.exists_eq_add_of_le hdepth
  have hleft := hsame ((compileLevel job)^[more] deeper)
  have hright := hsame (compileTarget job 1)
  rw [← Function.iterate_add_apply] at hleft
  rw [← compileTarget_eq_iterate] at hright
  exact hleft.symm.trans hright

end ServiceBindings.Generate
