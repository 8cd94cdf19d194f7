import ServiceBindings.Proofs.Generate.Sound

/-! Compiling settles: whatever was compiled before, it comes to the plan or the fault of a fresh
run. -/
namespace ServiceBindings.Generate
open Naming (Identifier Names)
open Plan (Binding Call Enumeration Layout Target)

variable {σ α β : Type} [Sink σ] {job : Job} {promise : Promise σ} {state : Ledger × σ}
  {grows : Ledger → Ledger → Prop} [Growth grows]

/-- Handing over a new item and entering it in the ledger. -/
theorem settles_enter {rel : α → α → Prop} {p a : α} {artifact : Artifact}
    {change : Ledger → Ledger} (hsound : Sound job promise state)
    (hnew : ¬state.1.HasItem artifact.ident) (hrel : rel p a)
    (hgrows : grows state.1 (change state.1))
    (henter : ∀ sink, promise.holds (fun ident => ident = artifact.ident ∨ state.1.HasItem ident)
      sink → Sound job promise (change state.1, sink)) :
    (do
      Work.emit artifact
      Work.update change
      return a : Work σ α).Ends state (SettlesWith grows job promise rel (.ok p) state) := by
  rw [Work.ends_bind, Work.ends_emit]
  rcases hwrite : Sink.write artifact state.2 with ⟨fault | outcome, after⟩
  · obtain ⟨hholds, hrefuse⟩ := promise.write_error hsound.sink hnew hwrite
    refine ⟨?_, Growth.of_grows (.refl _), hrefuse⟩
    exact ⟨hsound.roles, hsound.names, hsound.shapeNames, hsound.operationNames,
      hsound.enumerations, hsound.structures, hsound.calls, hholds⟩
  · exact ⟨henter after (promise.write_ok hsound.sink hnew hwrite), hgrows, p, rfl, hrel⟩

/-- A result settles from an earlier state on when the ledger has only grown in between. -/
theorem Work.Ends.settles_of_grows {rel : α → α → Prop} {plain : Except ModelError α}
    {work : Work σ α} {later : Ledger × σ} (hgrows : state.1.Grows later.1)
    (h : work.Ends later (SettlesWith grows job promise rel plain later)) :
    work.Ends later (SettlesWith grows job promise rel plain state) :=
  h.mono fun _ _ h => ⟨h.sound, Growth.trans hgrows h.grows, h.agrees⟩

theorem grows_names {ledger : Ledger} {names : Names} (h : ledger.names.Grows names) :
    ledger.Grows { ledger with names } :=
  ⟨⟨h, fun _ _ h => h, fun _ _ h => h, fun _ _ h => h, rfl⟩, rfl⟩

/-- Work goes on with the name of a shape, which is the plain one with at most a number. -/
theorem settles_nameShape_bind {rel : α → α → Prop} {plain : Except ModelError α} {shape : Shape}
    {next : Identifier → Work σ α} (hsound : Sound job promise state)
    (hshape : Fields.get? job.model.shapes shape.name = some shape)
    (hnext : ∀ ident names, Fields.get? names.shapes shape.name = some ident →
      (job.plainIdent shape).Numbers ident →
      Sound job promise ({ state.1 with names }, state.2) →
      (next ident).Ends ({ state.1 with names }, state.2)
        (Settles job promise rel plain ({ state.1 with names }, state.2))) :
    (Work.nameShape shape >>= next).Ends state (Settles job promise rel plain state) := by
  rw [Work.ends_bind, Work.ends_nameShape]
  have hident := state.1.names.get?_shapes_shape shape
  have hnamed := hsound.nameShape hshape
  exact (hnext _ _ hident (hnamed.shapeNames shape _ hshape hident) hnamed).settles_of_grows
    (grows_names (state.1.names.grows_shape shape))

theorem compileEnumeration_settles {shape : Shape} {values : List String}
    (hsound : Sound job promise state)
    (hshape : Fields.get? job.model.shapes shape.name = some shape)
    (hkind : shape.kind = .enumeration values) :
    (compileEnumeration job shape).Ends state
      (Settles job promise (Enumeration.Related Identifier.Numbers)
        (plainEnumeration job shape values) state) := by
  unfold compileEnumeration
  rw [hkind]
  dsimp only
  rw [Work.ends_bind, Work.ends_lookUp]
  cases hfound : Fields.get? state.1.enumerations shape.name with
  | some found =>
    obtain ⟨shape', values', plain, hshape', hkind', hplain, hrel, -⟩ :=
      hsound.enumerations _ _ hfound
    obtain rfl := Option.some.inj (hshape.symm.trans hshape')
    obtain rfl := ShapeKind.enumeration.inj (hkind.symm.trans hkind')
    exact ⟨hsound.hit, .hit _, plain, hplain, hrel⟩
  | none =>
    have hplain : plainEnumeration job shape values =
        (Plan.constantsOf job.settings.enumCollision shape.name values) >>= fun constants =>
          .ok { ident := job.plainIdent shape, shape := shape.name, constants } := by
      unfold plainEnumeration
      cases Plan.constantsOf job.settings.enumCollision shape.name values <;> rfl
    rw [hplain]
    refine settles_ofModel_bind hsound fun constants hconstants => ?_
    refine settles_nameShape_bind hsound hshape fun ident names hident hnumbers hsound => ?_
    refine settles_enter hsound ?_ ⟨hnumbers, rfl, rfl⟩ ?_ fun sink hsink => ?_
    · intro hitem
      rcases hsound.item_of_shape hident hitem with ⟨e, he⟩ | ⟨layout, hlayout⟩
      · cases hfound.symm.trans he
      · obtain ⟨s, hs⟩ := hsound.structure_kind hlayout hshape
        cases hkind.symm.trans hs
    · exact ⟨⟨.refl _, fun _ _ h => get?_set_of_none _ hfound h, fun _ _ h => h, fun _ _ h => h,
        rfl⟩, rfl⟩
    · have hdone : plainEnumeration job shape values =
          .ok { ident := job.plainIdent shape, shape := shape.name, constants } := by
        rw [hplain, hconstants, ok_bind]
      exact hsound.enterEnumeration hshape hkind hdone ⟨hnumbers, rfl, rfl⟩ hident hfound hsink

theorem compileMembers_settles {visiting : List String}
    {step : Shape → Option Time.Format → Bool → Work σ Target}
    {plainStep : Shape → Option Time.Format → Bool → Except ModelError Target}
    {members : List Member} (hsound : Sound job promise state)
    (hvisiting : state.1.visiting = visiting)
    (hstep : ∀ member ∈ members, ∀ shape (later : Ledger × σ),
      Fields.get? job.model.shapes member.target = some shape → Sound job promise later →
      later.1.visiting = visiting →
      (step shape member.timestampFormat member.flattened).Ends later
        (Settles job promise (Target.Related Identifier.Numbers)
          (plainStep shape member.timestampFormat member.flattened) later)) :
    (compileMembers job step members).Ends state
      (Settles job promise (Plan.RelatedMembers Identifier.Numbers)
        (plainMembers job plainStep members) state) := by
  induction members generalizing state with
  | nil => exact settles_pure hsound trivial
  | cons member rest ih =>
    rw [compileMembers, plainMembers]
    refine settles_ofModel_bind hsound fun shape hshape => ?_
    refine settles_bind (hstep member List.mem_cons_self shape state (shape_eq_ok.1 hshape) hsound
      hvisiting) fun plain target after _ hrel hsound hgrows => ?_
    refine settles_bind (ih hsound (hgrows.visiting.trans hvisiting) fun m hmem =>
      hstep m (List.mem_cons_of_mem _ hmem)) fun plainRest others after _ hrels hsound _ => ?_
    exact settles_pure hsound ⟨Plan.bindingOf_eq_of_related member hrel, hrel, hrels⟩

/-- Work inside a shape settles when the work does from the state with the shape on top. Nothing was
entered for the shape meanwhile, and what the names say of the result still holds. -/
theorem settles_inside (named : α → Names → Prop) {rel : α → α → Prop} {name : String}
    {work : Work σ α} {plainWork : List String → Except ModelError α}
    (hsound : Sound job promise state) (hnew : Fields.get? state.1.structures name = none)
    (hwork : ∀ pushed : Ledger × σ, name ∉ state.1.visiting →
      pushed.1.visiting = name :: state.1.visiting → Sound job promise pushed →
      work.Ends pushed fun result after =>
        Settles job promise rel (plainWork (name :: state.1.visiting)) pushed result after ∧
          ∀ a, result = .ok a → named a after.1.names) :
    (Work.inside name work).Ends state fun result after =>
      Settles job promise rel (plainInside state.1.visiting name plainWork) state result after ∧
        Fields.get? after.1.structures name = none ∧
        ∀ a, result = .ok a → named a after.1.names := by
  rw [Work.ends_inside]
  split_ifs with hmem
  · rw [plainInside, if_pos hmem]
    exact ⟨⟨hsound, .refl _, rfl⟩, hnew, by simp⟩
  · rw [plainInside, if_neg hmem]
    refine (hwork _ hmem rfl (hsound.push hnew)).mono fun result after hpopped => ?_
    obtain ⟨h, hnamed⟩ := hpopped
    refine ⟨?_, ?_, hnamed⟩
    · have hgrows := h.grows
      refine ⟨h.sound.pop name, ⟨⟨hgrows.names, hgrows.enumerations, hgrows.structures,
        hgrows.calls, ?_⟩, hgrows.sameCalls⟩, h.agrees⟩
      show after.1.visiting.erase name = _
      rw [hgrows.visiting, List.erase_cons_head]
    · show Fields.get? after.1.structures name = none
      rw [Option.eq_none_iff_forall_ne_some]
      intro layout hlayout
      obtain ⟨-, -, -, -, -, -, hout⟩ := h.sound.structures name layout hlayout
      rw [h.grows.visiting] at hout
      exact hout List.mem_cons_self

/-- Work inside a shape that is no structure. -/
theorem settles_inside_reference {rel : α → α → Prop} {shape : Shape} {work : Work σ α}
    {plainWork : List String → Except ModelError α} (hsound : Sound job promise state)
    (hshape : Fields.get? job.model.shapes shape.name = some shape)
    (hkind : ∀ s, shape.kind ≠ .structure s)
    (hwork : ∀ pushed : Ledger × σ, shape.name ∉ state.1.visiting →
      pushed.1.visiting = shape.name :: state.1.visiting → Sound job promise pushed →
      work.Ends pushed
        (Settles job promise rel (plainWork (shape.name :: state.1.visiting)) pushed)) :
    (Work.inside shape.name work).Ends state
      (Settles job promise rel (plainInside state.1.visiting shape.name plainWork) state) := by
  have hnone : Fields.get? state.1.structures shape.name = none := by
    rw [Option.eq_none_iff_forall_ne_some]
    intro layout hlayout
    obtain ⟨s, hs⟩ := hsound.structure_kind hlayout hshape
    exact hkind s hs
  have hinside := settles_inside (fun _ _ => True) hsound hnone fun pushed hnew hvisiting hpushed =>
    (hwork pushed hnew hvisiting hpushed).mono fun _ _ h => ⟨h, fun _ _ => trivial⟩
  exact hinside.mono fun _ _ h => h.1

/-- A structure's plan has the name of its shape. -/
def IsNamed (shape : Shape) (layout : Layout) (names : Names) : Prop :=
  layout.heading.shape = shape.name ∧
    Fields.get? names.shapes shape.name = some layout.heading.ident

/-- The part of compiling a structure that is done with the structure on top of the stack. -/
def compileLayout (job : Job)
    (step : Shape → Option Time.Format → Bool → Work σ Target) (shape : Shape)
    (described : Structure) : Work σ Layout := do
  let ident ← Work.nameShape shape
  let members ← compileMembers job step described.members
  let heading := {
    shape := shape.name
    ident
    locationName := shape.locationName
    xmlNamespace := shape.xmlNamespace : Plan.Heading }
  return { heading, members : Layout }

theorem compileLayout_settles {visiting : List String}
    {step : Shape → Option Time.Format → Bool → Work σ Target}
    {plainStep : Shape → Option Time.Format → Bool → Except ModelError Target}
    {shape : Shape} {described : Structure} (hsound : Sound job promise state)
    (hvisiting : state.1.visiting = visiting)
    (hshape : Fields.get? job.model.shapes shape.name = some shape)
    (hstep : ∀ member ∈ described.members, ∀ shape (later : Ledger × σ),
      Fields.get? job.model.shapes member.target = some shape → Sound job promise later →
      later.1.visiting = visiting →
      (step shape member.timestampFormat member.flattened).Ends later
        (Settles job promise (Target.Related Identifier.Numbers)
          (plainStep shape member.timestampFormat member.flattened) later)) :
    (compileLayout job step shape described).Ends state fun result after =>
      Settles job promise (Layout.Related Identifier.Numbers)
        (plainLayout job plainStep shape described) state result after ∧
      ∀ layout, result = .ok layout → IsNamed shape layout after.1.names := by
  rw [compileLayout, Work.ends_bind, Work.ends_nameShape]
  have hident := state.1.names.get?_shapes_shape shape
  have hnamed := hsound.nameShape hshape
  have hnumbers := hnamed.shapeNames shape _ hshape hident
  have hgrows := grows_names (state.1.names.grows_shape shape)
  dsimp only
  rw [Work.ends_bind]
  refine (compileMembers_settles hnamed hvisiting hstep).mono fun result after h => ?_
  match result with
  | .ok members =>
    obtain ⟨plain, hplain, hrel⟩ := h.agrees
    refine ⟨⟨h.sound, hgrows.trans h.grows, ?_⟩, ?_⟩
    · rw [plainLayout, hplain]
      exact ⟨_, rfl, ⟨hnumbers, rfl, rfl, rfl⟩, hrel⟩
    · rintro layout ⟨⟩
      exact ⟨rfl, h.grows.names.shapes _ _ hident⟩
  | .error (.model fault) =>
    have hplain : plainMembers job plainStep described.members = .error fault := h.agrees
    rw [plainLayout, hplain]
    exact ⟨⟨h.sound, hgrows.trans h.grows, rfl⟩, by simp⟩
  | .error (.emit fault) =>
    exact ⟨⟨h.sound, hgrows.trans h.grows, h.agrees⟩, by simp⟩

/-- The plan of a structure settles with its being handed over and entered. -/
theorem settles_enterStructure {shape : Shape} {s : Structure} {layout plain : Layout} {fuel : Nat}
    {visiting : List String} (hsound : Sound job promise state)
    (hshape : Fields.get? job.model.shapes shape.name = some shape)
    (hkind : shape.kind = .structure s)
    (hplain : plainStructureWith job (plainTarget job fuel) visiting shape.name = .ok plain)
    (hrel : plain.Related Identifier.Numbers layout) (hnamed : IsNamed shape layout state.1.names)
    (hout : shape.name ∉ state.1.visiting)
    (hnone : Fields.get? state.1.structures shape.name = none) :
    (do
      Work.emit (job.artifact layout.heading.ident (structureSource layout))
      Work.update fun ledger =>
        { ledger with structures := Fields.set layout.heading.shape layout ledger.structures }
      return layout : Work σ Layout).Ends state
      (Settles job promise (Layout.Related Identifier.Numbers) (.ok plain) state) := by
  obtain ⟨hkey, hident⟩ := hnamed
  rw [hkey]
  refine settles_enter hsound ?_ hrel ?_ fun sink hsink => ?_
  · intro hitem
    rcases hsound.item_of_shape hident hitem with ⟨e, he⟩ | ⟨other, hother⟩
    · obtain ⟨values, hvalues⟩ := hsound.enumeration_kind he hshape
      cases hkind.symm.trans hvalues
    · cases hnone.symm.trans hother
  · exact ⟨⟨.refl _, fun _ _ h => h, fun _ _ h => get?_set_of_none _ hnone h, fun _ _ h => h, rfl⟩,
      rfl⟩
  · exact hsound.enterStructure hplain hrel hident hout hnone hsink

/-- Compiling shapes with so much fuel settles. -/
def StepSettles (job : Job) (promise : Promise σ) (fuel : Nat) : Prop :=
  ∀ shape format flattened (state : Ledger × σ),
    Fields.get? job.model.shapes shape.name = some shape → Sound job promise state →
    Stack job state.1.visiting fuel shape.name →
    (compileTarget job fuel shape format flattened).Ends state
      (Settles job promise (Target.Related Identifier.Numbers)
        (plainTarget job fuel state.1.visiting shape format flattened) state)

theorem compileStructureWith_settles (hm : job.model.WellFormed) {fuel : Nat} {name : String}
    (hsound : Sound job promise state) (hstack : Stack job state.1.visiting (fuel + 1) name)
    (hstep : StepSettles job promise fuel) :
    (compileStructureWith job (compileTarget job fuel) name).Ends state
      (Settles job promise (Layout.Related Identifier.Numbers)
        (plainStructureWith job (plainTarget job fuel) state.1.visiting name) state) := by
  rw [compileStructureWith, Work.ends_bind, Work.ends_lookUp]
  cases hfound : Fields.get? state.1.structures name with
  | some found =>
    obtain ⟨fuel', visiting', plain, hplain, hrel, -⟩ := hsound.structures _ _ hfound
    exact ⟨hsound.hit, .hit _, plain, plainStructureWith_transfer hm hplain hstack, hrel⟩
  | none =>
    refine settles_ofModel_bind hsound fun shape hshape => ?_
    refine settles_ofModel_bind hsound fun described hdescribed => ?_
    rw [shape_eq_ok] at hshape
    rw [members_eq_ok] at hdescribed
    have hname := hm.name_of_get? hshape
    have hinside : (Work.inside name
        (compileLayout job (compileTarget job fuel) shape described)).Ends state
        fun result after =>
          Settles job promise (Layout.Related Identifier.Numbers)
            (plainInside state.1.visiting name fun visiting =>
              plainLayout job (plainTarget job fuel visiting) shape described) state result after ∧
          Fields.get? after.1.structures name = none ∧
          ∀ layout, result = .ok layout → IsNamed shape layout after.1.names := by
      refine settles_inside (IsNamed shape) hsound hfound fun pushed hnew hvisiting hpushed => ?_
      refine compileLayout_settles hpushed hvisiting (hname ▸ hshape) ?_
      intro member hmember other later hother hlater hsame
      have hrefers : job.model.Refers name member.target :=
        ⟨shape, hshape, by simpa [Shape.references, hdescribed] using ⟨member, hmember, rfl⟩⟩
      have hotherName := hm.name_of_get? hother
      rw [← hsame]
      refine hstep other _ _ later (hotherName ▸ hother) hlater ?_
      rw [hsame, hotherName]
      exact hstack.enter hnew hrefers
    rw [Work.ends_bind]
    refine Work.Ends.mono hinside fun result after hended => ?_
    obtain ⟨h, hnone, hnamed⟩ := hended
    cases result with
    | error fault => cases fault <;> exact h
    | ok layout =>
      obtain ⟨plain, hplain, hrel⟩ := h.agrees
      have hdone : plainStructureWith job (plainTarget job fuel) state.1.visiting name =
          .ok plain := by
        rw [plainStructureWith, shape_eq_ok.2 hshape, ok_bind, members_eq_ok.2 hdescribed, ok_bind,
          hplain]
      have hout : name ∉ after.1.visiting :=
        h.grows.visiting ▸ (plainInside_eq_ok.1 hplain).1
      rw [hplain]
      subst hname
      exact (settles_enterStructure h.sound hshape hdescribed hdone hrel (hnamed layout rfl) hout
        hnone).settles_of_grows h.grows

/-- Compiling a shape to which the one on top of the stack refers. -/
theorem settles_reference (hm : job.model.WellFormed) {fuel : Nat} {shape found : Shape}
    {target : String} {visiting : List String} (hsound : Sound job promise state)
    (hstack : Stack job visiting (fuel + 1) shape.name) (hnew : shape.name ∉ visiting)
    (hvisiting : state.1.visiting = shape.name :: visiting)
    (hshape : Fields.get? job.model.shapes shape.name = some shape)
    (hmem : target ∈ shape.references) (hfound : job.model.shape target = .ok found)
    (hstep : StepSettles job promise fuel) :
    (compileTarget job fuel found none false).Ends state
      (Settles job promise (Target.Related Identifier.Numbers)
        (plainTarget job fuel (shape.name :: visiting) found none false) state) := by
  rw [shape_eq_ok] at hfound
  have hname := hm.name_of_get? hfound
  rw [← hvisiting]
  refine hstep found none false state (hname ▸ hfound) hsound ?_
  rw [hvisiting, hname]
  exact hstack.enter hnew ⟨shape, hshape, hmem⟩

/-- The part of compiling a map that is done with the map on top of the stack. -/
def compileEntryTargets (job : Job) (fuel : Nat) (key value : String) :
    Work σ (Target × Target) := do
  let keyTarget ← compileTarget job fuel (← .ofModel (job.model.shape key)) none false
  let valueTarget ← compileTarget job fuel (← .ofModel (job.model.shape value)) none false
  return (keyTarget, valueTarget)

/-- The plans of a map's keys and values. -/
def plainEntryTargets (job : Job) (fuel : Nat) (key value : String) (visiting : List String) :
    Except ModelError (Target × Target) := do
  let keyTarget ← plainTarget job fuel visiting (← job.model.shape key) none false
  let valueTarget ← plainTarget job fuel visiting (← job.model.shape value) none false
  return (keyTarget, valueTarget)

theorem compileEntryTargets_settles (hm : job.model.WellFormed) {fuel : Nat} {shape : Shape}
    {key value : String} {visiting : List String} (hsound : Sound job promise state)
    (hstack : Stack job visiting (fuel + 1) shape.name) (hnew : shape.name ∉ visiting)
    (hvisiting : state.1.visiting = shape.name :: visiting)
    (hshape : Fields.get? job.model.shapes shape.name = some shape)
    (hkey : key ∈ shape.references) (hvalue : value ∈ shape.references)
    (hstep : StepSettles job promise fuel) :
    (compileEntryTargets job fuel key value).Ends state
      (Settles job promise (fun p a => p.1.Related Identifier.Numbers a.1 ∧
        p.2.Related Identifier.Numbers a.2)
        (plainEntryTargets job fuel key value (shape.name :: visiting)) state) := by
  refine settles_ofModel_bind hsound fun keyShape hkeyShape => ?_
  refine settles_bind
    (settles_reference hm hsound hstack hnew hvisiting hshape hkey hkeyShape hstep)
    fun plainKey keyTarget after _ hkeyRel hsound hgrows => ?_
  refine settles_ofModel_bind hsound fun valueShape hvalueShape => ?_
  refine settles_bind (settles_reference hm hsound hstack hnew
    (hgrows.visiting.trans hvisiting) hshape hvalue hvalueShape hstep)
    fun plainValue valueTarget after _ hvalueRel hsound _ => ?_
  exact settles_pure hsound ⟨hkeyRel, hvalueRel⟩

section
variable {shape : Shape} {format : Option Time.Format} {flattened : Bool}

theorem compileTarget_scalar (fuel : Nat) {kind : Scalar} (h : shape.kind = .scalar kind) :
    (compileTarget job fuel shape format flattened : Work σ Target) =
      pure (.scalar kind (format.or shape.timestampFormat) shape.streaming) := by
  rw [compileTarget.eq_def]
  simp only [h]

theorem compileTarget_enumeration (fuel : Nat) {values : List String}
    (h : shape.kind = .enumeration values) :
    (compileTarget job fuel shape format flattened : Work σ Target) = (do
      return .enumeration (← compileEnumeration job shape)) := by
  rw [compileTarget.eq_def]
  simp only [h]

theorem compileTarget_structure (fuel : Nat) {s : Structure} (h : shape.kind = .structure s) :
    (compileTarget job (fuel + 1) shape format flattened : Work σ Target) = (do
      return (← compileStructureWith job (compileTarget job fuel) shape.name).toTarget) := by
  rw [compileTarget.eq_def]
  simp only [h]

theorem compileTarget_list (fuel : Nat) {item : Ref} {listFlattened : Bool}
    (h : shape.kind = .list item listFlattened) :
    (compileTarget job (fuel + 1) shape format flattened : Work σ Target) = (do
      let itemTarget ← Work.inside shape.name do
        compileTarget job fuel (← .ofModel (job.model.shape item.target)) none false
      return .list shape.name itemTarget item.locationName (flattened || listFlattened)) := by
  rw [compileTarget.eq_def]
  simp only [h]

theorem compileTarget_map (fuel : Nat) {key value : Ref} {mapFlattened : Bool}
    (h : shape.kind = .map key value mapFlattened) :
    (compileTarget job (fuel + 1) shape format flattened : Work σ Target) = (do
      let (keyTarget, valueTarget) ← Work.inside shape.name do
        let keyTarget ← compileTarget job fuel (← .ofModel (job.model.shape key.target)) none false
        let valueTarget ←
          compileTarget job fuel (← .ofModel (job.model.shape value.target)) none false
        return (keyTarget, valueTarget)
      return .map shape.name keyTarget valueTarget key.locationName value.locationName
        (flattened || mapFlattened)) := by
  rw [compileTarget.eq_def]
  simp only [h]

end

/-- Compiling a shape settles, whatever was compiled before. -/
theorem compileTarget_settles (hm : job.model.WellFormed) (fuel : Nat) :
    StepSettles job promise fuel := by
  induction fuel with
  | zero =>
    intro shape format flattened state hshape hsound hstack
    exact absurd hstack.fuel_pos (by simp)
  | succ fuel ih =>
    intro shape format flattened state hshape hsound hstack
    cases hkind : shape.kind with
    | scalar kind =>
      have hrel : Target.Related Identifier.Numbers
          (.scalar kind (format.or shape.timestampFormat) shape.streaming)
          (.scalar kind (format.or shape.timestampFormat) shape.streaming) := ⟨rfl, rfl, rfl⟩
      rw [compileTarget_scalar _ hkind, plainTarget_scalar _ hkind]
      exact settles_pure hsound hrel
    | enumeration values =>
      rw [compileTarget_enumeration _ hkind, plainTarget_enumeration _ hkind, map_eq_bind]
      refine settles_bind (compileEnumeration_settles hsound hshape hkind)
        fun plain e after _ hrel hsound _ => settles_pure hsound ?_
      exact hrel
    | «structure» s =>
      rw [compileTarget_structure _ hkind, plainTarget_structure _ hkind, map_eq_bind]
      refine settles_bind (compileStructureWith_settles hm hsound hstack ih)
        fun plain layout after _ hrel hsound _ => settles_pure hsound ?_
      exact ⟨hrel.heading, hrel.members⟩
    | list item listFlattened =>
      have hitem : item.target ∈ shape.references := by simp [Shape.references, hkind]
      rw [compileTarget_list _ hkind, plainTarget_list _ hkind]
      refine settles_bind (settles_inside_reference hsound hshape (by simp [hkind])
        fun pushed hnew hvisiting hpushed => settles_ofModel_bind hpushed fun found hfound =>
          settles_reference hm hpushed hstack hnew hvisiting hshape hitem hfound ih)
        fun plain itemTarget after _ hrel hsound _ => settles_pure hsound ?_
      exact ⟨rfl, hrel, rfl, rfl⟩
    | map key value mapFlattened =>
      have hkey : key.target ∈ shape.references := by simp [Shape.references, hkind]
      have hvalue : value.target ∈ shape.references := by simp [Shape.references, hkind]
      rw [compileTarget_map _ hkind, plainTarget_map _ hkind]
      have hentry := settles_inside_reference hsound hshape (by simp [hkind])
        fun pushed hnew hvisiting hpushed =>
          compileEntryTargets_settles hm hpushed hstack hnew hvisiting hshape hkey hvalue ih
      refine settles_bind hentry fun plain targets after _ hrel hsound _ => settles_pure hsound ?_
      exact ⟨rfl, hrel.1, hrel.2, rfl, rfl, rfl⟩

/-- Compiling a structure settles when nothing is being compiled. -/
theorem compileStructure_settles (hm : job.model.WellFormed) (hsound : Sound job promise state)
    (hvisiting : state.1.visiting = []) (name : String) :
    (compileStructure job name).Ends state
      (Settles job promise (Layout.Related Identifier.Numbers) (plainStructure job name)
        state) := by
  have hstack : Stack job state.1.visiting (job.model.shapes.length + 1 + 1) name := by
    rw [hvisiting]
    exact stack_nil job (by omega) name
  have h := compileStructureWith_settles hm hsound hstack (compileTarget_settles hm _)
  rwa [hvisiting] at h

theorem settles_optional (hm : job.model.WellFormed) (hsound : Sound job promise state)
    (hvisiting : state.1.visiting = []) (name : Option String) :
    (name.mapM (compileStructure job) : Work σ (Option Layout)).Ends state
      (Settles job promise (Option.Rel (Layout.Related Identifier.Numbers))
        (name.mapM (plainStructure job)) state) := by
  cases name with
  | none => exact settles_pure hsound .none
  | some name =>
    rw [Option.mapM_some, Option.mapM_some, map_eq_pure_bind, map_eq_pure_bind]
    exact settles_bind (compileStructure_settles hm hsound hvisiting name)
      fun plain layout after _ hrel hsound _ => settles_pure hsound (.some hrel)

theorem samePlaces_of_optionRelated {a b : Option Layout}
    (h : Option.Rel (Layout.Related Identifier.Numbers) a b) :
    Option.Rel Layout.SamePlaces a b := by
  cases h with
  | none => exact .none
  | some h => exact .some h.samePlaces

/-- The plan of an operation settles with its being handed over and entered. -/
theorem settles_enterCall {name : String} {call plain : Call} (hsound : Sound job promise state)
    (hplain : plainCall job name = .ok plain) (hrel : plain.Related Identifier.Numbers call)
    (hident : Fields.get? state.1.names.operations name = some call.ident)
    (hnone : Fields.get? state.1.calls name = none) :
    (do
      Work.emit (job.artifact call.ident (callSource call))
      Work.update fun ledger => { ledger with calls := Fields.set name call ledger.calls }
      return call : Work σ Call).Ends state
      (SettlesWith Ledger.Extends job promise (Call.Related Identifier.Numbers) (.ok plain)
        state) := by
  refine settles_enter hsound ?_ hrel ?_ fun sink hsink => ?_
  · intro hitem
    obtain ⟨other, hother⟩ := hsound.item_of_operation hident hitem
    cases hnone.symm.trans hother
  · exact ⟨.refl _, fun _ _ h => h, fun _ _ h => h, fun _ _ h => get?_set_of_none _ hnone h, rfl⟩
  · exact hsound.enterCall hplain hrel hident hnone hsink

/-- Compiling an operation settles when nothing is being compiled. -/
theorem compileCall_settles (hm : job.model.WellFormed) (hsound : Sound job promise state)
    (hvisiting : state.1.visiting = []) (name : String) :
    (compileCall job name).Ends state
      (SettlesWith Ledger.Extends job promise (Call.Related Identifier.Numbers)
        (plainCall job name) state) := by
  rw [compileCall, Work.ends_bind, Work.ends_lookUp]
  cases hfound : Fields.get? state.1.calls name with
  | some found =>
    obtain ⟨plain, hplain, hrel, -⟩ := hsound.calls _ _ hfound
    exact ⟨hsound.hit, (Ledger.Grows.hit _).toExtends, plain, hplain, hrel⟩
  | none =>
    refine settles_ofModel_bind hsound fun operation hoperation => ?_
    refine settles_bind (compileStructure_settles hm hsound hvisiting operation.input)
      fun plainInput input afterInput hinput hinputRel hsound hgrowsInput => ?_
    refine settles_bind (settles_optional hm hsound (hgrowsInput.visiting.trans hvisiting)
      operation.output)
      fun plainOutput output afterOutput houtput houtputRel hsound hgrowsOutput => ?_
    have hplaces := hinputRel.samePlaces
    have houtputPlaces := samePlaces_of_optionRelated houtputRel
    have htemplateEq := hplaces.templateOf operation
    have hpaginationEq := hplaces.checkPagination operation houtputPlaces
    rw [htemplateEq, hpaginationEq]
    refine settles_ofModel_bind hsound fun template htemplate => ?_
    refine settles_ofModel_bind hsound fun _ hpagination => ?_
    have hnone : Fields.get? afterOutput.1.calls name = none := by
      rw [hgrowsOutput.sameCalls, hgrowsInput.sameCalls, hfound]
    rw [Work.ends_bind, Work.ends_nameOperation]
    have hident := afterOutput.1.names.get?_operations_operation name
    have hnamed := hsound.nameOperation name
    have hdone := plainCall_eq_ok.2 ⟨operation, plainInput, plainOutput, template, hoperation,
      hinput, houtput, htemplateEq.trans htemplate, hpaginationEq.trans hpagination, rfl⟩
    have hrel : Call.Related Identifier.Numbers
        ⟨job.model.service, operation, ⟨.client, Naming.memberName name⟩, plainInput, plainOutput,
          template⟩
        ⟨job.model.service, operation, (afterOutput.1.names.operation name).1, input, output,
          template⟩ :=
      ⟨rfl, rfl, hnamed.operationNames name _ hident, hinputRel, houtputRel, rfl⟩
    exact (settles_enterCall hnamed hdone hrel hident hnone).settles_of_grows
      (grows_names (afterOutput.1.names.grows_operation name))

end ServiceBindings.Generate
