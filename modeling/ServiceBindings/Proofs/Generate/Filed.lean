import ServiceBindings.Proofs.Generate.Depth
import ServiceBindings.Proofs.Generate.History
import ServiceBindings.Proofs.Generate.Paths

/-! The order of items in memory: whatever an item names was written before it. -/
namespace ServiceBindings.Generate
open Naming (Identifier IsSpelled Names)
open Plan (Binding Call Enumeration Layout Target)

/-- An identifier is that of one of the items, and can be read in source text. -/
def Known (artifacts : List Artifact) (ident : Identifier) : Prop :=
  IsSpelled ident.name ∧ ident ∈ artifacts.map (·.ident)

theorem Known.mono {artifacts more : List Artifact} {ident : Identifier}
    (h : Known artifacts ident) (hgrows : artifacts <+: more) : Known more ident :=
  ⟨h.1, (hgrows.map (·.ident)).subset h.2⟩

/-- The types of fields are known, and fields have names that can be read in source text. -/
def KnownMembers (artifacts : List Artifact) (members : List (Binding × Target)) : Prop :=
  ∀ member ∈ members, IsSpelled member.1.field ∧
    ∀ ident ∈ member.2.mentions, Known artifacts ident

/-- An item may be written behind others: it is an enumeration, or what it names is among them. -/
inductive Placed (job : Job) (before : List Artifact) : Artifact → Prop where
  | enumeration (e : Enumeration) : Placed job before (job.artifact e.ident (enumerationSource e))
  | structure (layout : Layout) (hname : IsSpelled layout.heading.ident.name)
    (hmembers : KnownMembers before layout.members) :
    Placed job before (job.artifact layout.heading.ident (structureSource layout))
  | call (call : Call) (name : String) (hoperation : job.model.operation name = .ok call.operation)
    (hname : IsSpelled call.ident.name) (hinput : Known before call.input.heading.ident) :
    Placed job before (job.artifact call.ident (callSource call))

/-- Every item in memory stands behind what it names, and so will those that are still to come. -/
structure Filed (job : Job) (state : Ledger × Memory) : Prop where
  shapeNames : ∀ name ident, Fields.get? state.1.names.shapes name = some ident →
    IsSpelled ident.name
  operationNames : ∀ name ident, Fields.get? state.1.names.operations name = some ident →
    IsSpelled ident.name
  structures : ∀ name layout, Fields.get? state.1.structures name = some layout →
    Known state.2.artifacts layout.heading.ident
  items : ∀ before artifact later, state.2.artifacts = before ++ artifact :: later →
    Placed job before artifact

variable {job : Job} {state : Ledger × Memory} {α β : Type}

theorem filed_start (job : Job) : Filed job (Ledger.ofModel job.model, {}) := by
  refine ⟨?_, ?_, ?_, ?_⟩
  · intro name ident h
    simp [Ledger.ofModel, Names.ofModel] at h
  · intro name ident h
    simp [Ledger.ofModel, Names.ofModel] at h
  · intro name layout h
    simp [Ledger.ofModel] at h
  · intro before artifact later h
    simp at h

/-- Only names, structures and memory matter here. -/
theorem Filed.congr (h : Filed job state) {other : Ledger × Memory}
    (hnames : other.1.names = state.1.names) (hstructures : other.1.structures = state.1.structures)
    (hmemory : other.2 = state.2) : Filed job other := by
  refine ⟨?_, ?_, ?_, ?_⟩
  · rw [hnames]
    exact h.shapeNames
  · rw [hnames]
    exact h.operationNames
  · rw [hstructures, hmemory]
    exact h.structures
  · rw [hmemory]
    exact h.items

theorem isSpelled_of_get?_concat {table : Fields Identifier}
    (h : ∀ name ident, Fields.get? table name = some ident → IsSpelled ident.name) {given : String}
    {added : Identifier} (hadded : IsSpelled added.name) {name : String} {ident : Identifier}
    (hget : Fields.get? (table ++ [(given, added)]) name = some ident) : IsSpelled ident.name := by
  rw [Fields.get?_append, Option.or_eq_some_iff, Fields.get?_cons] at hget
  rcases hget with hget | ⟨-, hget⟩
  · exact h name ident hget
  · split_ifs at hget
    · exact Option.some.inj hget ▸ hadded
    · cases hget

theorem Filed.nameShape (h : Filed job state) (shape : Shape) :
    Filed job ({ state.1 with names := (state.1.names.shape shape).2 }, state.2) ∧
      IsSpelled (state.1.names.shape shape).1.name := by
  rcases state.1.names.shape_cases shape with ⟨hfound, hsame⟩ | ⟨-, hident, hnames⟩
  · rw [hsame]
    exact ⟨h, h.shapeNames _ _ hfound⟩
  · have hspelled : IsSpelled (state.1.names.shape shape).1.name := by
      rw [hident]
      exact (Naming.isNumbered_freeName _ _ _).isSpelled (Naming.isSpelled_typeName shape.name)
    refine ⟨⟨fun name ident hget => ?_, ?_, h.structures, h.items⟩, hspelled⟩
    · rw [hnames] at hget
      exact isSpelled_of_get?_concat h.shapeNames hspelled hget
    · rw [hnames]
      exact h.operationNames

theorem Filed.nameOperation (h : Filed job state) (name : String) :
    Filed job ({ state.1 with names := (state.1.names.operation name).2 }, state.2) ∧
      IsSpelled (state.1.names.operation name).1.name := by
  rcases state.1.names.operation_cases name with ⟨hfound, hsame⟩ | ⟨-, hident, hnames⟩
  · rw [hsame]
    exact ⟨h, h.operationNames _ _ hfound⟩
  · have hspelled : IsSpelled (state.1.names.operation name).1.name := by
      rw [hident]
      exact (Naming.isNumbered_freeName _ _ _).isSpelled (Naming.isSpelled_memberName name)
    refine ⟨⟨?_, fun other ident hget => ?_, h.structures, h.items⟩, hspelled⟩
    · rw [hnames]
      exact h.shapeNames
    · rw [hnames] at hget
      exact isSpelled_of_get?_concat h.operationNames hspelled hget

/-- What memory does with an item: it keeps what it has, which is the same if the item is taken, or
adds the item behind all others. -/
theorem Memory.write_cases (artifact : Artifact) (memory : Memory) :
    (memory.write artifact).2.artifacts = memory.artifacts ∧
      (∀ outcome, (memory.write artifact).1 = .ok outcome →
        artifact.ident ∈ memory.artifacts.map (·.ident)) ∨
    (memory.write artifact).2.artifacts = memory.artifacts ++ [artifact] := by
  unfold Memory.write
  dsimp only
  cases hfound : Memory.get? { memory with attempted := artifact.ident :: memory.attempted }
      artifact.ident with
  | none => exact .inr rfl
  | some present =>
    have hident : present.ident = artifact.ident := by
      simpa using List.find?_some hfound
    have hmem : artifact.ident ∈ memory.artifacts.map (·.ident) :=
      hident ▸ List.mem_map_of_mem (List.mem_of_find?_eq_some hfound)
    refine .inl ?_
    dsimp only
    split_ifs <;> exact ⟨rfl, fun _ _ => hmem⟩

/-- An item that may be written now keeps a state filed, taken or not. -/
theorem Filed.write (h : Filed job state) {artifact : Artifact}
    (hplaced : Placed job state.2.artifacts artifact) {result : Except EmitError Outcome}
    {memory : Memory} (hwrite : Sink.write artifact state.2 = (result, memory)) :
    Filed job (state.1, memory) ∧ state.2.artifacts <+: memory.artifacts ∧
      ∀ outcome, result = .ok outcome → artifact.ident ∈ memory.artifacts.map (·.ident) := by
  have hcases := Memory.write_cases artifact state.2
  rw [show state.2.write artifact = (result, memory) from hwrite] at hcases
  dsimp only at hcases
  rcases hcases with ⟨hsame, htaken⟩ | hmore
  · rw [hsame]
    refine ⟨⟨h.shapeNames, h.operationNames, ?_, ?_⟩, List.prefix_rfl, htaken⟩
    · rw [hsame]
      exact h.structures
    · rw [hsame]
      exact h.items
  · have hgrows : state.2.artifacts <+: memory.artifacts := hmore ▸ List.prefix_append _ _
    refine ⟨⟨h.shapeNames, h.operationNames, fun name layout hlayout => ?_, ?_⟩, hgrows,
      fun _ _ => ?_⟩
    · exact (h.structures name layout hlayout).mono hgrows
    · rw [hmore]
      exact forall_split_concat h.items hplaced
    · rw [hmore, List.map_append]
      exact List.mem_append_right _ List.mem_cons_self

/-- Work ends in a filed state with more items, and with a result that holds for these. -/
structure FilesWith (job : Job) (holds : List Artifact → α → Prop) (before : Ledger × Memory)
    (result : Except CompileError α) (after : Ledger × Memory) : Prop where
  filed : Filed job after
  grows : before.2.artifacts <+: after.2.artifacts
  holds : ∀ a, result = .ok a → holds after.2.artifacts a

section
variable {holds : List Artifact → α → Prop} {holds' : List Artifact → β → Prop}

theorem files_pure (hfiled : Filed job state) {a : α} (h : holds state.2.artifacts a) :
    (pure a : Work Memory α).Ends state (FilesWith job holds state) :=
  ⟨hfiled, List.prefix_rfl, fun _ heq => Except.ok.inj heq ▸ h⟩

theorem files_throw (hfiled : Filed job state) (error : CompileError) :
    (throw error : Work Memory α).Ends state (FilesWith job holds state) :=
  ⟨hfiled, List.prefix_rfl, fun _ heq => by cases heq⟩

theorem files_ofModel_bind {answer : Except ModelError α} {next : α → Work Memory β}
    (hfiled : Filed job state)
    (hnext : ∀ a, answer = .ok a → (next a).Ends state (FilesWith job holds' state)) :
    (Work.ofModel answer >>= next).Ends state (FilesWith job holds' state) := by
  rw [Work.ends_bind, Work.ends_ofModel]
  cases answer with
  | ok a => exact hnext a rfl
  | error fault => exact ⟨hfiled, List.prefix_rfl, fun _ heq => by cases heq⟩

theorem files_bind {work : Work Memory α} {next : α → Work Memory β}
    (hwork : work.Ends state (FilesWith job holds state))
    (hnext : ∀ a after, Filed job after → state.2.artifacts <+: after.2.artifacts →
      holds after.2.artifacts a → (next a).Ends after (FilesWith job holds' after)) :
    (work >>= next).Ends state (FilesWith job holds' state) := by
  rw [Work.ends_bind]
  refine hwork.mono fun result after h => ?_
  cases result with
  | ok a =>
    refine (hnext a after h.filed h.grows (h.holds a rfl)).mono fun result' after' h' => ?_
    exact ⟨h'.filed, h.grows.trans h'.grows, h'.holds⟩
  | error error => exact ⟨h.filed, h.grows, fun _ heq => by cases heq⟩

theorem files_inside {name : String} {work : Work Memory α} (hfiled : Filed job state)
    (hwork : ∀ pushed, Filed job pushed → pushed.2 = state.2 →
      work.Ends pushed (FilesWith job holds pushed)) :
    (Work.inside name work).Ends state (FilesWith job holds state) := by
  rw [Work.ends_inside]
  split_ifs
  · exact ⟨hfiled, List.prefix_rfl, fun _ heq => by cases heq⟩
  · have hpushed : Filed job
        ({ state.1 with visiting := name :: state.1.visiting }, state.2) :=
      hfiled.congr rfl rfl rfl
    refine (hwork _ hpushed rfl).mono fun result after h => ?_
    exact ⟨h.filed.congr rfl rfl rfl, h.grows, h.holds⟩

theorem files_lookUp_bind {table : Ledger → Fields α} {name : String}
    {next : Option α → Work Memory β} (hfiled : Filed job state)
    (hnext : ∀ found later, Filed job later → later.2 = state.2 →
      Fields.get? (table state.1) name = found →
      (next found).Ends later (FilesWith job holds' later)) :
    (Work.lookUp table name >>= next).Ends state (FilesWith job holds' state) := by
  rw [Work.ends_bind, Work.ends_lookUp]
  cases hfound : Fields.get? (table state.1) name with
  | some found =>
    have hhit : Filed job ({ state.1 with hits := state.1.hits + 1 }, state.2) :=
      hfiled.congr rfl rfl rfl
    exact (hnext (some found) _ hhit rfl hfound).mono fun _ _ h => ⟨h.filed, h.grows, h.holds⟩
  | none => exact hnext none state hfiled rfl hfound

theorem files_nameShape_bind {shape : Shape} {next : Identifier → Work Memory β}
    (hfiled : Filed job state)
    (hnext : ∀ ident named, Filed job named → IsSpelled ident.name →
      (next ident).Ends named (FilesWith job holds' named)) :
    (Work.nameShape shape >>= next).Ends state (FilesWith job holds' state) := by
  obtain ⟨hnamed, hspelled⟩ := hfiled.nameShape shape
  rw [Work.ends_bind, Work.ends_nameShape]
  exact (hnext _ _ hnamed hspelled).mono fun _ _ h => ⟨h.filed, h.grows, h.holds⟩

theorem files_nameOperation_bind {name : String} {next : Identifier → Work Memory β}
    (hfiled : Filed job state)
    (hnext : ∀ ident named, Filed job named → named.2 = state.2 → IsSpelled ident.name →
      (next ident).Ends named (FilesWith job holds' named)) :
    (Work.nameOperation name >>= next).Ends state (FilesWith job holds' state) := by
  obtain ⟨hnamed, hspelled⟩ := hfiled.nameOperation name
  rw [Work.ends_bind, Work.ends_nameOperation]
  exact (hnext _ _ hnamed rfl hspelled).mono fun _ _ h => ⟨h.filed, h.grows, h.holds⟩

/-- Handing over an item that may be written now, and entering it in the ledger. -/
theorem files_enter {artifact : Artifact} {change : Ledger → Ledger} {a : α}
    (hfiled : Filed job state) (hplaced : Placed job state.2.artifacts artifact)
    (henter : ∀ memory : Memory, Filed job (state.1, memory) →
      artifact.ident ∈ memory.artifacts.map (·.ident) →
      Filed job (change state.1, memory) ∧ holds memory.artifacts a) :
    (do
      Work.emit artifact
      Work.update change
      return a : Work Memory α).Ends state (FilesWith job holds state) := by
  rw [Work.ends_bind, Work.ends_emit]
  rcases hwrite : Sink.write artifact state.2 with ⟨result, memory⟩
  obtain ⟨hwritten, hgrows, hmem⟩ := hfiled.write hplaced hwrite
  cases result with
  | ok outcome =>
    obtain ⟨hentered, hholds⟩ := henter memory hwritten (hmem outcome rfl)
    exact ⟨hentered, hgrows, fun _ heq => Except.ok.inj heq ▸ hholds⟩
  | error fault => exact ⟨hwritten, hgrows, fun _ heq => by cases heq⟩

end

def KnownTarget (artifacts : List Artifact) (target : Target) : Prop :=
  ∀ ident ∈ target.mentions, Known artifacts ident

def KnownLayout (artifacts : List Artifact) (layout : Layout) : Prop :=
  Known artifacts layout.heading.ident

def ReadyLayout (artifacts : List Artifact) (layout : Layout) : Prop :=
  IsSpelled layout.heading.ident.name ∧ KnownMembers artifacts layout.members

theorem compileEnumeration_files (hfiled : Filed job state) (shape : Shape) :
    (compileEnumeration job shape).Ends state (FilesWith job (fun _ _ => True) state) := by
  unfold compileEnumeration
  cases hkind : shape.kind with
  | enumeration values =>
    dsimp only
    refine files_lookUp_bind hfiled fun found later hfiled _ _ => ?_
    cases found with
    | some found => exact files_pure hfiled trivial
    | none =>
      refine files_ofModel_bind hfiled fun constants _ => ?_
      refine files_nameShape_bind hfiled fun ident named hfiled _ => ?_
      have hplaced : Placed job named.2.artifacts (job.artifact ident
          (enumerationSource { ident, shape := shape.name, constants })) :=
        .enumeration { ident, shape := shape.name, constants }
      refine files_enter hfiled hplaced fun memory hwritten _ => ?_
      exact ⟨hwritten.congr rfl rfl rfl, trivial⟩
  | _ => exact files_throw hfiled _

/-- A step files its items, whatever shape it compiles. -/
def StepFiles (job : Job) (step : Shape → Option Time.Format → Bool → Work Memory Target) : Prop :=
  ∀ shape format flattened (state : Ledger × Memory), Filed job state →
    (step shape format flattened).Ends state (FilesWith job KnownTarget state)

theorem compileMembers_files {step : Shape → Option Time.Format → Bool → Work Memory Target}
    (hstep : StepFiles job step) (hfiled : Filed job state) (members : List Member) :
    (compileMembers job step members).Ends state (FilesWith job KnownMembers state) := by
  induction members generalizing state with
  | nil => exact files_pure hfiled fun _ hmem => by cases hmem
  | cons member rest ih =>
    rw [compileMembers]
    refine files_ofModel_bind hfiled fun shape _ => ?_
    refine files_bind (hstep shape member.timestampFormat member.flattened state hfiled)
      fun target after hfiled _ hknown => ?_
    refine files_bind (ih hfiled) fun others later hfiled hgrows hothers => ?_
    refine files_pure hfiled fun entry hmem => ?_
    rcases List.mem_cons.1 hmem with rfl | hmem
    · exact ⟨Naming.isSpelled_memberName member.name, fun ident hident =>
        (hknown ident hident).mono hgrows⟩
    · exact hothers entry hmem

theorem compileLayout_files {step : Shape → Option Time.Format → Bool → Work Memory Target}
    (hstep : StepFiles job step) (hfiled : Filed job state) (shape : Shape)
    (described : Structure) :
    (compileLayout job step shape described).Ends state (FilesWith job ReadyLayout state) := by
  rw [compileLayout]
  refine files_nameShape_bind hfiled fun ident named hfiled hspelled => ?_
  exact files_bind (compileMembers_files hstep hfiled described.members)
    fun members after hfiled _ hmembers => files_pure hfiled ⟨hspelled, hmembers⟩

theorem compileStructureWith_files
    {step : Shape → Option Time.Format → Bool → Work Memory Target} (hstep : StepFiles job step)
    (hfiled : Filed job state) (name : String) :
    (compileStructureWith job step name).Ends state (FilesWith job KnownLayout state) := by
  have hstructures := hfiled.structures name
  rw [compileStructureWith]
  refine files_lookUp_bind hfiled fun found later hfiled hsame hfound => ?_
  cases found with
  | some found => exact files_pure hfiled (hsame ▸ hstructures found hfound)
  | none =>
    -- The members are compiled first, and the structure is written behind all that they name. It
    -- enters the ledger after that, so that what is looked up there was always written.
    refine files_ofModel_bind hfiled fun shape _ => ?_
    refine files_ofModel_bind hfiled fun described _ => ?_
    have hinside : (Work.inside name (compileLayout job step shape described)).Ends later
        (FilesWith job ReadyLayout later) :=
      files_inside hfiled fun pushed hpushed _ => compileLayout_files hstep hpushed shape described
    refine files_bind hinside fun layout after hfiled _ hready => ?_
    obtain ⟨hspelled, hmembers⟩ := hready
    refine files_enter hfiled (.structure layout hspelled hmembers) fun memory hwritten hmem => ?_
    have hknown : Known memory.artifacts layout.heading.ident := ⟨hspelled, hmem⟩
    refine ⟨⟨hwritten.shapeNames, hwritten.operationNames, fun other found hget => ?_,
      hwritten.items⟩, hknown⟩
    rcases get?_set_cases hget with ⟨-, rfl⟩ | hget
    · exact hknown
    · exact hwritten.structures other found hget

theorem compileLevel_files {deeper : Shape → Option Time.Format → Bool → Work Memory Target}
    (hdeeper : StepFiles job deeper) : StepFiles job (compileLevel job deeper) := by
  intro shape format flattened state hfiled
  unfold compileLevel
  cases hkind : shape.kind with
  | scalar kind => exact files_pure hfiled fun _ hmem => by cases hmem
  | enumeration values =>
    exact files_bind (compileEnumeration_files hfiled shape) fun e after hfiled _ _ =>
      files_pure hfiled fun _ hmem => by cases hmem
  | «structure» s =>
    refine files_bind (compileStructureWith_files hdeeper hfiled shape.name)
      fun layout after hfiled _ hknown => files_pure hfiled fun ident hmem => ?_
    obtain rfl := List.mem_singleton.1 hmem
    exact hknown
  | list item listFlattened =>
    refine files_bind (files_inside hfiled fun pushed hpushed _ => files_ofModel_bind hpushed
      fun found _ => hdeeper found none false pushed hpushed) fun target after hfiled _ hknown => ?_
    exact files_pure hfiled hknown
  | map key value mapFlattened =>
    have hentry : (Work.inside shape.name (do
        let keyTarget ← deeper (← .ofModel (job.model.shape key.target)) none false
        let valueTarget ← deeper (← .ofModel (job.model.shape value.target)) none false
        return (keyTarget, valueTarget))).Ends state
          (FilesWith job (fun artifacts targets => KnownTarget artifacts targets.2) state) := by
      refine files_inside hfiled fun pushed hpushed _ => ?_
      refine files_ofModel_bind hpushed fun keyShape _ => ?_
      refine files_bind (hdeeper keyShape none false pushed hpushed) fun _ after hfiled _ _ => ?_
      refine files_ofModel_bind hfiled fun valueShape _ => ?_
      refine files_bind (hdeeper valueShape none false after hfiled)
        fun valueTarget later hfiled _ hknown => files_pure hfiled hknown
    exact files_bind hentry fun targets after hfiled _ hknown => files_pure hfiled hknown

theorem compileTarget_files (job : Job) (fuel : Nat) : StepFiles job (compileTarget job fuel) :=
  forall_compileTarget
    (p := fun work => ∀ state, Filed job state → work.Ends state (FilesWith job KnownTarget state))
    (fun _ _ hfiled => files_throw hfiled _) (fun _ => compileLevel_files) fuel

theorem compileCall_files (hfiled : Filed job state) (name : String) :
    (compileCall job name).Ends state (FilesWith job (fun _ _ => True) state) := by
  have hstructure (state : Ledger × Memory) (hfiled : Filed job state) (name : String) :
      (compileStructure job name).Ends state (FilesWith job KnownLayout state) :=
    compileStructureWith_files (compileTarget_files job _) hfiled name
  rw [compileCall]
  refine files_lookUp_bind hfiled fun found later hfiled _ _ => ?_
  cases found with
  | some found => exact files_pure hfiled trivial
  | none =>
    refine files_ofModel_bind hfiled fun operation hoperation => ?_
    refine files_bind (hstructure later hfiled operation.input)
      fun input afterInput hfiled _ hinput => ?_
    have houtput : (operation.output.mapM (compileStructure job) : Work Memory _).Ends afterInput
        (FilesWith job (fun _ _ => True) afterInput) := by
      cases operation.output with
      | none => exact files_pure hfiled trivial
      | some output =>
        rw [Option.mapM_some, map_eq_pure_bind]
        exact files_bind (hstructure afterInput hfiled output) fun _ after hfiled _ _ =>
          files_pure hfiled trivial
    refine files_bind houtput fun output afterOutput hfiled hgrows _ => ?_
    refine files_ofModel_bind hfiled fun template _ => ?_
    refine files_ofModel_bind hfiled fun _ _ => ?_
    refine files_nameOperation_bind hfiled fun ident named hfiled hsame hspelled => ?_
    -- The input was written before the output was compiled, and nothing is ever taken back.
    have hknown : Known named.2.artifacts input.heading.ident := hsame ▸ hinput.mono hgrows
    let call := { service := job.model.service, operation, ident, input, output, template : Call }
    have hplaced : Placed job named.2.artifacts (job.artifact ident (callSource call)) :=
      .call call name hoperation hspelled hknown
    refine files_enter hfiled hplaced fun memory hwritten _ => ?_
    exact ⟨hwritten.congr rfl rfl rfl, trivial⟩

namespace Run

/-- Every item of a run stands behind what it names. -/
def IsFiled (run : Run Memory) : Prop :=
  Filed run.job (run.ledger, run.sink)

theorem IsFiled.compile {run : Run Memory} (h : run.IsFiled) (name : String) :
    (run.compile name).2.IsFiled :=
  (compileCall_files h name).filed

theorem IsFiled.compileAll {run : Run Memory} (h : run.IsFiled) (names : List String) :
    (run.compileAll names).2.IsFiled := by
  induction names generalizing run with
  | nil => exact h
  | cons name rest ih =>
    rw [compileAll_cons]
    exact ih (h.compile name)

theorem job_compileAll (run : Run Memory) (names : List String) :
    (run.compileAll names).2.job = run.job := by
  induction names generalizing run with
  | nil => rfl
  | cons name rest ih =>
    rw [compileAll_cons]
    exact ih (run.compile name).2

theorem job_after (run : Run Memory) (steps : List Step) : (run.after steps).job = run.job := by
  induction steps generalizing run with
  | nil => rfl
  | cons step rest ih =>
    cases step with
    | compile name => exact ih (run.compile name).2
    | all => exact (ih run.all.2).trans (job_compileAll run _)

theorem IsFiled.after {run : Run Memory} (h : run.IsFiled) (steps : List Step) :
    (run.after steps).IsFiled := by
  induction steps generalizing run with
  | nil => exact h
  | cons step rest ih =>
    cases step with
    | compile name => exact ih (h.compile name)
    | all => exact ih (h.compileAll _)

end Run
end ServiceBindings.Generate
