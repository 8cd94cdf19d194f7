import ServiceBindings.Proofs.Generate.Emission
import ServiceBindings.Proofs.Generate.Settled

/-! Failures leave the ledger intact. Whatever a request comes to, the shapes that are being
compiled are the same afterwards, what was compiled and named stays, and each structure is there
together with all that is inside it. -/
namespace ServiceBindings

/-- One target is another one or stands inside it. -/
inductive Plan.Target.Part (part : Target) : Target → Prop where
  | self : Part part part
  | item {shape : String} {item : Target} {itemName : Option String} {flattened : Bool} :
    Part part item → Part part (.list shape item itemName flattened)
  | key {shape : String} {key value : Target} {keyName valueName : Option String}
      {flattened : Bool} :
    Part part key → Part part (.map shape key value keyName valueName flattened)
  | value {shape : String} {key value : Target} {keyName valueName : Option String}
      {flattened : Bool} :
    Part part value → Part part (.map shape key value keyName valueName flattened)
  | member {heading : Heading} {members : List (Binding × Target)} {binding : Binding}
      {target : Target} :
    (binding, target) ∈ members → Part part target → Part part (.structure heading members)

namespace Generate
open Naming (Names)
open Plan (Binding Call Enumeration Layout Target)

namespace Ledger

/-- An enumeration or a structure was compiled as this target. -/
def Has (ledger : Ledger) : Target → Prop
  | .enumeration e => Fields.get? ledger.enumerations e.shape = some e
  | .structure heading members =>
    Fields.get? ledger.structures heading.shape = some ⟨heading, members⟩
  | .scalar _ _ _ | .list _ _ _ _ | .map _ _ _ _ _ _ => True

/-- All enumerations and structures inside a target were compiled as they are there. -/
def HasParts (ledger : Ledger) (target : Target) : Prop :=
  ∀ part, part.Part target → ledger.Has part

/-- Everything is entered under the name of its shape, and structures with all that is inside them.
-/
structure Closed (ledger : Ledger) : Prop where
  enumerations : ∀ name e, Fields.get? ledger.enumerations name = some e → e.shape = name
  structures : ∀ name layout, Fields.get? ledger.structures name = some layout →
    layout.heading.shape = name ∧ ledger.HasParts layout.toTarget

theorem closed_ofModel (model : ServiceModel) : (ofModel model).Closed where
  enumerations := by
    intro name e h
    cases h
  structures := by
    intro name layout h
    cases h

section
variable {before after ledger : Ledger} {target : Target}

theorem Has.mono (h : ledger.Has target) (hextends : ledger.Extends after) : after.Has target := by
  cases target with
  | scalar | list | map => trivial
  | enumeration e => exact hextends.enumerations _ _ h
  | «structure» heading members => exact hextends.structures _ _ h

theorem HasParts.mono (h : ledger.HasParts target) (hextends : ledger.Extends after) :
    after.HasParts target :=
  fun part hpart => (h part hpart).mono hextends

/-- The names, the operations and the shapes that are being compiled do not matter. -/
theorem Closed.of_tables (h : ledger.Closed)
    (henumerations : after.enumerations = ledger.enumerations)
    (hstructures : after.structures = ledger.structures) : after.Closed := by
  have hhas : ∀ {target : Target}, ledger.Has target → after.Has target := by
    intro target htarget
    cases target with
    | scalar | list | map => trivial
    | enumeration e => rwa [Has, henumerations]
    | «structure» heading members => rwa [Has, hstructures]
  refine ⟨fun name e he => h.enumerations name e (henumerations ▸ he), ?_⟩
  intro name layout hlayout
  obtain ⟨hname, hparts⟩ := h.structures name layout (hstructures ▸ hlayout)
  exact ⟨hname, fun part hpart => hhas (hparts part hpart)⟩

theorem hasParts_scalar (kind : Scalar) (format : Option Time.Format) (streaming : Bool) :
    ledger.HasParts (.scalar kind format streaming) := by
  intro part hpart
  cases hpart
  trivial

theorem hasParts_enumeration {e : Enumeration} (h : ledger.Has (.enumeration e)) :
    ledger.HasParts (.enumeration e) := by
  intro part hpart
  cases hpart
  exact h

theorem hasParts_list {item : Target} (h : ledger.HasParts item) (shape : String)
    (itemName : Option String) (flattened : Bool) :
    ledger.HasParts (.list shape item itemName flattened) := by
  intro part hpart
  cases hpart with
  | self => trivial
  | item hpart => exact h part hpart

theorem hasParts_map {key value : Target} (hkey : ledger.HasParts key)
    (hvalue : ledger.HasParts value) (shape : String) (keyName valueName : Option String)
    (flattened : Bool) : ledger.HasParts (.map shape key value keyName valueName flattened) := by
  intro part hpart
  cases hpart with
  | self => trivial
  | key hpart => exact hkey part hpart
  | value hpart => exact hvalue part hpart

theorem hasParts_structure {layout : Layout} (h : ledger.Has layout.toTarget)
    (hmembers : ∀ member ∈ layout.members, ledger.HasParts member.2) :
    ledger.HasParts layout.toTarget := by
  intro part hpart
  cases hpart with
  | self => exact h
  | member hmem hpart => exact hmembers _ hmem part hpart

end

end Ledger

variable {σ α β : Type}

/-- Work keeps the ledger intact: it grows, everything is there with what is inside it, and nothing
is entered for the shapes that are being compiled. Results are good in the ledger that is left. -/
structure KeepsWith (grows : Ledger → Ledger → Prop) (good : α → Ledger → Prop)
    (before : Ledger × σ) (result : Except CompileError α) (after : Ledger × σ) : Prop where
  grows : grows before.1 after.1
  closed : after.1.Closed
  stack : ∀ name ∈ before.1.visiting,
    Fields.get? after.1.structures name = Fields.get? before.1.structures name
  good : ∀ a, result = .ok a → good a after.1

/-- Work on shapes keeps the ledger intact. -/
abbrev Keeps (good : α → Ledger → Prop) (before : Ledger × σ) (result : Except CompileError α)
    (after : Ledger × σ) : Prop :=
  KeepsWith Ledger.Grows good before result after

section
variable {grows : Ledger → Ledger → Prop} [Growth grows] {good : α → Ledger → Prop}
  {good' : β → Ledger → Prop} {state : Ledger × σ}

theorem keeps_error (hclosed : state.1.Closed) (error : CompileError) :
    KeepsWith grows good state (.error error) state :=
  ⟨Growth.of_grows (.refl _), hclosed, fun _ _ => rfl, by simp⟩

theorem keeps_pure (hclosed : state.1.Closed) {a : α} (hgood : good a state.1) :
    (pure a : Work σ α).Ends state (KeepsWith grows good state) := by
  refine ⟨Growth.of_grows (.refl _), hclosed, fun _ _ => rfl, fun b hb => ?_⟩
  obtain rfl := Except.ok.inj hb
  exact hgood

theorem keeps_ofModel_bind {answer : Except ModelError α} {next : α → Work σ β}
    (hclosed : state.1.Closed)
    (hnext : ∀ a, answer = .ok a → (next a).Ends state (KeepsWith grows good' state)) :
    (Work.ofModel answer >>= next).Ends state (KeepsWith grows good' state) := by
  rw [Work.ends_bind, Work.ends_ofModel]
  cases answer with
  | ok a => exact hnext a rfl
  | error fault => exact keeps_error hclosed (.model fault)

theorem KeepsWith.trans {result : Except CompileError α} {result' : Except CompileError β}
    {middle after : Ledger × σ} (h : Keeps good state result middle)
    (h' : KeepsWith grows good' middle result' after) :
    KeepsWith grows good' state result' after where
  grows := Growth.trans h.grows h'.grows
  closed := h'.closed
  stack := by
    intro name hmem
    have hmiddle : name ∈ middle.1.visiting := h.grows.visiting ▸ hmem
    exact (h'.stack name hmiddle).trans (h.stack name hmem)
  good := h'.good

theorem keeps_bind {work : Work σ α} {next : α → Work σ β}
    (hwork : work.Ends state (Keeps good state))
    (hnext : ∀ a after, Keeps good state (.ok a) after → good a after.1 →
      (next a).Ends after (KeepsWith grows good' after)) :
    (work >>= next).Ends state (KeepsWith grows good' state) := by
  rw [Work.ends_bind]
  refine hwork.mono fun result after h => ?_
  match result with
  | .ok a => exact (hnext a after h (h.good a rfl)).mono fun _ _ h' => h.trans h'
  | .error error =>
    exact ⟨Growth.of_grows h.grows, h.closed, h.stack, by simp⟩

end

section
variable {state : Ledger × σ} {grows : Ledger → Ledger → Prop} [Growth grows]
  {good : α → Ledger → Prop}

/-- What was compiled before is recalled. -/
theorem keeps_found (hclosed : state.1.Closed) {a : α}
    (hgood : good a { state.1 with hits := state.1.hits + 1 }) :
    KeepsWith grows good state (.ok a)
      ({ state.1 with hits := state.1.hits + 1 }, state.2) := by
  refine ⟨Growth.of_grows (.hit _), hclosed.of_tables rfl rfl, fun _ _ => rfl, fun b hb => ?_⟩
  obtain rfl := Except.ok.inj hb
  exact hgood

/-- Work goes on with more names, and everything else as before. -/
theorem keeps_of_names {work : Work σ α} {names : Names} (hclosed : state.1.Closed)
    (hnames : state.1.names.Grows names)
    (h : ∀ named : Ledger × σ, named.1 = { state.1 with names := named.1.names } →
      named.1.Closed → work.Ends named (KeepsWith grows good named)) :
    work.Ends ({ state.1 with names }, state.2) (KeepsWith grows good state) :=
  (h ({ state.1 with names }, state.2) rfl (hclosed.of_tables rfl rfl)).mono fun _ _ h =>
    ⟨Growth.trans (grows_names hnames) h.grows, h.closed, h.stack, h.good⟩

/-- Handing over an item and entering it keeps the ledger intact, whether the item is taken or not.
-/
theorem keeps_enter [Sink σ] {artifact : Artifact} {change : Ledger → Ledger} {a : α}
    (hclosed : state.1.Closed) (hgrows : grows state.1 (change state.1))
    (hchange : (change state.1).Closed)
    (hstack : ∀ name ∈ state.1.visiting,
      Fields.get? (change state.1).structures name = Fields.get? state.1.structures name)
    (hgood : good a (change state.1)) :
    (do
      Work.emit artifact
      Work.update change
      return a : Work σ α).Ends state (KeepsWith grows good state) := by
  rw [Work.ends_bind, Work.ends_emit]
  rcases Sink.write artifact state.2 with ⟨fault | outcome, after⟩
  · exact ⟨Growth.of_grows (.refl _), hclosed, fun _ _ => rfl, by simp⟩
  · refine ⟨hgrows, hchange, hstack, fun b hb => ?_⟩
    obtain rfl := Except.ok.inj hb
    exact hgood

/-- Work inside a shape keeps the ledger intact if the work does with the shape on top of the stack.
Nothing is entered for the shape meanwhile. -/
theorem keeps_inside {name : String} {work : Work σ α}
    (hgood : ∀ a ledger visiting, good a ledger → good a { ledger with visiting })
    (hclosed : state.1.Closed)
    (hwork : ∀ pushed : Ledger × σ, pushed.1.Closed → work.Ends pushed (Keeps good pushed)) :
    (Work.inside name work).Ends state fun result after =>
      Keeps good state result after ∧
        Fields.get? after.1.structures name = Fields.get? state.1.structures name ∧
        ((∃ a, result = .ok a) → name ∉ state.1.visiting) := by
  rw [Work.ends_inside]
  split_ifs with hmem
  · exact ⟨keeps_error hclosed _, rfl, by simp⟩
  · have hpushed : Ledger.Closed { state.1 with visiting := name :: state.1.visiting } :=
      hclosed.of_tables rfl rfl
    refine (hwork _ hpushed).mono fun result after h => ?_
    have hgrows := h.grows
    refine ⟨⟨⟨⟨hgrows.names, hgrows.enumerations, hgrows.structures, hgrows.calls, ?_⟩,
      hgrows.sameCalls⟩, h.closed.of_tables rfl rfl, ?_, ?_⟩, ?_, fun _ => hmem⟩
    · show after.1.visiting.erase name = _
      rw [hgrows.visiting, List.erase_cons_head]
    · exact fun other hother => h.stack other (List.mem_cons_of_mem _ hother)
    · exact fun a ha => hgood a _ _ (h.good a ha)
    · exact h.stack name List.mem_cons_self

end

section
variable {job : Job} {state : Ledger × σ}

/-- A step for the shapes of members keeps the ledger intact. -/
def StepKeeps (step : Shape → Option Time.Format → Bool → Work σ Target) : Prop :=
  ∀ shape format flattened (state : Ledger × σ), state.1.Closed →
    (step shape format flattened).Ends state
      (Keeps (fun target ledger => ledger.HasParts target) state)

theorem compileMembers_keeps {step : Shape → Option Time.Format → Bool → Work σ Target}
    (hstep : StepKeeps step) (members : List Member) (hclosed : state.1.Closed) :
    (compileMembers job step members).Ends state
      (Keeps (fun members ledger => ∀ member ∈ members, ledger.HasParts member.2) state) := by
  induction members generalizing state with
  | nil => exact keeps_pure hclosed (by simp)
  | cons member rest ih =>
    rw [compileMembers]
    refine keeps_ofModel_bind hclosed fun shape _ => ?_
    refine keeps_bind (hstep shape _ _ state hclosed) fun target after hkeeps htarget => ?_
    refine keeps_bind (ih hkeeps.closed) fun others later hothers hgood => ?_
    refine keeps_pure hothers.closed (List.forall_mem_cons.2 ⟨?_, hgood⟩)
    exact htarget.mono hothers.grows.toExtends

theorem compileLayout_keeps {step : Shape → Option Time.Format → Bool → Work σ Target}
    (hstep : StepKeeps step) (shape : Shape) (described : Structure) (hclosed : state.1.Closed) :
    (compileLayout job step shape described).Ends state
      (Keeps (fun layout ledger => layout.heading.shape = shape.name ∧
        ∀ member ∈ layout.members, ledger.HasParts member.2) state) := by
  unfold compileLayout
  rw [Work.ends_bind, Work.ends_nameShape]
  refine keeps_of_names hclosed (state.1.names.grows_shape shape) fun named _ hclosed => ?_
  refine keeps_bind (compileMembers_keeps hstep described.members hclosed)
    fun members after hkeeps hgood => ?_
  exact keeps_pure hkeeps.closed ⟨rfl, hgood⟩

end

section
variable [Sink σ] {job : Job} {state : Ledger × σ}

theorem Ledger.grows_setEnumeration {ledger : Ledger} {name : String} (e : Enumeration)
    (hnew : Fields.get? ledger.enumerations name = none) :
    ledger.Grows { ledger with enumerations := Fields.set name e ledger.enumerations } :=
  ⟨⟨.refl _, fun _ _ h => get?_set_of_none _ hnew h, fun _ _ h => h, fun _ _ h => h, rfl⟩, rfl⟩

theorem Ledger.Closed.setEnumeration {ledger : Ledger} (h : ledger.Closed) {name : String}
    {e : Enumeration} (hname : e.shape = name)
    (hnew : Fields.get? ledger.enumerations name = none) :
    Ledger.Closed { ledger with enumerations := Fields.set name e ledger.enumerations } := by
  refine ⟨fun other found hfound => ?_, fun other layout hlayout => ?_⟩
  · rcases get?_set_cases hfound with ⟨rfl, rfl⟩ | hfound
    · exact hname
    · exact h.enumerations other found hfound
  · obtain ⟨hother, hparts⟩ := h.structures other layout hlayout
    exact ⟨hother, hparts.mono (grows_setEnumeration e hnew).toExtends⟩

theorem compileEnumeration_keeps (job : Job) (shape : Shape) (hclosed : state.1.Closed) :
    (compileEnumeration job shape).Ends state
      (Keeps (fun e ledger => ledger.Has (.enumeration e)) state) := by
  unfold compileEnumeration
  cases shape.kind with
  | scalar | list | map | «structure» => exact keeps_error hclosed _
  | enumeration values =>
    dsimp only
    rw [Work.ends_bind, Work.ends_lookUp]
    cases hfound : Fields.get? state.1.enumerations shape.name with
    | some found =>
      have hhas : state.1.Has (.enumeration found) := by
        rw [Ledger.Has, hclosed.enumerations _ _ hfound, hfound]
      exact keeps_found hclosed hhas
    | none =>
      refine keeps_ofModel_bind hclosed fun constants _ => ?_
      rw [Work.ends_bind, Work.ends_nameShape]
      refine keeps_of_names hclosed (state.1.names.grows_shape shape) fun named hnamed hclosed => ?_
      have hnew : Fields.get? named.1.enumerations shape.name = none := by
        rw [hnamed]
        exact hfound
      have henter := hclosed.setEnumeration
        (e := ⟨(state.1.names.shape shape).1, shape.name, constants⟩) rfl hnew
      refine keeps_enter hclosed (Ledger.grows_setEnumeration _ hnew) henter (fun _ _ => rfl) ?_
      show Fields.get? (Fields.set shape.name _ _) shape.name = _
      rw [Fields.get?_set, if_pos rfl]

theorem Ledger.grows_setStructure {ledger : Ledger} {name : String} (layout : Layout)
    (hnew : Fields.get? ledger.structures name = none) :
    ledger.Grows { ledger with structures := Fields.set name layout ledger.structures } :=
  ⟨⟨.refl _, fun _ _ h => h, fun _ _ h => get?_set_of_none _ hnew h, fun _ _ h => h, rfl⟩, rfl⟩

theorem Ledger.hasParts_setStructure {ledger : Ledger} {name : String} {layout : Layout}
    (hname : layout.heading.shape = name) (hnew : Fields.get? ledger.structures name = none)
    (hmembers : ∀ member ∈ layout.members, ledger.HasParts member.2) :
    Ledger.HasParts { ledger with structures := Fields.set name layout ledger.structures }
      layout.toTarget := by
  have hgrows := grows_setStructure layout hnew
  refine hasParts_structure ?_ fun member hmem => (hmembers member hmem).mono hgrows.toExtends
  show Fields.get? (Fields.set name layout ledger.structures) layout.heading.shape = some layout
  rw [Fields.get?_set, if_pos hname]

theorem Ledger.Closed.setStructure {ledger : Ledger} (h : ledger.Closed) {name : String}
    {layout : Layout} (hname : layout.heading.shape = name)
    (hnew : Fields.get? ledger.structures name = none)
    (hmembers : ∀ member ∈ layout.members, ledger.HasParts member.2) :
    Ledger.Closed { ledger with structures := Fields.set name layout ledger.structures } := by
  refine ⟨h.enumerations, fun other found hfound => ?_⟩
  rcases get?_set_cases hfound with ⟨rfl, rfl⟩ | hfound
  · exact ⟨hname, hasParts_setStructure hname hnew hmembers⟩
  · obtain ⟨hother, hparts⟩ := h.structures other found hfound
    exact ⟨hother, hparts.mono (grows_setStructure layout hnew).toExtends⟩

theorem compileStructureWith_keeps (hm : job.model.WellFormed)
    {step : Shape → Option Time.Format → Bool → Work σ Target}
    (hstep : StepKeeps step) (name : String) (hclosed : state.1.Closed) :
    (compileStructureWith job step name).Ends state
      (Keeps (fun layout ledger => ledger.HasParts layout.toTarget) state) := by
  rw [compileStructureWith, Work.ends_bind, Work.ends_lookUp]
  cases hfound : Fields.get? state.1.structures name with
  | some found => exact keeps_found hclosed (hclosed.structures _ _ hfound).2
  | none =>
    refine keeps_ofModel_bind hclosed fun shape hshape => ?_
    refine keeps_ofModel_bind hclosed fun described _ => ?_
    have hname := hm.name_of_get? (shape_eq_ok.1 hshape)
    have hinside : (Work.inside name (compileLayout job step shape described)).Ends state
        fun result after => Keeps (fun layout ledger => layout.heading.shape = shape.name ∧
          ∀ member ∈ layout.members, ledger.HasParts member.2) state result after ∧ _ :=
      keeps_inside (fun _ _ _ h => h) hclosed fun pushed hpushed =>
        compileLayout_keeps hstep shape described hpushed
    rw [Work.ends_bind]
    refine hinside.mono fun result after h => ?_
    obtain ⟨hkeeps, hsame, hout⟩ := h
    cases result with
    | error fault => exact ⟨hkeeps.grows, hkeeps.closed, hkeeps.stack, by simp⟩
    | ok layout =>
      obtain ⟨hshapeName, hmembers⟩ := hkeeps.good layout rfl
      have hkey : layout.heading.shape = name := hshapeName.trans hname
      have hnew : Fields.get? after.1.structures layout.heading.shape = none := by
        rw [hkey, hsame, hfound]
      -- The structure was on the stack, so none of its name was entered from there.
      have hstack : ∀ other ∈ after.1.visiting, other ≠ layout.heading.shape := by
        rintro other hother rfl
        rw [hkeeps.grows.visiting, hkey] at hother
        exact hout ⟨layout, rfl⟩ hother
      refine (keeps_enter hkeeps.closed (Ledger.grows_setStructure layout hnew)
        (hkeeps.closed.setStructure rfl hnew hmembers) (fun other hother => ?_)
        (Ledger.hasParts_setStructure rfl hnew hmembers)).mono fun _ _ h => hkeeps.trans h
      show Fields.get? (Fields.set layout.heading.shape layout _) other = _
      rw [Fields.get?_set, if_neg (hstack other hother)]

/-- A level keeps the ledger intact if what comes below it does. -/
theorem compileLevel_keeps (hm : job.model.WellFormed)
    {deeper : Shape → Option Time.Format → Bool → Work σ Target} (hdeeper : StepKeeps deeper) :
    StepKeeps (compileLevel job deeper) := by
  intro shape format flattened state hclosed
  unfold compileLevel
  cases shape.kind with
  | scalar kind => exact keeps_pure hclosed (Ledger.hasParts_scalar kind _ _)
  | enumeration values =>
    refine keeps_bind (compileEnumeration_keeps job shape hclosed) fun e after hkeeps hhas => ?_
    exact keeps_pure hkeeps.closed (Ledger.hasParts_enumeration hhas)
  | «structure» s =>
    refine keeps_bind (compileStructureWith_keeps hm hdeeper shape.name hclosed)
      fun layout after hkeeps hparts => ?_
    exact keeps_pure hkeeps.closed hparts
  | list item listFlattened =>
    have hinside : (Work.inside shape.name do
        deeper (← .ofModel (job.model.shape item.target)) none false).Ends state
          fun result after =>
            Keeps (fun target ledger => ledger.HasParts target) state result after ∧ _ :=
      keeps_inside (fun _ _ _ h => h) hclosed fun pushed hpushed =>
        keeps_ofModel_bind hpushed fun found _ => hdeeper found none false pushed hpushed
    refine keeps_bind (hinside.mono fun _ _ h => h.1) fun target after hkeeps htarget => ?_
    exact keeps_pure hkeeps.closed (Ledger.hasParts_list htarget _ _ _)
  | map key value mapFlattened =>
    have hentries (pushed : Ledger × σ) (hpushed : pushed.1.Closed) : (do
        let keyTarget ← deeper (← .ofModel (job.model.shape key.target)) none false
        let valueTarget ← deeper (← .ofModel (job.model.shape value.target)) none false
        return (keyTarget, valueTarget) : Work σ (Target × Target)).Ends pushed
          (Keeps (fun targets ledger => ledger.HasParts targets.1 ∧ ledger.HasParts targets.2)
            pushed) := by
      refine keeps_ofModel_bind hpushed fun keyShape _ => ?_
      refine keeps_bind (hdeeper keyShape none false pushed hpushed)
        fun keyTarget after hkeeps hkey => ?_
      refine keeps_ofModel_bind hkeeps.closed fun valueShape _ => ?_
      refine keeps_bind (hdeeper valueShape none false after hkeeps.closed)
        fun valueTarget later hlater hvalue => ?_
      exact keeps_pure hlater.closed ⟨hkey.mono hlater.grows.toExtends, hvalue⟩
    refine keeps_bind ((keeps_inside (fun _ _ _ h => h) hclosed hentries).mono fun _ _ h => h.1)
      fun targets after hkeeps htargets => ?_
    exact keeps_pure hkeeps.closed (Ledger.hasParts_map htargets.1 htargets.2 _ _ _ _)

/-- Compiling a shape keeps the ledger intact, however far it comes. -/
theorem compileTarget_keeps (hm : job.model.WellFormed) (fuel : Nat) :
    StepKeeps (compileTarget (σ := σ) job fuel) :=
  forall_compileTarget
    (p := fun work => ∀ state : Ledger × σ, state.1.Closed →
      work.Ends state (Keeps (fun target ledger => ledger.HasParts target) state))
    (fun _ _ hclosed => keeps_error hclosed _) (fun _ => compileLevel_keeps hm) fuel

theorem compileStructure_keeps (hm : job.model.WellFormed) (name : String)
    (hclosed : state.1.Closed) :
    (compileStructure job name).Ends state
      (Keeps (fun layout ledger => ledger.HasParts layout.toTarget) state) :=
  compileStructureWith_keeps hm (compileTarget_keeps hm _) name hclosed

theorem compileOptional_keeps (hm : job.model.WellFormed) (name : Option String)
    (hclosed : state.1.Closed) :
    (name.mapM (compileStructure job) : Work σ (Option Layout)).Ends state
      (Keeps (fun _ _ => True) state) := by
  cases name with
  | none => exact keeps_pure hclosed trivial
  | some name =>
    rw [Option.mapM_some, map_eq_pure_bind]
    exact keeps_bind (compileStructure_keeps hm name hclosed)
      fun layout after hkeeps _ => keeps_pure hkeeps.closed trivial

/-- Compiling an operation keeps the ledger intact, however far it comes. -/
theorem compileCall_keeps (hm : job.model.WellFormed) (name : String) (hclosed : state.1.Closed) :
    (compileCall job name).Ends state
      (KeepsWith Ledger.Extends (fun _ _ => True) state) := by
  rw [compileCall, Work.ends_bind, Work.ends_lookUp]
  cases hfound : Fields.get? state.1.calls name with
  | some found => exact keeps_found hclosed trivial
  | none =>
    refine keeps_ofModel_bind hclosed fun operation _ => ?_
    refine keeps_bind (compileStructure_keeps hm operation.input hclosed)
      fun input afterInput hinput _ => ?_
    refine keeps_bind (compileOptional_keeps hm operation.output hinput.closed)
      fun output afterOutput houtput _ => ?_
    refine keeps_ofModel_bind houtput.closed fun template _ => ?_
    refine keeps_ofModel_bind houtput.closed fun _ _ => ?_
    rw [Work.ends_bind, Work.ends_nameOperation]
    refine keeps_of_names houtput.closed (afterOutput.1.names.grows_operation name)
      fun named hnamed hclosed => ?_
    have hnew : Fields.get? named.1.calls name = none := by
      rw [hnamed]
      show Fields.get? afterOutput.1.calls name = none
      rw [houtput.grows.sameCalls, hinput.grows.sameCalls, hfound]
    refine keeps_enter hclosed ?_ (hclosed.of_tables rfl rfl) (fun _ _ => rfl) trivial
    exact ⟨.refl _, fun _ _ h => h, fun _ _ h => h, fun _ _ h => get?_set_of_none _ hnew h, rfl⟩

end

/-- What can be asked of a ledger. -/
inductive Ledger.Request where
  | structure (name : String)
  | enumeration (shape : Shape)
  | operation (name : String)
  | nameShape (shape : Shape)
  | nameOperation (name : String)

def Ledger.Request.work {σ : Type} [Sink σ] (job : Job) : Ledger.Request → Work σ Unit
  | .structure name => discard (compileStructure job name)
  | .enumeration shape => discard (compileEnumeration job shape)
  | .operation name => discard (compileCall job name)
  | .nameShape shape => discard (Work.nameShape shape)
  | .nameOperation name => discard (Work.nameOperation name)

/-- The ledgers that come of requests. Each may be made for other settings and another model, and
may hand its items over to another place. -/
inductive Ledger.Reachable : Ledger → Prop where
  | fresh {model : ServiceModel} : model.Loaded → Reachable (.ofModel model)
  | request {ledger : Ledger} {job : Job} {σ : Type} [Sink σ] (request : Request)
      (sink : σ) :
    Reachable ledger → job.model.Loaded →
    Reachable ((request.work job).run.run (ledger, sink)).run.2.1

theorem KeepsWith.discard {σ α : Type} {grows : Ledger → Ledger → Prop} {good : α → Ledger → Prop}
    {state after : Ledger × σ} {result : Except CompileError α}
    (h : KeepsWith grows good state result after) (hgrows : state.1.Extends after.1) :
    KeepsWith Ledger.Extends (fun (_ : Unit) _ => True) state (result.map fun _ => ()) after :=
  ⟨hgrows, h.closed, h.stack, fun _ _ => trivial⟩

/-- Every request keeps the ledger intact. -/
theorem Ledger.Request.work_keeps {σ : Type} [Sink σ] {job : Job} (hm : job.model.WellFormed)
    (request : Ledger.Request) {state : Ledger × σ} (hclosed : state.1.Closed) :
    (request.work job).Ends state (KeepsWith Ledger.Extends (fun _ _ => True) state) := by
  cases request with
  | «structure» name =>
    refine Work.ends_discard.2 ((compileStructure_keeps hm name hclosed).mono fun _ _ h => ?_)
    exact h.discard h.grows.toExtends
  | enumeration shape =>
    refine Work.ends_discard.2 ((compileEnumeration_keeps job shape hclosed).mono fun _ _ h => ?_)
    exact h.discard h.grows.toExtends
  | operation name =>
    refine Work.ends_discard.2 ((compileCall_keeps hm name hclosed).mono fun _ _ h => ?_)
    exact h.discard h.grows
  | nameShape shape =>
    rw [work, Work.ends_discard, Work.ends_nameShape]
    exact ⟨(grows_names (state.1.names.grows_shape shape)).toExtends, hclosed.of_tables rfl rfl,
      fun _ _ => rfl, fun _ _ => trivial⟩
  | nameOperation name =>
    rw [work, Work.ends_discard, Work.ends_nameOperation]
    exact ⟨(grows_names (state.1.names.grows_operation name)).toExtends, hclosed.of_tables rfl rfl,
      fun _ _ => rfl, fun _ _ => trivial⟩

theorem Ledger.Reachable.closed {ledger : Ledger} (h : ledger.Reachable) : ledger.Closed := by
  induction h with
  | fresh => exact closed_ofModel _
  | request request sink _ hloaded ih =>
    have hends : (request.work _).Ends (_, sink) (KeepsWith Ledger.Extends (fun _ _ => True) _) :=
      request.work_keeps hloaded.wellFormed ih
    exact hends.closed

/-- A request is made of a ledger that came of requests, while any shapes are being compiled and
with any place for items. Whether it fails or not, the same shapes are being compiled afterwards,
what was compiled and named before is unchanged, and all enumerations and structures inside a
structure that was compiled are there as they are in it. -/
theorem intact_after_any_request {ledger : Ledger} (hreachable : ledger.Reachable) {job : Job}
    (hloaded : job.model.Loaded) {σ : Type} [Sink σ] (request : Ledger.Request)
    (visiting : List String) (sink : σ) :
    (request.work job).Ends ({ ledger with visiting }, sink) fun _ after =>
      after.1.visiting = visiting ∧ Ledger.Extends { ledger with visiting } after.1 ∧
      ∀ name layout, Fields.get? after.1.structures name = some layout →
        ∀ part : Target, part.Part layout.toTarget → after.1.Has part := by
  have hclosed : Ledger.Closed { ledger with visiting } := hreachable.closed.of_tables rfl rfl
  refine (request.work_keeps hloaded.wellFormed hclosed).mono fun _ after h => ?_
  refine ⟨h.grows.visiting, h.grows, fun name layout hlayout => ?_⟩
  exact (h.closed.structures name layout hlayout).2

/-- An operation fails at a shape that is missing, after another one was compiled. -/
theorem intact_of_album :
    let job : Job := ⟨albumModel, {}⟩
    let ledger := (((Ledger.Request.operation "Put").work job).run.run
      (.ofModel albumModel, ({} : Memory))).run.2.1
    ledger.calls.names = ["Put"] ∧
      ((Ledger.Request.operation "Get").work job).Ends
        ({ ledger with visiting := [] }, ({} : Memory))
        fun result after => result = .error (.model (.unknownShape "Lost")) ∧
          after.1.visiting = [] ∧ Ledger.Extends { ledger with visiting := [] } after.1 ∧
          ∀ name layout, Fields.get? after.1.structures name = some layout →
            ∀ part : Target, part.Part layout.toTarget → after.1.Has part := by
  intro job ledger
  have hloaded : job.model.Loaded := .load load_albumText
  have hreachable : ledger.Reachable := .request _ _ (.fresh hloaded) hloaded
  exact ⟨by decide +kernel, by decide +kernel,
    intact_after_any_request hreachable hloaded (.operation "Get") [] ({} : Memory)⟩

end Generate
end ServiceBindings
