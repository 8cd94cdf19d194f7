import ServiceBindings.Generate.Memory
import ServiceBindings.Proofs.Generate.Plain
import ServiceBindings.Proofs.Generate.Work
import ServiceBindings.Proofs.Naming.Names
import ServiceBindings.Proofs.Plan.Alike

/-! The states that runs come to: what they hold was compiled as if nothing had been before it. -/
namespace ServiceBindings.Generate
open Naming (Identifier Names)
open Plan (Binding Call Enumeration Layout Target)

def Ledger.HasItem (ledger : Ledger) (ident : Identifier) : Prop :=
  (∃ name e, Fields.get? ledger.enumerations name = some e ∧ e.ident = ident) ∨
  (∃ name layout, Fields.get? ledger.structures name = some layout ∧
    layout.heading.ident = ident) ∨
  ∃ name call, Fields.get? ledger.calls name = some call ∧ call.ident = ident

/-- What is promised of a place for items: what it holds once items of some identifiers were
compiled, and whether it may refuse an item of another identifier. -/
structure Promise (σ : Type) [Sink σ] where
  holds : (Identifier → Prop) → σ → Prop
  mayRefuse : Prop
  mono : ∀ {idents more sink}, (∀ ident, idents ident → more ident) → holds idents sink →
    holds more sink
  write_ok : ∀ {idents sink artifact outcome after}, holds idents sink →
    ¬idents artifact.ident → Sink.write artifact sink = (.ok outcome, after) →
    holds (fun ident => ident = artifact.ident ∨ idents ident) after
  write_error : ∀ {idents sink artifact fault after}, holds idents sink →
    ¬idents artifact.ident → Sink.write artifact sink = (.error fault, after) →
    holds idents after ∧ mayRefuse

def Promise.none (σ : Type) [Sink σ] : Promise σ where
  holds _ _ := True
  mayRefuse := True
  mono _ _ := trivial
  write_ok _ _ _ := trivial
  write_error _ _ _ := ⟨trivial, trivial⟩

theorem Memory.write_of_new {memory : Memory} {artifact : Artifact}
    (h : ∀ present ∈ memory.artifacts, present.ident ≠ artifact.ident) :
    Memory.write artifact memory = (.ok .written,
      { artifacts := memory.artifacts ++ [artifact]
        attempted := artifact.ident :: memory.attempted }) := by
  have hfind : memory.artifacts.find? (fun present => present.ident = artifact.ident) = none :=
    List.find?_eq_none.2 fun present hmem => by simpa using h present hmem
  simp [Memory.write, Memory.get?, hfind]

/-- Items in memory are those that were compiled, so none of another identifier is refused. -/
def Memory.promise : Promise Memory where
  holds idents memory := ∀ artifact ∈ memory.artifacts, idents artifact.ident
  mayRefuse := False
  mono himp h artifact hmem := himp _ (h artifact hmem)
  write_ok {idents memory artifact outcome after} h hnew hwrite := by
    have hne : ∀ present ∈ memory.artifacts, present.ident ≠ artifact.ident :=
      fun present hmem heq => hnew (heq ▸ h present hmem)
    obtain ⟨-, rfl⟩ := Prod.mk.inj ((Memory.write_of_new hne).symm.trans hwrite)
    intro present hmem
    rcases List.mem_append.1 hmem with hmem | hmem
    · exact .inr (h present hmem)
    · exact .inl (congrArg Artifact.ident (List.mem_singleton.1 hmem))
  write_error {idents memory artifact fault after} h hnew hwrite := by
    have hne : ∀ present ∈ memory.artifacts, present.ident ≠ artifact.ident :=
      fun present hmem heq => hnew (heq ▸ h present hmem)
    cases (Memory.write_of_new hne).symm.trans hwrite

/-- Names, plans and items of a state are those of a fresh run, up to the numbers of names. -/
structure Sound {σ : Type} [Sink σ] (job : Job) (promise : Promise σ) (state : Ledger × σ) :
    Prop where
  roles : state.1.names.roles = (Names.ofModel job.model).roles
  names : state.1.names.Sound
  shapeNames : ∀ shape ident, Fields.get? job.model.shapes shape.name = some shape →
    Fields.get? state.1.names.shapes shape.name = some ident → (job.plainIdent shape).Numbers ident
  operationNames : ∀ name ident, Fields.get? state.1.names.operations name = some ident →
    ident.IsNumbered .client (Naming.memberName name)
  enumerations : ∀ name e, Fields.get? state.1.enumerations name = some e →
    ∃ shape values plain, Fields.get? job.model.shapes name = some shape ∧
      shape.kind = .enumeration values ∧ plainEnumeration job shape values = .ok plain ∧
      plain.Related Identifier.Numbers e ∧ Fields.get? state.1.names.shapes name = some e.ident
  structures : ∀ name layout, Fields.get? state.1.structures name = some layout →
    ∃ fuel visiting plain, plainStructureWith job (plainTarget job fuel) visiting name = .ok plain ∧
      plain.Related Identifier.Numbers layout ∧
      Fields.get? state.1.names.shapes name = some layout.heading.ident ∧
      name ∉ state.1.visiting
  calls : ∀ name call, Fields.get? state.1.calls name = some call →
    ∃ plain, plainCall job name = .ok plain ∧ plain.Related Identifier.Numbers call ∧
      Fields.get? state.1.names.operations name = some call.ident
  sink : promise.holds state.1.HasItem state.2

/-- What was compiled and named stays as it is. -/
structure Ledger.Extends (before after : Ledger) : Prop where
  names : before.names.Grows after.names
  enumerations : ∀ name e, Fields.get? before.enumerations name = some e →
    Fields.get? after.enumerations name = some e
  structures : ∀ name layout, Fields.get? before.structures name = some layout →
    Fields.get? after.structures name = some layout
  calls : ∀ name call, Fields.get? before.calls name = some call →
    Fields.get? after.calls name = some call
  visiting : after.visiting = before.visiting

/-- What was compiled and named stays as it is, and no operation is entered. -/
structure Ledger.Grows (before after : Ledger) : Prop extends before.Extends after where
  sameCalls : after.calls = before.calls

theorem Ledger.Extends.refl (ledger : Ledger) : ledger.Extends ledger :=
  ⟨.refl _, fun _ _ h => h, fun _ _ h => h, fun _ _ h => h, rfl⟩

theorem Ledger.Extends.trans {a b c : Ledger} (hab : a.Extends b) (hbc : b.Extends c) :
    a.Extends c :=
  ⟨hab.names.trans hbc.names,
    fun name e h => hbc.enumerations name e (hab.enumerations name e h),
    fun name layout h => hbc.structures name layout (hab.structures name layout h),
    fun name call h => hbc.calls name call (hab.calls name call h),
    hbc.visiting.trans hab.visiting⟩

theorem Ledger.Grows.refl (ledger : Ledger) : ledger.Grows ledger :=
  ⟨.refl ledger, rfl⟩

theorem Ledger.Grows.trans {a b c : Ledger} (hab : a.Grows b) (hbc : b.Grows c) : a.Grows c :=
  ⟨hab.toExtends.trans hbc.toExtends, hbc.sameCalls.trans hab.sameCalls⟩

theorem Ledger.Grows.hit (ledger : Ledger) :
    ledger.Grows { ledger with hits := ledger.hits + 1 } :=
  ⟨⟨.refl _, fun _ _ h => h, fun _ _ h => h, fun _ _ h => h, rfl⟩, rfl⟩

/-- A way in which ledgers grow: further growth may follow growth in shapes. -/
class Growth (grows : Ledger → Ledger → Prop) : Prop where
  of_grows {a b : Ledger} : a.Grows b → grows a b
  trans {a b c : Ledger} : a.Grows b → grows b c → grows a c

instance : Growth Ledger.Grows := ⟨id, Ledger.Grows.trans⟩

instance : Growth Ledger.Extends :=
  ⟨Ledger.Grows.toExtends, fun hab hbc => hab.toExtends.trans hbc⟩

variable {σ α β : Type} [Sink σ]

/-- A result is that of a fresh run: a related plan or the same fault. -/
def Agrees (promise : Promise σ) (rel : α → α → Prop) (plain : Except ModelError α) :
    Except CompileError α → Prop
  | .ok a => ∃ p, plain = .ok p ∧ rel p a
  | .error (.model fault) => plain = .error fault
  | .error (.emit _) => promise.mayRefuse

/-- Work ends in a sound state that has grown, with the result of a fresh run. -/
structure SettlesWith (grows : Ledger → Ledger → Prop) (job : Job) (promise : Promise σ)
    (rel : α → α → Prop) (plain : Except ModelError α) (before : Ledger × σ)
    (result : Except CompileError α) (after : Ledger × σ) : Prop where
  sound : Sound job promise after
  grows : grows before.1 after.1
  agrees : Agrees promise rel plain result

abbrev Settles (job : Job) (promise : Promise σ) (rel : α → α → Prop)
    (plain : Except ModelError α) (before : Ledger × σ) (result : Except CompileError α)
    (after : Ledger × σ) : Prop :=
  SettlesWith Ledger.Grows job promise rel plain before result after

section
variable {job : Job} {promise : Promise σ} {rel : α → α → Prop} {rel' : β → β → Prop}
  {state : Ledger × σ} {grows : Ledger → Ledger → Prop} [Growth grows]

theorem settles_pure (hsound : Sound job promise state) {p a : α} (hrel : rel p a) :
    (pure a : Work σ α).Ends state (SettlesWith grows job promise rel (.ok p) state) :=
  ⟨hsound, Growth.of_grows (.refl _), p, rfl, hrel⟩

/-- The model is asked without any change. -/
theorem settles_ofModel_bind {answer : Except ModelError α} {next : α → Work σ β}
    {plainNext : α → Except ModelError β} (hsound : Sound job promise state)
    (hnext : ∀ a, answer = .ok a →
      (next a).Ends state (SettlesWith grows job promise rel' (plainNext a) state)) :
    (Work.ofModel answer >>= next).Ends state
      (SettlesWith grows job promise rel' (answer >>= plainNext) state) := by
  rw [Work.ends_bind, Work.ends_ofModel]
  cases answer with
  | ok a => exact hnext a rfl
  | error fault => exact ⟨hsound, Growth.of_grows (.refl _), rfl⟩

/-- Work on shapes, and what goes on with its result. -/
theorem settles_bind {work : Work σ α} {next : α → Work σ β} {plain : Except ModelError α}
    {plainNext : α → Except ModelError β}
    (hwork : work.Ends state (Settles job promise rel plain state))
    (hnext : ∀ p a after, plain = .ok p → rel p a → Sound job promise after →
      state.1.Grows after.1 →
      (next a).Ends after (SettlesWith grows job promise rel' (plainNext p) after)) :
    (work >>= next).Ends state
      (SettlesWith grows job promise rel' (plain >>= plainNext) state) := by
  rw [Work.ends_bind]
  refine hwork.mono fun result after h => ?_
  match result with
  | .ok a =>
    obtain ⟨p, hp, hrel⟩ := h.agrees
    refine (hnext p a after hp hrel h.sound h.grows).mono fun result' after' h' => ?_
    rw [hp, ok_bind]
    exact ⟨h'.sound, Growth.trans h.grows h'.grows, h'.agrees⟩
  | .error (.model fault) =>
    have hp : plain = .error fault := h.agrees
    rw [hp, error_bind]
    exact ⟨h.sound, Growth.of_grows h.grows, rfl⟩
  | .error (.emit fault) => exact ⟨h.sound, Growth.of_grows h.grows, h.agrees⟩

end

section
variable {job : Job} {promise : Promise σ} {state : Ledger × σ}

/-- Counting what was asked for again changes nothing else. -/
theorem Sound.hit (h : Sound job promise state) :
    Sound job promise ({ state.1 with hits := state.1.hits + 1 }, state.2) :=
  ⟨h.roles, h.names, h.shapeNames, h.operationNames, h.enumerations, h.structures, h.calls,
    h.sink⟩

theorem Sound.push (h : Sound job promise state) {name : String}
    (hnew : Fields.get? state.1.structures name = none) :
    Sound job promise ({ state.1 with visiting := name :: state.1.visiting }, state.2) := by
  refine ⟨h.roles, h.names, h.shapeNames, h.operationNames, h.enumerations,
    fun other layout hlayout => ?_, h.calls, h.sink⟩
  obtain ⟨fuel, visiting, plain, hplain, hrel, hident, hmem⟩ := h.structures other layout hlayout
  refine ⟨fuel, visiting, plain, hplain, hrel, hident, fun hin => ?_⟩
  rcases List.mem_cons.1 hin with rfl | hin
  · cases hnew.symm.trans hlayout
  · exact hmem hin

theorem Sound.pop (h : Sound job promise state) (name : String) :
    Sound job promise ({ state.1 with visiting := state.1.visiting.erase name }, state.2) := by
  refine ⟨h.roles, h.names, h.shapeNames, h.operationNames, h.enumerations,
    fun other layout hlayout => ?_, h.calls, h.sink⟩
  obtain ⟨fuel, visiting, plain, hplain, hrel, hident, hmem⟩ := h.structures other layout hlayout
  exact ⟨fuel, visiting, plain, hplain, hrel, hident, fun h => hmem (List.mem_of_mem_erase h)⟩

/-- Names that grow soundly keep a state sound. -/
theorem Sound.setNames (h : Sound job promise state) {names : Names} (hnames : names.Sound)
    (hgrows : state.1.names.Grows names)
    (hshapes : ∀ shape ident, Fields.get? job.model.shapes shape.name = some shape →
      Fields.get? names.shapes shape.name = some ident → (job.plainIdent shape).Numbers ident)
    (hoperations : ∀ name ident, Fields.get? names.operations name = some ident →
      ident.IsNumbered .client (Naming.memberName name)) :
    Sound job promise ({ state.1 with names }, state.2) := by
  refine ⟨hgrows.roles.trans h.roles, hnames, hshapes, hoperations, ?_, ?_, ?_, h.sink⟩
  · intro name e he
    obtain ⟨shape, values, plain, hshape, hkind, hplain, hrel, hident⟩ := h.enumerations name e he
    exact ⟨shape, values, plain, hshape, hkind, hplain, hrel, hgrows.shapes _ _ hident⟩
  · intro name layout hlayout
    obtain ⟨fuel, visiting, plain, hplain, hrel, hident, hmem⟩ := h.structures name layout hlayout
    exact ⟨fuel, visiting, plain, hplain, hrel, hgrows.shapes _ _ hident, hmem⟩
  · intro name call hcall
    obtain ⟨plain, hplain, hrel, hident⟩ := h.calls name call hcall
    exact ⟨plain, hplain, hrel, hgrows.operations _ _ hident⟩

theorem Sound.nameShape (h : Sound job promise state) {shape : Shape}
    (hshape : Fields.get? job.model.shapes shape.name = some shape) :
    Sound job promise ({ state.1 with names := (state.1.names.shape shape).2 }, state.2) := by
  rcases state.1.names.shape_cases shape with ⟨-, hsame⟩ | ⟨-, hident, hnames⟩
  · rw [hsame]
    exact h
  · refine h.setNames (h.names.shape shape) (state.1.names.grows_shape shape) ?_ ?_
    · intro other ident hother hfound
      rw [hnames] at hfound
      dsimp only at hfound
      rw [Fields.get?_append, Option.or_eq_some_iff] at hfound
      rcases hfound with hfound | ⟨-, hfound⟩
      · exact h.shapeNames other ident hother hfound
      · rw [Fields.get?_cons] at hfound
        split_ifs at hfound with hname
        · rw [hname, hshape] at hother
          obtain rfl := Option.some.inj hother
          obtain rfl := Option.some.inj hfound
          have harea : state.1.names.areaOf shape = (Names.ofModel job.model).areaOf shape := by
            rw [Names.areaOf, Names.areaOf, h.roles]
          rw [hident, harea]
          exact Naming.isNumbered_freeName _ _ _
        · cases hfound
    · intro name ident hfound
      rw [hnames] at hfound
      exact h.operationNames name ident hfound

theorem Sound.nameOperation (h : Sound job promise state) (name : String) :
    Sound job promise ({ state.1 with names := (state.1.names.operation name).2 }, state.2) := by
  rcases state.1.names.operation_cases name with ⟨-, hsame⟩ | ⟨-, hident, hnames⟩
  · rw [hsame]
    exact h
  · refine h.setNames (h.names.operation name) (state.1.names.grows_operation name) ?_ ?_
    · intro shape ident hshape hfound
      rw [hnames] at hfound
      exact h.shapeNames shape ident hshape hfound
    · intro other ident hfound
      rw [hnames] at hfound
      dsimp only at hfound
      rw [Fields.get?_append, Option.or_eq_some_iff] at hfound
      rcases hfound with hfound | ⟨-, hfound⟩
      · exact h.operationNames other ident hfound
      · rw [Fields.get?_cons] at hfound
        split_ifs at hfound with hname
        · obtain rfl := Option.some.inj hfound
          rw [hident, hname]
          exact Naming.isNumbered_freeName _ _ _
        · cases hfound

/-- An item with the name of a shape is that of the shape. -/
theorem Sound.item_of_shape (h : Sound job promise state) {name : String} {ident : Identifier}
    (hident : Fields.get? state.1.names.shapes name = some ident)
    (hitem : state.1.HasItem ident) :
    (∃ e, Fields.get? state.1.enumerations name = some e) ∨
      ∃ layout, Fields.get? state.1.structures name = some layout := by
  have howner := Names.mem_given_shape hident
  rcases hitem with ⟨other, e, he, rfl⟩ | ⟨other, layout, hlayout, rfl⟩ | ⟨other, call, hcall, rfl⟩
  · obtain ⟨-, -, -, -, -, -, -, hother⟩ := h.enumerations other e he
    cases h.names.owner_eq howner (Names.mem_given_shape hother)
    exact .inl ⟨e, he⟩
  · obtain ⟨-, -, -, -, -, hother, -⟩ := h.structures other layout hlayout
    cases h.names.owner_eq howner (Names.mem_given_shape hother)
    exact .inr ⟨layout, hlayout⟩
  · obtain ⟨-, -, -, hother⟩ := h.calls other call hcall
    cases h.names.owner_eq howner (Names.mem_given_operation hother)

/-- An item with the name of an operation is that of the operation. -/
theorem Sound.item_of_operation (h : Sound job promise state) {name : String} {ident : Identifier}
    (hident : Fields.get? state.1.names.operations name = some ident)
    (hitem : state.1.HasItem ident) : ∃ call, Fields.get? state.1.calls name = some call := by
  have howner := Names.mem_given_operation hident
  rcases hitem with ⟨other, e, he, rfl⟩ | ⟨other, layout, hlayout, rfl⟩ | ⟨other, call, hcall, rfl⟩
  · obtain ⟨-, -, -, -, -, -, -, hother⟩ := h.enumerations other e he
    cases h.names.owner_eq howner (Names.mem_given_shape hother)
  · obtain ⟨-, -, -, -, -, hother, -⟩ := h.structures other layout hlayout
    cases h.names.owner_eq howner (Names.mem_given_shape hother)
  · obtain ⟨-, -, -, hother⟩ := h.calls other call hcall
    cases h.names.owner_eq howner (Names.mem_given_operation hother)
    exact ⟨call, hcall⟩

theorem Sound.enumeration_kind (h : Sound job promise state) {name : String} {e : Enumeration}
    (he : Fields.get? state.1.enumerations name = some e) {shape : Shape}
    (hshape : Fields.get? job.model.shapes name = some shape) :
    ∃ values, shape.kind = .enumeration values := by
  obtain ⟨shape', values, -, hshape', hkind, -⟩ := h.enumerations name e he
  obtain rfl := Option.some.inj (hshape.symm.trans hshape')
  exact ⟨values, hkind⟩

theorem Sound.structure_kind (h : Sound job promise state) {name : String} {layout : Layout}
    (hlayout : Fields.get? state.1.structures name = some layout) {shape : Shape}
    (hshape : Fields.get? job.model.shapes name = some shape) :
    ∃ s, shape.kind = .structure s := by
  obtain ⟨fuel, visiting, plain, hplain, -⟩ := h.structures name layout hlayout
  obtain ⟨shape', s, -, hshape', hkind, -⟩ := plainStructureWith_eq_ok.1 hplain
  obtain rfl := Option.some.inj (hshape.symm.trans hshape')
  exact ⟨s, hkind⟩

theorem get?_set_cases {γ : Type} {fields : Fields γ} {key name : String} {value found : γ}
    (h : Fields.get? (Fields.set key value fields) name = some found) :
    name = key ∧ found = value ∨ Fields.get? fields name = some found := by
  rw [Fields.get?_set] at h
  split_ifs at h with hname
  · exact .inl ⟨hname, (Option.some.inj h).symm⟩
  · exact .inr h

theorem get?_set_of_none {γ : Type} {fields : Fields γ} {key name : String} (value : γ) {found : γ}
    (hnew : Fields.get? fields key = none) (h : Fields.get? fields name = some found) :
    Fields.get? (Fields.set key value fields) name = some found := by
  rw [Fields.get?_set, if_neg, h]
  rintro rfl
  cases hnew.symm.trans h

theorem Sound.enterEnumeration (h : Sound job promise state) {shape : Shape}
    {values : List String} {plain e : Enumeration} {sink : σ}
    (hshape : Fields.get? job.model.shapes shape.name = some shape)
    (hkind : shape.kind = .enumeration values)
    (hplain : plainEnumeration job shape values = .ok plain)
    (hrel : plain.Related Identifier.Numbers e)
    (hident : Fields.get? state.1.names.shapes shape.name = some e.ident)
    (hnew : Fields.get? state.1.enumerations shape.name = none)
    (hsink : promise.holds (fun ident => ident = e.ident ∨ state.1.HasItem ident) sink) :
    Sound job promise ({ state.1 with
      enumerations := Fields.set shape.name e state.1.enumerations }, sink) := by
  refine ⟨h.roles, h.names, h.shapeNames, h.operationNames, fun name found hfound => ?_,
    h.structures, h.calls, promise.mono (fun ident hitem => ?_) hsink⟩
  · rcases get?_set_cases hfound with ⟨rfl, rfl⟩ | hfound
    · exact ⟨shape, values, plain, hshape, hkind, hplain, hrel, hident⟩
    · exact h.enumerations name found hfound
  · rcases hitem with rfl | ⟨name, found, hfound, hident⟩ | hitem
    · exact .inl ⟨shape.name, e, by rw [Fields.get?_set, if_pos rfl], rfl⟩
    · exact .inl ⟨name, found, get?_set_of_none e hnew hfound, hident⟩
    · exact .inr hitem

theorem Sound.enterStructure (h : Sound job promise state) {name : String} {fuel : Nat}
    {visiting : List String} {plain layout : Layout} {sink : σ}
    (hplain : plainStructureWith job (plainTarget job fuel) visiting name = .ok plain)
    (hrel : plain.Related Identifier.Numbers layout)
    (hident : Fields.get? state.1.names.shapes name = some layout.heading.ident)
    (hvisiting : name ∉ state.1.visiting)
    (hnew : Fields.get? state.1.structures name = none)
    (hsink : promise.holds (fun ident => ident = layout.heading.ident ∨ state.1.HasItem ident)
      sink) :
    Sound job promise ({ state.1 with
      structures := Fields.set name layout state.1.structures }, sink) := by
  refine ⟨h.roles, h.names, h.shapeNames, h.operationNames, h.enumerations,
    fun other found hfound => ?_, h.calls, promise.mono (fun ident hitem => ?_) hsink⟩
  · rcases get?_set_cases hfound with ⟨rfl, rfl⟩ | hfound
    · exact ⟨fuel, visiting, plain, hplain, hrel, hident, hvisiting⟩
    · exact h.structures other found hfound
  · rcases hitem with rfl | hitem | ⟨other, found, hfound, hident⟩ | hitem
    · exact .inr (.inl ⟨name, layout, by rw [Fields.get?_set, if_pos rfl], rfl⟩)
    · exact .inl hitem
    · exact .inr (.inl ⟨other, found, get?_set_of_none layout hnew hfound, hident⟩)
    · exact .inr (.inr hitem)

theorem Sound.enterCall (h : Sound job promise state) {name : String} {plain call : Call}
    {sink : σ} (hplain : plainCall job name = .ok plain)
    (hrel : plain.Related Identifier.Numbers call)
    (hident : Fields.get? state.1.names.operations name = some call.ident)
    (hnew : Fields.get? state.1.calls name = none)
    (hsink : promise.holds (fun ident => ident = call.ident ∨ state.1.HasItem ident) sink) :
    Sound job promise ({ state.1 with calls := Fields.set name call state.1.calls }, sink) := by
  refine ⟨h.roles, h.names, h.shapeNames, h.operationNames, h.enumerations, h.structures,
    fun other found hfound => ?_, promise.mono (fun ident hitem => ?_) hsink⟩
  · rcases get?_set_cases hfound with ⟨rfl, rfl⟩ | hfound
    · exact ⟨plain, hplain, hrel, hident⟩
    · exact h.calls other found hfound
  · rcases hitem with rfl | hitem | hitem | ⟨other, found, hfound, hident⟩
    · exact .inr (.inr ⟨name, call, by rw [Fields.get?_set, if_pos rfl], rfl⟩)
    · exact .inl hitem
    · exact .inr (.inl hitem)
    · exact .inr (.inr ⟨other, found, get?_set_of_none call hnew hfound, hident⟩)

end

end ServiceBindings.Generate
