import ServiceBindings.Proofs.Generate.Depth
import ServiceBindings.Proofs.Model.Texts

/-! Compiling a structure fails just for what is wrong with the shapes that it contains. -/
namespace ServiceBindings

/-- One shape is another one or contains it. -/
def ServiceModel.Contains (model : ServiceModel) : String → String → Prop :=
  Relation.ReflTransGen model.Refers

namespace Generate
open Plan (Binding Enumeration Layout Target)

/-- A fault of the shape of a name by itself, or of its being contained in itself. -/
inductive IsDefect (job : Job) (name : String) : ModelError → Prop where
  | missing : Fields.get? job.model.shapes name = none → IsDefect job name (.unknownShape name)
  | cycle : job.model.Reaches name name → IsDefect job name (.recursiveShape name)
  | collision {shape : Shape} {values : List String} {e : ModelError} :
    Fields.get? job.model.shapes name = some shape → shape.kind = .enumeration values →
      plainEnumeration job shape values = .error e → IsDefect job name e

theorem shape_eq_error {model : ServiceModel} {name : String} {e : ModelError} :
    model.shape name = .error e ↔
      Fields.get? model.shapes name = none ∧ e = .unknownShape name := by
  unfold ServiceModel.shape
  cases Fields.get? model.shapes name with
  | none => simp [eq_comm]
  | some found => simp

theorem plainInside_eq_error {α : Type} {visiting : List String} {name : String}
    {work : List String → Except ModelError α} {e : ModelError} :
    plainInside visiting name work = .error e ↔
      name ∈ visiting ∧ e = .recursiveShape name ∨
        name ∉ visiting ∧ work (name :: visiting) = .error e := by
  unfold plainInside
  split_ifs with h
  · simp [h, eq_comm]
  · simp [h]

/-- Members without plans have one whose shape has none. -/
theorem exists_of_plainMembers_eq_error {job : Job}
    {step : Shape → Option Time.Format → Bool → Except ModelError Target} {members : List Member}
    {e : ModelError} (h : plainMembers job step members = .error e) :
    ∃ member ∈ members, (job.model.shape member.target >>= fun shape =>
      step shape member.timestampFormat member.flattened) = .error e := by
  induction members with
  | nil => cases h
  | cons member rest ih =>
    rw [plainMembers] at h
    rcases bind_eq_error.1 h with hshape | ⟨shape, hshape, h⟩
    · exact ⟨member, List.mem_cons_self, by rw [hshape, error_bind]⟩
    rcases bind_eq_error.1 h with htarget | ⟨target, -, h⟩
    · exact ⟨member, List.mem_cons_self, by rw [hshape, ok_bind, htarget]⟩
    rcases bind_eq_error.1 h with hothers | ⟨others, -, h⟩
    · obtain ⟨other, hmem, hother⟩ := ih hothers
      exact ⟨other, List.mem_cons_of_mem _ hmem, hother⟩
    · cases h

/-- A map's keys or its values have no plans, if they do not both have them. -/
theorem plainEntryTargets_eq_error {job : Job} {fuel : Nat} {key value : String}
    {visiting : List String} {e : ModelError}
    (h : plainEntryTargets job fuel key value visiting = .error e) :
    ∃ target, (target = key ∨ target = value) ∧ (job.model.shape target >>= fun found =>
      plainTarget job fuel visiting found none false) = .error e := by
  -- The first of the two references that fails is the one that is found.
  rcases bind_eq_error.1 h with hmissing | ⟨keyShape, hkeyShape, h⟩
  · exact ⟨key, .inl rfl, bind_eq_error.2 (.inl hmissing)⟩
  rcases bind_eq_error.1 h with hfails | ⟨keyTarget, -, h⟩
  · exact ⟨key, .inl rfl, bind_eq_error.2 (.inr ⟨keyShape, hkeyShape, hfails⟩)⟩
  rcases bind_eq_error.1 h with hmissing | ⟨valueShape, hvalueShape, h⟩
  · exact ⟨value, .inr rfl, bind_eq_error.2 (.inl hmissing)⟩
  rcases bind_eq_error.1 h with hfails | ⟨valueTarget, -, h⟩
  · exact ⟨value, .inr rfl, bind_eq_error.2 (.inr ⟨valueShape, hvalueShape, hfails⟩)⟩
  · cases h

/-- A structure without a plan stands inside itself or has a member without one. -/
theorem plainStructureWith_eq_error {job : Job}
    {step : List String → Shape → Option Time.Format → Bool → Except ModelError Target}
    {visiting : List String} {shape : Shape} {s : Structure} {e : ModelError}
    (hshape : Fields.get? job.model.shapes shape.name = some shape)
    (hkind : shape.kind = .structure s)
    (h : plainStructureWith job step visiting shape.name = .error e) :
    (shape.name ∈ visiting ∧ e = .recursiveShape shape.name) ∨
    (shape.name ∉ visiting ∧ ∃ member ∈ s.members, (job.model.shape member.target >>= fun found =>
      step (shape.name :: visiting) found member.timestampFormat member.flattened) = .error e) := by
  unfold plainStructureWith at h
  rw [shape_eq_ok.2 hshape, ok_bind, members_eq_ok.2 hkind, ok_bind] at h
  refine (plainInside_eq_error.1 h).imp_right fun ⟨hnew, hlayout⟩ => ⟨hnew, ?_⟩
  unfold plainLayout at hlayout
  rcases bind_eq_error.1 hlayout with hmembers | ⟨members, -, hdone⟩
  · exact exists_of_plainMembers_eq_error hmembers
  · cases hdone

/-- A shape without a plan is an enumeration that does not compile, or stands inside itself, or
refers to a shape that is not there or has no plan inside it. -/
theorem plainTarget_eq_error {job : Job} {fuel : Nat} {visiting : List String} {shape : Shape}
    {format : Option Time.Format} {flattened : Bool} {e : ModelError}
    (hshape : Fields.get? job.model.shapes shape.name = some shape)
    (h : plainTarget job (fuel + 1) visiting shape format flattened = .error e) :
    (∃ values, shape.kind = .enumeration values ∧ plainEnumeration job shape values = .error e) ∨
    (shape.name ∈ visiting ∧ e = .recursiveShape shape.name) ∨
    (shape.name ∉ visiting ∧ ∃ target ∈ shape.references, ∃ format flattened,
      (job.model.shape target >>= fun found =>
        plainTarget job fuel (shape.name :: visiting) found format flattened) = .error e) := by
  cases hkind : shape.kind with
  | scalar kind =>
    rw [plainTarget_scalar _ hkind] at h
    cases h
  | enumeration values =>
    rw [plainTarget_enumeration _ hkind, map_eq_error] at h
    exact .inl ⟨values, rfl, h⟩
  | list item listFlattened =>
    right
    have hitem : item.target ∈ shape.references := by simp [Shape.references, hkind]
    rw [plainTarget_list _ hkind] at h
    rcases bind_eq_error.1 h with h | ⟨target, -, h⟩
    · exact (plainInside_eq_error.1 h).imp_right fun hinside =>
        ⟨hinside.1, _, hitem, none, false, hinside.2⟩
    · cases h
  | map key value mapFlattened =>
    right
    have hkey : key.target ∈ shape.references := by simp [Shape.references, hkind]
    have hvalue : value.target ∈ shape.references := by simp [Shape.references, hkind]
    rw [plainTarget_map _ hkind] at h
    rcases bind_eq_error.1 h with h | ⟨targets, -, h⟩
    · refine (plainInside_eq_error.1 h).imp_right fun hinside => ⟨hinside.1, ?_⟩
      obtain ⟨target, htarget, hfails⟩ := plainEntryTargets_eq_error hinside.2
      rcases htarget with rfl | rfl
      · exact ⟨_, hkey, none, false, hfails⟩
      · exact ⟨_, hvalue, none, false, hfails⟩
    · cases h
  | «structure» s =>
    right
    rw [plainTarget_structure _ hkind, map_eq_error] at h
    refine (plainStructureWith_eq_error hshape hkind h).imp_right fun hinside => ⟨hinside.1, ?_⟩
    obtain ⟨-, member, hmember, hfails⟩ := hinside
    have hmem : member.target ∈ shape.references := by
      simpa [Shape.references, hkind] using ⟨member, hmember, rfl⟩
    exact ⟨_, hmem, _, _, hfails⟩

/-- A shape without a plan contains one with a defect. -/
theorem exists_isDefect {job : Job} (hm : job.model.WellFormed) {fuel : Nat}
    {visiting : List String} {shape : Shape} {format : Option Time.Format} {flattened : Bool}
    {e : ModelError} (hshape : Fields.get? job.model.shapes shape.name = some shape)
    (hstack : Stack job visiting fuel shape.name)
    (h : plainTarget job fuel visiting shape format flattened = .error e) :
    ∃ other, job.model.Contains shape.name other ∧ IsDefect job other e := by
  induction fuel generalizing visiting shape format flattened with
  | zero => exact absurd hstack.fuel_pos (by simp)
  | succ fuel ih =>
    rcases plainTarget_eq_error hshape h with
      ⟨values, hkind, hfails⟩ | ⟨hmem, rfl⟩ | ⟨hnew, target, hmem, _, _, hfails⟩
    · exact ⟨shape.name, .refl, .collision hshape hkind hfails⟩
    · exact ⟨shape.name, .refl, .cycle (hstack.reaches _ hmem)⟩
    · have hrefers : job.model.Refers shape.name target := ⟨shape, hshape, hmem⟩
      rcases bind_eq_error.1 hfails with hmissing | ⟨found, hfound, hfails⟩
      · obtain ⟨hnone, rfl⟩ := shape_eq_error.1 hmissing
        exact ⟨target, .single hrefers, .missing hnone⟩
      · rw [shape_eq_ok] at hfound
        have hname := hm.name_of_get? hfound
        obtain ⟨other, hcontains, hdefect⟩ :=
          ih (hname ▸ hfound) (hname ▸ hstack.enter hnew hrefers) hfails
        rw [hname] at hcontains
        exact ⟨other, .head hrefers hcontains, hdefect⟩

/-- A structure without a plan contains a shape with a defect. -/
theorem exists_isDefect_of_plainStructure {job : Job} (hm : job.model.WellFormed) {name : String}
    {shape : Shape} {s : Structure} {e : ModelError}
    (hshape : Fields.get? job.model.shapes name = some shape) (hkind : shape.kind = .structure s)
    (h : plainStructure job name = .error e) :
    ∃ other, job.model.Contains name other ∧ IsDefect job other e := by
  have hname := hm.name_of_get? hshape
  have htarget : plainTarget job (job.model.shapes.length + 1 + 1) [] shape none false =
      .error e := by
    rw [plainTarget_structure _ hkind, hname, map_eq_error]
    exact h
  have hdefect := exists_isDefect hm (hname ▸ hshape) (stack_nil job (by omega) _) htarget
  rwa [hname] at hdefect

/-- What is found to contain itself is found inside a structure. -/
theorem structure_of_recursiveShape {job : Job} {name other : String}
    (h : plainStructure job name = .error (.recursiveShape other)) :
    ∃ shape s, Fields.get? job.model.shapes name = some shape ∧ shape.kind = .structure s := by
  unfold plainStructure plainStructureWith at h
  rcases bind_eq_error.1 h with hmissing | ⟨shape, hshape, h⟩
  · cases (shape_eq_error.1 hmissing).2
  rcases bind_eq_error.1 h with hkind | ⟨s, hs, -⟩
  · unfold Shape.members at hkind
    split at hkind <;> cases hkind
  · exact ⟨shape, s, shape_eq_ok.1 hshape, members_eq_ok.1 hs⟩

/-- No shape that has a plan has a defect, nor one that it contains. -/
theorem HasPlan.not_isDefect {job : Job} (hm : job.model.WellFormed) {fuel : Nat}
    {name other : String} (h : HasPlan job fuel name) (hcontains : job.model.Contains name other)
    (e : ModelError) : ¬IsDefect job other e := by
  obtain ⟨less, hplan⟩ : ∃ less, HasPlan job less other := by
    rcases Relation.reflTransGen_iff_eq_or_transGen.1 hcontains with rfl | hreaches
    · exact ⟨fuel, h⟩
    · obtain ⟨less, -, hplan⟩ := h.of_reaches hm hreaches
      exact ⟨less, hplan⟩
  obtain ⟨visiting, shape, format, flattened, target, hshape, htarget⟩ := id hplan
  intro hdefect
  cases hdefect with
  | missing hnone => cases hnone.symm.trans hshape
  | cycle hcycle => exact hplan.not_reaches_self hm hcycle
  | @collision shape' values _ hshape' hkind hfails =>
    obtain rfl : shape = shape' := Option.some.inj (hshape.symm.trans hshape')
    rw [plainTarget_enumeration _ hkind, hfails] at htarget
    cases htarget

/-- A structure has a plan just when nothing that it contains has a defect. -/
theorem exists_plainStructure_iff {job : Job} (hm : job.model.WellFormed) {name : String} :
    (∃ plan, plainStructure job name = .ok plan) ↔
      (∃ shape s, Fields.get? job.model.shapes name = some shape ∧ shape.kind = .structure s) ∧
        ∀ other fault, job.model.Contains name other → ¬IsDefect job other fault := by
  constructor
  · rintro ⟨plan, hplan⟩
    obtain ⟨shape, s, -, hshape, hkind, -⟩ := plainStructureWith_eq_ok.1 hplan
    have hname := hm.name_of_get? hshape
    have htarget : plainTarget job (job.model.shapes.length + 1 + 1) [] shape none false =
        .ok plan.toTarget := by
      rw [plainTarget_structure _ hkind, hname, map_eq_ok]
      exact ⟨plan, hplan, rfl⟩
    have hasPlan : HasPlan job (job.model.shapes.length + 1 + 1) name :=
      ⟨[], shape, none, false, _, hshape, htarget⟩
    exact ⟨⟨shape, s, hshape, hkind⟩, fun other fault hcontains =>
      hasPlan.not_isDefect hm hcontains fault⟩
  · rintro ⟨⟨shape, s, hshape, hkind⟩, hnone⟩
    cases hplain : plainStructure job name with
    | ok plan => exact ⟨plan, rfl⟩
    | error fault =>
      obtain ⟨other, hcontains, hdefect⟩ := exists_isDefect_of_plainStructure hm hshape hkind hplain
      exact absurd hdefect (hnone other fault hcontains)

/-- Without defects all shapes are there, none contains itself and the enumerations compile. -/
theorem forall_not_isDefect_iff {job : Job} {name : String} :
    (∀ other fault, job.model.Contains name other → ¬IsDefect job other fault) ↔
      (∀ other, job.model.Contains name other →
        ∃ shape, Fields.get? job.model.shapes other = some shape) ∧
      (∀ other, job.model.Contains name other → ¬job.model.Reaches other other) ∧
      ∀ other shape values, job.model.Contains name other →
        Fields.get? job.model.shapes other = some shape → shape.kind = .enumeration values →
          ∃ e, plainEnumeration job shape values = .ok e := by
  constructor
  · intro hnone
    refine ⟨fun other hcontains => ?_, fun other hcontains hcycle => ?_,
      fun other shape values hcontains hshape hkind => ?_⟩
    · by_contra hmissing
      rw [not_exists, ← Option.eq_none_iff_forall_ne_some] at hmissing
      exact hnone other _ hcontains (.missing hmissing)
    · exact hnone other _ hcontains (.cycle hcycle)
    · cases hplain : plainEnumeration job shape values with
      | ok e => exact ⟨e, rfl⟩
      | error fault => exact absurd (.collision hshape hkind hplain) (hnone other fault hcontains)
  · rintro ⟨hknown, hacyclic, henumerations⟩ other fault hcontains hdefect
    cases hdefect with
    | missing hmissing =>
      obtain ⟨found, hfound⟩ := hknown other hcontains
      cases hmissing.symm.trans hfound
    | cycle hcycle => exact hacyclic other hcontains hcycle
    | collision hshape hkind hfails =>
      obtain ⟨e, he⟩ := henumerations other _ _ hcontains hshape hkind
      cases he.symm.trans hfails

theorem enterConstant_eq_error {policy : CollisionPolicy} {shape name value : String}
    {constants : List Plan.Constant} {e : ModelError}
    (h : Plan.enterConstant policy shape name value constants = .error e) :
    ∃ first, e = .enumCollision shape name first value := by
  induction constants with
  | nil => cases h
  | cons constant rest ih =>
    unfold Plan.enterConstant at h
    split_ifs at h with hname hbefore
    · cases policy with
      | reject =>
        obtain rfl := hname
        exact ⟨constant.value, (Except.error.inj h).symm⟩
      | overwrite => cases h
    · exact ih (map_eq_error.1 h)

/-- The values of an enumeration fail in a way of their own. -/
theorem plainEnumeration_eq_error {job : Job} {shape : Shape} {values : List String}
    {e : ModelError} (h : plainEnumeration job shape values = .error e) :
    ∃ name first second, e = .enumCollision shape.name name first second := by
  rw [plainEnumeration, map_eq_error, Plan.constantsOf] at h
  generalize ([] : List Plan.Constant) = constants at h
  induction values generalizing constants with
  | nil => cases h
  | cons value rest ih =>
    rw [List.foldlM_cons] at h
    rcases bind_eq_error.1 h with h | ⟨entered, -, h⟩
    · obtain ⟨first, rfl⟩ := enterConstant_eq_error h
      exact ⟨_, _, _, rfl⟩
    · exact ih entered h

/-- What is found to contain itself does so, inside the structure that is compiled. -/
theorem reaches_of_recursiveShape {job : Job} (hm : job.model.WellFormed) {name other : String}
    (h : plainStructure job name = .error (.recursiveShape other)) :
    job.model.Contains name other ∧ job.model.Reaches other other := by
  obtain ⟨shape, s, hshape, hkind⟩ := structure_of_recursiveShape h
  obtain ⟨found, hcontains, hdefect⟩ := exists_isDefect_of_plainStructure hm hshape hkind h
  generalize hfault : ModelError.recursiveShape other = fault at hdefect
  cases hdefect with
  | missing => cases hfault
  | cycle hcycle =>
    obtain rfl := ModelError.recursiveShape.inj hfault
    exact ⟨hcontains, hcycle⟩
  | collision _ _ hfails =>
    obtain ⟨_, _, _, rfl⟩ := plainEnumeration_eq_error hfails
    cases hfault

/-- The result in memory is that of a fresh run. -/
theorem agrees_ok_iff {α : Type} {rel : α → α → Prop} {plain : Except ModelError α}
    {result : Except CompileError α} (h : Agrees Memory.promise rel plain result) :
    (∃ a, result = .ok a) ↔ ∃ p, plain = .ok p := by
  match result with
  | .ok a =>
    obtain ⟨p, hp, -⟩ := h
    simp [hp]
  | .error (.model fault) =>
    have hp : plain = .error fault := h
    simp [hp]
  | .error (.emit fault) => exact h.elim

namespace Run

theorem isSound_fresh (job : Job) : IsSound Memory.promise (start job ({} : Memory)) :=
  isSound_start job fun artifact hmem => by simp at hmem

/-- A fresh run with its items in memory comes to the plan of a structure, or to its fault. -/
theorem agrees_compileStructure {model : ServiceModel} (hm : model.WellFormed)
    (settings : Settings) (name : String) :
    Agrees Memory.promise (Layout.Related Naming.Identifier.Numbers)
      (plainStructure ⟨model, settings⟩ name)
      ((start ⟨model, settings⟩ ({} : Memory)).perform
        (compileStructure ⟨model, settings⟩ name)).1 := by
  have hfresh := isSound_fresh ⟨model, settings⟩
  exact (compileStructure_settles hm hfresh.sound hfresh.visiting name).agrees

theorem agrees_compileEnumeration {model : ServiceModel} (hm : model.WellFormed)
    (settings : Settings) {name : String} {shape : Shape} {values : List String}
    (hshape : Fields.get? model.shapes name = some shape)
    (hkind : shape.kind = .enumeration values) :
    Agrees Memory.promise (Enumeration.Related Naming.Identifier.Numbers)
      (plainEnumeration ⟨model, settings⟩ shape values)
      ((start ⟨model, settings⟩ ({} : Memory)).perform
        (compileEnumeration ⟨model, settings⟩ shape)).1 := by
  have hfresh := isSound_fresh ⟨model, settings⟩
  have hname := hm.name_of_get? hshape
  have hshape : Fields.get? model.shapes shape.name = some shape := hname ▸ hshape
  exact (compileEnumeration_settles hfresh.sound hshape hkind).agrees

/-- Compiling a structure in a fresh run goes no deeper than there are shapes. It comes to a plan
just when the name is that of a structure, every shape in it is there, none of them contains itself
and each enumeration among them compiles; and it finds a shape to contain itself only if it does. -/
theorem compileStructure_of_fresh {model : ServiceModel} (hmodel : model.Loaded)
    (settings : Settings) (name : String) :
    let job : Job := ⟨model, settings⟩
    let fresh : Run Memory := start job {}
    (∀ depth, model.shapes.length ≤ depth → ∀ deeper,
      fresh.perform (compileStructureWith job ((compileLevel job)^[depth] deeper) name) =
        fresh.perform (compileStructure job name)) ∧
    ((∃ layout, (fresh.perform (compileStructure job name)).1 = .ok layout) ↔
      (∃ shape s, Fields.get? model.shapes name = some shape ∧ shape.kind = .structure s) ∧
      (∀ other, model.Contains name other → ∃ shape, Fields.get? model.shapes other = some shape) ∧
      (∀ other, model.Contains name other → ¬model.Reaches other other) ∧
      ∀ other shape values, model.Contains name other →
        Fields.get? model.shapes other = some shape → shape.kind = .enumeration values →
          ∃ e, (fresh.perform (compileEnumeration job shape)).1 = .ok e) ∧
    ∀ other, (fresh.perform (compileStructure job name)).1 =
        .error (.model (.recursiveShape other)) →
      model.Contains name other ∧ model.Reaches other other := by
  intro job fresh
  have hm : job.model.WellFormed := hmodel.wellFormed
  have hfresh : fresh.IsSound Memory.promise := isSound_fresh job
  have hagrees := agrees_compileStructure hm settings name
  refine ⟨fun depth hdepth deeper => ?_, ?_, fun other h => ?_⟩
  · have hsame := compileStructure_same hm hfresh.sound hfresh.visiting name hdepth deeper
    exact congrArg (fun outcome : Except CompileError Layout × Ledger × Memory =>
      (outcome.1, { fresh with ledger := outcome.2.1, sink := outcome.2.2 })) hsame
  · rw [agrees_ok_iff hagrees, exists_plainStructure_iff hm, forall_not_isDefect_iff]
    refine and_congr_right fun _ => and_congr_right fun _ => and_congr_right fun _ => ?_
    constructor
    · intro h other shape values hcontains hshape hkind
      rw [agrees_ok_iff (agrees_compileEnumeration hm settings hshape hkind)]
      exact h other shape values hcontains hshape hkind
    · intro h other shape values hcontains hshape hkind
      rw [← agrees_ok_iff (agrees_compileEnumeration hm settings hshape hkind)]
      exact h other shape values hcontains hshape hkind
  · rw [h] at hagrees
    exact reaches_of_recursiveShape hm hagrees

/-- The description of a service with a structure that refers to one shape twice, and with one that
contains itself in a list. -/
def loopDocument : Document := .object [
  ("metadata", .object [("protocol", .string "json"), ("apiVersion", .string "1")]),
  ("shapes", .object [
    ("Pair", .object [("type", .string "structure"), ("members", .object [
      ("a", .object [("shape", .string "Color")]), ("b", .object [("shape", .string "Color")])])]),
    ("Color", .object [("type", .string "string"), ("enum", .array [.string "red"])]),
    ("Tree", .object [("type", .string "structure"), ("members", .object [
      ("branches", .object [("shape", .string "Trees")])])]),
    ("Trees", .object [("type", .string "list"),
      ("member", .object [("shape", .string "Tree")])])])]

/-- The model that `loopDocument` describes. -/
def loopModel : ServiceModel where
  service := ⟨"Service", "1", .json, none, none, none⟩
  shapes := [
    ("Pair", ⟨"Pair", .structure ⟨[⟨"a", "Color", false, .body, none, false, none, false, none⟩,
      ⟨"b", "Color", false, .body, none, false, none, false, none⟩], none⟩,
      none, none, none, false⟩),
    ("Color", ⟨"Color", .enumeration ["red"], none, none, none, false⟩),
    ("Tree", ⟨"Tree", .structure ⟨[⟨"branches", "Trees", false, .body, none, false, none, false,
      none⟩], none⟩, none, none, none, false⟩),
    ("Trees", ⟨"Trees", .list ⟨"Tree", none⟩ false, none, none, none, false⟩)]
  operations := []

/-- A shape that is referred to twice is no defect, and one that contains itself is. -/
theorem compileStructure_of_loop :
    ServiceModel.load (Json.Node.ofDocument loopDocument).text = .ok loopModel ∧
      let job : Job := ⟨loopModel, {}⟩
      let fresh : Run Memory := start job {}
      (∃ layout, (fresh.perform (compileStructure job "Pair")).1 = .ok layout) ∧
        (∀ other, loopModel.Contains "Pair" other → ¬loopModel.Reaches other other) ∧
        ¬∃ layout, (fresh.perform (compileStructure job "Tree")).1 = .ok layout := by
  have hload : ServiceModel.load (Json.Node.ofDocument loopDocument).text = .ok loopModel :=
    ServiceModel.load_text (by decide) rfl
  have hpair := (compileStructure_of_fresh (.load hload) {} "Pair").2.1
  have htree := (compileStructure_of_fresh (.load hload) {} "Tree").2.1
  have hcompiled : ∃ layout, ((start ⟨loopModel, {}⟩ ({} : Memory)).perform
      (compileStructure ⟨loopModel, {}⟩ "Pair")).1 = .ok layout := ⟨_, rfl⟩
  have hbranches : loopModel.Refers "Tree" "Trees" := ⟨_, rfl, List.mem_singleton.2 rfl⟩
  have hitem : loopModel.Refers "Trees" "Tree" := ⟨_, rfl, List.mem_singleton.2 rfl⟩
  refine ⟨hload, hcompiled, (hpair.1 hcompiled).2.2.1, fun h => ?_⟩
  exact (htree.1 h).2.2.1 "Tree" .refl (.tail (.single hbranches) hitem)

end Run

end Generate
end ServiceBindings
