import ServiceBindings.Model.Load
import ServiceBindings.Proofs.Fields
import ServiceBindings.Proofs.Steps

/-! What holds of every model that was loaded: its entries and members have distinct names, and
shapes and operations stand under theirs. -/
namespace ServiceBindings

namespace ServiceModel

/-- The models that the program can come to hold. -/
inductive Loaded : ServiceModel → Prop where
  | load {text : String} {model : ServiceModel} : load text = .ok model → Loaded model
  | withPaginators {model after : ServiceModel} {text : String} :
    Loaded model → model.withPaginators text = .ok after → Loaded after

/-- Shapes stand under their names, which are distinct, and so are those of the members of each
structure. -/
structure WellFormedShapes (shapes : Fields Shape) : Prop where
  names : (Fields.names shapes).Nodup
  keys : ∀ entry ∈ shapes, entry.2.name = entry.1
  memberNames : ∀ entry ∈ shapes, ∀ s, entry.2.kind = .structure s →
    (s.members.map (·.name)).Nodup

/-- Shapes and operations stand under their names, which are distinct. -/
structure WellFormed (model : ServiceModel) : Prop where
  shapes : WellFormedShapes model.shapes
  operationNames : (Fields.names model.operations).Nodup
  operationKeys : ∀ entry ∈ model.operations, entry.2.name = entry.1

theorem WellFormed.name_of_get? {model : ServiceModel} (h : model.WellFormed) {name : String}
    {shape : Shape} (hshape : Fields.get? model.shapes name = some shape) : shape.name = name :=
  h.shapes.keys (name, shape) (Fields.mem_of_get? hshape)

end ServiceModel

namespace Description

/-- Entries under free names have distinct names, and each of them was read. -/
theorem fields_default? {α : Type} {read : Json.Tree → Option α} {r : Json.Record} {name : String}
    {fields : Fields α} (h : r.default? name [] (Json.Tree.fields? read) = some fields) :
    (Fields.names fields).Nodup ∧ ∀ entry ∈ fields, ∃ tree, read tree = some entry.2 := by
  unfold Json.Record.default? at h
  split at h
  · obtain rfl : [] = fields := Option.some.inj h
    exact ⟨List.nodup_nil, by simp⟩
  · next tree _ =>
    unfold Json.Tree.fields? at h
    split at h
    · rw [Option.bind_eq_bind, Option.bind_eq_some_iff] at h
      obtain ⟨entries, hentries, h⟩ := h
      obtain rfl : Fields.ofList entries = fields := Option.some.inj h
      refine ⟨Fields.nodup_names_ofList entries, fun entry hmem => ?_⟩
      obtain ⟨member, -, hmember⟩ := exists_of_mem_forall₂_right
        (forall₂_of_mapM_eq_some hentries) (Fields.mem_of_mem_ofList hmem)
      simp only [Option.bind_eq_bind, Option.bind_eq_some_iff, Option.some.injEq] at hmember
      obtain ⟨key, -, value, hvalue, rfl⟩ := hmember
      exact ⟨member.2, hvalue⟩
    · cases h

theorem nodup_members {tree : Json.Tree} {shape : Shape} (h : shape? tree = some shape) :
    (Fields.names shape.members).Nodup := by
  unfold shape? at h
  obtain ⟨r, -, h⟩ := Option.bind_eq_some_iff.1 h
  obtain ⟨kind, -, h⟩ := Option.bind_eq_some_iff.1 h
  obtain ⟨members, hmembers, h⟩ := Option.bind_eq_some_iff.1 h
  -- The eleven parts that follow leave the members as they are.
  iterate 11 obtain ⟨_, -, h⟩ := Option.bind_eq_some_iff.1 h
  obtain rfl := Option.some.inj h
  exact (fields_default? hmembers).1

/-- Shapes, their members and operations have distinct names. -/
theorem nodup_whole {tree : Json.Tree} {described : Whole} (h : whole? tree = some described) :
    (Fields.names described.shapes).Nodup ∧ (Fields.names described.operations).Nodup ∧
      ∀ entry ∈ described.shapes, (Fields.names entry.2.members).Nodup := by
  simp only [whole?, Option.bind_eq_bind, Option.bind_eq_some_iff, Option.some.injEq] at h
  obtain ⟨r, -, metadata, -, operations, hoperations, shapes, hshapes, rfl⟩ := h
  refine ⟨(fields_default? hshapes).1, (fields_default? hoperations).1, fun entry hmem => ?_⟩
  obtain ⟨tree, htree⟩ := (fields_default? hshapes).2 entry hmem
  exact nodup_members htree

end Description

namespace ServiceModel

theorem name_memberOf {shape name : String} {described : Description.Shape}
    {ref : Description.Ref} {member : Member} (h : memberOf shape described name ref = .ok member) :
    member.name = name := by
  rw [memberOf] at h
  split_ifs at h <;>
  · obtain ⟨location, -, h⟩ := bind_eq_ok.1 h
    obtain rfl := Except.ok.inj h
    rfl

theorem names_of_mapM_memberOf {shape : String} {described : Description.Shape}
    {members : List Member} (h : described.members.mapM
      (fun entry => memberOf shape described entry.1 entry.2) = .ok members) :
    members.map (·.name) = Fields.names described.members :=
  map_eq_map_of_forall₂ (forall₂_of_mapM_eq_ok h) fun _ _ => name_memberOf

theorem names_structureOf {shape : String} {described : Description.Shape} {s : Structure}
    (h : structureOf shape described = .ok s) :
    s.members.map (·.name) = Fields.names described.members := by
  have hmembers : ∃ members, described.members.mapM
      (fun entry => memberOf shape described entry.1 entry.2) = .ok members ∧
      Structure.mk members described.payload = s := by
    rw [structureOf] at h
    dsimp only at h
    split at h
    · split_ifs at h with hmissing
      · cases h
      · obtain ⟨members, hmembers, h⟩ := bind_eq_ok.1 h
        exact ⟨members, hmembers, Except.ok.inj h⟩
    · obtain ⟨members, hmembers, h⟩ := bind_eq_ok.1 h
      exact ⟨members, hmembers, Except.ok.inj h⟩
  obtain ⟨members, hmembers, rfl⟩ := hmembers
  exact names_of_mapM_memberOf hmembers

/-- A structure comes from what is described as one. -/
theorem structureOf_of_shapeOf {name : String} {described : Description.Shape} {shape : Shape}
    (h : shapeOf name described = .ok shape) {s : Structure} (hs : shape.kind = .structure s) :
    described.kind = "structure" ∧ structureOf name described = .ok s := by
  rw [shapeOf] at h
  obtain ⟨kind, hkind, h⟩ := bind_eq_ok.1 h
  obtain rfl := Except.ok.inj h
  obtain rfl : kind = .structure s := hs
  unfold kindOf at hkind
  split at hkind
  case h_1 hword =>
    obtain ⟨found, hfound, heq⟩ := map_eq_ok.1 hkind
    obtain rfl := ShapeKind.structure.inj heq
    exact ⟨hword, hfound⟩
  case h_2 =>
    obtain ⟨item, -, hkind⟩ := bind_eq_ok.1 hkind
    cases hkind
  case h_3 =>
    obtain ⟨key, -, hkind⟩ := bind_eq_ok.1 hkind
    obtain ⟨value, -, hkind⟩ := bind_eq_ok.1 hkind
    cases hkind
  case h_4 => split at hkind <;> cases hkind
  all_goals cases hkind

/-- The members of a described structure keep their names and their order. -/
theorem names_shapeOf {name : String} {described : Description.Shape} {shape : Shape}
    (h : shapeOf name described = .ok shape) :
    shape.name = name ∧ ∀ s, shape.kind = .structure s →
      s.members.map (·.name) = Fields.names described.members := by
  refine ⟨?_, fun s hs => names_structureOf (structureOf_of_shapeOf h hs).2⟩
  rw [shapeOf] at h
  obtain ⟨kind, -, h⟩ := bind_eq_ok.1 h
  obtain rfl := Except.ok.inj h
  rfl

theorem WellFormedShapes.withInputs {shapes : Fields Shape} (h : WellFormedShapes shapes)
    (operations : Fields Description.Operation) :
    WellFormedShapes (ServiceModel.withInputs shapes operations) := by
  induction operations generalizing shapes with
  | nil => exact h
  | cons entry rest ih =>
    obtain ⟨name, described⟩ := entry
    rw [ServiceModel.withInputs]
    split_ifs with hnew
    · refine ih ?_
      have hmem (entry : String × Shape)
          (h : entry ∈ Fields.set (inputName name) (emptyStructure (inputName name)) shapes) :
          entry = (inputName name, emptyStructure (inputName name)) ∨ entry ∈ shapes :=
        Fields.mem_of_mem_set h
      refine ⟨Fields.nodup_names_set h.names _ _, fun entry hentry => ?_, fun entry hentry => ?_⟩
      · rcases hmem entry hentry with rfl | hentry
        · rfl
        · exact h.keys entry hentry
      · rcases hmem entry hentry with rfl | hentry
        · rintro s ⟨⟩
          exact List.nodup_nil
        · exact h.memberNames entry hentry
    · exact ih h

theorem wellFormed_ofDescription {described : Description.Whole} {model : ServiceModel}
    (hshapes : (Fields.names described.shapes).Nodup)
    (hoperations : (Fields.names described.operations).Nodup)
    (hmembers : ∀ entry ∈ described.shapes, (Fields.names entry.2.members).Nodup)
    (h : ofDescription described = .ok model) : model.WellFormed := by
  rw [ofDescription] at h
  obtain ⟨protocol, -, h⟩ := bind_eq_ok.1 h
  obtain ⟨shapes, hread, h⟩ := bind_eq_ok.1 h
  obtain rfl := Except.ok.inj h
  have hread := forall₂_of_mapM_eq_ok hread
  have hnames : Fields.names shapes = Fields.names described.shapes :=
    map_eq_map_of_forall₂ hread fun a b hab => by
      obtain ⟨shape, -, hab⟩ := bind_eq_ok.1 hab
      obtain rfl := Except.ok.inj hab
      rfl
  have hwhole : WellFormedShapes shapes := by
    refine ⟨hnames ▸ hshapes, fun entry hmem => ?_, fun entry hmem s hs => ?_⟩
    all_goals
      obtain ⟨source, hsource, hentry⟩ := exists_of_mem_forall₂_right hread hmem
      obtain ⟨shape, hshape, hentry⟩ := bind_eq_ok.1 hentry
      obtain rfl := Except.ok.inj hentry
    · exact (names_shapeOf hshape).1
    · rw [(names_shapeOf hshape).2 s hs]
      exact hmembers source hsource
  refine ⟨hwhole.withInputs described.operations, ?_, fun entry hmem => ?_⟩
  · simpa [Fields.names, Function.comp_def] using hoperations
  · obtain ⟨source, -, rfl⟩ := List.mem_map.1 hmem
    rfl

theorem WellFormed.setOperation {model : ServiceModel} (h : model.WellFormed) {name : String}
    {operation : Operation} (hkey : operation.name = name) :
    ({ model with operations := Fields.set name operation model.operations } :
      ServiceModel).WellFormed := by
  refine ⟨h.shapes, Fields.nodup_names_set h.operationNames _ _, fun entry hmem => ?_⟩
  rcases Fields.mem_of_mem_set hmem with rfl | hmem
  · exact hkey
  · exact h.operationKeys entry hmem

/-- What holds of a model, and stays when an operation gets rules of pages, holds of the model with
all its rules. -/
theorem attach_induction {p : ServiceModel → Prop}
    (hset : ∀ (model : ServiceModel) name operation described pagination, p model →
      Fields.get? model.operations name = some operation →
      paginationOf name described = .ok (some pagination) →
      p { model with
        operations :=
          Fields.set name { operation with pagination := some pagination } model.operations })
    {model after : ServiceModel} (h : p model) {paginators : Fields Description.Paginator}
    (hafter : model.attach paginators = .ok after) : p after := by
  induction paginators generalizing model with
  | nil =>
    obtain rfl := Except.ok.inj hafter
    exact h
  | cons entry rest ih =>
    obtain ⟨name, described⟩ := entry
    rw [attach] at hafter
    split at hafter
    · exact ih h hafter
    · next operation hoperation =>
      obtain ⟨found, hfound, hafter⟩ := bind_eq_ok.1 hafter
      split at hafter
      · exact ih h hafter
      · next pagination => exact ih (hset _ _ _ _ _ h hoperation hfound) hafter

theorem wellFormed_attach {model after : ServiceModel} (h : model.WellFormed)
    {paginators : Fields Description.Paginator} (hafter : model.attach paginators = .ok after) :
    after.WellFormed := by
  refine attach_induction (fun model name operation _ pagination h hoperation _ => ?_) h hafter
  have hkey : operation.name = name :=
    h.operationKeys (name, operation) (Fields.mem_of_get? hoperation)
  exact h.setOperation (show { operation with
    pagination := some pagination }.name = name from hkey)

/-- Every loaded model is well formed. -/
theorem Loaded.wellFormed {model : ServiceModel} (h : model.Loaded) : model.WellFormed := by
  induction h with
  | @load text model h =>
    unfold ServiceModel.load at h
    split at h
    · next described hread =>
      obtain ⟨tree, -, htree⟩ := Option.bind_eq_some_iff.1 hread
      obtain ⟨hshapes, hoperations, hmembers⟩ := Description.nodup_whole htree
      exact wellFormed_ofDescription hshapes hoperations hmembers h
    · cases h
  | @withPaginators model after text _ h ih =>
    unfold ServiceModel.withPaginators at h
    split at h
    · exact wellFormed_attach ih h
    · cases h

theorem isTokenChar_of_tokenOf {operation token : String} {tokens : List String}
    (h : tokenOf operation tokens = .ok token) : ∀ c ∈ token.toList, isTokenChar c = true := by
  match tokens with
  | [] => cases h
  | [single] =>
    rw [tokenOf] at h
    split_ifs at h with hchars
    obtain rfl := Except.ok.inj h
    exact List.all_eq_true.1 hchars.2
  | _ :: _ :: _ => cases h

/-- The tokens in the rules of pages have no characters but those of names. -/
def HasTokens (operations : Fields Operation) : Prop :=
  ∀ entry ∈ operations, ∀ pagination, entry.2.pagination = some pagination →
    (∀ c ∈ pagination.inputToken.toList, isTokenChar c = true) ∧
      ∀ c ∈ pagination.outputToken.toList, isTokenChar c = true

theorem isTokenChar_of_paginationOf {operation : String} {described : Description.Paginator}
    {pagination : Pagination} (h : paginationOf operation described = .ok (some pagination)) :
    (∀ c ∈ pagination.inputToken.toList, isTokenChar c = true) ∧
      ∀ c ∈ pagination.outputToken.toList, isTokenChar c = true := by
  unfold paginationOf at h
  split at h
  · obtain ⟨input, hinput, h⟩ := bind_eq_ok.1 h
    obtain ⟨output, houtput, h⟩ := bind_eq_ok.1 h
    obtain rfl := Option.some.inj (Except.ok.inj h)
    exact ⟨isTokenChar_of_tokenOf hinput, isTokenChar_of_tokenOf houtput⟩
  · cases h

theorem hasTokens_attach {model after : ServiceModel} (h : HasTokens model.operations)
    {paginators : Fields Description.Paginator} (hafter : model.attach paginators = .ok after) :
    HasTokens after.operations := by
  refine attach_induction (p := fun model => HasTokens model.operations)
    (fun model name operation described pagination h _ hfound => ?_) h hafter
  intro other hmem rules hrules
  rcases Fields.mem_of_mem_set hmem with rfl | hmem
  · obtain rfl := Option.some.inj hrules
    exact isTokenChar_of_paginationOf hfound
  · exact h other hmem rules hrules

/-- In a loaded model, the tokens of pages are names of members. -/
theorem Loaded.hasTokens {model : ServiceModel} (h : model.Loaded) :
    HasTokens model.operations := by
  induction h with
  | @load text model h =>
    unfold ServiceModel.load at h
    split at h
    · next described _ =>
      rw [ofDescription] at h
      obtain ⟨protocol, -, h⟩ := bind_eq_ok.1 h
      obtain ⟨shapes, -, h⟩ := bind_eq_ok.1 h
      obtain rfl := Except.ok.inj h
      intro entry hmem pagination hpagination
      obtain ⟨source, -, rfl⟩ := List.mem_map.1 hmem
      cases hpagination
    · cases h
  | @withPaginators model after text _ h ih =>
    unfold ServiceModel.withPaginators at h
    split at h
    · exact hasTokens_attach ih h
    · cases h

end ServiceModel
end ServiceBindings
