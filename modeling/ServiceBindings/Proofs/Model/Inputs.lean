import ServiceBindings.Proofs.Model.Texts

/-! Inputs of operations that declare none. Each is taken under the name of the operation with
`Request` behind it, and it is an empty structure exactly if nothing else is declared under that
name. -/
namespace ServiceBindings.ServiceModel

/-- The shape that an operation takes is a structure without members. -/
def TakesNothing (model : ServiceModel) (operation : Operation) : Prop :=
  ∃ shape s, Fields.get? model.shapes operation.input = some shape ∧
    shape.kind = .structure s ∧ s.members = []

section
variable {shapes : Fields Shape} {name : String}

/-- What is declared is kept. -/
theorem get?_withInputs_of_some {shape : Shape} (h : Fields.get? shapes name = some shape)
    (operations : Fields Description.Operation) :
    Fields.get? (withInputs shapes operations) name = some shape := by
  induction operations generalizing shapes with
  | nil => exact h
  | cons entry rest ih =>
    obtain ⟨other, described⟩ := entry
    rw [withInputs]
    split_ifs with hnew
    · refine ih ?_
      have hne : name ≠ inputName other := by
        rintro rfl
        rw [h] at hnew
        cases hnew.2
      rw [Fields.get?_set, if_neg hne, h]
    · exact ih h

/-- An input that is missing is added, whatever other inputs are. -/
theorem get?_withInputs_of_none {operations : Fields Description.Operation}
    {described : Description.Operation} (hmem : (name, described) ∈ operations)
    (hinput : described.input = none) (h : Fields.get? shapes (inputName name) = none) :
    Fields.get? (withInputs shapes operations) (inputName name) =
      some (emptyStructure (inputName name)) := by
  induction operations generalizing shapes with
  | nil => cases hmem
  | cons entry rest ih =>
    obtain ⟨other, first⟩ := entry
    rw [withInputs]
    by_cases hname : inputName other = inputName name
    · rw [hname]
      split_ifs with hnew
      · exact get?_withInputs_of_some (by rw [Fields.get?_set, if_pos rfl]) rest
      · rcases List.mem_cons.1 hmem with heq | hmem
        · obtain ⟨rfl, rfl⟩ := Prod.mk.inj heq
          exact absurd ⟨by rw [hinput]; rfl, by rw [h]; rfl⟩ hnew
        · exact ih hmem h
    · have hlater : (name, described) ∈ rest := by
        rcases List.mem_cons.1 hmem with heq | hmem
        · exact absurd (congrArg inputName (Prod.mk.inj heq).1.symm) hname
        · exact hmem
      split_ifs
      · refine ih hlater ?_
        rw [Fields.get?_set, if_neg (Ne.symm hname), h]
      · exact ih hlater h

end

/-- A described shape is an empty structure exactly if it is described as one. -/
theorem isEmpty_shapeOf_iff {name : String} {described : Description.Shape} {shape : Shape}
    (h : shapeOf name described = .ok shape) :
    (∃ s, shape.kind = .structure s ∧ s.members = []) ↔
      described.kind = "structure" ∧ described.members = [] := by
  have hempty {s : Structure} (hs : shape.kind = .structure s) :
      s.members = [] ↔ described.members = [] := by
    have hnames := (names_shapeOf h).2 s hs
    rw [← List.map_eq_nil_iff, hnames, Fields.names, List.map_eq_nil_iff]
  constructor
  · rintro ⟨s, hs, hmembers⟩
    exact ⟨(structureOf_of_shapeOf h hs).1, (hempty hs).1 hmembers⟩
  · rintro ⟨hkind, hmembers⟩
    obtain ⟨kind, hfound, hshape⟩ := bind_eq_ok.1 h
    have hs : kindOf name described = (structureOf name described).map .structure := by
      rw [kindOf, hkind]
      rfl
    obtain ⟨s, -, rfl⟩ := map_eq_ok.1 (hs.symm.trans hfound)
    obtain rfl := Except.ok.inj hshape
    exact ⟨s, rfl, (hempty rfl).2 hmembers⟩

/-- Shapes are found under the names under which they are described. -/
theorem rel_get?_of_shapes {described : Fields Description.Shape} {shapes : Fields Shape}
    (h : described.mapM (fun entry => do return (entry.1, ← shapeOf entry.1 entry.2)) =
      .ok shapes) (name : String) :
    Option.Rel (fun a b => shapeOf name a = .ok b) (Fields.get? described name)
      (Fields.get? shapes name) := by
  refine Fields.rel_get?_of_forall₂ (r := fun name a b => shapeOf name a = .ok b)
    ((forall₂_of_mapM_eq_ok h).imp fun a b hab => ?_) name
  obtain ⟨shape, hshape, heq⟩ := bind_eq_ok.1 hab
  obtain rfl := Except.ok.inj heq
  exact ⟨rfl, hshape⟩

/-- The input of an operation that declares none is what is declared under its name, and else an
empty structure. -/
theorem exists_inputShape {described : Description.Whole} {shapes : Fields Shape}
    (h : described.shapes.mapM (fun entry => do return (entry.1, ← shapeOf entry.1 entry.2)) =
      .ok shapes) {name : String} {operation : Description.Operation}
    (hmem : (name, operation) ∈ described.operations) (hinput : operation.input = none) :
    ∃ shape,
      Fields.get? (withInputs shapes described.operations) (inputName name) = some shape ∧
      (Fields.get? described.shapes (inputName name)).elim
        (.ok (emptyStructure (inputName name))) (shapeOf (inputName name)) = .ok shape := by
  have hrel := rel_get?_of_shapes h (inputName name)
  cases hfound : Fields.get? shapes (inputName name) with
  | none =>
    rw [hfound] at hrel
    cases hdeclared : Fields.get? described.shapes (inputName name) with
    | none => exact ⟨_, get?_withInputs_of_none hmem hinput hfound, rfl⟩
    | some declared =>
      rw [hdeclared] at hrel
      cases hrel
  | some shape =>
    rw [hfound] at hrel
    cases hdeclared : Fields.get? described.shapes (inputName name) with
    | none =>
      rw [hdeclared] at hrel
      cases hrel
    | some declared =>
      rw [hdeclared] at hrel
      cases hrel with
      | some hshape => exact ⟨shape, get?_withInputs_of_some hfound _, hshape⟩

/-- What an operation takes is an empty structure exactly if nothing else is declared for it. -/
theorem takesNothing_iff {model : ServiceModel} {operation : Operation} {shape : Shape}
    {declared? : Option Description.Shape}
    (hshape : Fields.get? model.shapes operation.input = some shape)
    (hsource : declared?.elim (.ok (emptyStructure operation.input)) (shapeOf operation.input) =
      .ok shape) :
    TakesNothing model operation ↔
      ∀ declared, declared? = some declared →
        declared.kind = "structure" ∧ declared.members = [] := by
  have htakes : TakesNothing model operation ↔
      ∃ s, shape.kind = .structure s ∧ s.members = [] := by
    simp only [TakesNothing, hshape, Option.some.injEq, exists_and_left, exists_eq_left']
  rw [htakes]
  cases declared? with
  | none =>
    obtain rfl := Except.ok.inj hsource
    constructor
    · intro _ declared hnone
      cases hnone
    · intro _
      exact ⟨_, rfl, rfl⟩
  | some declared =>
    rw [isEmpty_shapeOf_iff hsource]
    simp only [Option.some.injEq, forall_eq']

/-- An operation that declares no input is recorded with the input of its own name. That is the
shape that is declared under the name, whatever it is, and else an empty structure; so it is an
empty structure exactly if no shape is declared under the name, or only a structure without members.
-/
theorem undeclared_input_empty_iff {text : String} {model : ServiceModel}
    (h : load text = .ok model) :
    ∃ described, (Json.Tree.ofChars? text.toList).bind Description.whole? = some described ∧
      ∀ name operation, Fields.get? described.operations name = some operation →
        operation.input = none →
        ∃ recorded shape, Fields.get? model.operations name = some recorded ∧
          recorded.input = name ++ "Request" ∧
          Fields.get? model.shapes recorded.input = some shape ∧
          (Fields.get? described.shapes recorded.input).elim
            (.ok (emptyStructure recorded.input)) (shapeOf recorded.input) = .ok shape ∧
          (TakesNothing model recorded ↔
            ∀ declared, Fields.get? described.shapes recorded.input = some declared →
              declared.kind = "structure" ∧ declared.members = []) := by
  unfold load at h
  split at h
  case h_2 => cases h
  case h_1 described hread =>
    refine ⟨described, hread, fun name operation hoperation hinput => ?_⟩
    rw [ofDescription] at h
    obtain ⟨protocol, -, h⟩ := bind_eq_ok.1 h
    obtain ⟨shapes, hshapes, h⟩ := bind_eq_ok.1 h
    obtain rfl := Except.ok.inj h
    have hname : (operationOf name operation).input = inputName name := by
      rw [operationOf, hinput]
      rfl
    have hrecorded := Fields.get?_mapEntries operationOf described.operations name
    rw [hoperation, Option.map_some] at hrecorded
    obtain ⟨shape, hshape, hsource⟩ :=
      exists_inputShape hshapes (Fields.mem_of_get? hoperation) hinput
    rw [← hname] at hshape hsource
    exact ⟨operationOf name operation, shape, hrecorded, hname, hshape, hsource,
      takesNothing_iff hshape hsource⟩

/-- A description of a service for machines. No operation declares an input, and shapes are declared
under the names of two of the inputs. -/
def machinesDocument : Document := .object [
  ("metadata", .object [("protocol", .string "json"), ("apiVersion", .string "1")]),
  ("operations", .object [("Ping", .object []), ("Stop", .object []), ("Turn", .object [])]),
  ("shapes", .object [
    ("StopRequest", .object [("type", .string "string")]),
    ("TurnRequest", .object [("type", .string "structure"), ("members", .object [
      ("angle", .object [("shape", .string "Angle")])])]),
    ("Angle", .object [("type", .string "integer")])])]

def plainOperation (name : String) : Operation :=
  ⟨name, inputName name, none, "POST", "/", none, none⟩

/-- The model that `machinesDocument` describes. -/
def machinesModel : ServiceModel where
  service := ⟨"Service", "1", .json, none, none, none⟩
  shapes := [
    ("StopRequest", ⟨"StopRequest", .scalar .string, none, none, none, false⟩),
    ("TurnRequest", ⟨"TurnRequest", .structure
      ⟨[⟨"angle", "Angle", false, .body, none, false, none, false, none⟩], none⟩,
      none, none, none, false⟩),
    ("Angle", ⟨"Angle", .scalar .integer, none, none, none, false⟩),
    ("PingRequest", emptyStructure "PingRequest")]
  operations := [("Ping", plainOperation "Ping"), ("Stop", plainOperation "Stop"),
    ("Turn", plainOperation "Turn")]

theorem load_machinesDocument :
    load (Json.Node.ofDocument machinesDocument).text = .ok machinesModel :=
  load_text (by decide) rfl

theorem undeclared_input_of_machines :
    load (Json.Node.ofDocument machinesDocument).text = .ok machinesModel ∧
      TakesNothing machinesModel (plainOperation "Ping") := by
  obtain ⟨described, hread, hinputs⟩ := undeclared_input_empty_iff load_machinesDocument
  rw [Json.ofChars?_text (by decide), Option.bind_some] at hread
  have hfound : (Description.whole? (Json.treeOf machinesDocument)).map (fun described =>
      (Fields.get? described.operations "Ping", Fields.get? described.shapes "PingRequest")) =
        some (some ⟨{}, none, none⟩, none) := rfl
  rw [hread, Option.map_some, Option.some.injEq, Prod.mk.injEq] at hfound
  obtain ⟨recorded, shape, hrecorded, hinput, -, -, hiff⟩ := hinputs "Ping" _ hfound.1 rfl
  obtain rfl : plainOperation "Ping" = recorded := Option.some.inj hrecorded
  refine ⟨load_machinesDocument, hiff.2 fun declared hdeclared => ?_⟩
  cases hfound.2.symm.trans hdeclared

/-- Two operations without inputs of their own take what happens to be declared under the names of
their inputs: a text, which is no structure at all, and a structure with a member. -/
theorem undeclared_inputs_not_empty :
    load (Json.Node.ofDocument machinesDocument).text = .ok machinesModel ∧
      (Description.whole? (Json.treeOf machinesDocument)).map (fun described =>
        described.operations.map fun entry => entry.2.input) = some [none, none, none] ∧
      ¬TakesNothing machinesModel (plainOperation "Stop") ∧
      ¬TakesNothing machinesModel (plainOperation "Turn") := by
  refine ⟨load_machinesDocument, rfl, ?_, ?_⟩
  · rintro ⟨shape, s, hshape, hkind, -⟩
    obtain rfl := Option.some.inj hshape
    cases hkind
  · rintro ⟨shape, s, hshape, hkind, hmembers⟩
    obtain rfl := Option.some.inj hshape
    obtain rfl := ShapeKind.structure.inj hkind
    cases hmembers

end ServiceBindings.ServiceModel
