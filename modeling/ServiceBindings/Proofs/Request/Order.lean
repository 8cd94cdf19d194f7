import ServiceBindings.Client.Basic
import ServiceBindings.Proofs.Request.FormBody
import ServiceBindings.Proofs.Request.Kinds
import ServiceBindings.Proofs.Value.Order

/-! Requests do not depend on the order in which members were set. -/
namespace ServiceBindings
open Plan (Binding Call Layout Segment Target)
open Value (Reordered SameEntries SameMembers sameEntries_of_map)

mutual

/-- The first fault of a value is the same in whatever order members were set. -/
theorem validateValue_eq (field : String) (target : Target) {value other : Value}
    (h : Reordered value other) :
    validateValue field value target = validateValue field other target := by
  cases target with
  | scalar | enumeration => cases h <;> rfl
  | list shape item itemName flattened =>
    cases h with
    | list hitems =>
      exact forM_eq_forM_of_forall₂ hitems fun a b hab => validateValue_eq field item hab
    | refl | map | «structure» => rfl
  | map shape key target keyName valueName flattened =>
    cases h with
    | map hkeys hvalues =>
      refine forM_eq_forM_of_forall₂ (sameEntries_of_map hkeys hvalues) fun a b hab => ?_
      rw [hab.1, validateValue_eq field target hab.2]
    | refl | list | «structure» => rfl
  | «structure» heading members =>
    cases h with
    | «structure» shape hfields => exact validateMembers_eq heading.shape members hfields
    | refl | list | map => rfl

theorem validateMembers_eq (shape : String) (members : List (Binding × Target))
    {fields others : Fields Value} (h : SameMembers fields others) :
    validateMembers shape fields members = validateMembers shape others members := by
  match members with
  | [] => rfl
  | (binding, target) :: rest =>
    rw [validateMembers, validateMembers, validateMembers_eq shape rest h]
    rcases h.cases binding.name with ⟨hnone, hnone'⟩ | ⟨value, other, hvalue, hother, hsame⟩
    · rw [hnone, hnone']
    · rw [hvalue, hother]
      simp only [validateValue_eq binding.name target hsame]

end

theorem prepareInput_typed (layout : Layout) (record : Record) :
    prepareInput layout (.typed record) =
      if record.shape = layout.heading.shape then
        (validate layout record).map fun _ => record
      else .error (.wrongShape layout.heading.shape record.shape) := by
  unfold prepareInput createInput
  by_cases hshape : record.shape = layout.heading.shape
  · simp only [hshape, if_true, ok_bind]
    cases validate layout record <;> rfl
  · simp only [hshape, if_false, error_bind]

/-- A record is refused for the same fault, or accepted, in whatever order members were set. -/
theorem prepareInput_of_reordered (layout : Layout) {record other : Record}
    (h : Reordered record.toValue other.toValue) :
    (∃ fault, prepareInput layout (.typed record) = .error fault ∧
      prepareInput layout (.typed other) = .error fault) ∨
    (prepareInput layout (.typed record) = .ok record ∧
      prepareInput layout (.typed other) = .ok other) := by
  obtain ⟨hshape, hfields⟩ := h.ofRecord
  have hvalidate : validate layout record = validate layout other :=
    validateMembers_eq layout.heading.shape layout.members hfields
  rw [prepareInput_typed, prepareInput_typed, hshape, hvalidate]
  by_cases hlayout : other.shape = layout.heading.shape
  · rw [if_pos hlayout, if_pos hlayout]
    cases validate layout other with
    | error fault => exact .inl ⟨fault, rfl, rfl⟩
    | ok _ => exact .inr ⟨rfl, rfl⟩
  · rw [if_neg hlayout, if_neg hlayout]
    exact .inl ⟨_, rfl, rfl⟩

namespace Request

theorem wrongKind_eq {α : Type} (path : String) (target : Target) {value other : Value}
    (h : Reordered value other) :
    (wrongKind path target value : Except Error α) = wrongKind path target other := by
  rw [wrongKind, wrongKind, h.kind]

theorem scalarText_eq (form : Time.Format) (path : String) (target : Target)
    {value other : Value} (h : Reordered value other) :
    scalarText form path target value = scalarText form path target other := by
  cases h with
  | refl => rfl
  | list | map | «structure» =>
    cases target with
    | scalar kind => cases kind <;> rfl
    | enumeration | list | map | «structure» => rfl

section
variable {α : Type} (path : String)

theorem eachItem_eq {step : String → Value → Except Error (List α)} {items others : List Value}
    (h : List.Forall₂ Reordered items others)
    (hstep : ∀ path a b, Reordered a b → step path a = step path b) (position : Nat) :
    eachItem step path position items = eachItem step path position others := by
  induction h generalizing position with
  | nil => rfl
  | cons hab _ ih => rw [eachItem, eachItem, hstep _ _ _ hab, ih]

theorem eachEntry_eq {step : String → String → Value → Except Error (List α)}
    {entries others : List (String × Value)} (h : SameEntries entries others)
    (hstep : ∀ key path a b, Reordered a b → step key path a = step key path b) :
    eachEntry step path entries = eachEntry step path others := by
  induction h with
  | nil => rfl
  | @cons a b entries others hab _ ih =>
    rw [eachEntry, eachEntry, hab.1, hstep _ _ _ _ hab.2, ih]

end

mutual

theorem formNode_eq (path : String) (target : Target) {value other : Value}
    (h : Reordered value other) : formNode path value target = formNode path other target := by
  cases target with
  | scalar | enumeration =>
    rw [formNode_of_isSimple path value (by trivial), formNode_of_isSimple path other (by trivial),
      scalarText_eq _ path _ h]
  | list shape item itemName flattened =>
    cases h with
    | list hitems =>
      rw [formNode, formNode, eachItem_eq _ hitems fun path a b hab => ?_]
      rw [formNode_eq path item hab]
    | refl | map | «structure» => rfl
  | map shape key target keyName valueName flattened =>
    cases h with
    | map hkeys hvalues =>
      rw [formNode, formNode,
        eachEntry_eq _ (sameEntries_of_map hkeys hvalues) fun key path a b hab => ?_]
      rw [formNode_eq path target hab]
    | refl | list | «structure» => rfl
  | «structure» heading members =>
    cases h with
    | «structure» shape hfields =>
      rw [formNode, formNode, formFields_eq path members hfields]
    | refl | list | map => rfl

theorem formFields_eq (path : String) (members : List (Binding × Target))
    {fields others : Fields Value} (h : SameMembers fields others) :
    formFields path fields members = formFields path others members := by
  match members with
  | [] => rfl
  | (binding, target) :: rest =>
    rw [formFields, formFields, formFields_eq path rest h]
    rcases h.cases binding.name with ⟨hnone, hnone'⟩ | ⟨value, other, hvalue, hother, hsame⟩
    · rw [hnone, hnone']
    · rw [hvalue, hother]
      simp only [formNode_eq _ target hsame]

end

theorem jsonScalar_eq (path : String) (target : Target) {value other : Value}
    (h : Reordered value other) :
    jsonScalar path target value = jsonScalar path target other := by
  cases h with
  | refl => rfl
  | list | map | «structure» =>
    cases target with
    | scalar kind => cases kind <;> rfl
    | enumeration | list | map | «structure» => rfl

mutual

theorem jsonNode_eq (path : String) (target : Target) {value other : Value}
    (h : Reordered value other) : jsonNode path value target = jsonNode path other target := by
  cases target with
  | scalar | enumeration =>
    rw [jsonNode_of_isSimple path value (by trivial), jsonNode_of_isSimple path other (by trivial),
      jsonScalar_eq path _ h]
  | list shape item itemName flattened =>
    cases h with
    | list hitems =>
      rw [jsonNode, jsonNode, eachItem_eq _ hitems fun path a b hab => ?_]
      rw [jsonNode_eq path item hab]
    | refl | map | «structure» => rfl
  | map shape key target keyName valueName flattened =>
    cases h with
    | map hkeys hvalues =>
      rw [jsonNode, jsonNode,
        eachEntry_eq _ (sameEntries_of_map hkeys hvalues) fun key path a b hab => ?_]
      rw [jsonNode_eq path target hab]
    | refl | list | «structure» => rfl
  | «structure» heading members =>
    cases h with
    | «structure» shape hfields =>
      rw [jsonNode, jsonNode, jsonMembers_eq path members hfields]
    | refl | list | map => rfl

theorem jsonMembers_eq (path : String) (members : List (Binding × Target))
    {fields others : Fields Value} (h : SameMembers fields others) :
    jsonMembers path fields members = jsonMembers path others members := by
  match members with
  | [] => rfl
  | (binding, target) :: rest =>
    rw [jsonMembers, jsonMembers, jsonMembers_eq path rest h]
    rcases h.cases binding.name with ⟨hnone, hnone'⟩ | ⟨value, other, hvalue, hother, hsame⟩
    · rw [hnone, hnone']
    · rw [hvalue, hother]
      cases binding.location with
      | body => simp only [jsonNode_eq _ target hsame]
      | _ => rfl

end

mutual

theorem xmlNodes_eq (name : String) (ns : Option Namespace) (path : String) (target : Target)
    {value other : Value} (h : Reordered value other) :
    xmlNodes name ns path value target = xmlNodes name ns path other target := by
  cases target with
  | scalar | enumeration =>
    rw [xmlNodes_of_isSimple name ns path value (by trivial),
      xmlNodes_of_isSimple name ns path other (by trivial), scalarText_eq _ path _ h]
  | list shape item itemName flattened =>
    cases h with
    | list hitems =>
      have heach (name : String) (ns : Option Namespace) := eachItem_eq path hitems
        (fun path a b hab => xmlNodes_eq name ns path item hab) 0
      rw [xmlNodes, xmlNodes]
      simp only [heach]
    | refl | map | «structure» => rfl
  | map shape key target keyName valueName flattened =>
    cases h with
    | map hkeys hvalues =>
      rw [xmlNodes, xmlNodes,
        eachEntry_eq _ (sameEntries_of_map hkeys hvalues) fun key path a b hab => ?_]
      rw [xmlNodes_eq _ none path target hab]
    | refl | list | «structure» => rfl
  | «structure» heading members =>
    cases h with
    | «structure» shape hfields => rw [xmlNodes, xmlNodes, xmlMembers_eq path members hfields]
    | refl | list | map => rfl

theorem xmlMembers_eq (path : String) (members : List (Binding × Target))
    {fields others : Fields Value} (h : SameMembers fields others) (element : Xml.Element) :
    xmlMembers path fields element members = xmlMembers path others element members := by
  match members with
  | [] => rfl
  | (binding, target) :: rest =>
    have hrest (element : Xml.Element) := xmlMembers_eq path rest h element
    rw [xmlMembers, xmlMembers]
    simp only [hrest]
    rcases h.cases binding.name with ⟨hnone, hnone'⟩ | ⟨value, other, hvalue, hother, hsame⟩
    · rw [hnone, hnone']
    · rw [hvalue, hother]
      cases binding.location with
      | body => simp only [scalarText_eq _ _ target hsame, xmlNodes_eq _ _ _ target hsame]
      | _ => rfl

end

theorem memberPairs_eq (binding : Binding) (target : Target) {value other : Value}
    (h : Reordered value other) :
    memberPairs binding target value = memberPairs binding target other := by
  have hscalar := scalarText_eq .dateTime binding.name target h
  cases h with
  | refl => rfl
  | list hitems =>
    cases target with
    | list shape item itemName flattened =>
      refine mapM_eq_mapM_of_forall₂ hitems fun a b hab => ?_
      rw [scalarText_eq _ _ item hab]
    | scalar | enumeration | map | «structure» => simp only [memberPairs, hscalar]
  | map hkeys hvalues =>
    cases target with
    | map shape key target keyName valueName flattened =>
      refine mapM_eq_mapM_of_forall₂ (sameEntries_of_map hkeys hvalues) fun a b hab => ?_
      rw [hab.1, scalarText_eq _ _ target hab.2]
    | scalar | enumeration | list | «structure» => simp only [memberPairs, hscalar]
  | «structure» => cases target <;> simp only [memberPairs, hscalar]

theorem headerText_eq (binding : Binding) (target : Target) {value other : Value}
    (h : Reordered value other) :
    headerText binding target value = headerText binding target other := by
  have hscalar := scalarText_eq .httpDate binding.name target h
  cases h with
  | refl => rfl
  | list hitems =>
    cases target with
    | list shape item itemName flattened =>
      have htexts := mapM_eq_mapM_of_forall₂ hitems fun a b hab =>
        scalarText_eq .httpDate binding.name item hab
      simp only [headerText, htexts]
    | scalar | enumeration | map | «structure» => exact hscalar
  | map | «structure» => cases target <;> exact hscalar

theorem setEntries_eq (start : String) (target : Target) {entries others : List (String × Value)}
    (h : SameEntries entries others) (headers : Http.Headers) :
    setEntries start target headers entries = setEntries start target headers others := by
  induction h generalizing headers with
  | nil => rfl
  | @cons a b entries others hab _ ih =>
    rw [setEntries, setEntries, hab.1, scalarText_eq _ _ target hab.2]
    simp only [ih]

theorem setMember_eq (headers : Http.Headers) (binding : Binding) (target : Target)
    {value other : Value} (h : Reordered value other) :
    setMember headers binding target value = setMember headers binding target other := by
  have htext := headerText_eq binding target h
  have hkind : (wrongKind binding.name target value : Except Error Http.Headers) =
    wrongKind binding.name target other := wrongKind_eq binding.name target h
  unfold setMember
  cases binding.location with
  | header => simp only [htext]
  | headerPrefix =>
    cases h with
    | refl => rfl
    | map hkeys hvalues =>
      cases target with
      | map shape key target keyName valueName flattened =>
        exact setEntries_eq binding.wireName target (sameEntries_of_map hkeys hvalues) headers
      | scalar | enumeration | list | «structure» => exact hkind
    | list | «structure» => cases target <;> exact hkind
  | _ => rfl

section
variable {record other : Record} (h : SameMembers record.fields other.fields)
include h

theorem queryPairs_eq (layout : Layout) : queryPairs layout record = queryPairs layout other := by
  unfold queryPairs
  congr 2
  funext member
  rcases h.cases member.1.name with ⟨hnone, hnone'⟩ | ⟨value, value', hvalue, hvalue', hsame⟩
  · rw [Record.get?, hnone, Record.get?, hnone']
  · rw [Record.get?, hvalue, Record.get?, hvalue']
    exact memberPairs_eq member.1 member.2 hsame

theorem segmentText_eq (layout : Layout) (segment : Segment) :
    segmentText layout record segment = segmentText layout other segment := by
  cases segment with
  | literal s => rfl
  | label member name greedy =>
    unfold segmentText
    rcases h.cases member with ⟨hnone, hnone'⟩ | ⟨value, value', hvalue, hvalue', hsame⟩
    · simp only [Record.get?, hnone, hnone']
    · simp only [Record.get?, hvalue, hvalue']
      cases layout.member? member with
      | none => rfl
      | some found => simp only [scalarText_eq _ _ found.2 hsame]

theorem address_eq (call : Call) : address call record = address call other := by
  have hsegments : segmentText call.input record = segmentText call.input other :=
    funext fun segment => segmentText_eq h call.input segment
  unfold address
  rw [hsegments, queryPairs_eq h]

theorem setMembers_eq (members : List (Binding × Target)) (headers : Http.Headers) :
    setMembers record headers members = setMembers other headers members := by
  induction members generalizing headers with
  | nil => rfl
  | cons member rest ih =>
    obtain ⟨binding, target⟩ := member
    rw [setMembers, setMembers]
    simp only [ih]
    rcases h.cases binding.name with ⟨hnone, hnone'⟩ | ⟨value, value', hvalue, hvalue', hsame⟩
    · simp only [Record.get?, hnone, hnone']
    · simp only [Record.get?, hvalue, hvalue', setMember_eq _ binding target hsame]

theorem headers_eq (call : Call) : headers call record = headers call other := by
  unfold headers
  simp only [setMembers_eq h]

end

theorem hasBodyContent_eq (members : List (Binding × Target)) {fields others : Fields Value}
    (h : SameMembers fields others) :
    hasBodyContent members fields = hasBodyContent members others := by
  unfold hasBodyContent
  congr 1
  funext member
  rcases h.cases member.1.name with ⟨hnone, hnone'⟩ | ⟨value, other, hvalue, hother, -⟩
  · rw [hnone, hnone']
  · rw [hvalue, hother, Option.isSome_some, Option.isSome_some]

theorem rawBody_eq (binding : Binding) (target : Target) {value other : Value}
    (h : Reordered value other) : rawBody binding target value = rawBody binding target other := by
  cases h <;> rfl

theorem xmlDocument_eq (path : String) (root : Xml.Element) (members : List (Binding × Target))
    {fields others : Fields Value} (h : SameMembers fields others) :
    xmlDocument path root fields members = xmlDocument path root others members := by
  unfold xmlDocument
  rw [hasBodyContent_eq members h, xmlMembers_eq path members h]

section
variable {record other : Record} (h : SameMembers record.fields other.fields)
include h

theorem xmlBody_eq (call : Call) : xmlBody call record = xmlBody call other := by
  unfold xmlBody
  cases call.input.payload? with
  | none => exact xmlDocument_eq _ _ _ h
  | some member =>
    obtain ⟨binding, target⟩ := member
    rcases h.cases binding.name with ⟨hnone, hnone'⟩ | ⟨value, value', hvalue, hvalue', hsame⟩
    · simp only [Record.get?, hnone, hnone']
    · have hraw := rawBody_eq binding target hsame
      have hkind : (wrongKind binding.name target value : Except Error Http.Body) =
        wrongKind binding.name target value' := wrongKind_eq binding.name target hsame
      simp only [Record.get?, hvalue, hvalue']
      cases target with
      | «structure» heading members =>
        cases hsame with
        | refl => rfl
        | «structure» shape hfields => exact xmlDocument_eq _ _ members hfields
        | list | map => exact hkind
      | scalar | enumeration | list | map => exact hraw

theorem jsonBody_eq (call : Call) : jsonBody call record = jsonBody call other := by
  unfold jsonBody
  cases call.input.payload? with
  | none => simp only [hasBodyContent_eq _ h, jsonMembers_eq _ _ h]
  | some member =>
    obtain ⟨binding, target⟩ := member
    rcases h.cases binding.name with ⟨hnone, hnone'⟩ | ⟨value, value', hvalue, hvalue', hsame⟩
    · simp only [Record.get?, hnone, hnone']
    · simp only [Record.get?, hvalue, hvalue', jsonNode_eq _ target hsame,
        rawBody_eq binding target hsame]

theorem body_eq (call : Call) : body call record = body call other := by
  unfold body
  rw [xmlBody_eq h, jsonBody_eq h, formBody, formBody, formFields_eq _ _ h]

theorem build_eq (call : Call) (endpoint : String) :
    build call endpoint record = build call endpoint other := by
  unfold build
  rw [address_eq h, headers_eq h, body_eq h]

end

/-- Two records with the same members, in whatever order these were set at any level, are refused
for the same fault or accepted alike, and lead to the same request or the same error. -/
theorem request_eq_of_reordered (call : Call) (endpoint : String) {record other : Record}
    (h : Reordered record.toValue other.toValue) :
    ((∃ fault, prepareInput call.input (.typed record) = .error fault ∧
        prepareInput call.input (.typed other) = .error fault) ∨
      (prepareInput call.input (.typed record) = .ok record ∧
        prepareInput call.input (.typed other) = .ok other)) ∧
    call.request endpoint (.typed record) = call.request endpoint (.typed other) := by
  have hprepared := prepareInput_of_reordered call.input h
  refine ⟨hprepared, ?_⟩
  unfold Call.request
  rcases hprepared with ⟨fault, hrecord, hother⟩ | ⟨hrecord, hother⟩
  · rw [hrecord, hother]
  · rw [hrecord, hother]
    exact congrArg (Except.mapError _) (build_eq h.ofRecord.2 call endpoint)

/-- The members of `queueRecord` from the last to the first, and those of a tag likewise. -/
def turnedQueueRecord : Record where
  shape := "Queue"
  fields := [("rules", .list []),
    ("tags", .list [.structure "Tag" [("on", .boolean true), ("key", .string "x")],
      .structure "Tag" [], .structure "Tag" [("key", .string "100%")]]),
    ("attributes", .map [("a&b", .string "c=d")]), ("name", .string "my queue")]

theorem request_eq_of_turned :
    Reordered queueRecord.toValue turnedQueueRecord.toValue ∧
      (createQueue.request "https://queues" (.typed queueRecord)).toOption.isSome ∧
      createQueue.request "https://queues" (.typed queueRecord) =
        createQueue.request "https://queues" (.typed turnedQueueRecord) := by
  have htag : Reordered (.structure "Tag" [("key", .string "x"), ("on", .boolean true)])
      (.structure "Tag" [("on", .boolean true), ("key", .string "x")]) := by
    refine .structure "Tag" ((Value.sameMembers_iff (by decide) (by decide)).2
      ⟨_, ?_, .swap _ _ []⟩)
    exact .cons ⟨rfl, .refl _⟩ (.cons ⟨rfl, .refl _⟩ .nil)
  have h : Reordered queueRecord.toValue turnedQueueRecord.toValue := by
    refine .structure "Queue" ((Value.sameMembers_iff (by decide) (by decide)).2
      ⟨turnedQueueRecord.fields.reverse, ?_, List.reverse_perm _⟩)
    refine .cons ⟨rfl, .refl _⟩ (.cons ⟨rfl, .refl _⟩ (.cons ⟨rfl, .list ?_⟩
      (.cons ⟨rfl, .refl _⟩ .nil)))
    exact .cons htag (.cons (.refl _) (.cons (.refl _) .nil))
  exact ⟨h, by decide +kernel, (request_eq_of_reordered createQueue "https://queues" h).2⟩

end Request
end ServiceBindings
