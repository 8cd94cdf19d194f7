import ServiceBindings.Proofs.Response.Headers
import ServiceBindings.Proofs.Text.Utf8
import ServiceBindings.Request.Basic

/-! Members that make up a whole body without being structures: what is sent, and what is read when
the same bytes come back. -/
namespace ServiceBindings
open Plan (Binding Call HaveOwnNames Layout Target)

/-- A value makes up a whole body as its target says: a text or bytes in memory. -/
inductive FillsBody : Target → Value → Prop
  | string (format : Option Time.Format) (streaming : Bool) (s : String) :
    FillsBody (.scalar .string format streaming) (.string s)
  | enumeration (e : Plan.Enumeration) (s : String) : FillsBody (.enumeration e) (.string s)
  | blob (format : Option Time.Format) (streaming : Bool) (bytes : Bytes) :
    FillsBody (.scalar .blob format streaming) (.blob bytes)

/-- What a value of a whole body is read back as: a text of an enumeration becomes its bytes. -/
def Plan.Target.readBack : Target → Value → Value
  | .enumeration _, .string s => .blob (Text.utf8 s)
  | _, value => value

theorem FillsBody.readBack_eq_iff {target : Target} {value : Value} (h : FillsBody target value) :
    target.readBack value = value ↔ ∀ e, target ≠ .enumeration e := by
  cases h <;> simp [Plan.Target.readBack]

namespace Request

/-- A value that makes up the whole body is sent as its own bytes. -/
theorem body_of_fillsBody {call : Call} (hprotocol : call.service.protocol ≠ .query)
    {binding : Binding} {target : Target} (hpayload : call.input.payload? = some (binding, target))
    {record : Record} {value : Value} (hvalue : record.get? binding.name = some value)
    (hfills : FillsBody target value) : body call record = rawBody binding target value := by
  unfold body
  cases hprotocol' : call.service.protocol with
  | query => exact absurd hprotocol' hprotocol
  | xml =>
    dsimp only
    rw [xmlBody, hpayload]
    dsimp only
    rw [hvalue]
    cases hfills <;> rfl
  | json =>
    dsimp only
    rw [jsonBody, hpayload]
    dsimp only
    rw [hvalue]
    cases hfills <;> rfl

end Request

namespace Response
open Generate (Memory Run)

theorem payloadValue_of_fillsBody (binding : Binding) {target : Target} {value : Value}
    (h : FillsBody target value) :
    ∃ content, Request.rawBody binding target value = .ok (.bytes content) ∧
      ∀ origin headers, payloadValue origin binding target ⟨200, headers, content⟩ =
        .ok (some (target.readBack value)) := by
  cases h with
  | string format streaming s =>
    refine ⟨Text.utf8 s, rfl, fun origin headers => ?_⟩
    rw [payloadValue, Text.ofUtf8Lossy_utf8]
    rfl
  | enumeration e s => exact ⟨Text.utf8 s, rfl, fun _ _ => rfl⟩
  | blob format streaming bytes => exact ⟨bytes, rfl, fun _ _ => rfl⟩

/-- Without headers, members outside the body can always be read. -/
theorem exists_memberValue_of_no_headers (status : Nat) (content : Bytes)
    (member : Binding × Target) :
    ∃ value, memberValue ⟨status, [], content⟩ member = .ok value := by
  have hdoc : memberDocument? member.1 member.2 [] = none := by
    unfold memberDocument?
    split <;> rfl
  by_cases hstatus : member.1.location = .statusCode
  · exact ⟨_, by rw [memberValue, if_pos hstatus]⟩
  · exact ⟨none, by rw [memberValue, if_neg hstatus, hdoc]⟩

/-- A member that makes up the whole body comes back with it: texts and bytes are the same as
before, and the text of an enumeration has become its bytes. -/
theorem payload_read_back {writer reader : Call} (hprotocol : writer.service.protocol ≠ .query)
    (houtput : reader.output = some writer.input) (hnames : HaveOwnNames writer.input.members)
    {binding : Binding} {target : Target}
    (hpayload : writer.input.payload? = some (binding, target)) {record : Record} {value : Value}
    (hvalue : record.get? binding.name = some value) (hfills : FillsBody target value) :
    ∃ content, Request.body writer record = .ok (.bytes content) ∧
      (∃ found, read reader ⟨200, [], content⟩ = .ok found) ∧
      ∀ headers found, read reader ⟨200, headers, content⟩ = .ok found →
        found.get? binding.name = some (target.readBack value) ∧
          (found.get? binding.name = record.get? binding.name ↔ ∀ e, target ≠ .enumeration e) := by
  obtain ⟨content, hcontent, hread⟩ := payloadValue_of_fillsBody binding hfills
  have hrecord (headers : Http.Headers) : bodyRecord reader writer.input ⟨200, headers, content⟩ =
      .ok ((emptyRecord (some writer.input)).set binding.name (target.readBack value)) := by
    unfold bodyRecord
    dsimp only
    rw [hpayload]
    dsimp only
    rw [hread]
    rfl
  refine ⟨content, (Request.body_of_fillsBody hprotocol hpayload hvalue hfills).trans hcontent,
    (exists_read_iff houtput).2 ⟨⟨_, hrecord []⟩, fun member _ =>
      exists_memberValue_of_no_headers _ _ member⟩, fun headers found hfound => ?_⟩
  have hmem : (binding, target) ∈ writer.input.members := List.mem_of_find?_eq_some hpayload
  have hlocation : binding.location = .payload := by simpa using List.find?_some hpayload
  have hnone : memberValue ⟨200, headers, content⟩ (binding, target) = .ok none :=
    memberValue_eq_none (by simp [hlocation]) (by simp [hlocation]) (by simp [hlocation])
  have hback : found.get? binding.name = some (target.readBack value) := by
    rw [read_eq_bind houtput, hrecord, ok_bind] at hfound
    rw [get?_of_addMembers hnames hfound hmem hnone, Record.get?_set, if_pos rfl, Option.none_or]
  exact ⟨hback, by rw [hback, hvalue, Option.some.injEq, hfills.readBack_eq_iff]⟩

def lineLayout : Layout where
  heading := ⟨"Line", ⟨.input, "Line"⟩, none, none⟩
  members := [
    (⟨"text", "text", "text", false, .payload, false, none⟩, .scalar .string none false)]

def sayCall : Call where
  service := Request.cardsModel.service
  operation := ⟨"Say", "Line", some "Line", "POST", "/", none, none⟩
  ident := ⟨.client, "say"⟩
  input := lineLayout
  output := some lineLayout
  template := ⟨[.literal "/"], none⟩

theorem compiled_sayCall : sayCall.Compiled :=
  ⟨Memory, inferInstance, Run.start ⟨Request.cardsModel, {}⟩ {}, "Say",
    ⟨_, _, [], .load Request.load_cardsDocument, rfl⟩, rfl⟩

/-- A line comes back as it was sent, also where its text is longer in bytes. -/
theorem payload_read_back_of_line :
    let record : Record := ⟨"Line", [("text", .string "é")]⟩
    sayCall.Compiled ∧ ∃ found,
      Request.body sayCall record = .ok (.bytes [0xC3, 0xA9]) ∧
      read sayCall ⟨200, [], [0xC3, 0xA9]⟩ = .ok found ∧
      found.get? "text" = record.get? "text" := by
  intro record
  have hprotocol : sayCall.service.protocol ≠ .query := by decide
  have hnames : HaveOwnNames sayCall.input.members := by
    rw [HaveOwnNames]
    decide
  have houtput : sayCall.output = some sayCall.input := rfl
  have hvalue : record.get? "text" = some (.string "é") := rfl
  have hsent : Request.body sayCall record = .ok (.bytes [0xC3, 0xA9]) := rfl
  obtain ⟨content, hbody, ⟨found, hfound⟩, hback⟩ :=
    payload_read_back hprotocol houtput hnames rfl hvalue (.string none false "é")
  cases hsent.symm.trans hbody
  exact ⟨compiled_sayCall, found, hsent, hfound, (hback [] found hfound).2.2 fun _ => by simp⟩

/-- The grade of a card is sent as its text, and comes back as bytes. -/
theorem enumeration_comes_back_as_bytes :
    let record : Record := ⟨"Card", [("grade", .string "A")]⟩
    Request.cardCall.Compiled ∧ Request.body Request.cardCall record = .ok (.bytes [0x41]) ∧
      ∃ found, read Request.cardCall ⟨200, [], [0x41]⟩ = .ok found ∧
        found.get? "grade" = some (.blob [0x41]) := by
  intro record
  exact ⟨Request.compiled_cardCall, rfl, _, rfl, rfl⟩

end Response
end ServiceBindings
