import ServiceBindings.Proofs.Steps
import ServiceBindings.Proofs.Value.Typing
import ServiceBindings.Request.Basic
import ServiceBindings.Response.Basic

/-! Messages whose members are all carried by the body. -/
namespace ServiceBindings
open Plan (Binding Call CarriedByBody Layout Target)

theorem Http.Body.bytes?_ofText (s : String) :
    (Http.Body.ofText s).bytes? = some (Text.utf8 s) := by
  unfold Http.Body.ofText
  split_ifs with h
  · subst h
    rfl
  · rfl

theorem Plan.Layout.payload?_of_carriedByBody {layout : Layout}
    (h : CarriedByBody layout.members) : layout.payload? = none :=
  List.find?_eq_none.2 fun member hmem => by simp [h.body member hmem]

/-- Without content in the body, no member is present. -/
theorem Request.fields_eq_nil {members : List (Binding × Target)} {fields : Fields Value}
    (h : CarriedByBody members)
    (hknown : ∀ name ∈ Fields.names fields, ∃ member ∈ members, member.1.name = name)
    (hempty : Request.hasBodyContent members fields = false) : fields = [] := by
  have hnone : ∀ name, name ∉ Fields.names fields := by
    intro name hmem
    obtain ⟨member, hmember, rfl⟩ := hknown name hmem
    have habsent := List.any_eq_false.1 hempty member hmember
    rw [← Fields.isSome_get?] at hmem
    simp [h.body member hmember, hmem] at habsent
  cases fields with
  | nil => rfl
  | cons entry rest => exact absurd (by simp [Fields.names]) (hnone entry.1)

namespace Response

/-- Nothing is added to what the body carries. -/
theorem addMembers_of_carriedByBody (response : Http.Response) (record : Record)
    {members : List (Binding × Target)} (h : ∀ member ∈ members, member.1.location = .body) :
    addMembers response record members = .ok record := by
  induction members with
  | nil => rfl
  | cons member rest ih =>
    obtain ⟨binding, target⟩ := member
    have hbody : binding.location = .body := h (binding, target) List.mem_cons_self
    rw [addMembers]
    simp only [hbody, memberDocument?]
    exact ih fun member hmem => h member (List.mem_cons_of_mem _ hmem)

/-- A response is read as its body is. -/
theorem read_of_carriedByBody {call : Call} {layout : Layout} {response : Http.Response}
    {doc : Document} {found : Record} (hplace : CarriedByBody layout.members)
    (houtput : call.output = some layout) (hwrapper : call.operation.resultWrapper = none)
    (hdecode : decode (originOf call.service.protocol) response.body = .ok doc)
    (hread : readRecord (originOf call.service.protocol) "" layout doc = .ok found) :
    read call response = .ok found := by
  have hbody : bodyRecord call layout response = .ok found := by
    unfold bodyRecord
    rw [Layout.payload?_of_carriedByBody hplace]
    dsimp only
    split_ifs with hany
    · rw [decodeBody, hdecode]
      show ofDocument call doc = _
      simp only [ofDocument, houtput, hwrapper, hread]
      rfl
    · have hnil : layout.members = [] := by
        by_contra hne
        obtain ⟨member, rest, heq⟩ := List.exists_cons_of_ne_nil hne
        have hmem : member ∈ layout.members := heq ▸ List.mem_cons_self
        exact hany (List.any_eq_true.2 ⟨member, hmem, by simp [hplace.body member hmem]⟩)
      rw [readRecord, hnil] at hread
      obtain ⟨docs, -, hread⟩ := bind_eq_ok.1 hread
      obtain rfl := Except.ok.inj hread
      rfl
  rw [read, houtput]
  show (bodyRecord call layout response >>= fun record => addMembers _ record _) = _
  rw [hbody, ok_bind, addMembers_of_carriedByBody response found hplace.body]

end Response
end ServiceBindings
