import Mathlib.Logic.Relation
import ServiceBindings.Proofs.Response.Typing
import ServiceBindings.Proofs.Value.Looks
import ServiceBindings.Proofs.Value.ReadBack

/-! Members for which an operation does not ask change nothing in what is read from a document. -/
namespace ServiceBindings
open Document (EditedAt Step)
open Generate (Memory Run)
open Plan (Binding Call Layout Target)

theorem Document.EditedAt.isNull {edit : Edit} {path : List Step} {doc later : Document}
    (h : EditedAt edit path doc later) : doc.isNull = false ∧ later.isNull = false := by
  obtain ⟨_, _, rfl, rfl⟩ | ⟨_, _, rfl, rfl⟩ | ⟨-, -, _, _, rfl, rfl, -⟩ := h.cases
  all_goals exact ⟨rfl, rfl⟩

/-- What is read alike as a structure's value is read as the same record. -/
theorem SameReading.readRecord_eq {origin : Origin} {layout : Layout} {doc later : Document}
    (h : SameReading origin layout.toTarget doc later) (hdoc : doc.isNull = false)
    (hlater : later.isNull = false) (path : String) :
    readRecord origin path layout doc = readRecord origin path layout later := by
  have hsame := h path
  rw [readValue, readValue, hdoc, hlater, readPresent_toTarget, readPresent_toTarget] at hsame
  cases hfound : readRecord origin path layout doc <;>
    cases hfound' : readRecord origin path layout later <;>
      simp [hfound, hfound', Except.map] at hsame
  · rw [hsame]
  · exact congrArg _ (Record.toValue_inj hsame)

namespace Response

/-- At a place in the document of a body, an operation looks for something. -/
inductive Looks (call : Call) : List Step → Look → Prop where
  | output {layout : Layout} {path : List Step} {look : Look} : call.output = some layout →
    call.operation.resultWrapper = none →
      layout.toTarget.Looks (originOf call.service.protocol) path look → Looks call path look
  | wrapper {layout : Layout} {wrapper : String} : call.output = some layout →
    call.operation.resultWrapper = some wrapper → Looks call [] (.elements wrapper)
  | result {layout : Layout} {wrapper : String} {path : List Step} {look : Look} :
    call.output = some layout → call.operation.resultWrapper = some wrapper →
      layout.toTarget.Looks (originOf call.service.protocol) path look →
        Looks call (.member wrapper :: path) look

/-- An edit that no look at its place notices changes nothing in what is read from a document. -/
theorem ofDocument_of_editedAt {call : Call} {edit : Edit} {path : List Step}
    {doc later : Document} (h : EditedAt edit path doc later)
    (hlook : ∀ look, Looks call path look →
      ¬look.Notices (originOf call.service.protocol) edit) :
    ofDocument call doc = ofDocument call later := by
  unfold ofDocument
  cases houtput : call.output with
  | none => rfl
  | some layout =>
    cases hwrapper : call.operation.resultWrapper with
    | none =>
      dsimp only
      rw [(h.sameReading layout.toTarget fun look hlooks =>
        hlook look (.output houtput hwrapper hlooks)).readRecord_eq h.isNull.1 h.isNull.2]
    | some wrapper =>
      dsimp only
      have hfound := h.get? wrapper fun hpath _ heq => by
        subst hpath heq
        exact hlook _ (.wrapper houtput hwrapper) rfl
      obtain ⟨hdoc, hlater⟩ | ⟨a, b, hdoc, hlater, hab⟩ := optionRel_cases hfound
      · rw [hdoc, hlater]
      · rw [hdoc, hlater]
        obtain rfl | ⟨rest, rfl, hedited⟩ := hab
        · rfl
        · dsimp only
          rw [(hedited.sameReading layout.toTarget fun look hlooks =>
            hlook look (.result houtput hwrapper hlooks)).readRecord_eq hedited.isNull.1
              hedited.isNull.2]

/-- A member comes into an object of a document, under a name for which no look at this object
asks. -/
def GainsUnknown (call : Call) (doc later : Document) : Prop :=
  ∃ path name value, EditedAt (.insert name value) path doc later ∧
    ∀ look, Looks call path look → ¬look.AsksFor (originOf call.service.protocol) name

/-- However many members come in for which an operation does not ask, it reads the same record or
meets the same fault. -/
theorem unknown_members_ignored {call : Call} {doc later : Document}
    (h : Relation.ReflTransGen (GainsUnknown call) doc later) :
    ofDocument call doc = ofDocument call later := by
  induction h with
  | refl => rfl
  | tail _ hlast ih =>
    obtain ⟨path, name, value, hedited, hlook⟩ := hlast
    rw [ih, ofDocument_of_editedAt hedited hlook]

/-- The document of a parcel, with what stands behind the owner's name and behind the tags. -/
def parcelDocument (behindName behindTags : List (String × Document)) : Document :=
  .object ([("owner", .object ([("name", .string "a")] ++ behindName)),
    ("tags", .object [("member", .string "b")])] ++ behindTags)

/-- These are all names for which is asked in a parcel, anywhere. -/
theorem mem_of_asksFor_parcel {path : List Step} {look : Look} {name : String}
    (h : Looks (parcelsCall "Fetch" parcelLayout) path look) (hasks : look.AsksFor .xml name) :
    name ∈ ["owner", "tags", "name", "member"] := by
  have howner {path : List Step} (h : ownerLayout.toTarget.Looks .xml path look) :
      name = "name" := by
    cases h with
    | «structure» =>
      obtain ⟨member, hmem, hname⟩ := hasks
      obtain rfl := List.mem_singleton.1 hmem
      exact (Option.some.inj hname).symm
    | member hmem hname h =>
      obtain rfl := List.mem_singleton.1 hmem
      cases h
      cases hasks
  have htags {path : List Step}
      (h : (Target.list "L" (.scalar .string none false) none false).Looks .xml path look) :
      name = "member" := by
    cases h with
    | items horigin => exact absurd rfl horigin
    | item horigin => exact absurd rfl horigin
    | itemElements => exact hasks
    | itemElement _ _ h =>
      cases h
      cases hasks
  cases h with
  | output houtput _ h =>
    obtain rfl := Option.some.inj houtput
    cases h with
    | «structure» =>
      obtain ⟨member, hmem, hname⟩ := hasks
      simp only [parcelLayout, List.mem_cons, List.not_mem_nil, or_false] at hmem
      obtain rfl | rfl | rfl := hmem
      · cases hname
      · simp [← Option.some.inj hname]
      · simp [← Option.some.inj hname]
    | member hmem hname h =>
      simp only [parcelLayout, List.mem_cons, List.not_mem_nil, or_false] at hmem
      obtain rfl | rfl | rfl := hmem
      · cases hname
      · simp [howner h]
      · simp [htags h]
  | wrapper _ hwrapper => cases hwrapper
  | result _ hwrapper => cases hwrapper

/-- An owner gains an age, and then the parcel a list. -/
theorem parcel_read_with_unknown_members :
    Relation.ReflTransGen (GainsUnknown (parcelsCall "Fetch" parcelLayout))
      (parcelDocument [] []) (parcelDocument [("age", .string "7")] [("marks", .array [.null])]) ∧
    ofDocument (parcelsCall "Fetch" parcelLayout) (parcelDocument [] []) =
      ofDocument (parcelsCall "Fetch" parcelLayout)
        (parcelDocument [("age", .string "7")] [("marks", .array [.null])]) := by
  have hage : GainsUnknown (parcelsCall "Fetch" parcelLayout) (parcelDocument [] [])
      (parcelDocument [("age", .string "7")] []) := by
    refine ⟨[.member "owner"], "age", .string "7", ⟨_, _, rfl, rfl, ?_⟩,
      fun look hlook hasks => absurd (mem_of_asksFor_parcel hlook hasks) (by decide)⟩
    exact .cons ⟨rfl, .inr ⟨rfl, [("name", .string "a")], [], rfl, rfl⟩⟩
      (.cons ⟨rfl, .inl rfl⟩ .nil)
  have hmarks : GainsUnknown (parcelsCall "Fetch" parcelLayout)
      (parcelDocument [("age", .string "7")] [])
      (parcelDocument [("age", .string "7")] [("marks", .array [.null])]) :=
    ⟨[], "marks", .array [.null], ⟨_, [], rfl, rfl⟩,
      fun look hlook hasks => absurd (mem_of_asksFor_parcel hlook hasks) (by decide)⟩
  have hall := (Relation.ReflTransGen.single hage).tail hmarks
  exact ⟨hall, unknown_members_ignored hall⟩

/-- A structure of which two members stand under one name. -/
def twinLayout : Layout where
  heading := ⟨"Twin", ⟨.output, "Twin"⟩, none, none⟩
  members := [
    (⟨"owner", "owner", "x", false, .body, false, none⟩, ownerLayout.toTarget),
    (⟨"tags", "tags", "x", false, .body, false, none⟩,
      .list "L" (.scalar .string none false) none false)]

/-- An object that is read as an owner gains a member for which no owner asks, but the list does as
which the same object is read. -/
theorem unknown_member_of_twin_is_read :
    let call := parcelsCall "Twin" twinLayout
    let doc : Document := .object [("x", .object [("name", .string "a")])]
    let later : Document :=
      .object [("x", .object [("name", .string "a"), ("member", .string "b")])]
    call.Compiled ∧ EditedAt (.insert "member" (.string "b")) [.member "x"] doc later ∧
    Looks call [.member "x"] (.structure ownerLayout.members) ∧
    ¬(Look.structure ownerLayout.members).AsksFor (originOf call.service.protocol) "member" ∧
    ofDocument call doc ≠ ofDocument call later := by
  intro call doc later
  refine ⟨⟨Memory, inferInstance, Run.start ⟨parcelsModel, {}⟩ {}, "Twin",
    ⟨_, _, [], .load load_parcelsDocument, rfl⟩, rfl⟩, ⟨_, _, rfl, rfl, ?_⟩, ?_, ?_, ?_⟩
  · exact .cons ⟨rfl, .inr ⟨rfl, [("name", .string "a")], [], rfl, rfl⟩⟩ .nil
  · exact .output rfl rfl (.member List.mem_cons_self rfl .structure)
  · rintro ⟨member, hmem, hname⟩
    obtain rfl := List.mem_singleton.1 hmem
    exact absurd hname (by decide)
  · have hdoc : ofDocument call doc = .ok ⟨"Twin",
        [("owner", .structure "Owner" [("name", .string "a")]), ("tags", .list [])]⟩ := rfl
    have hlater : ofDocument call later = .ok ⟨"Twin",
        [("owner", .structure "Owner" [("name", .string "a")]),
          ("tags", .list [.string "b"])]⟩ := rfl
    rw [hdoc, hlater]
    simp

end Response
end ServiceBindings
