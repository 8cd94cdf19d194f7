import ServiceBindings.Proofs.Fields
import ServiceBindings.Proofs.Steps
import ServiceBindings.Proofs.Value.Reading
import ServiceBindings.Response.Basic

/-! What status and headers add to the record of a body: each member is read for itself. -/
namespace ServiceBindings
open Plan (Binding Call HaveOwnNames Layout Target)

namespace Record

theorem get?_set (record : Record) (key name : String) (value : Value) :
    (record.set key value).get? name = if name = key then some value else record.get? name :=
  Fields.get?_set _ _ _ _

end Record

namespace Response
variable {response : Http.Response}

/-- The value that status and headers give a member, if they carry one. -/
def memberValue (response : Http.Response) (member : Binding × Target) :
    Except Error (Option Value) :=
  if member.1.location = .statusCode then .ok (some (.integer response.status))
  else
    match memberDocument? member.1 member.2 response.headers with
    | none => .ok none
    | some doc => (readValue .json member.1.name member.2 doc).mapError .misfit

/-- Gives a member a value, if there is one. -/
def give (record : Record) (name : String) : Option Value → Record
  | some value => record.set name value
  | none => record

theorem get?_give (record : Record) (key name : String) (value : Option Value) :
    (give record key value).get? name =
      if name = key then value.or (record.get? name) else record.get? name := by
  cases value with
  | none => simp [give]
  | some value => simp [give, Record.get?_set]

/-- One member after the other is read and added. -/
theorem addMembers_cons (record : Record) (member : Binding × Target)
    (rest : List (Binding × Target)) :
    addMembers response record (member :: rest) =
      memberValue response member >>= fun value =>
        addMembers response (give record member.1.name value) rest := by
  obtain ⟨binding, target⟩ := member
  rw [addMembers]
  unfold memberValue
  dsimp only
  split_ifs with hstatus
  · rfl
  · cases memberDocument? binding target response.headers with
    | none => rfl
    | some doc =>
      dsimp only
      refine congrArg _ (funext fun value => ?_)
      cases value <;> rfl

/-- All members are added exactly when each can be read. -/
theorem exists_addMembers_iff (record : Record) (members : List (Binding × Target)) :
    (∃ found, addMembers response record members = .ok found) ↔
      ∀ member ∈ members, ∃ value, memberValue response member = .ok value := by
  induction members generalizing record with
  | nil => simp [addMembers]
  | cons member rest ih =>
    rw [addMembers_cons, List.forall_mem_cons]
    constructor
    · rintro ⟨found, h⟩
      obtain ⟨value, hvalue, h⟩ := bind_eq_ok.1 h
      exact ⟨⟨value, hvalue⟩, (ih _).1 ⟨found, h⟩⟩
    · rintro ⟨⟨value, hvalue⟩, hrest⟩
      obtain ⟨found, h⟩ := (ih (give record member.1.name value)).2 hrest
      exact ⟨found, by rw [hvalue, ok_bind, h]⟩

theorem get?_of_addMembers_of_notMem {record found : Record} {members : List (Binding × Target)}
    (h : addMembers response record members = .ok found) {name : String}
    (hname : ∀ member ∈ members, member.1.name ≠ name) : found.get? name = record.get? name := by
  induction members generalizing record with
  | nil => rw [Except.ok.inj h]
  | cons member rest ih =>
    obtain ⟨hne, hrest⟩ := List.forall_mem_cons.1 hname
    rw [addMembers_cons] at h
    obtain ⟨value, -, h⟩ := bind_eq_ok.1 h
    rw [ih h hrest, get?_give, if_neg (Ne.symm hne)]

/-- A member has the value that status and headers give it, or else the one that it had. -/
theorem get?_of_addMembers {record found : Record} {members : List (Binding × Target)}
    (hnames : HaveOwnNames members) (h : addMembers response record members = .ok found)
    {member : Binding × Target} (hmem : member ∈ members) {value : Option Value}
    (hvalue : memberValue response member = .ok value) :
    found.get? member.1.name = value.or (record.get? member.1.name) := by
  induction members generalizing record with
  | nil => simp at hmem
  | cons first rest ih =>
    rw [addMembers_cons] at h
    obtain ⟨given, hgiven, h⟩ := bind_eq_ok.1 h
    obtain ⟨hnew, hnames⟩ := List.nodup_cons.1 hnames
    have hothers : ∀ other ∈ rest, other.1.name ≠ first.1.name := fun other hother heq =>
      hnew (List.mem_map.2 ⟨other, hother, heq⟩)
    rcases List.mem_cons.1 hmem with rfl | hmem
    · obtain rfl := Except.ok.inj (hgiven.symm.trans hvalue)
      rw [get?_of_addMembers_of_notMem h hothers, get?_give, if_pos rfl]
    · rw [ih hnames h hmem, get?_give, if_neg (hothers member hmem)]

end Response

/-- From a message, only members of the body are read. -/
theorem exists_of_mem_readMembers {origin : Origin} (horigin : origin ≠ .caller) {path : String}
    {docs : Fields Document} {members : List (Binding × Target)} {found : Fields Value}
    (h : readMembers origin path docs members = .ok found) {name : String}
    (hname : name ∈ Fields.names found) :
    ∃ member ∈ members, member.1.location = .body ∧ member.1.name = name := by
  induction members generalizing found with
  | nil =>
    obtain rfl := Except.ok.inj h
    simp [Fields.names] at hname
  | cons member rest ih =>
    obtain ⟨binding, target⟩ := member
    have hlater {found : Fields Value} (h : readMembers origin path docs rest = .ok found)
        (hname : name ∈ Fields.names found) :
        ∃ member ∈ (binding, target) :: rest, member.1.location = .body ∧
          member.1.name = name := by
      obtain ⟨member, hmem, hmember⟩ := ih h hname
      exact ⟨member, List.mem_cons_of_mem _ hmem, hmember⟩
    rw [readMembers] at h
    split at h
    · exact hlater h hname
    · next doc hdoc =>
      split_ifs at h
      · exact hlater h hname
      · obtain ⟨value, -, h⟩ := bind_eq_ok.1 h
        obtain ⟨others, hothers, h⟩ := bind_eq_ok.1 h
        obtain rfl := Except.ok.inj h
        rcases List.mem_cons.1 hname with rfl | hname
        · obtain ⟨key, hkey, -⟩ := Option.bind_eq_some_iff.1 hdoc
          refine ⟨_, List.mem_cons_self, ?_, rfl⟩
          unfold memberKey? at hkey
          split at hkey
          · exact absurd rfl horigin
          · by_contra hbody
            rw [if_neg hbody] at hkey
            cases hkey
        · exact hlater hothers hname

/-- Without documents, no members are read. -/
theorem readMembers_nil_docs {origin : Origin} (path : String)
    (members : List (Binding × Target)) : readMembers origin path [] members = .ok [] := by
  induction members with
  | nil => rfl
  | cons member rest ih =>
    rw [readMembers]
    have hnone : (memberKey? origin member.1).bind (Fields.get? ([] : Fields Document)) = none := by
      cases memberKey? origin member.1 <;> rfl
    rw [hnone]
    exact ih

namespace Response
variable {response : Http.Response}

theorem originOf_ne_caller (protocol : Protocol) : originOf protocol ≠ .caller := by
  cases protocol <;> decide

/-- A record has no members but those that the body carries. -/
def HasBodyNames (layout : Layout) (record : Record) : Prop :=
  ∀ name ∈ Fields.names record.fields,
    ∃ member ∈ layout.members, member.1.location = .body ∧ member.1.name = name

theorem hasBodyNames_emptyRecord (layout : Layout) (output : Option Layout) :
    HasBodyNames layout (emptyRecord output) := by
  simp [HasBodyNames, emptyRecord, Fields.names]

theorem hasBodyNames_of_readRecord {origin : Origin} (horigin : origin ≠ .caller) {path : String}
    {layout : Layout} {doc : Document} {found : Record}
    (h : readRecord origin path layout doc = .ok found) : HasBodyNames layout found := by
  obtain ⟨docs, -, h⟩ := bind_eq_ok.1 h
  obtain ⟨fields, hfields, h⟩ := bind_eq_ok.1 h
  obtain rfl := Except.ok.inj h
  exact fun name hname => exists_of_mem_readMembers horigin hfields hname

theorem hasBodyNames_of_ofDocument {call : Call} {layout : Layout}
    (houtput : call.output = some layout) {doc : Document} {found : Record}
    (h : ofDocument call doc = .ok found) : HasBodyNames layout found := by
  have horigin := originOf_ne_caller call.service.protocol
  unfold ofDocument at h
  simp only [houtput] at h
  split at h
  · next heq => cases heq
  · next heq _ =>
    obtain rfl := Option.some.inj heq
    exact hasBodyNames_of_readRecord horigin (mapError_eq_ok.1 h)
  · next heq _ =>
    obtain rfl := Option.some.inj heq
    split at h
    · exact hasBodyNames_of_readRecord horigin (mapError_eq_ok.1 h)
    · obtain rfl := Except.ok.inj h
      exact hasBodyNames_emptyRecord _ _

/-- The body gives no value to a member that it does not carry. -/
theorem get?_of_bodyRecord {call : Call} {layout : Layout} {record : Record}
    (houtput : call.output = some layout) (hnames : HaveOwnNames layout.members)
    (h : bodyRecord call layout response = .ok record) {member : Binding × Target}
    (hmem : member ∈ layout.members) (hbody : member.1.location ≠ .body)
    (hpayload : member.1.location ≠ .payload) : record.get? member.1.name = none := by
  have hnone {found : Record} (hfound : HasBodyNames layout found) :
      found.get? member.1.name = none := by
    refine Fields.get?_eq_none.2 fun hname => ?_
    obtain ⟨other, hother, hlocation, heq⟩ := hfound _ hname
    exact hbody (hnames.eq_of_name hother hmem heq ▸ hlocation)
  unfold bodyRecord at h
  split at h
  · next binding target hfound =>
    have hne : member.1.name ≠ binding.name := by
      intro heq
      have hother := List.mem_of_find?_eq_some hfound
      have hlocation : binding.location = .payload := by
        simpa using List.find?_some hfound
      rw [hnames.eq_of_name hmem hother heq] at hpayload
      exact hpayload hlocation
    obtain ⟨value, -, h⟩ := bind_eq_ok.1 h
    have hempty := hnone (hasBodyNames_emptyRecord layout (some layout))
    cases value with
    | none =>
      obtain rfl := Except.ok.inj h
      exact hempty
    | some value =>
      obtain rfl := Except.ok.inj h
      rw [Record.get?_set, if_neg hne, hempty]
  · split_ifs at h
    · obtain ⟨doc, -, h⟩ := bind_eq_ok.1 h
      exact hnone (hasBodyNames_of_ofDocument houtput h)
    · obtain rfl := Except.ok.inj h
      exact hnone (hasBodyNames_emptyRecord layout (some layout))

theorem decode_nil (origin : Origin) : decode origin [] = .ok (.object []) := by
  have hxml : Xml.read [] = .ok none := by
    rw [Xml.read, Text.ofUtf8?, Text.decodeChars]
    rfl
  cases origin with
  | xml => rw [decode, hxml]
  | caller | json => rfl

/-- An empty body can always be read. -/
theorem exists_bodyRecord_of_nil {call : Call} {layout : Layout}
    (houtput : call.output = some layout) (hbody : response.body = []) :
    ∃ record, bodyRecord call layout response = .ok record := by
  have hdecode : decodeBody (originOf call.service.protocol) response = .ok (.object []) := by
    rw [decodeBody, hbody, decode_nil]
    rfl
  have hrecord (layout : Layout) :
      readRecord (originOf call.service.protocol) "" layout (.object []) =
        .ok (emptyRecord (some layout)) := by
    rw [readRecord]
    show (readMembers _ "" [] layout.members >>= _) = _
    rw [readMembers_nil_docs]
    rfl
  unfold bodyRecord
  dsimp only
  split
  · next binding target _ =>
    have hvalue : ∃ value, payloadValue (originOf call.service.protocol) binding target response =
        .ok value := by
      unfold payloadValue
      split
      · exact ⟨none, if_pos hbody⟩
      · exact ⟨_, rfl⟩
      · exact ⟨_, rfl⟩
    obtain ⟨value, hvalue⟩ := hvalue
    rw [hvalue, ok_bind]
    cases value with
    | none => exact ⟨_, rfl⟩
    | some value => exact ⟨_, rfl⟩
  · split_ifs
    · refine ⟨emptyRecord (some layout), ?_⟩
      rw [hdecode, ok_bind, ofDocument, houtput]
      cases call.operation.resultWrapper with
      | none =>
        dsimp only
        rw [hrecord]
        rfl
      | some wrapper => rfl
    · exact ⟨_, rfl⟩

theorem read_eq_bind {call : Call} {layout : Layout} (houtput : call.output = some layout) :
    read call response = bodyRecord call layout response >>= fun record =>
      addMembers response record layout.members := by
  rw [read, houtput]

/-- A response can be read when its body and all members outside the body can. -/
theorem exists_read_iff {call : Call} {layout : Layout} (houtput : call.output = some layout) :
    (∃ found, read call response = .ok found) ↔
      (∃ record, bodyRecord call layout response = .ok record) ∧
        ∀ member ∈ layout.members, ∃ value, memberValue response member = .ok value := by
  rw [read_eq_bind houtput]
  constructor
  · rintro ⟨found, h⟩
    obtain ⟨record, hrecord, h⟩ := bind_eq_ok.1 h
    exact ⟨⟨record, hrecord⟩, (exists_addMembers_iff record _).1 ⟨found, h⟩⟩
  · rintro ⟨⟨record, hrecord⟩, hmembers⟩
    obtain ⟨found, h⟩ := (exists_addMembers_iff record _).2 hmembers
    exact ⟨found, by rw [hrecord, ok_bind, h]⟩

/-- A member outside the body is what status and headers give it. -/
theorem get?_of_read {call : Call} {layout : Layout} (houtput : call.output = some layout)
    (hnames : HaveOwnNames layout.members) {found : Record} (h : read call response = .ok found)
    {member : Binding × Target} (hmem : member ∈ layout.members)
    (hbody : member.1.location ≠ .body) (hpayload : member.1.location ≠ .payload)
    {value : Option Value} (hvalue : memberValue response member = .ok value) :
    found.get? member.1.name = value := by
  rw [read_eq_bind houtput] at h
  obtain ⟨record, hrecord, h⟩ := bind_eq_ok.1 h
  rw [get?_of_addMembers hnames h hmem hvalue,
    get?_of_bodyRecord houtput hnames hrecord hmem hbody hpayload, Option.or_none]

end Response
end ServiceBindings
