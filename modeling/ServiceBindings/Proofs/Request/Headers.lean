import ServiceBindings.Proofs.Fields
import ServiceBindings.Proofs.Generate.Compiled
import ServiceBindings.Proofs.Model.Texts
import ServiceBindings.Request.Headers

/-! The headers of a request: the names and texts that its members give, and how many of them are
left when all are set one after the other. -/
namespace ServiceBindings

/-- What only one item leads to is found among what all items lead to. -/
theorem filterMap_flatten_of_forall₂ {α β γ : Type} {r : α → List β → Prop} {f : β → Option γ}
    {items : List α} {results : List (List β)} (h : List.Forall₂ r items results)
    (hnodup : items.Nodup) {item : α} (hmem : item ∈ items)
    (hothers : ∀ other ∈ items, other ≠ item → ∀ result, r other result → result.filterMap f = []) :
    ∃ result, r item result ∧ results.flatten.filterMap f = result.filterMap f := by
  have hnone {items : List α} {results : List (List β)} (h : List.Forall₂ r items results)
      (hothers : ∀ other ∈ items, ∀ result, r other result → result.filterMap f = []) :
      results.flatten.filterMap f = [] := by
    induction h with
    | nil => rfl
    | cons hfirst _ ih =>
      rw [List.flatten_cons, List.filterMap_append, hothers _ List.mem_cons_self _ hfirst,
        ih fun other hother => hothers other (List.mem_cons_of_mem _ hother), List.append_nil]
  induction h with
  | nil => simp at hmem
  | @cons first result items results hfirst hrest ih =>
    obtain ⟨hnew, hnodup⟩ := List.nodup_cons.1 hnodup
    rw [List.flatten_cons, List.filterMap_append]
    rcases List.mem_cons.1 hmem with rfl | hmem
    · refine ⟨result, hfirst, ?_⟩
      have hlater := hnone hrest fun other hother => hothers other (List.mem_cons_of_mem _ hother)
        fun heq => hnew (heq ▸ hother)
      rw [hlater, List.append_nil]
    · obtain ⟨found, hfound, heq⟩ := ih hnodup hmem fun other hother =>
        hothers other (List.mem_cons_of_mem _ hother)
      have hne : first ≠ item := fun heq => hnew (heq ▸ hmem)
      exact ⟨found, hfound, by rw [hothers first List.mem_cons_self hne _ hfirst, heq,
        List.nil_append]⟩

namespace Http

/-- A name begins as another text does, whatever the case of letters. -/
def Begins (start name : String) : Prop :=
  (start.map Char.toLower).toList <+: (name.map Char.toLower).toList

theorem lower_eq (s : String) : s.map Char.toLower = String.ofList (s.toList.map Char.toLower) :=
  String.toList_inj.1 (by rw [String.toList_map, String.toList_ofList])

theorem toList_lower_append (start rest : String) :
    ((start ++ rest).map Char.toLower).toList =
      (start.map Char.toLower).toList ++ (rest.map Char.toLower).toList := by
  rw [String.toList_map, String.toList_append, List.map_append, String.toList_map,
    String.toList_map]

theorem begins_append (start rest : String) : Begins start (start ++ rest) := by
  rw [Begins, toList_lower_append]
  exact List.prefix_append _ _

theorem Begins.of_lower_eq {start name other : String} (h : Begins start name)
    (heq : name.map Char.toLower = other.map Char.toLower) : Begins start other := by
  rwa [Begins, ← heq]

/-- Of two texts with which a name begins, one begins with the other. -/
theorem Begins.or {start other name : String} (h : Begins start name) (hother : Begins other name) :
    Begins start other ∨ Begins other start :=
  List.prefix_or_prefix_of_prefix h hother

end Http

namespace Http.Headers

def enter (headers : Headers) (pairs : List (String × String)) : Headers :=
  pairs.foldl (fun headers pair => headers.insert pair.1 pair.2) headers

theorem enter_append (headers : Headers) (pairs others : List (String × String)) :
    headers.enter (pairs ++ others) = (headers.enter pairs).enter others :=
  List.foldl_append

def ofPairs (pairs : List (String × String)) : Headers :=
  pairs.map fun pair => (pair.1.map Char.toLower, [pair.2])

theorem enter_nil (pairs : List (String × String)) :
    enter [] pairs = Fields.ofList (ofPairs pairs) := by
  rw [Fields.ofList, ofPairs, List.foldl_map]
  rfl

/-- The headers that are entered, each under its name in lower case, character by character. -/
theorem enter_nil_eq (pairs : List (String × String)) :
    enter [] pairs = Fields.ofList
      (pairs.map fun pair => (String.ofList (pair.1.toList.map Char.toLower), [pair.2])) := by
  simp only [enter_nil, ofPairs, lower_eq]

theorem names_ofPairs (pairs : List (String × String)) :
    Fields.names (ofPairs pairs) = pairs.map fun pair => pair.1.map Char.toLower :=
  List.map_map

theorem entries_ofPairs (pairs : List (String × String)) :
    (ofPairs pairs).entries = pairs.map fun pair => (pair.1.map Char.toLower, pair.2) := by
  induction pairs with
  | nil => rfl
  | cons pair rest ih => exact congrArg _ ih

/-- Pairs whose names differ are entered as they are. -/
theorem enter_of_nodup {pairs : List (String × String)}
    (h : (pairs.map fun pair => pair.1.map Char.toLower).Nodup) :
    enter [] pairs = ofPairs pairs := by
  rw [enter_nil, Fields.ofList_of_nodup]
  rwa [names_ofPairs]

def textUnder? (name : String) (pair : String × String) : Option String :=
  if name.map Char.toLower = pair.1.map Char.toLower then some pair.2 else none

theorem get?_enter (headers : Headers) (name : String) (pairs : List (String × String)) :
    Fields.get? (headers.enter pairs) (name.map Char.toLower) =
      ((pairs.filterMap (textUnder? name)).getLast?.map ([·])).or
        (Fields.get? headers (name.map Char.toLower)) := by
  induction pairs generalizing headers with
  | nil => rfl
  | cons pair rest ih =>
    show Fields.get? ((headers.insert pair.1 pair.2).enter rest) _ = _
    rw [ih, insert, Fields.get?_set, List.filterMap_cons, textUnder?]
    split_ifs with h
    · rw [List.getLast?_cons]
      cases (rest.filterMap (textUnder? name)).getLast? <;> rfl
    · rfl

/-- Of the texts that are entered under a name, the last one is found. -/
theorem text?_enter (name : String) (pairs : List (String × String)) :
    (enter [] pairs).text? name =
      (pairs.filterMap (textUnder? name)).getLast?.filter isVisible := by
  rw [text?, get?_enter, Fields.get?_nil, Option.or_none]
  cases (pairs.filterMap (textUnder? name)).getLast? with
  | none => rfl
  | some text =>
    dsimp only [Option.map_some]
    split_ifs with h <;> simp [Option.filter, h]

theorem length_entries {headers : Headers} (h : ∀ header ∈ headers, header.2.length = 1) :
    headers.entries.length = headers.length := by
  induction headers with
  | nil => rfl
  | cons header rest ih =>
    obtain ⟨hheader, hrest⟩ := List.forall_mem_cons.1 h
    rw [entries, List.flatMap_cons, List.length_append, List.length_map, hheader,
      List.length_cons, Nat.add_comm]
    exact congrArg (· + 1) (ih hrest)

end Http.Headers

namespace Request
open Generate (Memory Run)
open Http (Headers)
open Plan (Binding Call Layout Target)

/-- A pair can be sent as a header. -/
def IsProper (pair : String × String) : Prop :=
  Http.isToken pair.1 = true ∧ Http.isHeaderValue pair.2 = true

instance : DecidablePred IsProper := fun _ => inferInstanceAs (Decidable (_ ∧ _))

/-- The header that an entry of a map is sent in, with its name as it is given. -/
structure SendsEntry (start : String) (target : Target) (entry : String × Value)
    (pair : String × String) : Prop where
  name : pair.1 = start ++ entry.1
  text : scalarText .httpDate pair.1 target entry.2 = .ok pair.2
  proper : IsProper pair

/-- The headers that a value is sent in, with their names as they are given: one for the member, or
one for each entry of a map. -/
inductive SendsValue : Binding × Target → Value → List (String × String) → Prop
  | header {binding : Binding} {target : Target} {value : Value} {text : String}
    (location : binding.location = .header) (written : headerText binding target value = .ok text)
    (proper : IsProper (binding.wireName, text)) :
    SendsValue (binding, target) value [(binding.wireName, text)]
  | entries {binding : Binding} {shape : String} {key target : Target}
    {keyName valueName : Option String} {flattened : Bool} {entries : List (String × Value)}
    {pairs : List (String × String)} (location : binding.location = .headerPrefix)
    (written : List.Forall₂ (SendsEntry binding.wireName target) entries pairs) :
    SendsValue (binding, .map shape key target keyName valueName flattened) (.map entries) pairs
  | elsewhere {member : Binding × Target} {value : Value}
    (location : member.1.location ≠ .header ∧ member.1.location ≠ .headerPrefix) :
    SendsValue member value []

/-- The headers that a member is sent in. -/
def Sends (record : Record) (member : Binding × Target) (pairs : List (String × String)) : Prop :=
  match record.get? member.1.name with
  | some value => SendsValue member value pairs
  | none => pairs = []

/-- The header for the target of an operation. -/
def targetPairs (call : Call) : List (String × String) :=
  (call.service.target? call.name).toList.map fun target => ("X-Amz-Target", target)

theorem setHeader_eq_ok {headers found : Headers} {name value : String} :
    setHeader headers name value = .ok found ↔
      IsProper (name, value) ∧ found = headers.insert name value := by
  unfold setHeader Http.headerName? IsProper
  by_cases hname : Http.isToken name = true
  · by_cases hvalue : Http.isHeaderValue value = true
    · simp [hname, hvalue, eq_comm]
    · simp [hname, hvalue]
  · simp [hname]

theorem setEntries_eq_ok {start : String} {target : Target} {headers found : Headers}
    {entries : List (String × Value)} :
    setEntries start target headers entries = .ok found ↔
      ∃ pairs, List.Forall₂ (SendsEntry start target) entries pairs ∧
        found = headers.enter pairs := by
  induction entries generalizing headers with
  | nil =>
    constructor
    · exact fun h => ⟨[], .nil, (Except.ok.inj h).symm⟩
    · rintro ⟨pairs, hpairs, rfl⟩
      rw [List.forall₂_nil_left_iff.1 hpairs]
      rfl
  | cons entry rest ih =>
    rw [setEntries]
    constructor
    · intro h
      obtain ⟨text, htext, h⟩ := bind_eq_ok.1 h
      obtain ⟨next, hnext, h⟩ := bind_eq_ok.1 h
      obtain ⟨hproper, rfl⟩ := setHeader_eq_ok.1 hnext
      obtain ⟨pairs, hpairs, hfound⟩ := ih.1 h
      exact ⟨(start ++ entry.1, text) :: pairs, .cons ⟨rfl, htext, hproper⟩ hpairs, hfound⟩
    · rintro ⟨pairs, hpairs, rfl⟩
      obtain ⟨⟨name, text⟩, others, ⟨rfl, htext, hproper⟩, hothers, rfl⟩ :=
        List.forall₂_cons_left_iff.1 hpairs
      exact bind_eq_ok.2 ⟨text, htext, bind_eq_ok.2 ⟨_, setHeader_eq_ok.2 ⟨hproper, rfl⟩,
        ih.2 ⟨others, hothers, rfl⟩⟩⟩

theorem setMember_eq_ok {member : Binding × Target} {value : Value} {headers found : Headers} :
    setMember headers member.1 member.2 value = .ok found ↔
      ∃ pairs, SendsValue member value pairs ∧ found = headers.enter pairs := by
  constructor
  · intro h
    obtain ⟨binding, target⟩ := member
    dsimp only [setMember] at h
    split at h
    · next hlocation =>
      obtain ⟨text, htext, h⟩ := bind_eq_ok.1 h
      obtain ⟨hproper, hfound⟩ := setHeader_eq_ok.1 h
      exact ⟨_, .header hlocation htext hproper, hfound⟩
    · next hlocation =>
      split at h
      · obtain ⟨pairs, hpairs, hfound⟩ := setEntries_eq_ok.1 h
        exact ⟨pairs, .entries hlocation hpairs, hfound⟩
      · cases h
    · next hheader hentries =>
      exact ⟨[], .elsewhere ⟨hheader, hentries⟩, (Except.ok.inj h).symm⟩
  · rintro ⟨pairs, hsends, rfl⟩
    cases hsends with
    | header location written proper =>
      simp only [setMember, location]
      exact bind_eq_ok.2 ⟨_, written, setHeader_eq_ok.2 ⟨proper, rfl⟩⟩
    | entries location written =>
      simp only [setMember, location]
      exact setEntries_eq_ok.2 ⟨pairs, written, rfl⟩
    | elsewhere location =>
      unfold setMember
      split
      · next hlocation => exact absurd hlocation location.1
      · next hlocation => exact absurd hlocation location.2
      · rfl

/-- A member sends its headers first, and the other members send theirs after it. -/
theorem setMembers_cons_eq_ok {record : Record} {member : Binding × Target}
    {rest : List (Binding × Target)} {headers found : Headers} :
    setMembers record headers (member :: rest) = .ok found ↔
      ∃ pairs, Sends record member pairs ∧
        setMembers record (headers.enter pairs) rest = .ok found := by
  rw [setMembers]
  unfold Sends
  cases record.get? member.1.name with
  | none =>
    constructor
    · exact fun h => ⟨[], rfl, h⟩
    · rintro ⟨pairs, rfl, h⟩
      exact h
  | some value =>
    constructor
    · intro h
      obtain ⟨next, hnext, h⟩ := bind_eq_ok.1 h
      obtain ⟨pairs, hpairs, rfl⟩ := setMember_eq_ok.1 hnext
      exact ⟨pairs, hpairs, h⟩
    · rintro ⟨pairs, hpairs, h⟩
      exact bind_eq_ok.2 ⟨_, setMember_eq_ok.2 ⟨pairs, hpairs, rfl⟩, h⟩

theorem setMembers_eq_ok {record : Record} {members : List (Binding × Target)}
    {headers found : Headers} :
    setMembers record headers members = .ok found ↔
      ∃ sent, List.Forall₂ (Sends record) members sent ∧ found = headers.enter sent.flatten := by
  induction members generalizing headers with
  | nil =>
    constructor
    · exact fun h => ⟨[], .nil, (Except.ok.inj h).symm⟩
    · rintro ⟨sent, hsent, rfl⟩
      rw [List.forall₂_nil_left_iff.1 hsent]
      rfl
  | cons member rest ih =>
    rw [setMembers_cons_eq_ok]
    constructor
    · rintro ⟨pairs, hpairs, h⟩
      obtain ⟨others, hothers, rfl⟩ := ih.1 h
      exact ⟨pairs :: others, .cons hpairs hothers, by
        rw [List.flatten_cons, Headers.enter_append]⟩
    · rintro ⟨sent, hsent, rfl⟩
      obtain ⟨pairs, others, hpairs, hothers, rfl⟩ := List.forall₂_cons_left_iff.1 hsent
      refine ⟨pairs, hpairs, ih.2 ⟨others, hothers, ?_⟩⟩
      rw [List.flatten_cons, Headers.enter_append]

/-- The headers of a request are those of its target and its members, set one after the other. They
are refused if one of them is not proper. -/
theorem headers_eq_ok {call : Call} {record : Record} {found : Headers} :
    headers call record = .ok found ↔ (∀ pair ∈ targetPairs call, IsProper pair) ∧
      ∃ sent, List.Forall₂ (Sends record) call.input.members sent ∧
        found = Headers.enter [] (targetPairs call ++ sent.flatten) := by
  have hstart : headers call record = .ok found ↔ (∀ pair ∈ targetPairs call, IsProper pair) ∧
      setMembers record (Headers.enter [] (targetPairs call)) call.input.members = .ok found := by
    unfold headers targetPairs
    cases call.service.target? call.name with
    | none => exact (and_iff_right (by simp)).symm
    | some target =>
      show (setHeader [] "X-Amz-Target" target >>= fun start => _) = _ ↔ _
      rw [bind_eq_ok]
      constructor
      · rintro ⟨start, hstart, h⟩
        obtain ⟨hproper, rfl⟩ := setHeader_eq_ok.1 hstart
        exact ⟨List.forall_mem_singleton.2 hproper, h⟩
      · rintro ⟨hproper, h⟩
        exact ⟨_, setHeader_eq_ok.2 ⟨List.forall_mem_singleton.1 hproper, rfl⟩, h⟩
  rw [hstart, setMembers_eq_ok]
  simp only [Headers.enter_append]

/-- The names of the headers that a member is sent in, as they are given. -/
def sentNames (record : Record) (member : Binding × Target) : List String :=
  match member.1.location, record.get? member.1.name with
  | .header, some _ => [member.1.wireName]
  | .headerPrefix, some (.map entries) => entries.map fun entry => member.1.wireName ++ entry.1
  | _, _ => []

theorem Sends.names {record : Record} {member : Binding × Target} {pairs : List (String × String)}
    (h : Sends record member pairs) : pairs.map Prod.fst = sentNames record member := by
  unfold Sends at h
  unfold sentNames
  split at h
  · next value hvalue =>
    rw [hvalue]
    cases h with
    | header location written => rw [location]; rfl
    | entries location written =>
      rw [location]
      exact map_eq_map_of_forall₂ written fun _ _ hpair => hpair.name
    | elsewhere location =>
      split
      · next hlocation _ => exact absurd hlocation location.1
      · next hlocation _ => exact absurd hlocation location.2
      · rfl
  · next hnone =>
    rw [h, hnone]
    cases member.1.location <;> rfl

/-- A member is sent in the header of its name, or in headers that begin with it. -/
theorem of_mem_sentNames {record : Record} {member : Binding × Target} {name : String}
    (h : name ∈ sentNames record member) :
    member.1.location = .header ∧ name = member.1.wireName ∨
      member.1.location = .headerPrefix ∧ Http.Begins member.1.wireName name := by
  unfold sentNames at h
  split at h
  · next hlocation _ => exact .inl ⟨hlocation, List.mem_singleton.1 h⟩
  · next hlocation _ =>
    obtain ⟨entry, -, rfl⟩ := List.mem_map.1 h
    exact .inr ⟨hlocation, Http.begins_append _ _⟩
  · simp at h

/-- The names of the headers that members of a place are sent in, in lower case. -/
def namesAt (call : Call) (record : Record) (location : Location) : List String :=
  ((call.input.membersAt location).flatMap (sentNames record)).map (·.map Char.toLower)

/-- The name of the header for the target of an operation, in lower case. -/
def targetNames (call : Call) : List String :=
  (targetPairs call).map fun pair => pair.1.map Char.toLower

def askedNames (call : Call) (record : Record) : List String :=
  targetNames call ++ (namesAt call record .header ++ namesAt call record .headerPrefix)

/-- How many headers a request asks for: one for its target, one for each present member of a header
and one for each entry of a map. -/
def headerCount (call : Call) (record : Record) : Nat :=
  (call.service.target? call.name).toList.length +
    (call.input.membersAt .header).countP (fun member => (record.get? member.1.name).isSome) +
    ((call.input.membersAt .headerPrefix).flatMap fun member =>
      ((record.get? member.1.name).bind Value.entries?).getD []).length

/-- Only members of headers are sent in headers, the others last. -/
theorem flatMap_sentNames_perm (record : Record) (members : List (Binding × Target)) :
    (members.flatMap (sentNames record)).Perm
      ((members.filter (·.1.location = .header)).flatMap (sentNames record) ++
        (members.filter (·.1.location = .headerPrefix)).flatMap (sentNames record)) := by
  induction members with
  | nil => exact .refl _
  | cons member rest ih =>
    rw [List.flatMap_cons]
    cases hlocation : member.1.location with
    | header =>
      rw [List.filter_cons_of_pos (by simp [hlocation]),
        List.filter_cons_of_neg (by simp [hlocation]), List.flatMap_cons, List.append_assoc]
      exact ih.append_left _
    | headerPrefix =>
      rw [List.filter_cons_of_neg (by simp [hlocation]),
        List.filter_cons_of_pos (by simp [hlocation]), List.flatMap_cons]
      exact (ih.append_left _).trans (by
        rw [← List.append_assoc, ← List.append_assoc]
        exact List.perm_append_comm.append_right _)
    | uri | queryString | statusCode | body | payload =>
      have hnil : sentNames record member = [] := by rw [sentNames, hlocation]
      rw [hnil, List.nil_append, List.filter_cons_of_neg (by simp [hlocation]),
        List.filter_cons_of_neg (by simp [hlocation])]
      exact ih

theorem length_headerNames (record : Record) {members : List (Binding × Target)}
    (h : ∀ member ∈ members, member.1.location = .header) :
    (members.flatMap (sentNames record)).length =
      members.countP fun member => (record.get? member.1.name).isSome := by
  induction members with
  | nil => rfl
  | cons member rest ih =>
    obtain ⟨hlocation, h⟩ := List.forall_mem_cons.1 h
    rw [List.flatMap_cons, List.length_append, ih h, List.countP_cons, Nat.add_comm, sentNames,
      hlocation]
    cases record.get? member.1.name <;> rfl

theorem headerNames_sublist (record : Record) {members : List (Binding × Target)}
    (h : ∀ member ∈ members, member.1.location = .header) :
    (members.flatMap (sentNames record)).Sublist (members.map (·.1.wireName)) := by
  induction members with
  | nil => exact .slnil
  | cons member rest ih =>
    obtain ⟨hlocation, h⟩ := List.forall_mem_cons.1 h
    rw [List.flatMap_cons, List.map_cons, sentNames, hlocation]
    cases record.get? member.1.name with
    | none => exact (ih h).cons _
    | some value => exact (ih h).cons_cons _

theorem length_entryNames (record : Record) {members : List (Binding × Target)}
    (h : ∀ member ∈ members, member.1.location = .headerPrefix) :
    (members.flatMap (sentNames record)).length =
      (members.flatMap fun member =>
        ((record.get? member.1.name).bind Value.entries?).getD []).length := by
  induction members with
  | nil => rfl
  | cons member rest ih =>
    obtain ⟨hlocation, h⟩ := List.forall_mem_cons.1 h
    have hfirst : (sentNames record member).length =
        (((record.get? member.1.name).bind Value.entries?).getD []).length := by
      rw [sentNames, hlocation]
      rcases record.get? member.1.name with - | value
      · rfl
      · cases value with
        | map entries => exact List.length_map _
        | _ => rfl
    rw [List.flatMap_cons, List.flatMap_cons, List.length_append, List.length_append, ih h, hfirst]

theorem length_askedNames (call : Call) (record : Record) :
    (askedNames call record).length = headerCount call record := by
  have hlocation {location : Location} : ∀ member ∈ call.input.membersAt location,
      member.1.location = location := by simp [Plan.Layout.membersAt]
  rw [askedNames, List.length_append, List.length_append, namesAt, namesAt, List.length_map,
    List.length_map, length_headerNames record hlocation, length_entryNames record hlocation,
    targetNames, targetPairs, List.length_map, List.length_map, headerCount, Nat.add_assoc]

/-- The headers that a request is sent with have the names that it asks for. -/
theorem names_sent_perm {call : Call} {record : Record} {sent : List (List (String × String))}
    (h : List.Forall₂ (Sends record) call.input.members sent) :
    ((targetPairs call ++ sent.flatten).map fun pair => pair.1.map Char.toLower).Perm
      (askedNames call record) := by
  have hnames : sent.flatten.map Prod.fst = call.input.members.flatMap (sentNames record) := by
    rw [List.map_flatten, List.flatMap]
    exact congrArg List.flatten (map_eq_map_of_forall₂ h fun _ _ hpairs => hpairs.names)
  have hlowered : ((targetPairs call ++ sent.flatten).map fun pair => pair.1.map Char.toLower) =
      targetNames call ++
        (call.input.members.flatMap (sentNames record)).map (·.map Char.toLower) := by
    rw [← hnames, List.map_append, List.map_map]
    rfl
  rw [hlowered, askedNames, namesAt, namesAt, ← List.map_append]
  exact ((flatMap_sentNames_perm record _).map _).append_left _

/-- Each name that is asked for is left once, with one text. -/
theorem perm_names_of_headers {call : Call} {record : Record} {found : Headers}
    (h : headers call record = .ok found) :
    (Fields.names found).Perm (askedNames call record).dedup ∧
      ∀ header ∈ found, header.2.length = 1 := by
  obtain ⟨-, sent, hsent, rfl⟩ := headers_eq_ok.1 h
  rw [Headers.enter_nil]
  refine ⟨(Fields.perm_names_ofList _).trans (List.Perm.dedup ?_), fun header hmem => ?_⟩
  · rw [Headers.names_ofPairs]
    exact names_sent_perm hsent
  · obtain ⟨pair, -, rfl⟩ := List.mem_map.1 (Fields.mem_of_mem_ofList hmem)
    rfl

/-- No other header has the name of a member's. -/
structure HasOwnHeader (call : Call) (record : Record) (member : Binding × Target) : Prop where
  target : ∀ pair ∈ targetPairs call,
    member.1.wireName.map Char.toLower ≠ pair.1.map Char.toLower
  members : ∀ other ∈ call.input.members, other ≠ member → ∀ name ∈ sentNames record other,
    member.1.wireName.map Char.toLower ≠ name.map Char.toLower

/-- The header of a member holds what the member is sent as, if no other header has its name. -/
theorem HasOwnHeader.text? {call : Call} {record : Record} {member : Binding × Target}
    (h : HasOwnHeader call record member) (hnodup : call.input.members.Nodup)
    (hmem : member ∈ call.input.members) (hlocation : member.1.location = .header)
    {found : Headers} (hfound : headers call record = .ok found) :
    match record.get? member.1.name with
    | some value => ∃ text, headerText member.1 member.2 value = .ok text ∧
        found.text? member.1.wireName = (some text).filter Http.isVisible
    | none => found.text? member.1.wireName = none := by
  obtain ⟨-, sent, hsent, rfl⟩ := headers_eq_ok.1 hfound
  have hpairs := filterMap_flatten_of_forall₂ (f := Headers.textUnder? member.1.wireName) hsent
    hnodup hmem fun other hother hne pairs hsends => by
      refine List.filterMap_eq_nil_iff.2 fun pair hpair => if_neg ?_
      have hname := List.mem_map_of_mem (f := Prod.fst) hpair
      rw [hsends.names] at hname
      exact h.members other hother hne _ hname
  obtain ⟨pairs, hsends, hflatten⟩ := hpairs
  have htarget : (targetPairs call).filterMap (Headers.textUnder? member.1.wireName) = [] :=
    List.filterMap_eq_nil_iff.2 fun pair hpair => if_neg (h.target pair hpair)
  rw [Headers.text?_enter, List.filterMap_append, htarget, List.nil_append, hflatten]
  unfold Sends at hsends
  cases hvalue : record.get? member.1.name with
  | none =>
    rw [hvalue] at hsends
    rw [hsends]
    rfl
  | some value =>
    rw [hvalue] at hsends
    cases hsends with
    | @header binding target _ text _ written =>
      exact ⟨text, written, by simp [Headers.textUnder?]⟩
    | entries location => cases location.symm.trans hlocation
    | elsewhere location => exact absurd hlocation location.1

/-- The names of headers differ, and none begins as the headers of a map do, whatever their case. -/
structure HeadersApart (layout : Layout) : Prop where
  names : ((layout.membersAt .header).map fun member => member.1.wireName.map Char.toLower).Nodup
  starts : ∀ member ∈ layout.membersAt .header, ∀ other ∈ layout.membersAt .headerPrefix,
    ¬Http.Begins other.1.wireName member.1.wireName

section
variable {call : Call} {record : Record} {name : String}

theorem exists_of_mem_headerNames (h : name ∈ namesAt call record .header) :
    ∃ member ∈ call.input.membersAt .header, name = member.1.wireName.map Char.toLower := by
  obtain ⟨given, hgiven, rfl⟩ := List.mem_map.1 h
  obtain ⟨member, hmem, hgiven⟩ := List.mem_flatMap.1 hgiven
  have hlocation : member.1.location = .header := by
    simpa using (List.mem_filter.1 hmem).2
  rcases of_mem_sentNames hgiven with ⟨-, rfl⟩ | ⟨hentries, -⟩
  · exact ⟨member, hmem, rfl⟩
  · cases hlocation.symm.trans hentries

theorem exists_of_mem_entryNames (h : name ∈ namesAt call record .headerPrefix) :
    ∃ member ∈ call.input.membersAt .headerPrefix, ∃ given,
      Http.Begins member.1.wireName given ∧ name = given.map Char.toLower := by
  obtain ⟨given, hgiven, rfl⟩ := List.mem_map.1 h
  obtain ⟨member, hmem, hgiven⟩ := List.mem_flatMap.1 hgiven
  have hlocation : member.1.location = .headerPrefix := by
    simpa using (List.mem_filter.1 hmem).2
  rcases of_mem_sentNames hgiven with ⟨hheader, -⟩ | ⟨-, hbegins⟩
  · cases hlocation.symm.trans hheader
  · exact ⟨member, hmem, given, hbegins, rfl⟩

theorem HeadersApart.nodup_headerNames (h : HeadersApart call.input) :
    (namesAt call record .header).Nodup := by
  have hlocation : ∀ member ∈ call.input.membersAt .header, member.1.location = .header := by
    simp [Plan.Layout.membersAt]
  have hsublist := (headerNames_sublist record hlocation).map (·.map Char.toLower)
  rw [List.map_map] at hsublist
  exact h.names.sublist hsublist

theorem HeadersApart.disjoint (h : HeadersApart call.input) :
    ∀ name ∈ namesAt call record .header, name ∉ namesAt call record .headerPrefix := by
  intro name hname hentry
  obtain ⟨member, hmem, rfl⟩ := exists_of_mem_headerNames hname
  obtain ⟨other, hother, given, hbegins, heq⟩ := exists_of_mem_entryNames hentry
  exact h.starts member hmem other hother (hbegins.of_lower_eq heq.symm)

/-- All names differ exactly when those of maps do and none is that of the header for the target. -/
theorem HeadersApart.nodup_askedNames_iff (h : HeadersApart call.input) :
    (askedNames call record).Nodup ↔ (namesAt call record .headerPrefix).Nodup ∧
      ∀ name ∈ targetNames call, name ∉ namesAt call record .header ∧
        name ∉ namesAt call record .headerPrefix := by
  have htarget : (targetNames call).Nodup := by
    rw [targetNames, targetPairs]
    cases call.service.target? call.name <;> simp
  have hheaders : (namesAt call record .header).Nodup := h.nodup_headerNames
  have hdisjoint : (namesAt call record .header).Disjoint (namesAt call record .headerPrefix) :=
    h.disjoint
  rw [askedNames, List.nodup_append', List.nodup_append', List.disjoint_append_right]
  constructor
  · rintro ⟨-, ⟨-, hentries, -⟩, hheader, hentry⟩
    exact ⟨hentries, fun name hmem => ⟨hheader hmem, hentry hmem⟩⟩
  · rintro ⟨hentries, hother⟩
    exact ⟨htarget, ⟨hheaders, hentries, hdisjoint⟩, fun name hmem => (hother name hmem).1,
      fun name hmem => (hother name hmem).2⟩

end

/-- Under names that differ, no header is lost exactly when the keys of maps lead to names that
differ, too, and none of the names is that of the header for the target. -/
theorem length_entries_eq_headerCount_iff {call : Call} {record : Record} {found : Headers}
    (hnames : HeadersApart call.input) (h : headers call record = .ok found) :
    found.entries.length = (askedNames call record).dedup.length ∧
      (found.entries.length = headerCount call record ↔
        (namesAt call record .headerPrefix).Nodup ∧
          ∀ name ∈ targetNames call, name ∉ namesAt call record .header ∧
            name ∉ namesAt call record .headerPrefix) := by
  obtain ⟨hperm, hsingle⟩ := perm_names_of_headers h
  have hlength : found.entries.length = (askedNames call record).dedup.length := by
    rw [← hperm.length_eq, Fields.names, List.length_map, Headers.length_entries hsingle]
  have hnodup : (askedNames call record).dedup.length = (askedNames call record).length ↔
      (askedNames call record).Nodup := by
    rw [← List.dedup_eq_self]
    exact ⟨(List.dedup_sublist _).eq_of_length, fun h => by rw [h]⟩
  refine ⟨hlength, ?_⟩
  rw [hlength, ← length_askedNames, hnodup, hnames.nodup_askedNames_iff]

def cardsDocument : Document := .object [
  ("metadata", .object [("protocol", .string "json"), ("apiVersion", .string "1"),
    ("targetPrefix", .string "Cards")]),
  ("operations", .object [
    ("Put", .object [("input", .object [("shape", .string "Card")]),
      ("output", .object [("shape", .string "Card")])]),
    ("Log", .object [("input", .object [("shape", .string "Log")]),
      ("output", .object [("shape", .string "Log")])]),
    ("Say", .object [("input", .object [("shape", .string "Line")]),
      ("output", .object [("shape", .string "Line")])])]),
  ("shapes", .object [
    ("Card", .object [("type", .string "structure"), ("payload", .string "grade"),
      ("members", .object [
        ("id", .object [("shape", .string "S"), ("location", .string "header"),
          ("locationName", .string "X-Id")]),
        ("seen", .object [("shape", .string "T"), ("location", .string "header"),
          ("locationName", .string "X-Seen")]),
        ("notes", .object [("shape", .string "M"), ("location", .string "headers"),
          ("locationName", .string "X-Note-")]),
        ("grade", .object [("shape", .string "E")])])]),
    ("Line", .object [("type", .string "structure"), ("payload", .string "text"),
      ("members", .object [("text", .object [("shape", .string "S")])])]),
    ("Log", .object [("type", .string "structure"), ("members", .object [
      ("tags", .object [("shape", .string "L"), ("location", .string "header"),
        ("locationName", .string "X-Tags")]),
      ("days", .object [("shape", .string "D"), ("location", .string "header"),
        ("locationName", .string "X-Days")])])]),
    ("D", .object [("type", .string "list"), ("member", .object [("shape", .string "T")])]),
    ("E", .object [("type", .string "string"),
      ("enum", .array [.string "A", .string "B"])]),
    ("L", .object [("type", .string "list"), ("member", .object [("shape", .string "S")])]),
    ("M", .object [("type", .string "map"), ("key", .object [("shape", .string "S")]),
      ("value", .object [("shape", .string "S")])]),
    ("S", .object [("type", .string "string")]),
    ("T", .object [("type", .string "timestamp")])])]

/-- The model that `cardsDocument` describes. -/
def cardsModel : ServiceModel where
  service := ⟨"Service", "1", .json, none, some "Cards", none⟩
  shapes := [
    ("Card", ⟨"Card", .structure ⟨[
      ⟨"id", "S", false, .header, some "X-Id", false, none, false, none⟩,
      ⟨"seen", "T", false, .header, some "X-Seen", false, none, false, none⟩,
      ⟨"notes", "M", false, .headerPrefix, some "X-Note-", false, none, false, none⟩,
      ⟨"grade", "E", false, .payload, none, false, none, false, none⟩], some "grade"⟩,
      none, none, none, false⟩),
    ("Line", ⟨"Line", .structure ⟨[
      ⟨"text", "S", false, .payload, none, false, none, false, none⟩], some "text"⟩,
      none, none, none, false⟩),
    ("Log", ⟨"Log", .structure ⟨[
      ⟨"tags", "L", false, .header, some "X-Tags", false, none, false, none⟩,
      ⟨"days", "D", false, .header, some "X-Days", false, none, false, none⟩], none⟩,
      none, none, none, false⟩),
    ("D", ⟨"D", .list ⟨"T", none⟩ false, none, none, none, false⟩),
    ("E", ⟨"E", .enumeration ["A", "B"], none, none, none, false⟩),
    ("L", ⟨"L", .list ⟨"S", none⟩ false, none, none, none, false⟩),
    ("M", ⟨"M", .map ⟨"S", none⟩ ⟨"S", none⟩ false, none, none, none, false⟩),
    ("S", ⟨"S", .scalar .string, none, none, none, false⟩),
    ("T", ⟨"T", .scalar .timestamp, none, none, none, false⟩)]
  operations := [("Put", ⟨"Put", "Card", some "Card", "POST", "/", none, none⟩),
    ("Log", ⟨"Log", "Log", some "Log", "POST", "/", none, none⟩),
    ("Say", ⟨"Say", "Line", some "Line", "POST", "/", none, none⟩)]

def cardLayout : Layout where
  heading := ⟨"Card", ⟨.input, "Card"⟩, none, none⟩
  members := [
    (⟨"id", "id", "X-Id", false, .header, false, none⟩, .scalar .string none false),
    (⟨"seen", "seen", "X-Seen", false, .header, false, none⟩, .scalar .timestamp none false),
    (⟨"notes", "notes", "X-Note-", false, .headerPrefix, false, none⟩,
      .map "M" (.scalar .string none false) (.scalar .string none false) none none false),
    (⟨"grade", "grade", "grade", false, .payload, false, none⟩,
      .enumeration ⟨⟨.enums, "E"⟩, "E", [⟨"A", "A"⟩, ⟨"B", "B"⟩]⟩)]

def cardCall : Call where
  service := cardsModel.service
  operation := ⟨"Put", "Card", some "Card", "POST", "/", none, none⟩
  ident := ⟨.client, "put"⟩
  input := cardLayout
  output := some cardLayout
  template := ⟨[.literal "/"], none⟩

set_option maxRecDepth 16000 in
theorem load_cardsDocument :
    ServiceModel.load (Json.Node.ofDocument cardsDocument).text = .ok cardsModel :=
  ServiceModel.load_text (by decide) rfl

theorem compiled_cardCall : cardCall.Compiled :=
  ⟨Memory, inferInstance, Run.start ⟨cardsModel, {}⟩ {}, "Put",
    ⟨_, _, [], .load load_cardsDocument, rfl⟩, rfl⟩

def cardRecord (notes : List (String × String)) : Record where
  shape := "Card"
  fields := [("id", .string "7"), ("notes", .map (notes.map fun note => (note.1, .string note.2)))]

theorem headersApart_cardLayout : HeadersApart cardLayout where
  names := by
    simp only [Http.lower_eq]
    decide
  starts := by
    simp only [Http.Begins, Http.lower_eq]
    decide

/-- Notes under keys that differ are all sent. -/
theorem length_entries_of_card :
    let record := cardRecord [("a", "x"), ("b", "y")]
    cardCall.Compiled ∧ HeadersApart cardCall.input ∧ ∃ found,
      headers cardCall record = .ok found ∧ found.entries.length = headerCount cardCall record := by
  intro record
  have hheaders : headers cardCall record = .ok (Headers.enter [] [("X-Amz-Target", "Cards.Put"),
      ("X-Id", "7"), ("X-Note-a", "x"), ("X-Note-b", "y")]) := rfl
  have hentries : (namesAt cardCall record .headerPrefix).Nodup := by
    simp only [namesAt, Http.lower_eq]
    decide
  have htarget : ∀ name ∈ targetNames cardCall, name ∉ namesAt cardCall record .header ∧
      name ∉ namesAt cardCall record .headerPrefix := by
    simp only [targetNames, namesAt, Http.lower_eq]
    decide
  refine ⟨compiled_cardCall, headersApart_cardLayout, _, hheaders, ?_⟩
  exact (length_entries_eq_headerCount_iff headersApart_cardLayout hheaders).2.2 ⟨hentries, htarget⟩

/-- Of two notes under keys that differ in case only, the second takes the place of the first. -/
theorem header_lost_of_keys_alike :
    let record := cardRecord [("Color", "blue"), ("color", "red")]
    cardCall.Compiled ∧ HeadersApart cardCall.input ∧ headerCount cardCall record = 4 ∧
      ∃ found, headers cardCall record = .ok found ∧
        found.entries =
          [("x-amz-target", "Cards.Put"), ("x-id", "7"), ("x-note-color", "red")] := by
  intro record
  have hheaders : headers cardCall record = .ok (Headers.enter [] [("X-Amz-Target", "Cards.Put"),
      ("X-Id", "7"), ("X-Note-Color", "blue"), ("X-Note-color", "red")]) := rfl
  refine ⟨compiled_cardCall, headersApart_cardLayout, rfl, _, hheaders, ?_⟩
  rw [Headers.enter_nil_eq]
  rfl

end Request
end ServiceBindings
