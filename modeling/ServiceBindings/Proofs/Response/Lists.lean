import ServiceBindings.Proofs.Response.Headers
import ServiceBindings.Proofs.Text.Joined

/-! Lists in headers: the items are joined by commas and split at commas again. Dates of headers
hold a comma themselves. -/
namespace ServiceBindings
open Plan (Binding Call HaveOwnNames Layout Target)

namespace Text

/-- A space behind each comma can be taken for the beginning of the piece that follows. -/
theorem intercalate_comma_space (first : List Char) (rest : List (List Char)) :
    [',', ' '].intercalate (first :: rest) = [','].intercalate (first :: rest.map (' ' :: ·)) := by
  induction rest generalizing first with
  | nil => rfl
  | cons second rest ih =>
    rw [List.map_cons, List.intercalate_cons_cons, List.intercalate_cons_cons, ih]
    cases rest with
    | nil => simp
    | cons third rest =>
      rw [List.map_cons, List.intercalate_cons_cons, List.intercalate_cons_cons]
      simp

/-- Texts that are joined by commas and spaces are found between the commas, if they hold no comma
and nothing of them is trimmed. -/
theorem map_trimmed_splitOnP {texts : List String} (hne : texts ≠ [])
    (hcomma : ∀ text ∈ texts, ',' ∉ text.toList)
    (htrimmed : ∀ text ∈ texts, trimmed text.toList = text.toList) :
    (((", ".intercalate texts).toList.splitOnP (· = ',')).map fun item =>
      String.ofList (trimmed item)) = texts := by
  obtain ⟨first, rest, rfl⟩ := List.exists_cons_of_ne_nil hne
  have hpieces : ∀ piece ∈ first.toList :: (rest.map String.toList).map (' ' :: ·),
      ',' ∉ piece := by
    obtain ⟨hfirst, hrest⟩ := List.forall_mem_cons.1 hcomma
    refine List.forall_mem_cons.2 ⟨hfirst, fun piece hpiece => ?_⟩
    obtain ⟨chars, hchars, rfl⟩ := List.mem_map.1 hpiece
    obtain ⟨text, htext, rfl⟩ := List.mem_map.1 hchars
    simpa using hrest text htext
  have hsplit : (", ".intercalate (first :: rest)).toList.splitOnP (· = ',') =
      first.toList :: (rest.map String.toList).map (' ' :: ·) := by
    rw [String.toList_intercalate]
    show ([',', ' '].intercalate (first.toList :: rest.map String.toList)).splitOn ',' = _
    rw [intercalate_comma_space, List.splitOn_intercalate ',' hpieces (List.cons_ne_nil _ _)]
  obtain ⟨hfirst, hrest⟩ := List.forall_mem_cons.1 htrimmed
  rw [hsplit, List.map_cons, hfirst, String.ofList_toList, List.map_map, List.map_map]
  refine congrArg (first :: ·) ?_
  conv_rhs => rw [← List.map_id rest]
  refine List.map_congr_left fun text htext => ?_
  show String.ofList (trimmed (' ' :: text.toList)) = text
  rw [trimmed_cons_of_isBlank (by decide), hrest text htext, String.ofList_toList]

end Text

/-- Instants that headers hold as dates, which is the form of instants without another one. -/
def Plan.Target.IsHttpDate : Target → Prop
  | .scalar .timestamp format _ => format.getD .httpDate = .httpDate
  | _ => False

/-- Headers can carry the value in a list: a text then holds no comma and no white space at its
ends. -/
def Value.IsListable (target : Target) : Value → Prop
  | .string s => Http.isVisible s = true ∧ ',' ∉ s.toList ∧ Text.trimmed s.toList = s.toList
  | value => value.IsLegible target

theorem Value.IsListable.isLegible {target : Target} {value : Value} (h : value.IsListable target) :
    value.IsLegible target := by
  cases value with
  | string s => exact h.1
  | _ => exact h

/-- A text between commas is found there. -/
def Text.IsItem (s : String) : Prop :=
  ',' ∉ s.toList ∧ Text.trimmed s.toList = s.toList

theorem Http.IsPlain.isItem {s : String} (h : IsPlain s) : Text.IsItem s := by
  have hmarks : ∀ c ∈ plainMarks, Text.isBlank c = false :=
    List.all_iff_forall_prop.1 (by decide)
  refine ⟨fun hcomma => ?_, Text.trimmed_of_forall fun c hc => ?_⟩
  · exact absurd (h ',' hcomma) (by decide)
  · exact (h c hc).elim Text.isBlank_of_isAlphanum (hmarks c)

/-- The text of an item is found between commas, unless it is a date of headers. -/
theorem isItem_scalarText {target : Target} (htarget : target.IsExact) (hdate : ¬target.IsHttpDate)
    {value : Value} (hvalue : value.IsListable target) {path text : String}
    (h : Request.scalarText .httpDate path target value = .ok text) : Text.IsItem text := by
  unfold Request.scalarText at h
  split at h
  · obtain rfl := Except.ok.inj h
    exact hvalue.2
  · obtain rfl := Except.ok.inj h
    exact hvalue.2
  · next b =>
    obtain rfl := Except.ok.inj h
    cases b <;> exact ⟨by decide, by decide⟩
  · obtain rfl := Except.ok.inj h
    exact (Http.isPlain_integer _).isItem
  · exact absurd rfl htarget
  · exact absurd rfl htarget
  · next format streaming t =>
    obtain ⟨-, -, hform⟩ := hvalue.isLegible
    obtain rfl : format = some .dateTime := by
      match format with
      | none => exact absurd rfl hdate
      | some .httpDate => exact absurd rfl hdate
      | some .epochSeconds => exact absurd rfl (hform streaming)
      | some .dateTime => rfl
    unfold Request.instantText at h
    split at h
    · next s hs =>
      obtain rfl := Except.ok.inj h
      exact (Http.isPlain_dateTime hs).isItem
    · cases h
  · obtain rfl := Except.ok.inj h
    exact (Http.isPlain_encode _).isItem
  · cases h

namespace Response
open Generate (Memory Run)
open Http (Headers)
open Request (HasOwnHeader SendsValue)

/-- Items whose texts are found between commas are read back. -/
theorem readPresent_headerDocument {item : Target} (hitem : item.IsExact)
    (hdate : ¬item.IsHttpDate) {items : List Value} (hne : items ≠ [])
    (hitems : ∀ value ∈ items, value.IsListable item) {writtenAt : String} {texts : List String}
    (htexts : List.Forall₂ (fun value text =>
      Request.scalarText .httpDate writtenAt item value = .ok text) items texts)
    (path shape : String) (itemName : Option String) (flattened : Bool) :
    readPresent .json path (headerDocument (.list shape item itemName flattened)
      (", ".intercalate texts)) (.list shape item itemName flattened) = .ok (.list items) := by
  have hwritten := (List.forall₂_and_left _ _).2 ⟨hitems, htexts⟩
  have hpieces : ∀ text ∈ texts, Text.IsItem text := by
    intro text htext
    obtain ⟨value, -, hvalue, htext⟩ := exists_of_mem_forall₂_right hwritten htext
    exact isItem_scalarText hitem hdate hvalue htext
  have hsome : texts ≠ [] := by
    rintro rfl
    exact hne (List.forall₂_nil_right_iff.1 htexts)
  have hdoc : headerDocument (.list shape item itemName flattened) (", ".intercalate texts) =
      .array (texts.map .string) := by
    conv_rhs => rw [← Text.map_trimmed_splitOnP hsome (fun text htext => (hpieces text htext).1)
      fun text htext => (hpieces text htext).2, List.map_map]
    rfl
  have hread : List.Forall₂ (fun value doc => ∀ path,
      readValue .json path item doc = .ok (some value)) items (texts.map .string) := by
    refine List.forall₂_map_right_iff.2 (hwritten.imp fun value text ⟨hvalue, htext⟩ path => ?_)
    rw [readValue, (readPresent_scalarText hitem hvalue.isLegible htext).2]
    rfl
  rw [hdoc]
  exact readPresent_list rfl (readItems_of_forall₂ hread path 0)

theorem readInstant_of_mem_weekdayNames {day : String} (hday : day ∈ Time.weekdayNames)
    {format : Option Time.Format} (hformat : format.getD .httpDate = .httpDate) (path : String) :
    readInstant path format day = .error (.timestamp path) := by
  have hany := Time.readAny?_of_mem_weekdayNames hday
  have hasked : (format.bind fun form => Time.read? form day) = none := by
    cases format with
    | none => rfl
    | some form =>
      obtain rfl : form = .httpDate := hformat
      rw [Time.readAny?, Option.or_eq_none_iff, Option.or_eq_none_iff] at hany
      exact hany.1.2
  rw [readInstant, hasked, hany]
  rfl

/-- A text that begins with the name of a weekday and a comma has the name as its first item. -/
theorem splitOnP_day {day : String} (hday : day ∈ Time.weekdayNames) (rest : List Char) :
    ((day.toList ++ ',' :: rest).splitOnP (· = ',')).map (fun item =>
      String.ofList (Text.trimmed item)) =
        day :: (rest.splitOnP (· = ',')).map fun item => String.ofList (Text.trimmed item) := by
  have hplain : ∀ day ∈ Time.weekdayNames, day.toList.all Char.isAlphanum = true := by decide
  obtain ⟨hcomma, htrimmed⟩ := Http.IsPlain.isItem fun c hc =>
    .inl (List.all_eq_true.1 (hplain day hday) c hc)
  have hsplit : (day.toList ++ ',' :: rest).splitOn ',' = [day.toList] ++ rest.splitOn ',' := by
    rw [List.splitOn_append_cons_self, List.splitOn_eq_singleton hcomma]
  refine (congrArg _ hsplit).trans ?_
  rw [List.map_append, List.map_singleton, htrimmed, String.ofList_toList]
  rfl

/-- The text of an item that is a date begins with the name of a weekday and a comma. -/
theorem exists_day_of_scalarText {item : Target} (hdate : item.IsHttpDate) {value : Value}
    {path text : String} (h : Request.scalarText .httpDate path item value = .ok text) :
    ∃ day ∈ Time.weekdayNames, ∃ rest, text.toList = day.toList ++ ',' :: rest := by
  unfold Request.scalarText at h
  split at h
  case h_7 format streaming t =>
    rw [show format.getD .httpDate = .httpDate from hdate] at h
    unfold Request.instantText at h
    split at h
    · next s hs =>
      obtain rfl := Except.ok.inj h
      obtain ⟨chars, hchars, rfl⟩ := Option.map_eq_some_iff.1 hs
      obtain ⟨day, hday, middle, rfl, -⟩ := Time.exists_httpDate hchars
      exact ⟨day, hday, _, String.toList_ofList⟩
    · cases h
  case h_9 => cases h
  all_goals exact hdate.elim

/-- The first date of a list is cut at its comma, and the name of its weekday is no instant. -/
theorem readPresent_of_isHttpDate {item : Target} (hdate : item.IsHttpDate) {items : List Value}
    (hne : items ≠ []) {writtenAt : String} {texts : List String}
    (htexts : List.Forall₂ (fun value text =>
      Request.scalarText .httpDate writtenAt item value = .ok text) items texts)
    (path shape : String) (itemName : Option String) (flattened : Bool) :
    readPresent .json path (headerDocument (.list shape item itemName flattened)
      (", ".intercalate texts)) (.list shape item itemName flattened) =
        .error (.timestamp (itemPath path 0)) := by
  cases htexts with
  | nil => exact absurd rfl hne
  | @cons value text items texts htext _ =>
    obtain ⟨day, hday, rest, hrest⟩ := exists_day_of_scalarText hdate htext
    have hbegins : ∃ more,
        (", ".intercalate (text :: texts)).toList = day.toList ++ ',' :: more := by
      cases texts with
      | nil => exact ⟨rest, by rw [String.intercalate_singleton, hrest]⟩
      | cons next texts =>
        refine ⟨rest ++ (", " ++ ", ".intercalate (next :: texts)).toList, ?_⟩
        rw [String.intercalate_cons_cons, String.toList_append, String.toList_append, hrest]
        simp
    obtain ⟨more, hmore⟩ := hbegins
    have hdoc : ∃ docs, headerDocument (.list shape item itemName flattened)
        (", ".intercalate (text :: texts)) = .array (.string day :: docs) := by
      have hsplit := congrArg (List.map Document.string) (splitOnP_day hday more)
      rw [← hmore, List.map_map, List.map_cons] at hsplit
      exact ⟨_, congrArg Document.array hsplit⟩
    obtain ⟨docs, hdoc⟩ := hdoc
    have hfirst (path : String) : readPresent .json path (.string day) item =
        .error (.timestamp path) := by
      unfold Plan.Target.IsHttpDate at hdate
      split at hdate
      · exact readInstant_of_mem_weekdayNames hday hdate path
      · exact hdate.elim
    rw [hdoc, readPresent]
    show (readItems _ path 0 (.string day :: docs) >>= _) = _
    rw [readItems]
    simp only [Document.isNull, hfirst]
    rfl

theorem isVisible_intercalate {texts : List String}
    (h : ∀ text ∈ texts, Http.isVisible text = true) :
    Http.isVisible (", ".intercalate texts) = true := by
  refine List.all_eq_true.2 fun c hc => ?_
  rcases Text.mem_toList_intercalate hc with hmem | ⟨text, htext, hmem⟩
  · exact List.all_eq_true.1 (by decide : Http.isVisible ", " = true) c hmem
  · exact List.all_eq_true.1 (h text htext) c hmem

section
variable {call : Call} {record : Record} {response : Http.Response} {binding : Binding}
  {shape : String} {item : Target} {itemName : Option String} {flattened : Bool}
  {items : List Value} (hnodup : call.input.members.Nodup)
  (hmem : (binding, Target.list shape item itemName flattened) ∈ call.input.membersAt .header)
  (hown : HasOwnHeader call record (binding, .list shape item itemName flattened))
  (hitem : item.IsExact) (hvalue : record.get? binding.name = some (.list items))
  (hne : items ≠ []) (hitems : ∀ value ∈ items, value.IsListable item)
  (hheaders : Request.headers call record = .ok response.headers)
include hnodup hmem hown hitem hvalue hitems hheaders

/-- The header of a list holds the texts of its items and is read for it. -/
theorem exists_memberValue_of_list :
    ∃ texts, List.Forall₂ (fun value text =>
        Request.scalarText .httpDate binding.name item value = .ok text) items texts ∧
      memberValue response (binding, .list shape item itemName flattened) =
        ((readPresent .json binding.name (headerDocument (.list shape item itemName flattened)
          (", ".intercalate texts)) (.list shape item itemName flattened)).map some).mapError
            .misfit := by
  obtain ⟨hmember, hlocation⟩ := mem_membersAt.1 hmem
  have htext := hown.text? hnodup hmember hlocation hheaders
  simp only [hvalue] at htext
  obtain ⟨text, hwritten, hfound⟩ := htext
  obtain ⟨texts, htexts, hjoined⟩ := bind_eq_ok.1 hwritten
  obtain rfl := Except.ok.inj hjoined
  have htexts := forall₂_of_mapM_eq_ok htexts
  refine ⟨texts, htexts, ?_⟩
  have hvisible : Http.isVisible (", ".intercalate texts) = true := by
    refine isVisible_intercalate fun text htext => ?_
    obtain ⟨value, -, hvalue, htext⟩ := exists_of_mem_forall₂_right
      ((List.forall₂_and_left _ _).2 ⟨hitems, htexts⟩) htext
    exact (readPresent_scalarText hitem hvalue.isLegible htext).1
  rw [memberValue_of_header hlocation, hfound, Option.filter, if_pos hvisible]
  rfl

include hne

theorem memberValue_of_list (hdate : ¬item.IsHttpDate) :
    memberValue response (binding, .list shape item itemName flattened) =
      .ok (some (.list items)) := by
  obtain ⟨texts, htexts, hread⟩ :=
    exists_memberValue_of_list hnodup hmem hown hitem hvalue hitems hheaders
  rw [hread, readPresent_headerDocument hitem hdate hne hitems htexts]
  rfl

theorem memberValue_of_dates (hdate : item.IsHttpDate) :
    memberValue response (binding, .list shape item itemName flattened) =
      .error (.misfit (.timestamp (itemPath binding.name 0))) := by
  obtain ⟨texts, htexts, hread⟩ :=
    exists_memberValue_of_list hnodup hmem hown hitem hvalue hitems hheaders
  rw [hread, readPresent_of_isHttpDate hdate hne htexts]
  rfl

end

/-- A list in a header of its own is read back as it was, unless its items are dates: then the
first of them is refused, and the response cannot be read. -/
theorem list_read_back {writer reader : Call} (houtput : reader.output = some writer.input)
    (hnames : HaveOwnNames writer.input.members) {binding : Binding} {shape : String}
    {item : Target} {itemName : Option String} {flattened : Bool}
    (hmem : (binding, Target.list shape item itemName flattened) ∈ writer.input.membersAt .header)
    (hitem : item.IsExact) {record : Record} {items : List Value}
    (hvalue : record.get? binding.name = some (.list items)) (hne : items ≠ [])
    (hitems : ∀ value ∈ items, value.IsListable item)
    (hown : HasOwnHeader writer record (binding, .list shape item itemName flattened))
    {response : Http.Response} (hheaders : Request.headers writer record = .ok response.headers) :
    (item.IsHttpDate → memberValue response (binding, .list shape item itemName flattened) =
        .error (.misfit (.timestamp (itemPath binding.name 0))) ∧
      ∀ found, read reader response ≠ .ok found) ∧
    (¬item.IsHttpDate →
      (∀ found, read reader response = .ok found →
        found.get? binding.name = some (.list items)) ∧
      ((∃ found, read reader response = .ok found) ↔
        (∃ body, bodyRecord reader writer.input response = .ok body) ∧
          ∀ other ∈ writer.input.members,
            other ≠ (binding, .list shape item itemName flattened) →
              ∃ value, memberValue response other = .ok value)) := by
  obtain ⟨hmember, hlocation⟩ := mem_membersAt.1 hmem
  refine ⟨fun hdate => ?_, fun hdate => ?_⟩
  · have hrefused := memberValue_of_dates hnames.of_map hmem hown hitem hvalue hne hitems hheaders
      hdate
    refine ⟨hrefused, fun found hfound => ?_⟩
    obtain ⟨value, hok⟩ := ((exists_read_iff houtput).1 ⟨found, hfound⟩).2 _ hmember
    cases hrefused.symm.trans hok
  · have hback := memberValue_of_list hnames.of_map hmem hown hitem hvalue hne hitems hheaders hdate
    have hplace : binding.location = .header := hlocation
    refine ⟨fun found hfound => get?_of_read houtput hnames hfound hmember (by simp [hplace])
      (by simp [hplace]) hback, (exists_read_iff houtput).trans (and_congr_right' ?_)⟩
    refine ⟨fun h other hother _ => h other hother, fun h other hother => ?_⟩
    by_cases heq : other = (binding, .list shape item itemName flattened)
    · exact ⟨_, heq ▸ hback⟩
    · exact h other hother heq

def tagsMember : Binding × Target :=
  (⟨"tags", "tags", "X-Tags", false, .header, false, none⟩,
    .list "L" (.scalar .string none false) none false)

def daysMember : Binding × Target :=
  (⟨"days", "days", "X-Days", false, .header, false, none⟩,
    .list "D" (.scalar .timestamp none false) none false)

def logLayout : Layout where
  heading := ⟨"Log", ⟨.input, "Log"⟩, none, none⟩
  members := [tagsMember, daysMember]

def logCall : Call where
  service := Request.cardsModel.service
  operation := ⟨"Log", "Log", some "Log", "POST", "/", none, none⟩
  ident := ⟨.client, "log"⟩
  input := logLayout
  output := some logLayout
  template := ⟨[.literal "/"], none⟩

theorem compiled_logCall : logCall.Compiled :=
  ⟨Memory, inferInstance, Run.start ⟨Request.cardsModel, {}⟩ {}, "Log",
    ⟨_, _, [], .load Request.load_cardsDocument, rfl⟩, rfl⟩

theorem headersToldApart_logCall : HeadersToldApart logCall where
  names := by
    simp only [Http.lower_eq]
    decide
  starts _ _ _ hother := by cases hother
  members := by
    rw [HaveOwnNames]
    decide
  target := by
    simp only [Http.lower_eq]
    refine fun pair hpair => ⟨?_, fun _ hmem => by cases hmem⟩
    revert pair
    decide
  maps _ hmem := by cases hmem

/-- Tags come back with the spaces inside them, and an empty one between commas. -/
theorem list_read_back_of_tags :
    let tags : Value := .list [.string "a b", .string "", .string "c"]
    let record : Record := ⟨"Log", [("tags", tags)]⟩
    let response : Http.Response :=
      ⟨200, .enter [] [("X-Amz-Target", "Cards.Log"), ("X-Tags", "a b, , c")], []⟩
    logCall.Compiled ∧ Request.headers logCall record = .ok response.headers ∧
      ∃ found, read logCall response = .ok found ∧ found.get? "tags" = some tags := by
  intro tags record response
  have hapart := headersToldApart_logCall
  have hsends : Request.Sends record tagsMember [("X-Tags", "a b, , c")] :=
    SendsValue.header rfl rfl (by decide)
  have hheaders : Request.headers logCall record = .ok response.headers :=
    Request.headers_eq_ok.2 ⟨by decide, [_, []], .cons hsends (.cons rfl .nil), rfl⟩
  have hitems : ∀ value ∈ [Value.string "a b", .string "", .string "c"],
      value.IsListable (.scalar .string none false) := by
    intro value hvalue
    simp only [List.mem_cons, List.not_mem_nil, or_false] at hvalue
    obtain rfl | rfl | rfl := hvalue
    all_goals exact ⟨by decide, by decide, by decide⟩
  have htags : tagsMember ∈ logCall.input.membersAt .header := List.mem_cons_self
  have hdays : daysMember ∈ logCall.input.membersAt .header :=
    List.mem_cons_of_mem _ List.mem_cons_self
  have houtput : logCall.output = some logCall.input := rfl
  obtain ⟨hvalue, hread⟩ := (list_read_back houtput hapart.members htags
    (by simp [Plan.Target.IsExact]) rfl (List.cons_ne_nil _ _) hitems (hapart.hasOwnHeader htags)
    hheaders).2 id
  have hbody : ∃ body, bodyRecord logCall logLayout response = .ok body :=
    exists_bodyRecord_of_nil houtput rfl
  have hothers : ∀ other ∈ logCall.input.members, other ≠ tagsMember →
      ∃ value, memberValue response other = .ok value := by
    intro other hother hne
    obtain rfl | hother := List.mem_cons.1 hother
    · exact absurd rfl hne
    · obtain rfl := List.mem_singleton.1 hother
      exact ⟨none, memberValue_of_absent (hapart.hasOwnHeader hdays) hapart.members.of_map hheaders
        hdays rfl⟩
  obtain ⟨found, hfound⟩ := hread.2 ⟨hbody, hothers⟩
  exact ⟨compiled_logCall, hheaders, found, hfound, hvalue found hfound⟩

/-- A list of one date is sent in a header from which it cannot be read back. -/
theorem days_unreadable :
    let day : Instant := ⟨0, 0, by decide⟩
    let record : Record := ⟨"Log", [("days", .list [.timestamp day])]⟩
    let response : Http.Response := ⟨200, .enter [] [("X-Amz-Target", "Cards.Log"),
      ("X-Days", "Thu, 01 Jan 1970 00:00:00 GMT")], []⟩
    logCall.Compiled ∧ Request.headers logCall record = .ok response.headers ∧
      read logCall response = .error (.misfit (.timestamp (itemPath "days" 0))) := by
  intro day record response
  have hapart := headersToldApart_logCall
  have hdate : Request.instantText day .httpDate = .ok "Thu, 01 Jan 1970 00:00:00 GMT" := by
    have hformat : Time.format? day .httpDate = some "Thu, 01 Jan 1970 00:00:00 GMT" := by
      decide +kernel
    rw [Request.instantText, hformat]
  have hwritten : Request.headerText daysMember.1 daysMember.2 (.list [.timestamp day]) =
      .ok "Thu, 01 Jan 1970 00:00:00 GMT" := by
    have hitem : Request.scalarText .httpDate "days" (.scalar .timestamp none false)
        (.timestamp day) = .ok "Thu, 01 Jan 1970 00:00:00 GMT" := hdate
    simp only [Request.headerText, daysMember, List.mapM_cons, List.mapM_nil, hitem]
    rfl
  have hsends : Request.Sends record daysMember [("X-Days", "Thu, 01 Jan 1970 00:00:00 GMT")] :=
    SendsValue.header rfl hwritten (by decide)
  have hheaders : Request.headers logCall record = .ok response.headers :=
    Request.headers_eq_ok.2 ⟨by decide, [[], _], .cons rfl (.cons hsends .nil), rfl⟩
  have htags : memberValue response tagsMember = .ok none :=
    memberValue_of_absent (hapart.hasOwnHeader List.mem_cons_self) hapart.members.of_map hheaders
      List.mem_cons_self rfl
  have hlegible : (Value.timestamp day).IsListable (.scalar .timestamp none false) := by
    refine ⟨rfl, ?_, by simp⟩
    rw [Time.HasPlainYear]
    decide
  have hmem : daysMember ∈ logCall.input.membersAt .header :=
    List.mem_cons_of_mem _ List.mem_cons_self
  have hdays : memberValue response daysMember =
      .error (.misfit (.timestamp (itemPath "days" 0))) :=
    memberValue_of_dates hapart.members.of_map hmem (hapart.hasOwnHeader hmem)
      (by simp [Plan.Target.IsExact]) rfl (List.cons_ne_nil _ _)
      (List.forall_mem_singleton.2 hlegible) hheaders rfl
  refine ⟨compiled_logCall, hheaders, ?_⟩
  rw [read_eq_bind rfl]
  show addMembers response (emptyRecord (some logLayout)) [tagsMember, daysMember] = _
  rw [addMembers_cons, htags, ok_bind, addMembers_cons, hdays, error_bind]

end Response
end ServiceBindings
