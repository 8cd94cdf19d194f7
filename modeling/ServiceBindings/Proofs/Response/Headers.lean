import ServiceBindings.Proofs.Request.Headers
import ServiceBindings.Proofs.Response.Members
import ServiceBindings.Proofs.Text.Base64
import ServiceBindings.Proofs.Time.HttpDate
import ServiceBindings.Proofs.Value.ReadBack

/-! Headers are read back: the text of each value stands for the value alone, and each header is
found by the member that it was written for. -/
namespace ServiceBindings
open Plan (Binding Call HaveOwnNames Layout Target)

/-- Data without parts that its text stands for: anything but floats. -/
def Plan.Target.IsExact : Target → Prop
  | .scalar kind _ _ => kind ≠ .float
  | .enumeration _ => True
  | _ => False

/-- Headers can carry the value whole: a text of visible characters, an integer of 64 bits, an
instant in whole seconds of a plain year that is written as a date. -/
def Value.IsLegible (target : Target) : Value → Prop
  | .string s => Http.isVisible s = true
  | .integer i => -Text.int64Bound ≤ i ∧ i < Text.int64Bound
  | .timestamp t => t.nanos = 0 ∧ Time.HasPlainYear t ∧
      ∀ streaming, target ≠ .scalar .timestamp (some .epochSeconds) streaming
  | _ => True

namespace Http

/-- Marks in the texts of values other than strings, apart from those in dates of headers. -/
def plainMarks : List Char := [':', '.', '-', '+', '/', '=']

/-- A text is made up of letters, digits and a few marks. -/
def IsPlain (s : String) : Prop :=
  ∀ c ∈ s.toList, c.isAlphanum = true ∨ c ∈ plainMarks

theorem isVisible_of_forall {s : String}
    (h : ∀ c ∈ s.toList, (c.isAlphanum = true ∨ c ∈ plainMarks) ∨ c ∈ [' ', ',']) :
    isVisible s = true := by
  have hmarks : ∀ c ∈ plainMarks ++ [' ', ','], 32 ≤ c.toNat ∧ c.toNat < 127 :=
    List.all_iff_forall_prop.1 (by decide)
  refine List.all_eq_true.2 fun c hc => ?_
  have hbounds : 32 ≤ c.toNat ∧ c.toNat < 127 := by
    rcases h c hc with (hc | hc) | hc
    · have hranges := Text.toNat_of_isAlphanum hc
      omega
    · exact hmarks c (List.mem_append_left _ hc)
    · exact hmarks c (List.mem_append_right _ hc)
  simp [hbounds]

theorem IsPlain.isVisible {s : String} (h : IsPlain s) : isVisible s = true :=
  isVisible_of_forall fun c hc => .inl (h c hc)

theorem isPlain_integer (i : Int) : IsPlain (Text.integer i) :=
  fun _ hc => (Text.isDigit_of_mem_integer hc).imp Time.isAlphanum_of_isDigit
    fun hc => by simp [plainMarks, hc]

theorem isPlain_encode (bytes : Bytes) : IsPlain (Text.Base64.encode bytes) := by
  have hsymbol : ∀ n < 64, (Text.Base64.symbol n).isAlphanum = true ∨
      Text.Base64.symbol n ∈ plainMarks := by decide
  intro c hc
  rw [Text.Base64.encode, String.toList_ofList] at hc
  rcases Text.Base64.mem_encodeChars hc with rfl | ⟨n, hn, rfl⟩
  · exact .inr (by decide)
  · exact hsymbol n hn

theorem isPlain_dateTime {t : Instant} {s : String} (h : Time.format? t .dateTime = some s) :
    IsPlain s := by
  have hmarks : ∀ c ∈ ['-', 'T', ':', '.', 'Z'], c.isAlphanum = true ∨ c ∈ plainMarks :=
    List.all_iff_forall_prop.1 (by decide)
  obtain ⟨chars, hchars, rfl⟩ := Option.map_eq_some_iff.1 h
  intro c hc
  rw [String.toList_ofList] at hc
  exact (Time.isDigit_of_mem_dateTime hchars hc).elim (.inl ∘ Time.isAlphanum_of_isDigit)
    (hmarks c)

theorem isVisible_httpDate {t : Instant} {s : String} (h : Time.format? t .httpDate = some s) :
    isVisible s = true := by
  have hdays : ∀ day ∈ Time.weekdayNames, day.toList.all Char.isAlphanum = true := by decide
  have hzone : ∀ c ∈ " GMT".toList, (c.isAlphanum = true ∨ c ∈ plainMarks) ∨ c ∈ [' ', ','] :=
    List.all_iff_forall_prop.1 (by decide)
  have hmarks : ∀ c ∈ [' ', ':', '-'], (c.isAlphanum = true ∨ c ∈ plainMarks) ∨ c ∈ [' ', ','] :=
    List.all_iff_forall_prop.1 (by decide)
  obtain ⟨chars, hchars, rfl⟩ := Option.map_eq_some_iff.1 h
  obtain ⟨day, hday, middle, rfl, hmiddle⟩ := Time.exists_httpDate hchars
  refine isVisible_of_forall fun c hc => ?_
  simp only [String.toList_ofList, List.mem_append, List.mem_cons] at hc
  rcases hc with hc | rfl | rfl | hc | hc
  · exact .inl (.inl (List.all_eq_true.1 (hdays day hday) c hc))
  · exact .inr (by decide)
  · exact .inr (by decide)
  · exact (hmiddle c hc).elim (fun hc => .inl (.inl hc)) (hmarks c)
  · exact hzone c hc

end Http

/-- An instant that is written as a date is read back, whichever of the forms was asked for. -/
theorem readInstant_instantText {t : Instant} {format : Option Time.Format} {text : String}
    (hformat : format ≠ some .epochSeconds) (hwhole : t.nanos = 0) (hyear : Time.HasPlainYear t)
    (h : Request.instantText t (format.getD .httpDate) = .ok text) :
    Http.isVisible text = true ∧ ∀ path, readInstant path format text = .ok (.timestamp t) := by
  obtain ⟨date, hdate, hread, hany⟩ := Time.exists_format?_httpDate hyear hwhole
  obtain ⟨dateTime, hdateTime, hreadDateTime⟩ := Time.exists_format?_dateTime hyear
  unfold Request.instantText at h
  split at h
  · next s hs =>
    obtain rfl := Except.ok.inj h
    match format, hformat with
    | none, _ =>
      obtain rfl : date = s := Option.some.inj (hdate.symm.trans hs)
      exact ⟨Http.isVisible_httpDate hs, fun path => by simp [readInstant, hany]⟩
    | some .httpDate, _ =>
      obtain rfl : date = s := Option.some.inj (hdate.symm.trans hs)
      exact ⟨Http.isVisible_httpDate hs, fun path => by simp [readInstant, hread]⟩
    | some .dateTime, _ =>
      obtain rfl : dateTime = s := Option.some.inj (hdateTime.symm.trans hs)
      exact ⟨(Http.isPlain_dateTime hs).isVisible, fun path => by simp [readInstant, hreadDateTime]⟩
  · cases h

/-- The text of a value is visible and read back as the value. -/
theorem readPresent_scalarText {target : Target} (htarget : target.IsExact) {value : Value}
    (hvalue : value.IsLegible target) {path text : String}
    (h : Request.scalarText .httpDate path target value = .ok text) :
    Http.isVisible text = true ∧
      ∀ path, readPresent .json path (.string text) target = .ok value := by
  unfold Request.scalarText at h
  split at h
  · obtain rfl := Except.ok.inj h
    exact ⟨hvalue, fun path => by rw [readPresent]⟩
  · obtain rfl := Except.ok.inj h
    exact ⟨hvalue, fun path => by rw [readPresent, readScalar]⟩
  · next b =>
    obtain rfl := Except.ok.inj h
    refine ⟨by cases b <;> decide, fun path => ?_⟩
    cases b <;> rfl
  · next i =>
    obtain rfl := Except.ok.inj h
    refine ⟨(Http.isPlain_integer i).isVisible, fun path => ?_⟩
    rw [readPresent, readScalar, Text.trimmed_integer, Text.int64?_integer hvalue]
    rfl
  · exact absurd rfl htarget
  · exact absurd rfl htarget
  · next format streaming t =>
    obtain ⟨hwhole, hyear, hform⟩ := hvalue
    have hformat : format ≠ some .epochSeconds := fun heq => hform streaming (by rw [heq])
    obtain ⟨hvisible, hread⟩ := readInstant_instantText hformat hwhole hyear h
    exact ⟨hvisible, fun path => by rw [readPresent, readScalar, hread]⟩
  · next bytes =>
    obtain rfl := Except.ok.inj h
    refine ⟨(Http.isPlain_encode bytes).isVisible, fun path => ?_⟩
    rw [readPresent, readScalar, readBlob, Text.Base64.decode?_encode]
    rintro ⟨⟩
  · cases h

namespace Response
open Http (Begins Headers)
open Request (HasOwnHeader HeadersApart Sends SendsEntry SendsValue askedNames namesAt sentNames
  targetPairs)

/-- The document of a header whose name begins as a text does, under the rest of its name. -/
def entryUnder? (start : String) (header : String × String) : Option (String × Document) :=
  match Text.expect? (start.toList.map Char.toLower) header.1.toList with
  | some rest =>
    if Http.isVisible header.2 then some (String.ofList rest, .string header.2) else none
  | none => none

theorem headersBeginning_ofPairs (start : String) (pairs : List (String × String)) :
    headersBeginning start (Headers.ofPairs pairs) =
      Fields.ofList (pairs.filterMap fun pair =>
        entryUnder? start (pair.1.map Char.toLower, pair.2)) := by
  show Fields.ofList ((Headers.ofPairs pairs).entries.filterMap (entryUnder? start)) = _
  rw [Headers.entries_ofPairs, List.filterMap_map]
  rfl

theorem entryUnder?_eq_none {start : String} {pair : String × String}
    (h : ¬Begins start pair.1) : entryUnder? start (pair.1.map Char.toLower, pair.2) = none := by
  have hnone : Text.expect? (start.toList.map Char.toLower) (pair.1.map Char.toLower).toList =
      none := by
    rw [Text.expect?_eq_none_iff, ← String.toList_map]
    exact h
  rw [entryUnder?, hnone]

theorem entryUnder?_append {start key text : String} (hkey : key.map Char.toLower = key)
    (htext : Http.isVisible text = true) :
    entryUnder? start ((start ++ key).map Char.toLower, text) = some (key, .string text) := by
  rw [entryUnder?, Http.toList_lower_append, hkey, String.toList_map, Text.expect?_append]
  dsimp only
  rw [if_pos htext, String.ofList_toList]

/-- Headers carry data without parts other than floats, alone or as the values of maps. -/
def CarriesExact (member : Binding × Target) : Prop :=
  match member.1.location, member.2 with
  | .header, target => target.IsExact
  | .headerPrefix, .map _ _ target _ _ _ => target.IsExact
  | .headerPrefix, _ => False
  | _, _ => True

/-- What a member puts into headers can be carried whole. Keys of maps are names in lower case, and
there is at least one. -/
def CarriesLegible (member : Binding × Target) (value : Value) : Prop :=
  match member.1.location, member.2, value with
  | .header, target, value => value.IsLegible target
  | .headerPrefix, .map _ _ target _ _ _, .map entries =>
    entries ≠ [] ∧ (Fields.names entries).Nodup ∧
      ∀ entry ∈ entries, entry.1.map Char.toLower = entry.1 ∧ entry.2.IsLegible target
  | _, _, _ => True

/-- The headers of an operation can be told apart: members have names of their own, no header but
those of a map begins as they do, and that of the target is none of the members'. -/
structure HeadersToldApart (call : Call) : Prop extends HeadersApart call.input where
  members : HaveOwnNames call.input.members
  target : ∀ pair ∈ targetPairs call,
    (∀ member ∈ call.input.membersAt .header,
      member.1.wireName.map Char.toLower ≠ pair.1.map Char.toLower) ∧
    ∀ member ∈ call.input.membersAt .headerPrefix, ¬Begins member.1.wireName pair.1
  maps : ∀ member ∈ call.input.membersAt .headerPrefix,
    ∀ other ∈ call.input.membersAt .headerPrefix, member ≠ other →
      ¬Begins member.1.wireName other.1.wireName

theorem CarriesExact.isExact {member : Binding × Target} (h : CarriesExact member)
    (hlocation : member.1.location = .header) : member.2.IsExact := by
  obtain ⟨binding, target⟩ := member
  dsimp only at hlocation
  unfold CarriesExact at h
  dsimp only at h
  rwa [hlocation] at h

theorem CarriesExact.exists_map {member : Binding × Target} (h : CarriesExact member)
    (hlocation : member.1.location = .headerPrefix) :
    ∃ shape key target keyName valueName flattened,
      member.2 = .map shape key target keyName valueName flattened ∧ target.IsExact := by
  obtain ⟨binding, target⟩ := member
  dsimp only at hlocation
  unfold CarriesExact at h
  dsimp only at h
  rw [hlocation] at h
  cases target with
  | map shape key target keyName valueName flattened =>
    exact ⟨shape, key, target, keyName, valueName, flattened, rfl, h⟩
  | _ => exact h.elim

theorem CarriesLegible.isLegible {member : Binding × Target} {value : Value}
    (h : CarriesLegible member value) (hlocation : member.1.location = .header) :
    value.IsLegible member.2 := by
  obtain ⟨binding, target⟩ := member
  dsimp only at hlocation
  unfold CarriesLegible at h
  dsimp only at h
  rwa [hlocation] at h

theorem CarriesLegible.entries {binding : Binding} {shape : String} {key target : Target}
    {keyName valueName : Option String} {flattened : Bool} {entries : List (String × Value)}
    (h : CarriesLegible (binding, .map shape key target keyName valueName flattened) (.map entries))
    (hlocation : binding.location = .headerPrefix) :
    entries ≠ [] ∧ (Fields.names entries).Nodup ∧
      ∀ entry ∈ entries, entry.1.map Char.toLower = entry.1 ∧ entry.2.IsLegible target := by
  unfold CarriesLegible at h
  dsimp only at h
  rw [hlocation] at h
  exact h

theorem mem_membersAt {layout : Layout} {location : Location} {member : Binding × Target} :
    member ∈ layout.membersAt location ↔
      member ∈ layout.members ∧ member.1.location = location := by
  simp [Layout.membersAt]

section
variable {call : Call} {record : Record} {member other : Binding × Target}

/-- No other member is sent in the header of a member. -/
theorem HeadersToldApart.ne_of_mem_sentNames (h : HeadersToldApart call)
    (hmem : member ∈ call.input.membersAt .header) (hother : other ∈ call.input.members)
    (hne : other ≠ member) {name : String} (hname : name ∈ sentNames record other) :
    member.1.wireName.map Char.toLower ≠ name.map Char.toLower := by
  intro heq
  rcases Request.of_mem_sentNames hname with ⟨hlocation, rfl⟩ | ⟨hlocation, hbegins⟩
  · exact hne (List.inj_on_of_nodup_map h.names (mem_membersAt.2 ⟨hother, hlocation⟩) hmem heq.symm)
  · exact h.starts member hmem other (mem_membersAt.2 ⟨hother, hlocation⟩)
      (hbegins.of_lower_eq heq.symm)

/-- No other member is sent in headers that begin as those of a map do. -/
theorem HeadersToldApart.not_begins_of_mem_sentNames (h : HeadersToldApart call)
    (hmem : member ∈ call.input.membersAt .headerPrefix) (hother : other ∈ call.input.members)
    (hne : other ≠ member) {name : String} (hname : name ∈ sentNames record other) :
    ¬Begins member.1.wireName name := by
  intro hbegins
  rcases Request.of_mem_sentNames hname with ⟨hlocation, rfl⟩ | ⟨hlocation, hstart⟩
  · exact h.starts other (mem_membersAt.2 ⟨hother, hlocation⟩) member hmem hbegins
  · have hother := mem_membersAt.2 ⟨hother, hlocation⟩
    exact (hbegins.or hstart).elim (h.maps member hmem other hother (Ne.symm hne))
      (h.maps other hother member hmem hne)

/-- Under keys that differ, the headers of a map have names that differ. -/
theorem nodup_entryNames {entries : List (String × Value)}
    (hlocation : member.1.location = .headerPrefix) (hexact : CarriesExact member)
    (hlegible : CarriesLegible member (.map entries)) :
    ((entries.map fun entry => member.1.wireName ++ entry.1).map (·.map Char.toLower)).Nodup := by
  obtain ⟨binding, _⟩ := member
  obtain ⟨_, _, _, _, _, _, rfl, -⟩ := hexact.exists_map hlocation
  obtain ⟨-, hkeys, hentries⟩ := hlegible.entries hlocation
  rw [List.map_map]
  refine hkeys.of_map.map_on fun entry hmem other hother heq => ?_
  have hlower := congrArg String.toList heq
  simp only [Function.comp_apply, Http.toList_lower_append, List.append_cancel_left_eq,
    String.toList_inj, (hentries _ hmem).1, (hentries _ hother).1] at hlower
  exact List.inj_on_of_nodup_map hkeys hmem hother hlower

/-- All headers that are asked for have names of their own. -/
theorem HeadersToldApart.nodup_askedNames (h : HeadersToldApart call)
    (hlegible : ∀ member ∈ call.input.members, ∀ value ∈ record.get? member.1.name,
      CarriesLegible member value)
    (hexact : ∀ member ∈ call.input.members, CarriesExact member) :
    (askedNames call record).Nodup := by
  refine h.nodup_askedNames_iff.2 ⟨?_, fun name hname => ?_⟩
  · rw [namesAt, List.map_flatMap, List.nodup_flatMap]
    refine ⟨fun member hmem => ?_, ?_⟩
    · obtain ⟨hmem, hlocation⟩ := mem_membersAt.1 hmem
      rw [sentNames, hlocation]
      split
      · next hheader _ => cases hheader
      · next entries _ hvalue =>
        exact nodup_entryNames hlocation (hexact member hmem) (hlegible member hmem _ hvalue)
      · exact List.nodup_nil
    · refine (h.members.of_map.filter _).pairwise_of_forall_ne ?_
      intro member hmem other hother hne name hname hname'
      obtain ⟨given, hgiven, rfl⟩ := List.mem_map.1 hname
      obtain ⟨sent, hsent, heq⟩ := List.mem_map.1 hname'
      have hbegins : Begins member.1.wireName sent := by
        rcases Request.of_mem_sentNames hgiven with ⟨hlocation, -⟩ | ⟨-, hbegins⟩
        · cases hlocation.symm.trans (mem_membersAt.1 hmem).2
        · exact hbegins.of_lower_eq heq.symm
      exact h.not_begins_of_mem_sentNames hmem (mem_membersAt.1 hother).1 hne.symm hsent hbegins
  · obtain ⟨pair, hpair, rfl⟩ := List.mem_map.1 hname
    obtain ⟨hheader, hstart⟩ := h.target pair hpair
    refine ⟨fun hmem => ?_, fun hmem => ?_⟩
    · obtain ⟨member, hmem, heq⟩ := Request.exists_of_mem_headerNames hmem
      exact hheader member hmem heq.symm
    · obtain ⟨member, hmem, given, hbegins, heq⟩ := Request.exists_of_mem_entryNames hmem
      exact hstart member hmem (hbegins.of_lower_eq heq.symm)

theorem headerText_of_isExact {binding : Binding} {target : Target} (h : target.IsExact)
    (value : Value) : Request.headerText binding target value =
      Request.scalarText .httpDate binding.name target value := by
  cases target with
  | list => exact h.elim
  | _ => rfl

theorem headerDocument_of_isExact {target : Target} (h : target.IsExact) (text : String) :
    headerDocument target text = .string text := by
  cases target with
  | list => exact h.elim
  | _ => rfl

theorem memberValue_of_header {response : Http.Response} (hlocation : member.1.location = .header) :
    memberValue response member =
      match response.headers.text? member.1.wireName with
      | some text =>
        (readValue .json member.1.name member.2 (headerDocument member.2 text)).mapError .misfit
      | none => .ok none := by
  rw [memberValue, if_neg (by simp [hlocation]), memberDocument?, hlocation]
  cases response.headers.text? member.1.wireName <;> rfl

theorem memberValue_of_headerPrefix {response : Http.Response}
    (hlocation : member.1.location = .headerPrefix) :
    memberValue response member =
      match headersBeginning member.1.wireName response.headers with
      | [] => .ok none
      | entries => (readValue .json member.1.name member.2 (.object entries)).mapError .misfit := by
  rw [memberValue, if_neg (by simp [hlocation]), memberDocument?, hlocation]
  dsimp only
  cases headersBeginning member.1.wireName response.headers <;> rfl

theorem HeadersToldApart.hasOwnHeader (h : HeadersToldApart call)
    (hmem : member ∈ call.input.membersAt .header) : HasOwnHeader call record member where
  target pair hpair := (h.target pair hpair).1 member hmem
  members _ hother hne _ hname := h.ne_of_mem_sentNames hmem hother hne hname

/-- Without a value, nothing is read for a member. -/
theorem memberValue_of_absent (h : HasOwnHeader call record member)
    (hnodup : call.input.members.Nodup) {response : Http.Response}
    (hheaders : Request.headers call record = .ok response.headers)
    (hmem : member ∈ call.input.membersAt .header) (hvalue : record.get? member.1.name = none) :
    memberValue response member = .ok none := by
  obtain ⟨hmember, hlocation⟩ := mem_membersAt.1 hmem
  have htext := h.text? hnodup hmember hlocation hheaders
  simp only [hvalue] at htext
  rw [memberValue_of_header hlocation, htext]

/-- The header of a member is read as the value that it was written for. -/
theorem memberValue_of_hasOwnHeader (h : HasOwnHeader call record member)
    (hnodup : call.input.members.Nodup) {response : Http.Response}
    (hheaders : Request.headers call record = .ok response.headers)
    (hmem : member ∈ call.input.membersAt .header) (hexact : member.2.IsExact)
    (hlegible : ∀ value ∈ record.get? member.1.name, value.IsLegible member.2) :
    memberValue response member = .ok (record.get? member.1.name) := by
  obtain ⟨hmember, hlocation⟩ := mem_membersAt.1 hmem
  cases hvalue : record.get? member.1.name with
  | none => exact memberValue_of_absent h hnodup hheaders hmem hvalue
  | some value =>
    have htext := h.text? hnodup hmember hlocation hheaders
    simp only [hvalue] at htext
    obtain ⟨text, hwritten, hfound⟩ := htext
    rw [headerText_of_isExact hexact] at hwritten
    obtain ⟨hvisible, hread⟩ := readPresent_scalarText hexact (hlegible value hvalue) hwritten
    rw [memberValue_of_header hlocation, hfound, Option.filter, if_pos hvisible]
    dsimp only
    rw [headerDocument_of_isExact hexact, readValue, hread]
    rfl

/-- Documents stand for the entries of a map. -/
abbrev StandFor (target : Target) : List (String × Value) → List (String × Document) → Prop :=
  List.Forall₂ fun entry doc => doc.1 = entry.1 ∧
    ∀ path, readValue .json path target doc.2 = .ok (some entry.2)

theorem StandFor.names_eq {target : Target} {entries : List (String × Value)}
    {docs : List (String × Document)} (h : StandFor target entries docs) :
    Fields.names docs = Fields.names entries :=
  map_eq_map_of_forall₂ h fun _ _ hdoc => hdoc.1

/-- Documents that stand for entries with keys of their own are read as the map. -/
theorem readValue_map_of_standFor {target : Target} {entries : List (String × Value)}
    {docs : List (String × Document)} (h : StandFor target entries docs)
    (hkeys : (Fields.names entries).Nodup) (path shape : String) (key : Target)
    (keyName valueName : Option String) (flattened : Bool) :
    readValue .json path (.map shape key target keyName valueName flattened) (.object docs) =
      .ok (some (.map entries)) := by
  have hnodup : (Fields.names ([] ++ entries)).Nodup := hkeys
  have hentries := readEntries_of_forall₂ h hnodup path
  rw [readValue, readPresent_map_of_object (by decide) hentries]
  rfl

/-- The headers that a map is sent in stand for its entries. -/
theorem standFor_entryUnder? {start : String} {target : Target} {entries : List (String × Value)}
    {pairs : List (String × String)} (htarget : target.IsExact)
    (h : List.Forall₂ (SendsEntry start target) entries pairs)
    (hentries : ∀ entry ∈ entries, entry.1.map Char.toLower = entry.1 ∧ entry.2.IsLegible target) :
    StandFor target entries (pairs.filterMap fun pair =>
      entryUnder? start (pair.1.map Char.toLower, pair.2)) := by
  induction h with
  | nil => exact .nil
  | @cons entry pair entries pairs hpair _ ih =>
    obtain ⟨⟨hkey, hlegible⟩, hentries⟩ := List.forall_mem_cons.1 hentries
    obtain ⟨name, text⟩ := pair
    obtain ⟨rfl, htext, -⟩ := hpair
    obtain ⟨hvisible, hread⟩ := readPresent_scalarText htarget hlegible htext
    rw [List.filterMap_cons, entryUnder?_append hkey hvisible]
    refine .cons ⟨rfl, fun path => ?_⟩ (ih hentries)
    rw [readValue, hread]
    rfl

/-- The headers that begin like those of a map are the ones that the map sends. -/
theorem HeadersToldApart.exists_headersBeginning (h : HeadersToldApart call)
    {sent : List (List (String × String))}
    (hsent : List.Forall₂ (Sends record) call.input.members sent)
    (hmem : member ∈ call.input.membersAt .headerPrefix) :
    ∃ pairs, Sends record member pairs ∧
      headersBeginning member.1.wireName (Headers.ofPairs (targetPairs call ++ sent.flatten)) =
        Fields.ofList (pairs.filterMap fun pair =>
          entryUnder? member.1.wireName (pair.1.map Char.toLower, pair.2)) := by
  obtain ⟨hmember, -⟩ := mem_membersAt.1 hmem
  have hpairs := filterMap_flatten_of_forall₂
    (f := fun pair => entryUnder? member.1.wireName (pair.1.map Char.toLower, pair.2)) hsent
    h.members.of_map hmember fun other hother hne pairs hsends => by
      refine List.filterMap_eq_nil_iff.2 fun pair hpair => entryUnder?_eq_none ?_
      have hname := List.mem_map_of_mem (f := Prod.fst) hpair
      rw [hsends.names] at hname
      exact h.not_begins_of_mem_sentNames hmem hother hne hname
  obtain ⟨pairs, hsends, hflatten⟩ := hpairs
  have htarget : (targetPairs call).filterMap (fun pair =>
      entryUnder? member.1.wireName (pair.1.map Char.toLower, pair.2)) = [] :=
    List.filterMap_eq_nil_iff.2 fun pair hpair =>
      entryUnder?_eq_none ((h.target pair hpair).2 member hmem)
  refine ⟨pairs, hsends, ?_⟩
  rw [headersBeginning_ofPairs, List.filterMap_append, htarget, List.nil_append, hflatten]

/-- The headers of a map are found, and no others are taken for them. -/
theorem HeadersToldApart.memberValue_of_headerPrefix (h : HeadersToldApart call)
    {response : Http.Response} {sent : List (List (String × String))}
    (hsent : List.Forall₂ (Sends record) call.input.members sent)
    (hheaders : response.headers = Headers.ofPairs (targetPairs call ++ sent.flatten))
    (hmem : member ∈ call.input.membersAt .headerPrefix) (hexact : CarriesExact member)
    (hlegible : ∀ value ∈ record.get? member.1.name, CarriesLegible member value) :
    memberValue response member = .ok (record.get? member.1.name) := by
  obtain ⟨-, hlocation⟩ := mem_membersAt.1 hmem
  obtain ⟨pairs, hsends, hbeginning⟩ := h.exists_headersBeginning hsent hmem
  rw [Response.memberValue_of_headerPrefix hlocation, hheaders, hbeginning]
  unfold Sends at hsends
  cases hvalue : record.get? member.1.name with
  | none =>
    rw [hvalue] at hsends
    rw [hsends]
    rfl
  | some value =>
    rw [hvalue] at hsends
    have hlegible := hlegible value hvalue
    cases hsends with
    | header location => cases location.symm.trans hlocation
    | elsewhere location => exact absurd hlocation location.2
    | @entries binding shape key target keyName valueName flattened entries pairs _ written =>
      obtain ⟨_, _, _, _, _, _, hmap, htarget⟩ := hexact.exists_map hlocation
      cases hmap
      obtain ⟨hne, hkeys, hentries⟩ := hlegible.entries hlocation
      have hdocs := standFor_entryUnder? htarget written hentries
      rw [Fields.ofList_of_nodup (by rw [hdocs.names_eq]; exact hkeys)]
      split
      · next hnil =>
        rw [hnil] at hdocs
        exact absurd (List.forall₂_nil_right_iff.1 hdocs) hne
      · rw [readValue_map_of_standFor hdocs hkeys]
        rfl

theorem memberValue_eq_none {response : Http.Response} (hstatus : member.1.location ≠ .statusCode)
    (hheader : member.1.location ≠ .header) (hentries : member.1.location ≠ .headerPrefix) :
    memberValue response member = .ok none := by
  have hdoc : memberDocument? member.1 member.2 response.headers = none := by
    unfold memberDocument?
    split
    · next hlocation => exact absurd hlocation hheader
    · next hlocation => exact absurd hlocation hentries
    · rfl
  rw [memberValue, if_neg hstatus, hdoc]

end

/-- Headers that are told apart are read back: every member that headers carry has the value that it
was sent with, and no value if it was sent without one. Nothing but the body can make the response
unreadable. -/
theorem headers_read_back {writer reader : Call} (houtput : reader.output = some writer.input)
    (happart : HeadersToldApart writer)
    (hexact : ∀ member ∈ writer.input.members, CarriesExact member)
    {record : Record} (hlegible : ∀ member ∈ writer.input.members,
      ∀ value ∈ record.get? member.1.name, CarriesLegible member value)
    {response : Http.Response} (hheaders : Request.headers writer record = .ok response.headers) :
    ((∃ found, read reader response = .ok found) ↔
      ∃ body, bodyRecord reader writer.input response = .ok body) ∧
    (response.body = [] → ∃ found, read reader response = .ok found) ∧
    ∀ found, read reader response = .ok found → ∀ member ∈ writer.input.members,
      member.1.location = .header ∨ member.1.location = .headerPrefix →
        found.get? member.1.name = record.get? member.1.name := by
  have hnodup := happart.nodup_askedNames hlegible hexact
  obtain ⟨-, sent, hsent, hpairs⟩ := Request.headers_eq_ok.1 hheaders
  rw [Headers.enter_of_nodup ((Request.names_sent_perm hsent).nodup_iff.2 hnodup)] at hpairs
  have hvalue : ∀ member ∈ writer.input.members,
      member.1.location = .header ∨ member.1.location = .headerPrefix →
        memberValue response member = .ok (record.get? member.1.name) := by
    rintro member hmem (hlocation | hlocation)
    · have hmember := mem_membersAt.2 ⟨hmem, hlocation⟩
      exact memberValue_of_hasOwnHeader (happart.hasOwnHeader hmember) happart.members.of_map
        hheaders hmember ((hexact member hmem).isExact hlocation)
        fun value hvalue => (hlegible member hmem value hvalue).isLegible hlocation
    · exact happart.memberValue_of_headerPrefix hsent hpairs (mem_membersAt.2 ⟨hmem, hlocation⟩)
        (hexact member hmem) (hlegible member hmem)
  have hmembers : ∀ member ∈ writer.input.members,
      ∃ value, memberValue response member = .ok value := by
    intro member hmem
    by_cases hcarried : member.1.location = .header ∨ member.1.location = .headerPrefix
    · exact ⟨_, hvalue member hmem hcarried⟩
    · obtain ⟨hheader, hentries⟩ := not_or.1 hcarried
      by_cases hstatus : member.1.location = .statusCode
      · exact ⟨_, by rw [memberValue, if_pos hstatus]⟩
      · exact ⟨none, memberValue_eq_none hstatus hheader hentries⟩
  have hread : (∃ found, read reader response = .ok found) ↔
      ∃ body, bodyRecord reader writer.input response = .ok body :=
    (exists_read_iff houtput).trans (and_iff_left hmembers)
  refine ⟨hread, fun hbody => hread.2 (exists_bodyRecord_of_nil houtput hbody), ?_⟩
  intro found hfound member hmem hlocation
  refine get?_of_read houtput happart.members hfound hmem ?_ ?_ (hvalue member hmem hlocation)
  · rcases hlocation with hlocation | hlocation <;> simp [hlocation]
  · rcases hlocation with hlocation | hlocation <;> simp [hlocation]

theorem headersToldApart_cardCall : HeadersToldApart Request.cardCall where
  toHeadersApart := Request.headersApart_cardLayout
  members := by
    rw [HaveOwnNames]
    decide
  target := by
    simp only [Begins, Http.lower_eq]
    decide
  maps member hmem other hother hne := by
    obtain rfl := List.mem_singleton.1 hmem
    exact absurd (List.mem_singleton.1 hother).symm hne

theorem carriesExact_cardCall : ∀ member ∈ Request.cardCall.input.members, CarriesExact member := by
  simp [Request.cardCall, Request.cardLayout, CarriesExact, Plan.Target.IsExact]

/-- A text with white space at its ends, the first instant of the year 0 and notes are read back. -/
theorem headers_read_back_of_card :
    let seen : Instant := ⟨-62167219200, 0, by decide⟩
    let record : Record := ⟨"Card", [("id", .string " 7\t"), ("seen", .timestamp seen),
      ("notes", .map [("b", .string "x"), ("a", .string "")])]⟩
    let response : Http.Response := ⟨200, Headers.enter [] [("X-Amz-Target", "Cards.Put"),
      ("X-Id", " 7\t"), ("X-Seen", "Sat, 01 Jan 0000 00:00:00 GMT"), ("X-Note-b", "x"),
      ("X-Note-a", "")], []⟩
    Request.cardCall.Compiled ∧ Request.headers Request.cardCall record = .ok response.headers ∧
      ∃ found, read Request.cardCall response = .ok found ∧
        ∀ name ∈ ["id", "seen", "notes"], found.get? name = record.get? name := by
  intro seen record response
  have hdate : Request.instantText seen .httpDate = .ok "Sat, 01 Jan 0000 00:00:00 GMT" := by
    have hformat : Time.format? seen .httpDate = some "Sat, 01 Jan 0000 00:00:00 GMT" := by
      decide +kernel
    rw [Request.instantText, hformat]
  have hid : Sends record Request.cardLayout.members[0] [("X-Id", " 7\t")] :=
    SendsValue.header rfl rfl (by decide)
  have hseen : Sends record Request.cardLayout.members[1]
      [("X-Seen", "Sat, 01 Jan 0000 00:00:00 GMT")] :=
    SendsValue.header rfl hdate (by decide)
  have hnotes : Sends record Request.cardLayout.members[2] [("X-Note-b", "x"), ("X-Note-a", "")] :=
    SendsValue.entries rfl (.cons ⟨rfl, rfl, by decide⟩ (.cons ⟨rfl, rfl, by decide⟩ .nil))
  have hgrade : Sends record Request.cardLayout.members[3] [] := rfl
  have hheaders : Request.headers Request.cardCall record = .ok response.headers :=
    Request.headers_eq_ok.2
      ⟨by decide, _, .cons hid (.cons hseen (.cons hnotes (.cons hgrade .nil))), rfl⟩
  have hlegible : ∀ member ∈ Request.cardCall.input.members,
      ∀ value ∈ record.get? member.1.name, CarriesLegible member value := by
    intro member hmem value hvalue
    simp only [Request.cardCall, Request.cardLayout, List.mem_cons, List.not_mem_nil, or_false]
      at hmem
    obtain rfl | rfl | rfl | rfl := hmem
    · cases hvalue
      show Http.isVisible _ = true
      decide
    · cases hvalue
      refine ⟨rfl, ?_, fun streaming => by simp⟩
      rw [Time.HasPlainYear]
      decide
    · cases hvalue
      refine ⟨by simp, by decide, ?_⟩
      simp only [Http.lower_eq]
      exact List.forall_mem_cons.2 ⟨⟨by decide, rfl⟩, List.forall_mem_singleton.2 ⟨by decide, rfl⟩⟩
    · trivial
  have houtput : Request.cardCall.output = some Request.cardCall.input := rfl
  obtain ⟨-, hread, hvalues⟩ := headers_read_back houtput headersToldApart_cardCall
    carriesExact_cardCall hlegible hheaders
  obtain ⟨found, hfound⟩ := hread rfl
  refine ⟨Request.compiled_cardCall, hheaders, found, hfound, fun name hname => ?_⟩
  have hmember : ∃ member ∈ Request.cardCall.input.members,
      (member.1.location = .header ∨ member.1.location = .headerPrefix) ∧ member.1.name = name := by
    revert name
    decide
  obtain ⟨member, hmem, hlocation, rfl⟩ := hmember
  exact hvalues found hfound member hmem hlocation

end Response
end ServiceBindings
