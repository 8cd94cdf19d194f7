import ServiceBindings.Proofs.Request.Leaves
import ServiceBindings.Proofs.Text.Joined

/-! The pairs of a form's body are those of a record's texts, and all their names are distinct. -/
namespace ServiceBindings.Request
open Plan (Binding Call Target)

/-- A part of a path stands as it is between the signs of a form. -/
def IsSegment (part : String) : Prop :=
  '&' ∉ part.toList ∧ '=' ∉ part.toList ∧ '.' ∉ part.toList

instance : DecidablePred IsSegment := fun part =>
  inferInstanceAs (Decidable ('&' ∉ part.toList ∧ '=' ∉ part.toList ∧ '.' ∉ part.toList))

mutual

/-- Names in messages do not hold the signs of forms, and tell members from their siblings and keys
from their values. -/
def HasFormNames : Target → Prop
  | .structure _ members => (members.map (·.1.wireName)).Nodup ∧ HaveFormNames members
  | .list _ item itemName _ => IsSegment (Plan.itemElement itemName) ∧ HasFormNames item
  | .map _ _ target keyName valueName _ =>
    IsSegment (Plan.keyElement keyName) ∧ IsSegment (Plan.valueElement valueName) ∧
      Plan.keyElement keyName ≠ Plan.valueElement valueName ∧ HasFormNames target
  | _ => True

/-- The names of members and those inside them do not hold the signs of forms. -/
def HaveFormNames : List (Binding × Target) → Prop
  | [] => True
  | (binding, target) :: rest =>
    IsSegment binding.wireName ∧ HasFormNames target ∧ HaveFormNames rest

end

/-- The paths of texts are distinct and go on from a common path. -/
structure AreUnder (path : List String) (found : List Leaf) : Prop where
  extend : ∀ leaf ∈ found, ∃ rest, leaf.path = path ++ rest ∧ ∀ part ∈ rest, IsSegment part
  nodup : (found.map Leaf.path).Nodup

theorem areUnder_nil (path : List String) : AreUnder path [] :=
  ⟨by simp, .nil⟩

theorem areUnder_singleton (path : List String) (text? : Option String) :
    AreUnder path [⟨path, text?⟩] := by
  constructor
  · intro leaf hleaf
    obtain rfl := List.mem_singleton.1 hleaf
    exact ⟨[], by simp, by simp⟩
  · exact List.nodup_singleton _

theorem AreUnder.of_concat {path : List String} {part : String} {found : List Leaf}
    (h : AreUnder (path ++ [part]) found) (hpart : IsSegment part) : AreUnder path found := by
  refine ⟨fun leaf hleaf => ?_, h.nodup⟩
  obtain ⟨rest, hpath, hrest⟩ := h.extend leaf hleaf
  refine ⟨part :: rest, ?_, List.forall_mem_cons.2 ⟨hpart, hrest⟩⟩
  rw [hpath, List.append_assoc, List.singleton_append]

/-- Groups of texts under distinct parts do not share paths. -/
theorem areUnder_flatMap {α : Type} {path : List String} {items : List α} (part : α → String)
    {group : α → List Leaf} (hparts : ∀ item ∈ items, IsSegment (part item))
    (hdistinct : (items.map part).Nodup)
    (h : ∀ item ∈ items, AreUnder (path ++ [part item]) (group item)) :
    AreUnder path (items.flatMap group) := by
  constructor
  · intro leaf hleaf
    obtain ⟨item, hitem, hleaf⟩ := List.mem_flatMap.1 hleaf
    exact ((h item hitem).of_concat (hparts item hitem)).extend leaf hleaf
  · rw [List.map_flatMap, List.nodup_flatMap]
    constructor
    · intro item hitem
      exact (h item hitem).nodup
    · have hne : items.Pairwise fun a b => part a ≠ part b := List.pairwise_map.1 hdistinct
      refine hne.imp_of_mem fun {a b} ha hb hab => ?_
      intro found hfirst hsecond
      obtain ⟨leaf, hleaf, rfl⟩ := List.mem_map.1 hfirst
      obtain ⟨other, hother, heq⟩ := List.mem_map.1 hsecond
      obtain ⟨rest, hpath, -⟩ := (h a ha).extend leaf hleaf
      obtain ⟨others, hpath', -⟩ := (h b hb).extend other hother
      rw [hpath, hpath', List.append_assoc, List.append_assoc] at heq
      exact hab (List.cons.inj (List.append_cancel_left heq)).1.symm

theorem isSegment_natural (n : Nat) : IsSegment (Text.natural n) := by
  have hsign : ∀ c : Char, c.isDigit = false → c ∉ (Text.natural n).toList := by
    intro c hc hmem
    rw [Text.natural, String.toList_ofList] at hmem
    rw [Text.isDigit_of_mem_digits hmem] at hc
    cases hc
  exact ⟨hsign '&' rfl, hsign '=' rfl, hsign '.' rfl⟩

theorem nodup_positions {α : Type} (items : List α) (position : Nat) :
    ((items.zipIdx position).map fun item => Text.natural item.2).Nodup := by
  have hpositions : ((items.zipIdx position).map Prod.snd).Nodup := by
    rw [List.zipIdx_map_snd]
    exact List.nodup_range' 1
  have hmap := hpositions.map Text.natural_injective
  rwa [List.map_map] at hmap

theorem areUnder_start {path : List String} {part : String} {found : List Leaf}
    (flattened : Bool) (hpart : IsSegment part)
    (h : AreUnder (if flattened then path else path ++ [part]) found) : AreUnder path found := by
  cases flattened with
  | true => exact h
  | false => exact h.of_concat hpart

/-- The text of a key and those of its value do not share paths. -/
theorem areUnder_entry {entry : List String} {keyName valueName key : String} {found : List Leaf}
    (hkey : IsSegment keyName) (hvalue : IsSegment valueName) (hne : keyName ≠ valueName)
    (h : AreUnder (entry ++ [valueName]) found) :
    AreUnder entry (⟨entry ++ [keyName], some key⟩ :: found) := by
  let groups := [(keyName, [Leaf.mk (entry ++ [keyName]) (some key)]), (valueName, found)]
  have hgroups : ⟨entry ++ [keyName], some key⟩ :: found = groups.flatMap Prod.snd := by
    simp [groups]
  rw [hgroups]
  apply areUnder_flatMap Prod.fst
  · simp [groups, hkey, hvalue]
  · simp [groups, hne]
  · simp [groups, h, areUnder_singleton]

def presentLeaves (path : List String) (fields : Fields Value) (member : Binding × Target) :
    List Leaf :=
  match Fields.get? fields member.1.name with
  | some value => leaves (path ++ [member.1.wireName]) value member.2
  | none => []

theorem memberLeaves_eq_flatMap (path : List String) (fields : Fields Value)
    (members : List (Binding × Target)) :
    memberLeaves path fields members = members.flatMap (presentLeaves path fields) := by
  induction members with
  | nil => rfl
  | cons member rest ih =>
    rw [memberLeaves, List.flatMap_cons, presentLeaves, ih]
    cases Fields.get? fields member.1.name with
    | some value => rfl
    | none => rfl

theorem areUnder_presentLeaves {member : Binding × Target}
    (h : ∀ path value, AreUnder path (leaves path value member.2)) (path : List String)
    (fields : Fields Value) :
    AreUnder (path ++ [member.1.wireName]) (presentLeaves path fields member) := by
  unfold presentLeaves
  split
  · exact h _ _
  · exact areUnder_nil _

mutual

/-- The texts of a value have distinct paths. -/
theorem areUnder_leaves {target : Target} (h : HasFormNames target) (path : List String)
    (value : Value) : AreUnder path (leaves path value target) := by
  cases target with
  | scalar | enumeration => exact areUnder_singleton path _
  | list shape item itemName flattened =>
    unfold leaves
    split
    · next items =>
      refine areUnder_start flattened h.1 ?_
      apply areUnder_flatMap (fun item => Text.natural item.2)
      · exact fun item _ => isSegment_natural item.2
      · exact nodup_positions items 1
      · exact fun item _ => areUnder_leaves h.2 _ item.1
    · exact areUnder_nil path
  | map shape key target keyName valueName flattened =>
    obtain ⟨hkey, hvalue, hne, htarget⟩ := h
    unfold leaves
    split
    · next entries =>
      refine areUnder_start flattened (show IsSegment "entry" by decide) ?_
      apply areUnder_flatMap (fun entry => Text.natural entry.2)
      · exact fun entry _ => isSegment_natural entry.2
      · exact nodup_positions entries 1
      · exact fun entry _ => areUnder_entry hkey hvalue hne (areUnder_leaves htarget _ entry.1.2)
    · exact areUnder_nil path
  | «structure» heading members =>
    unfold leaves
    split
    · next fields =>
      rw [memberLeaves_eq_flatMap]
      apply areUnder_flatMap (fun member => member.1.wireName)
      · exact fun member hmember => (areUnder_member h.2 member hmember).1
      · exact h.1
      · intro member hmember
        exact areUnder_presentLeaves (areUnder_member h.2 member hmember).2 _ _
    · exact areUnder_nil path

/-- The texts of a member have distinct paths. -/
theorem areUnder_member {members : List (Binding × Target)} (h : HaveFormNames members) :
    ∀ member ∈ members, IsSegment member.1.wireName ∧
      ∀ path value, AreUnder path (leaves path value member.2) := by
  match members with
  | [] => simp
  | (binding, target) :: rest =>
    obtain ⟨hname, htarget, hrest⟩ := h
    refine List.forall_mem_cons.2 ⟨?_, ?_⟩
    · exact ⟨hname, areUnder_leaves htarget⟩
    · exact areUnder_member hrest

end

/-- The texts of a form's body in groups: the action, the version and the members it carries. -/
def bodyGroups (call : Call) (record : Record) : List (String × List Leaf) :=
  ("Action", [⟨["Action"], some call.name⟩]) ::
    ("Version", [⟨["Version"], some call.service.apiVersion⟩]) ::
    (call.input.membersAt .body).map fun member =>
      (member.1.wireName, presentLeaves [] record.fields member)

theorem bodyLeaves_eq_flatMap (call : Call) (record : Record) :
    bodyLeaves call record = (bodyGroups call record).flatMap Prod.snd := by
  simp [bodyLeaves, bodyGroups, memberLeaves_eq_flatMap, List.flatMap_map]

section
variable {call : Call} (hnames : HaveFormNames (call.input.membersAt .body))
  (hdistinct : ("Action" :: "Version" ::
    (call.input.membersAt .body).map (·.1.wireName)).Nodup) (record : Record)

include hnames

theorem areUnder_bodyGroup {group : String × List Leaf} (h : group ∈ bodyGroups call record) :
    IsSegment group.1 ∧ AreUnder [group.1] group.2 := by
  have haction : IsSegment "Action" := by decide
  have hversion : IsSegment "Version" := by decide
  rcases List.mem_cons.1 h with rfl | h
  · exact ⟨haction, areUnder_singleton _ _⟩
  rcases List.mem_cons.1 h with rfl | h
  · exact ⟨hversion, areUnder_singleton _ _⟩
  obtain ⟨member, hmember, rfl⟩ := List.mem_map.1 h
  obtain ⟨hname, hleaves⟩ := areUnder_member hnames member hmember
  constructor
  · exact hname
  · exact areUnder_presentLeaves hleaves [] record.fields

include hdistinct in
theorem areUnder_bodyLeaves : AreUnder [] (bodyLeaves call record) := by
  rw [bodyLeaves_eq_flatMap]
  apply areUnder_flatMap Prod.fst
  · exact fun group hgroup => (areUnder_bodyGroup hnames record hgroup).1
  · simpa [bodyGroups, Function.comp_def] using hdistinct
  · exact fun group hgroup => (areUnder_bodyGroup hnames record hgroup).2

theorem path_ne_nil {leaf : Leaf} (h : leaf ∈ bodyLeaves call record) : leaf.path ≠ [] := by
  rw [bodyLeaves_eq_flatMap] at h
  obtain ⟨group, hgroup, hleaf⟩ := List.mem_flatMap.1 h
  obtain ⟨rest, hpath, -⟩ := (areUnder_bodyGroup hnames record hgroup).2.extend leaf hleaf
  rw [hpath]
  exact List.cons_ne_nil _ _

end

theorem toList_dotted (path : List String) :
    (dotted path).toList = ['.'].intercalate (path.map String.toList) :=
  String.toList_intercalate

theorem exists_mem_of_mem_dotted {path : List String} {c : Char} (hc : c ≠ '.')
    (h : c ∈ (dotted path).toList) : ∃ part ∈ path, c ∈ part.toList := by
  rcases Text.mem_toList_intercalate h with hdot | hpart
  · exact absurd (List.mem_singleton.1 hdot) hc
  · exact hpart

theorem isName_dotted {path : List String} (h : ∀ part ∈ path, IsSegment part) :
    Form.IsName (dotted path) := by
  constructor
  · intro hmem
    obtain ⟨part, hpart, hmem⟩ := exists_mem_of_mem_dotted (by decide) hmem
    exact (h part hpart).1 hmem
  · intro hmem
    obtain ⟨part, hpart, hmem⟩ := exists_mem_of_mem_dotted (by decide) hmem
    exact (h part hpart).2.1 hmem

/-- Different paths are written differently. -/
theorem dotted_inj {path other : List String} (hpath : path ≠ []) (hother : other ≠ [])
    (hparts : ∀ part ∈ path, IsSegment part) (hothers : ∀ part ∈ other, IsSegment part)
    (h : dotted path = dotted other) : path = other := by
  have hsplit : ∀ path : List String, path ≠ [] → (∀ part ∈ path, IsSegment part) →
      (dotted path).toList.splitOn '.' = path.map String.toList := by
    intro path hpath hparts
    rw [toList_dotted]
    apply List.splitOn_intercalate
    · intro chars hchars
      obtain ⟨part, hpart, rfl⟩ := List.mem_map.1 hchars
      exact (hparts part hpart).2.2
    · simpa using hpath
  have hmap : path.map String.toList = other.map String.toList := by
    rw [← hsplit path hpath hparts, h, hsplit other hother hothers]
  exact List.map_injective_iff.2 (fun _ _ => String.toList_inj.1) hmap

theorem forall₂_bodyLeaves {call : Call} {record : Record} {nodes : List (String × Form.Node)}
    (h : formFields "" record.fields (call.input.membersAt .body) = .ok nodes) :
    List.Forall₂ Leaf.Writes (bodyLeaves call record)
      (("Action", call.name) :: ("Version", call.service.apiVersion) ::
        nodes.flatMap fun field => field.2.pairs field.1) := by
  have hroot (part : String) : dotted [part] = part := String.intercalate_singleton
  have hfields := forall₂_formFields _ h []
  simp only [List.nil_append, hroot] at hfields
  exact .cons ⟨(hroot "Action").symm, rfl⟩ (.cons ⟨(hroot "Version").symm, rfl⟩ hfields)

/-- The body of a form is read back as the action, the version and the texts of the record, each
once under the path that leads to it. -/
theorem exists_pairs_of_formBody {call : Call} {record : Record} {content : Http.Body}
    (hprotocol : call.service.protocol = .query)
    (hnames : HaveFormNames (call.input.membersAt .body))
    (hdistinct : ("Action" :: "Version" ::
      (call.input.membersAt .body).map (·.1.wireName)).Nodup)
    (h : body call record = .ok content) :
    ∃ text pairs, content.bytes? = some (Text.utf8 text) ∧
      Form.pairsOf? text = some pairs ∧
      List.Forall₂ Leaf.Writes (bodyLeaves call record) pairs ∧
      (pairs.map Prod.fst).Nodup := by
  have hform : formBody call record = .ok content := by
    rw [← h]
    unfold body
    rw [hprotocol]
  obtain ⟨nodes, hnodes, hcontent⟩ := bind_eq_ok.1 hform
  obtain rfl := Except.ok.inj hcontent
  have hwritten := forall₂_bodyLeaves hnodes
  have hunder := areUnder_bodyLeaves hnames hdistinct record
  have hsegments : ∀ leaf ∈ bodyLeaves call record, ∀ part ∈ leaf.path, IsSegment part := by
    intro leaf hleaf
    obtain ⟨rest, hpath, hrest⟩ := hunder.extend leaf hleaf
    rw [hpath]
    exact hrest
  refine ⟨_, _, Http.Body.bytes?_ofText _, ?_, hwritten, ?_⟩
  · apply Form.pairsOf?_intercalate (List.cons_ne_nil _ _)
    intro pair hpair
    obtain ⟨leaf, hleaf, hwrites⟩ := exists_of_mem_forall₂_right hwritten hpair
    rw [hwrites.name]
    exact isName_dotted (hsegments leaf hleaf)
  · have hpaths : ((bodyLeaves call record).map fun leaf => dotted leaf.path).Nodup := by
      rw [← Function.comp_def, ← List.map_map]
      apply hunder.nodup.map_on
      intro path hpath other hother
      obtain ⟨leaf, hleaf, rfl⟩ := List.mem_map.1 hpath
      obtain ⟨leaf', hleaf', rfl⟩ := List.mem_map.1 hother
      exact dotted_inj (path_ne_nil hnames record hleaf) (path_ne_nil hnames record hleaf')
        (hsegments leaf hleaf) (hsegments leaf' hleaf')
    rwa [map_eq_map_of_forall₂ hwritten fun leaf pair hwrites => hwrites.name]

/-- An input with a map under its own name and a list of structures under the names of items. -/
def queueLayout : Plan.Layout where
  heading := ⟨"Queue", ⟨.input, "Queue"⟩, none, none⟩
  members := [
    (⟨"name", "name", "QueueName", true, .body, false, none⟩, .scalar .string none false),
    (⟨"attributes", "attributes", "Attribute", false, .body, false, none⟩,
      .map "Attributes" (.scalar .string none false) (.scalar .string none false) (some "Name")
        (some "Value") true),
    (⟨"tags", "tags", "Tag", false, .body, false, none⟩,
      .list "Tags" (.structure ⟨"Tag", ⟨.types, "Tag"⟩, none, none⟩ [
        (⟨"key", "key", "Key", false, .body, false, none⟩, .scalar .string none false),
        (⟨"on", "on", "On", false, .body, false, none⟩, .scalar .boolean none false)]) none false),
    (⟨"rules", "rules", "Rule", false, .body, false, none⟩,
      .list "Rules" (.scalar .integer none false) none true)]

def createQueue : Call where
  service := ⟨"Queues", "2012-11-05", .query, none, none, none⟩
  operation := ⟨"CreateQueue", "Queue", none, "POST", "/", none, none⟩
  ident := ⟨.client, "create_queue"⟩
  input := queueLayout
  output := none
  template := ⟨[.literal "/"], none⟩

/-- A record with signs of forms in its texts. -/
def queueRecord : Record where
  shape := "Queue"
  fields := [("name", .string "my queue"), ("attributes", .map [("a&b", .string "c=d")]),
    ("tags", .list [.structure "Tag" [("key", .string "x"), ("on", .boolean true)],
      .structure "Tag" [], .structure "Tag" [("key", .string "100%")]]),
    ("rules", .list [])]

example : bodyLeaves createQueue queueRecord = [
    ⟨["Action"], some "CreateQueue"⟩, ⟨["Version"], some "2012-11-05"⟩,
    ⟨["QueueName"], some "my queue"⟩,
    ⟨["Attribute", "1", "Name"], some "a&b"⟩, ⟨["Attribute", "1", "Value"], some "c=d"⟩,
    ⟨["Tag", "member", "1", "Key"], some "x"⟩, ⟨["Tag", "member", "1", "On"], some "true"⟩,
    ⟨["Tag", "member", "3", "Key"], some "100%"⟩] := by
  decide +kernel

theorem exists_pairs_of_createQueue : ∃ content text pairs,
    body createQueue queueRecord = .ok content ∧ content.bytes? = some (Text.utf8 text) ∧
      Form.pairsOf? text = some pairs ∧
      List.Forall₂ Leaf.Writes (bodyLeaves createQueue queueRecord) pairs ∧
      (pairs.map Prod.fst).Nodup := by
  have hnames : HaveFormNames (createQueue.input.membersAt .body) := by
    refine ⟨?_, trivial, ?_, ⟨?_, ?_, ?_, trivial⟩, ?_, ⟨?_, ?_, ?_, trivial, ?_, trivial, trivial⟩,
      ?_, ⟨?_, trivial⟩, trivial⟩
    all_goals decide
  obtain ⟨content, hcontent⟩ : ∃ content, body createQueue queueRecord = .ok content := ⟨_, rfl⟩
  obtain ⟨text, pairs, hpairs⟩ := exists_pairs_of_formBody rfl hnames (by decide) hcontent
  exact ⟨content, text, pairs, hcontent, hpairs⟩

end ServiceBindings.Request
