import ServiceBindings.Proofs.Generate.Emission
import ServiceBindings.Proofs.Generate.Lines
import ServiceBindings.Proofs.Naming.Words
import ServiceBindings.Proofs.Text.Expect

/-! The fields of generated structures. They are read off the source text, and they are told apart
by the words of the names of members. -/
namespace ServiceBindings.Generate
open Naming (Identifier IsSpelled memberName words dropRawMarks)
open Plan (Binding Layout Target)

/-- The identifier that a line declares as a field. A raw mark is no part of it. -/
def fieldOf? (line : List Char) : Option (List Char) :=
  (Text.expect? "    pub ".toList line).map fun rest => dropRawMarks (rest.takeWhile (· ≠ ':'))

/-- The identifiers of the fields in the source text of a structure: one for each line up to the
bracket that closes the structure. -/
def declaredFields (source : String) : List (List Char) :=
  (((linesOf source).drop 2).takeWhile (· ≠ ['\x7d'])).filterMap fieldOf?

example : declaredFields
    "#[derive(Default)]\npub struct A \x7b\n    pub r#type: Option<i64>,\n\x7d\n" =
    ["type".toList] := by decide

section Reading
variable {layout : Layout}

theorem unbroken_typeSource (target : Target)
    (h : ∀ ident ∈ target.mentions, IsSpelled ident.name) : Unbroken (typeSource target) := by
  match target with
  | .scalar kind format streaming =>
    rw [typeSource.eq_def]
    show Unbroken (scalarType kind streaming)
    cases streaming with
    | false => cases kind <;> decide
    | true => exact (by decide : Unbroken "awsgen_http::content::ContentSource")
  | .enumeration e =>
    rw [typeSource.eq_def]
    exact (by decide : Unbroken "String")
  | .list shape item itemName flattened =>
    have hitem := unbroken_typeSource item h
    rw [typeSource.eq_def]
    exact ((by decide : Unbroken "Vec<").append hitem).append (by decide)
  | .map shape key value keyName valueName flattened =>
    have hvalue := unbroken_typeSource value h
    rw [typeSource.eq_def]
    exact ((by decide : Unbroken "indexmap::IndexMap<String, ").append hvalue).append (by decide)
  | .structure heading members =>
    have hname := unbroken_of_isSpelled (h heading.ident List.mem_cons_self)
    have harea : Unbroken heading.ident.area.text := by
      cases heading.ident.area <;> decide
    rw [typeSource.eq_def]
    exact (by decide : Unbroken "crate::").append ((harea.append (by decide)).append hname)

theorem unbroken_fieldLine {member : Binding × Target} (hfield : IsSpelled member.1.field)
    (hmentions : ∀ ident ∈ member.2.mentions, IsSpelled ident.name) :
    Unbroken (fieldLine member) :=
  ((((by decide : Unbroken "    pub ").append (unbroken_of_isSpelled hfield)).append
    (by decide)).append (unbroken_typeSource member.2 hmentions)).append (by decide)

theorem fieldOf?_fieldLine {member : Binding × Target} (hfield : IsSpelled member.1.field) :
    fieldOf? (fieldLine member).toList = some (dropRawMarks member.1.field.toList) := by
  have hcolon : ∀ c ∈ member.1.field.toList, decide (c ≠ ':') = true := by
    intro c hc
    refine decide_eq_true ?_
    rintro rfl
    exact absurd (hfield ':' hc) (by decide)
  have hline : (fieldLine member).toList = "    pub ".toList ++ (member.1.field.toList ++
      ':' :: (" Option<".toList ++ ((typeSource member.2).toList ++ ">,".toList))) := by
    simp [fieldLine]
  rw [hline, fieldOf?, Text.expect?_append, Option.map_some, List.takeWhile_append_of_pos hcolon,
    List.takeWhile_cons_of_neg (by decide), List.append_nil]

/-- The lines of a structure declare its fields in order. -/
theorem declaredFields_structureSource (hname : IsSpelled layout.heading.ident.name)
    (hmembers : ∀ member ∈ layout.members, IsSpelled member.1.field ∧
      ∀ ident ∈ member.2.mentions, IsSpelled ident.name) :
    declaredFields (structureSource layout) =
      layout.members.map fun member => dropRawMarks member.1.field.toList := by
  have hhead : ∀ line ∈ ["#[derive(Debug, Clone, Default, PartialEq)]",
      "pub struct " ++ layout.heading.ident.name ++ " \x7b"], Unbroken line := by
    refine List.forall_mem_cons.2 ⟨by decide, List.forall_mem_singleton.2 ?_⟩
    exact ((by decide : Unbroken "pub struct ").append (unbroken_of_isSpelled hname)).append
      (by decide)
  have hfields : ∀ line ∈ layout.members.map fieldLine, Unbroken line := by
    intro line hmem
    obtain ⟨member, hmember, rfl⟩ := List.mem_map.1 hmem
    exact unbroken_fieldLine (hmembers member hmember).1 (hmembers member hmember).2
  have hclose : ∀ line ∈ ["\x7d"], Unbroken line := by decide
  have hinside : ∀ line ∈ (layout.members.map fieldLine).map String.toList,
      decide (line ≠ ['\x7d']) = true := by
    intro line hmem
    rw [List.map_map] at hmem
    obtain ⟨member, hmember, rfl⟩ := List.mem_map.1 hmem
    refine decide_eq_true fun heq => ?_
    have hread := fieldOf?_fieldLine (hmembers member hmember).1
    rw [show (fieldLine member).toList = ['\x7d'] from heq] at hread
    cases hread
  have hread : ∀ member ∈ layout.members, (fieldOf? ∘ String.toList ∘ fieldLine) member =
      some (dropRawMarks member.1.field.toList) := fun member hmember =>
    fieldOf?_fieldLine (hmembers member hmember).1
  unfold declaredFields structureSource
  simp only [List.append_assoc]
  rw [linesOf_joinLines_append hhead, linesOf_joinLines_append hfields,
    linesOf_joinLines_append hclose]
  show (List.takeWhile _ ((layout.members.map fieldLine).map String.toList ++
    (['\x7d'] :: _))).filterMap fieldOf? = _
  rw [List.takeWhile_append_of_pos hinside, List.takeWhile_cons_of_neg (by decide), List.append_nil,
    List.map_map, List.filterMap_map, List.filterMap_congr hread, List.filterMap_eq_map']

end Reading

/-- The members of a compiled structure have fields that are named after them, and its lines can be
read. -/
theorem isSpelled_of_compiled {layout : Layout} (h : layout.Compiled) :
    IsSpelled layout.heading.ident.name ∧
      ∀ member ∈ layout.members, member.1.field = memberName member.1.name ∧
        ∀ ident ∈ member.2.mentions, IsSpelled ident.name := by
  obtain ⟨σ, _, run, name, hreached, hlayout⟩ := h
  obtain ⟨hsound, -⟩ := hreached.isSound
  obtain ⟨fuel, visiting, plain, hplain, hrel, -⟩ := hsound.sound.structures name layout hlayout
  obtain ⟨shape, s, members, -, -, -, hmembers, rfl⟩ := plainStructureWith_eq_ok.1 hplain
  refine ⟨hrel.heading.ident.isSpelled (isSpelled_plainIdent shape), fun member hmem => ?_⟩
  obtain ⟨entry, hentry, hbinding, htarget⟩ := hrel.members.exists_of_mem hmem
  obtain ⟨described, -, hbound, found, hstep⟩ := exists_of_mem_plainMembers hmembers hentry
  refine ⟨?_, fun ident hident => ?_⟩
  · rw [← hbinding, hbound]
    rfl
  · obtain ⟨plainIdent, hmention, hnumbers⟩ := htarget.exists_of_mem_mentions hident
    exact hnumbers.isSpelled (isSpelled_of_plainTarget fuel hstep hmention)

theorem declaredFields_of_compiled {layout : Layout} (h : layout.Compiled) :
    declaredFields (structureSource layout) =
      layout.members.map fun member => dropRawMarks (memberName member.1.name).toList := by
  obtain ⟨hname, hmembers⟩ := isSpelled_of_compiled h
  rw [declaredFields_structureSource hname fun member hmem =>
    ⟨(hmembers member hmem).1 ▸ Naming.isSpelled_memberName _, (hmembers member hmem).2⟩]
  exact List.map_congr_left fun member hmem => by rw [(hmembers member hmem).1]

/-- The source of a compiled structure declares one field for each member, in order and named after
it. The fields have identifiers of their own exactly if no two members have the same words for a
name, whatever capitals and separators the names are written with. -/
theorem fields_apart_iff {layout : Layout} (h : layout.Compiled) :
    declaredFields (structureSource layout) =
        layout.members.map (fun member => dropRawMarks (memberName member.1.name).toList) ∧
      ((declaredFields (structureSource layout)).Nodup ↔
        (layout.members.map fun member => words member.1.name.toList).Nodup) := by
  have hfields := declaredFields_of_compiled h
  refine ⟨hfields, ?_⟩
  rw [hfields, List.Nodup, List.Nodup, List.pairwise_map, List.pairwise_map]
  exact List.Pairwise.iff fun a b => not_congr Naming.dropRawMarks_memberName_eq_iff

def badgeDocument : Document := .object [
  ("metadata", .object [("protocol", .string "json"), ("apiVersion", .string "1")]),
  ("operations", .object [
    ("Put", .object [("input", shapeReference "Badge"), ("output", shapeReference "Pass")])]),
  ("shapes", .object [
    ("Badge", .object [("type", .string "structure"), ("members", .object [
      ("type", shapeReference "S"), ("Self", shapeReference "S"), ("user-ID2", shapeReference "S"),
      ("holder", shapeReference "Pass")])]),
    ("Pass", .object [("type", .string "structure"), ("members", .object [
      ("userId", shapeReference "S"), ("userID", shapeReference "S")])]),
    ("S", .object [("type", .string "string")])])]

def badgeModel : ServiceModel where
  service := ⟨"Service", "1", .json, none, none, none⟩
  shapes := [
    ("Badge", ⟨"Badge", .structure ⟨[bodyMember "type" "S", bodyMember "Self" "S",
      bodyMember "user-ID2" "S", bodyMember "holder" "Pass"], none⟩, none, none, none, false⟩),
    ("Pass", ⟨"Pass", .structure ⟨[bodyMember "userId" "S", bodyMember "userID" "S"], none⟩,
      none, none, none, false⟩),
    ("S", ⟨"S", .scalar .string, none, none, none, false⟩)]
  operations := [("Put", ⟨"Put", "Badge", some "Pass", "POST", "/", none, none⟩)]

theorem load_badgeDocument :
    ServiceModel.load (Json.Node.ofDocument badgeDocument).text = .ok badgeModel :=
  ServiceModel.load_text (by decide) rfl

def textMember (name : String) : Binding × Target :=
  (⟨name, memberName name, name, false, .body, false, none⟩, .scalar .string none false)

def passLayout : Layout where
  heading := ⟨"Pass", ⟨.output, "Pass"⟩, none, none⟩
  members := [textMember "userId", textMember "userID"]

def badgeLayout : Layout where
  heading := ⟨"Badge", ⟨.input, "Badge"⟩, none, none⟩
  members := [textMember "type", textMember "Self", textMember "user-ID2",
    (⟨"holder", "holder", "holder", false, .body, false, none⟩, passLayout.toTarget)]

theorem compiled_passLayout : passLayout.Compiled :=
  ⟨Memory, inferInstance, (Run.start ⟨badgeModel, {}⟩ {}).after [.compile "Put"], "Pass",
    ⟨_, _, _, .load load_badgeDocument, rfl⟩, rfl⟩

theorem compiled_badgeLayout : badgeLayout.Compiled :=
  ⟨Memory, inferInstance, (Run.start ⟨badgeModel, {}⟩ {}).after [.compile "Put"], "Badge",
    ⟨_, _, _, .load load_badgeDocument, rfl⟩, rfl⟩

theorem fields_apart_of_badge :
    badgeLayout.Compiled ∧
      declaredFields (structureSource badgeLayout) =
        ["type".toList, "self_".toList, "user_id2".toList, "holder".toList] ∧
      (declaredFields (structureSource badgeLayout)).Nodup := by
  obtain ⟨hfields, hapart⟩ := fields_apart_iff compiled_badgeLayout
  exact ⟨compiled_badgeLayout, hfields.trans (by decide), hapart.2 (by decide)⟩

/-- Two members of a pass have names of their own and one field. -/
theorem fields_clash_in_pass :
    passLayout.Compiled ∧ (passLayout.members.map (·.1.name)).Nodup ∧
      (∀ member ∈ passLayout.members, ∃ c ∈ member.1.name.toList, c.isAlphanum = true) ∧
      declaredFields (structureSource passLayout) = ["user_id".toList, "user_id".toList] ∧
      ¬(declaredFields (structureSource passLayout)).Nodup := by
  have hfields : declaredFields (structureSource passLayout) =
      ["user_id".toList, "user_id".toList] :=
    (declaredFields_of_compiled compiled_passLayout).trans (by decide)
  have hletters : passLayout.members.all (·.1.name.toList.any Char.isAlphanum) = true := by decide
  exact ⟨compiled_passLayout, by decide, by simpa using hletters, hfields,
    by rw [hfields]; decide⟩

end ServiceBindings.Generate
