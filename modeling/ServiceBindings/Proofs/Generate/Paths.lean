import ServiceBindings.Generate.Source
import ServiceBindings.Proofs.Naming.Spelling
import ServiceBindings.Proofs.Text.Literal

/-! The paths by which generated source names other generated items, read off the text itself. -/
namespace ServiceBindings

/-- The items that the type of a target names. -/
def Plan.Target.mentions : Plan.Target → List Naming.Identifier
  | .list _ item _ _ => item.mentions
  | .map _ _ value _ _ _ => value.mentions
  | .structure heading _ => [heading.ident]
  | _ => []

/-- The items that the types of a structure's fields name. -/
def Plan.Layout.mentions (layout : Plan.Layout) : List Naming.Identifier :=
  layout.members.flatMap (·.2.mentions)

namespace Generate
open Naming (Identifier IsSpelled isNameChar)
open Plan (Binding Call Layout Target)
open Text (quoted)

/-- Where in source text a character stands: in code, there behind a colon or a slash, in a comment,
which goes on to the end of the line, in a literal, or there behind a backslash. -/
inductive Place where
  | code
  | colon
  | slash
  | comment
  | literal
  | escape
deriving DecidableEq

/-- How far source text was read: the place, and the names joined by double colons that are being
read there, the last character first. -/
structure Mark where
  place : Place
  word : List Char := []
deriving DecidableEq

/-- Names joined by double colons, if they are a path from the root of the generated source. -/
def rootPath (word : List Char) : List String :=
  if "crate::".toList <+: word then [String.ofList word] else []

def readCode (word : List Char) (c : Char) : List String × Mark :=
  if isNameChar c then ([], { place := .code, word := c :: word })
  else (rootPath word.reverse,
    { place := if c = '"' then .literal else if c = '/' then .slash else .code })

namespace Mark

def read (mark : Mark) (c : Char) : List String × Mark :=
  match mark.place with
  | .code => if c = ':' then ([], { mark with place := .colon }) else readCode mark.word c
  | .colon =>
    if c = ':' then ([], { place := .code, word := ':' :: ':' :: mark.word })
    else
      let (paths, next) := readCode [] c
      (rootPath mark.word.reverse ++ paths, next)
  | .slash => if c = '/' then ([], { place := .comment }) else readCode [] c
  | .comment => ([], { place := if c = '\n' then .code else .comment })
  | .literal =>
    ([], { place := if c = '"' then .code else if c = '\\' then .escape else .literal })
  | .escape => ([], { place := .literal })

/-- Reads characters, and gives the paths that end there. -/
def readAll (mark : Mark) : List Char → List String × Mark
  | [] => ([], mark)
  | c :: rest =>
    let (paths, mark) := mark.read c
    let (others, mark) := mark.readAll rest
    (paths ++ others, mark)

end Mark

/-- The paths in the code of source text, comments and literals left out. -/
def typePaths (source : String) : List String :=
  let (paths, mark) := Mark.readAll { place := .code } source.toList
  paths ++ rootPath mark.word.reverse

example : typePaths "/// An `crate::a::B`.\npub b:Vec<crate::types::B>, // crate::c\n\"crate::d\"" =
    ["crate::types::B"] := by decide

theorem rootPath_nil : rootPath [] = [] := by decide

theorem readAll_append (mark : Mark) (chars others : List Char) :
    mark.readAll (chars ++ others) =
      ((mark.readAll chars).1 ++ ((mark.readAll chars).2.readAll others).1,
        ((mark.readAll chars).2.readAll others).2) := by
  induction chars generalizing mark with
  | nil => rfl
  | cons c rest ih => simp [Mark.readAll, ih]

/-- A text that begins and ends in code, between words, with these paths in it. -/
def Gives (text : String) (paths : List String) : Prop :=
  Mark.readAll { place := .code } text.toList = (paths, { place := .code })

instance (text : String) (paths : List String) : Decidable (Gives text paths) :=
  inferInstanceAs (Decidable (_ = _))

theorem Gives.typePaths_eq {text : String} {paths : List String} (h : Gives text paths) :
    typePaths text = paths := by
  rw [typePaths, show Mark.readAll _ _ = _ from h]
  simp [rootPath_nil]

theorem gives_empty : Gives "" [] := by decide

theorem Gives.append {a b : String} {paths others : List String} (ha : Gives a paths)
    (hb : Gives b others) : Gives (a ++ b) (paths ++ others) := by
  unfold Gives at *
  rw [String.toList_append, readAll_append, ha, hb]

theorem Gives.before {lead tail : String} {paths : List String} (hlead : Gives lead [])
    (h : Gives tail paths) : Gives (lead ++ tail) paths :=
  hlead.append h

/-- Characters before which a word ends: neither a character of names nor a double colon follows. -/
def EndWord : List Char → Prop
  | [] => False
  | [c] => isNameChar c = false ∧ c ≠ ':'
  | c :: d :: _ => isNameChar c = false ∧ (c = ':' → d ≠ ':')

instance : (chars : List Char) → Decidable (EndWord chars)
  | [] => inferInstanceAs (Decidable False)
  | [_] => inferInstanceAs (Decidable (_ ∧ _))
  | _ :: _ :: _ => inferInstanceAs (Decidable (_ ∧ (_ → _)))

def Breaks (text : String) : Prop :=
  EndWord text.toList

instance (text : String) : Decidable (Breaks text) :=
  inferInstanceAs (Decidable (EndWord text.toList))

theorem Breaks.append {text : String} (h : Breaks text) (other : String) :
    Breaks (text ++ other) := by
  unfold Breaks at *
  rw [String.toList_append]
  match text.toList, h with
  | [c], ⟨hc, hcolon⟩ =>
    cases other.toList with
    | nil => exact ⟨hc, hcolon⟩
    | cons d rest => exact ⟨hc, fun heq => absurd heq hcolon⟩
  | c :: d :: rest, h => exact h

theorem readAll_breaks {tail : String} (h : Breaks tail) (word : List Char) :
    Mark.readAll { place := .code, word } tail.toList =
      (rootPath word.reverse ++ (Mark.readAll { place := .code } tail.toList).1,
        (Mark.readAll { place := .code } tail.toList).2) := by
  unfold Breaks at h
  match tail.toList, h with
  | [c], ⟨hc, hcolon⟩ =>
    simp [Mark.readAll, Mark.read, readCode, hc, hcolon, rootPath_nil]
  | c :: d :: rest, ⟨hc, hcolon⟩ =>
    by_cases heq : c = ':'
    · simp [Mark.readAll, Mark.read, heq, hcolon heq, rootPath_nil]
    · simp [Mark.readAll, Mark.read, readCode, hc, heq, rootPath_nil]

/-- Characters that go on with a word. -/
def Joins (chars : List Char) : Prop :=
  ∀ word, Mark.readAll { place := .code, word } chars =
    ([], { place := .code, word := chars.reverse ++ word })

theorem Joins.append {chars others : List Char} (h : Joins chars) (hothers : Joins others) :
    Joins (chars ++ others) := by
  intro word
  rw [readAll_append, h, hothers]
  simp

theorem joins_name {name : String} (h : IsSpelled name) : Joins name.toList := by
  unfold IsSpelled at h
  generalize name.toList = chars at h
  intro word
  induction chars generalizing word with
  | nil => rfl
  | cons c rest ih =>
    have hc := h c List.mem_cons_self
    have hcolon : c ≠ ':' := by
      rintro rfl
      exact absurd hc (by decide)
    have hrest := ih (fun d hd => h d (List.mem_cons_of_mem _ hd)) (c :: word)
    simp [Mark.readAll, Mark.read, readCode, hc, hcolon, hrest]

theorem joins_colons : Joins "::".toList :=
  fun _ => rfl

def IsWord (text : String) : Prop :=
  Mark.readAll { place := .code } text.toList =
    ([], { place := .code, word := text.toList.reverse })

instance (text : String) : Decidable (IsWord text) :=
  inferInstanceAs (Decidable (_ = _))

theorem Joins.isWord {text : String} (h : Joins text.toList) : IsWord text := by
  rw [IsWord, h [], List.append_nil]

theorem gives_word_append {word tail : String} {paths : List String} (hword : IsWord word)
    (hbreak : Breaks tail) (h : Gives tail paths) :
    Gives (word ++ tail) (rootPath word.toList ++ paths) := by
  unfold Gives IsWord at *
  rw [String.toList_append, readAll_append, hword]
  dsimp only
  rw [readAll_breaks hbreak, h]
  simp

theorem gives_name_append {name tail : String} {paths : List String} (hname : IsSpelled name)
    (hbreak : Breaks tail) (h : Gives tail paths) : Gives (name ++ tail) paths := by
  -- A path has colons in it, and names have none.
  have hnone : rootPath name.toList = [] := by
    refine if_neg fun hstart => ?_
    exact absurd (hname ':' (hstart.subset (by decide))) (by decide +kernel)
  have hword := gives_word_append (joins_name hname).isWord hbreak h
  rwa [hnone] at hword

theorem gives_reference_append {ident : Identifier} {tail : String} {paths : List String}
    (hname : IsSpelled ident.name) (hbreak : Breaks tail) (h : Gives tail paths) :
    Gives (referencePath ident ++ tail) (referencePath ident :: paths) := by
  have harea : IsSpelled ident.area.text := by
    cases ident.area <;> decide
  have hroot : Joins "crate::".toList :=
    (joins_name (by decide : IsSpelled "crate")).append joins_colons
  have hjoins : Joins (referencePath ident).toList := by
    simp only [referencePath, Identifier.text, String.toList_append]
    exact hroot.append (((joins_name harea).append joins_colons).append (joins_name hname))
  have hpath : rootPath (referencePath ident).toList = [referencePath ident] := by
    rw [rootPath, if_pos, String.ofList_toList]
    rw [referencePath, String.toList_append]
    exact List.prefix_append _ _
  have hword := gives_word_append hjoins.isWord hbreak h
  rwa [hpath] at hword

section Literals

theorem readAll_literal {chars : List Char} (h : ∀ c ∈ chars, c ≠ '"' ∧ c ≠ '\\') :
    Mark.readAll { place := .literal } chars = ([], { place := .literal }) := by
  induction chars with
  | nil => rfl
  | cons c rest ih =>
    obtain ⟨hquote, hslash⟩ := h c List.mem_cons_self
    have hrest := ih fun d hd => h d (List.mem_cons_of_mem _ hd)
    simp [Mark.readAll, Mark.read, hquote, hslash, hrest]

theorem hexDigits_plain (n : Nat) : ∀ c ∈ Text.hexDigits n, c ≠ '"' ∧ c ≠ '\\' := by
  have hdigit : ∀ d < 16, Text.hexDigit d ≠ '"' ∧ Text.hexDigit d ≠ '\\' := by decide
  intro c hc
  obtain ⟨d, hd, rfl⟩ := Text.exists_hexDigit_of_mem hc
  exact hdigit d hd

theorem readAll_quotedChar (c : Char) :
    Mark.readAll { place := .literal } (Text.quotedChar c) = ([], { place := .literal }) := by
  unfold Text.quotedChar
  split_ifs with _ _ _ _ hquote hslash
  -- Six characters have escapes of their own; the others stand for themselves or as a number.
  iterate 6 decide
  · exact readAll_literal (by simp [hquote, hslash])
  · have hhex : Mark.readAll { place := .literal }
        ('\x7b' :: (Text.hexDigits c.toNat ++ ['\x7d'])) = ([], { place := .literal }) := by
      refine readAll_literal fun d hd => ?_
      simp only [List.mem_cons, List.mem_append, List.not_mem_nil, or_false] at hd
      rcases hd with rfl | hd | rfl
      · decide
      · exact hexDigits_plain _ d hd
      · decide
    simpa [Mark.readAll, Mark.read] using hhex

theorem gives_quoted (s : String) : Gives (quoted s) [] := by
  have hchars (chars : List Char) : Mark.readAll { place := .literal }
      (chars.flatMap Text.quotedChar) = ([], { place := .literal }) := by
    induction chars with
    | nil => rfl
    | cons c rest ih => rw [List.flatMap_cons, readAll_append, readAll_quotedChar, ih]; rfl
  have hquote : ({ place := .code } : Mark).read '"' = ([], { place := .literal }) := by decide
  have hclose : ({ place := .literal } : Mark).readAll ['"'] = ([], { place := .code }) := by decide
  rw [Gives, quoted, String.toList_ofList, Mark.readAll, hquote]
  simp only [readAll_append, hchars, hclose]
  rfl

theorem gives_intercalate {texts : List String} (h : ∀ text ∈ texts, Gives text []) :
    Gives (", ".intercalate texts) [] := by
  induction texts with
  | nil => exact gives_empty
  | cons text rest ih =>
    have hrest := ih fun other hmem => h other (List.mem_cons_of_mem _ hmem)
    cases rest with
    | nil => exact h text List.mem_cons_self
    | cons next more =>
      rw [String.intercalate_cons_cons]
      exact ((h text List.mem_cons_self).append (by decide : Gives ", " [])).append hrest

end Literals

section Lines

theorem gives_joinLines_cons {line : String} {lines paths others : List String}
    (hline : Gives (line ++ "\n") paths) (hlines : Gives (joinLines lines) others) :
    Gives (joinLines (line :: lines)) (paths ++ others) := by
  rw [joinLines, List.map_cons, String.join_cons]
  exact hline.append hlines

theorem gives_joinLines_plain {line : String} {lines paths : List String}
    (hline : Gives (line ++ "\n") []) (hlines : Gives (joinLines lines) paths) :
    Gives (joinLines (line :: lines)) paths :=
  gives_joinLines_cons hline hlines

theorem gives_joinLines_append {a b paths others : List String} (ha : Gives (joinLines a) paths)
    (hb : Gives (joinLines b) others) : Gives (joinLines (a ++ b)) (paths ++ others) := by
  rw [joinLines, List.map_append, String.join_append]
  exact ha.append hb

theorem gives_joinLines_flatMap {α : Type} {items : List α} {lines paths : α → List String}
    (h : ∀ item ∈ items, Gives (joinLines (lines item)) (paths item)) :
    Gives (joinLines (items.flatMap lines)) (items.flatMap paths) := by
  induction items with
  | nil => exact gives_empty
  | cons item rest ih =>
    rw [List.flatMap_cons, List.flatMap_cons]
    exact gives_joinLines_append (h item List.mem_cons_self)
      (ih fun other hmem => h other (List.mem_cons_of_mem _ hmem))

end Lines

theorem gives_scalarType_append (kind : Scalar) (streaming : Bool) {tail : String}
    {paths : List String} (hbreak : Breaks tail) (h : Gives tail paths) :
    Gives (scalarType kind streaming ++ tail) paths := by
  obtain ⟨hword, hnone⟩ : IsWord (scalarType kind streaming) ∧
      rootPath (scalarType kind streaming).toList = [] := by
    cases streaming with
    | false => cases kind <;> decide
    | true =>
      have hstream : IsWord "awsgen_http::content::ContentSource" ∧
          rootPath "awsgen_http::content::ContentSource".toList = [] := by decide
      exact hstream
  have hgives := gives_word_append hword hbreak h
  rwa [hnone] at hgives

theorem gives_typeSource_append (target : Target)
    (hspelled : ∀ ident ∈ target.mentions, IsSpelled ident.name) {tail : String}
    {paths : List String} (hbreak : Breaks tail) (h : Gives tail paths) :
    Gives (typeSource target ++ tail) (target.mentions.map referencePath ++ paths) := by
  -- The type of an item is a word before the bracket that closes the type around it.
  have hclose : Gives (">" ++ tail) paths := (by decide : Gives ">" []).before h
  have hangle : Breaks (">" ++ tail) := .append (by decide) tail
  match target with
  | .scalar kind format streaming =>
    have hscalar := gives_scalarType_append kind streaming hbreak h
    rw [typeSource.eq_def]
    exact hscalar
  | .enumeration e =>
    rw [typeSource.eq_def]
    exact gives_name_append (by decide : IsSpelled "String") hbreak h
  | .list shape item itemName flattened =>
    have hitem := gives_typeSource_append item hspelled hangle hclose
    rw [typeSource.eq_def]
    dsimp only
    rw [String.append_assoc, String.append_assoc]
    exact Gives.before (by decide) hitem
  | .map shape key value keyName valueName flattened =>
    have hvalue := gives_typeSource_append value hspelled hangle hclose
    rw [typeSource.eq_def]
    dsimp only
    rw [String.append_assoc, String.append_assoc]
    exact Gives.before (by decide) hvalue
  | .structure heading members =>
    rw [typeSource.eq_def]
    exact gives_reference_append (hspelled heading.ident List.mem_cons_self) hbreak h

theorem gives_valueSource (depth : Nat) {expression : String} (hexpression : IsSpelled expression)
    (target : Target) : Gives (valueSource depth expression target) [] := by
  have hname : IsSpelled ("v" ++ Text.natural depth) :=
    .append (by decide) (Naming.isSpelled_natural depth)
  have hkey : IsSpelled ("k" ++ Text.natural depth) :=
    .append (by decide) (Naming.isSpelled_natural depth)
  have hfrom : Gives ("awsgen_codegen::Value::from(" ++ (expression ++ ")")) [] :=
    Gives.before (by decide) (gives_name_append hexpression (by decide) (by decide))
  match target with
  | .scalar kind format streaming =>
    rw [valueSource.eq_def]
    simpa only [String.append_assoc] using hfrom
  | .enumeration e =>
    rw [valueSource.eq_def]
    simpa only [String.append_assoc] using hfrom
  | .structure heading members =>
    have hclose : Gives (expression ++ "))") [] :=
      gives_name_append hexpression (by decide) (by decide +kernel)
    rw [valueSource.eq_def]
    dsimp only
    rw [String.append_assoc]
    exact Gives.before (by decide) hclose
  | .list shape item itemName flattened =>
    have hitem := (gives_valueSource (depth + 1) hname item).before
      (by decide : Gives ").collect())" [])
    have hbody := gives_name_append hname (.append (by decide : Breaks "| ") _)
      (Gives.before (by decide) hitem)
    have hmap := gives_name_append hexpression
      (.append (by decide : Breaks ".into_iter().map(|") _) (Gives.before (by decide) hbody)
    have hall := (by decide : Gives "awsgen_codegen::Value::List(" []).before hmap
    rw [valueSource.eq_def]
    simpa only [String.append_assoc] using hall
  | .map shape key value keyName valueName flattened =>
    have hvalue := (gives_valueSource (depth + 1) hname value).before
      (by decide : Gives ")).collect())" [])
    have hpair := gives_name_append hkey (.append (by decide : Breaks ", ") _)
      (Gives.before (by decide) hvalue)
    have hbody := gives_name_append hname (.append (by decide : Breaks ")| (") _)
      (Gives.before (by decide) hpair)
    have hbinders := gives_name_append hkey (.append (by decide : Breaks ", ") _)
      (Gives.before (by decide) hbody)
    have hmap := gives_name_append hexpression
      (.append (by decide : Breaks ".into_iter().map(|(") _)
      (Gives.before (by decide) hbinders)
    have hall := (by decide : Gives "awsgen_codegen::Value::Map(" []).before hmap
    rw [valueSource.eq_def]
    simpa only [String.append_assoc] using hall

theorem gives_nameLine {lead name tail : String} (hname : IsSpelled name)
    (hplain : Gives lead [] ∧ Breaks tail ∧ Gives (tail ++ "\n") []) :
    Gives (lead ++ name ++ tail ++ "\n") [] := by
  obtain ⟨hlead, hbreak, htail⟩ := hplain
  rw [String.append_assoc, String.append_assoc]
  exact hlead.before (gives_name_append hname (hbreak.append "\n") htail)

theorem gives_fieldLine {member : Binding × Target} (hfield : IsSpelled member.1.field)
    (hmentions : ∀ ident ∈ member.2.mentions, IsSpelled ident.name) :
    Gives (fieldLine member ++ "\n") (member.2.mentions.map referencePath) := by
  have hclose : Gives (">," ++ "\n") [] := by decide
  have htype := gives_typeSource_append member.2 hmentions (by decide) hclose
  have hfield := gives_name_append hfield (.append (by decide : Breaks ": Option<") _)
    (Gives.before (by decide) htype)
  have hall := (by decide : Gives "    pub " []).before hfield
  rw [List.append_nil] at hall
  simpa only [fieldLine, String.append_assoc] using hall

theorem gives_setLines {member : Binding × Target} (hfield : IsSpelled member.1.field) :
    Gives (joinLines (setLines member)) [] := by
  have hvalue := (gives_valueSource 0 (by decide : IsSpelled "v") member.2).before
    (by decide : Gives (");" ++ "\n") [])
  have hset := (by decide : Gives "            out.set(" []).before
    ((gives_quoted member.1.name).before ((by decide : Gives ", " []).before hvalue))
  refine gives_joinLines_plain (gives_nameLine hfield (by decide)) ?_
  refine gives_joinLines_plain ?_ (by decide)
  simpa only [String.append_assoc] using hset

theorem gives_requiredLines {layout : Layout} (hname : IsSpelled layout.heading.ident.name) :
    Gives (joinLines (requiredLines layout)) [] := by
  unfold requiredLines
  dsimp only
  split_ifs
  · exact gives_empty
  · have hnames : ∀ text ∈ (layout.members.filter (·.1.required)).map
        (fun member => quoted member.1.name), Gives text [] := by
      intro text hmem
      obtain ⟨member, -, rfl⟩ := List.mem_map.1 hmem
      exact gives_quoted member.1.name
    have hlead : Gives "    pub const REQUIRED: &'static [&'static str] = &[" [] := by
      decide
    have hlist := hlead.before ((gives_intercalate hnames).before
      (by decide : Gives ("];" ++ "\n") []))
    refine gives_joinLines_plain (by decide) ?_
    refine gives_joinLines_plain (gives_nameLine hname (by decide)) ?_
    refine gives_joinLines_plain ?_ (by decide)
    simpa only [String.append_assoc] using hlist

/-- The paths in the source text of a structure are those in the types of its fields. -/
theorem gives_structureSource {layout : Layout} (hname : IsSpelled layout.heading.ident.name)
    (hfields : ∀ member ∈ layout.members, IsSpelled member.1.field)
    (hmentions : ∀ ident ∈ layout.mentions, IsSpelled ident.name) :
    Gives (structureSource layout) (layout.mentions.map referencePath) := by
  have hdeclared : Gives (joinLines (layout.members.map fieldLine))
      (layout.mentions.map referencePath) := by
    rw [List.map_eq_flatMap, Layout.mentions, List.map_flatMap]
    refine gives_joinLines_flatMap fun member hmem => ?_
    have hline := gives_fieldLine (hfields member hmem) fun ident hident =>
      hmentions ident (List.mem_flatMap.2 ⟨member, hmem, hident⟩)
    simpa using gives_joinLines_cons hline (by decide : Gives (joinLines []) [])
  have hset : Gives (joinLines (layout.members.flatMap setLines)) [] := by
    have hlines := gives_joinLines_flatMap fun member hmem => gives_setLines (hfields member hmem)
    rwa [List.flatMap_eq_nil_iff.2 fun _ _ => rfl] at hlines
  have hhead : Gives (joinLines ["#[derive(Debug, Clone, Default, PartialEq)]",
      "pub struct " ++ layout.heading.ident.name ++ " \x7b"]) [] := by
    refine gives_joinLines_plain (by decide) ?_
    exact gives_joinLines_plain (gives_nameLine hname (by decide))
      (by decide)
  have hconversion : Gives (joinLines ["",
      "impl From<" ++ layout.heading.ident.name ++ "> for awsgen_codegen::StructValue \x7b",
      "    fn from(value: " ++ layout.heading.ident.name ++ ") -> Self \x7b",
      "        let mut out = awsgen_codegen::StructValue::new(" ++ quoted layout.heading.shape ++
        ");"]) [] := by
    have hlead : Gives "        let mut out = awsgen_codegen::StructValue::new(" [] := by
      decide
    have hnew := hlead.before ((gives_quoted layout.heading.shape).before
      (by decide : Gives (");" ++ "\n") []))
    refine gives_joinLines_plain (by decide) ?_
    refine gives_joinLines_plain (gives_nameLine hname (by decide)) ?_
    refine gives_joinLines_plain (gives_nameLine hname (by decide)) ?_
    refine gives_joinLines_plain ?_ (by decide)
    simpa only [String.append_assoc] using hnew
  have hall := gives_joinLines_append (gives_joinLines_append (gives_joinLines_append
    (gives_joinLines_append (gives_joinLines_append (gives_joinLines_append hhead hdeclared)
      (by decide : Gives (joinLines ["\x7d"]) [])) (gives_requiredLines hname)) hconversion) hset)
    (by decide : Gives (joinLines ["        out", "    \x7d", "\x7d"]) [])
  simpa only [structureSource, List.append_nil, List.nil_append] using hall

theorem gives_comment {line : String} (hstart : "//".toList <+: line.toList)
    (hline : '\n' ∉ line.toList) : Gives (line ++ "\n") [] := by
  obtain ⟨rest, hrest⟩ := hstart
  have hcomment (chars : List Char) (h : '\n' ∉ chars) :
      Mark.readAll { place := .comment } chars = ([], { place := .comment }) := by
    induction chars with
    | nil => rfl
    | cons c more ih =>
      obtain ⟨hc, hmore⟩ := not_or.1 (mt List.mem_cons.2 h)
      have hread : ({ place := .comment } : Mark).read c = ([], { place := .comment }) := by
        simp [Mark.read, Ne.symm hc]
      rw [Mark.readAll, hread]
      simp [ih hmore]
  have hslashes : Mark.readAll { place := .code } "//".toList = ([], { place := .comment }) := by
    decide
  have hend : Mark.readAll { place := .comment } "\n".toList = ([], { place := .code }) := by
    decide
  rw [← hrest, List.mem_append, not_or] at hline
  rw [Gives, String.toList_append, ← hrest, readAll_append, readAll_append, hslashes,
    hcomment rest hline.2, hend]
  rfl

theorem gives_functionLines (call : Call) {name : String} (result action : String)
    (hname : IsSpelled name) (hinput : IsSpelled call.input.heading.ident.name)
    (hresult : Gives (") -> Result<awsgen_codegen::" ++ result ++
      ", awsgen_codegen::InvocationError> \x7b" ++ "\n") [])
    (haction : Gives ("    client." ++ action ++ "(") []) :
    Gives (joinLines (functionLines call name result action))
      [referencePath call.input.heading.ident] := by
  have hparameter : Gives ("    input: " ++ referencePath call.input.heading.ident ++ "," ++ "\n")
      [referencePath call.input.heading.ident] := by
    have hpath := gives_reference_append hinput (by decide) (by decide : Gives ("," ++ "\n") [])
    have hline := (by decide : Gives "    input: " []).before hpath
    simpa only [String.append_assoc] using hline
  have hbody : Gives ("    client." ++ action ++ "(" ++ quoted call.name ++
      ", awsgen_codegen::StructValue::from(input))" ++ "\n") [] := by
    have hrest := (gives_quoted call.name).before
      (by decide : Gives (", awsgen_codegen::StructValue::from(input))" ++ "\n") [])
    simpa only [String.append_assoc] using haction.before hrest
  refine gives_joinLines_plain (gives_nameLine hname (by decide)) ?_
  refine gives_joinLines_plain (by decide) ?_
  refine gives_joinLines_cons hparameter ?_
  refine gives_joinLines_plain hresult ?_
  exact gives_joinLines_plain hbody (by decide)

/-- The names that stand in the comments on an operation have no line breaks. -/
structure OneLine (operation : Operation) : Prop where
  name : '\n' ∉ operation.name.toList
  tokens : ∀ pagination, operation.pagination = some pagination →
    '\n' ∉ pagination.outputToken.toList ∧ '\n' ∉ pagination.inputToken.toList

theorem isSpelled_dropRawMarks {name : String} (h : IsSpelled name) :
    IsSpelled (String.ofList (Naming.dropRawMarks name.toList)) := by
  unfold IsSpelled at *
  rw [String.toList_ofList]
  generalize name.toList = chars at h
  induction chars using Naming.dropRawMarks.induct with
  | case1 rest ih =>
    rw [Naming.dropRawMarks]
    exact ih fun c hc => h c (by simp [hc])
  | case2 chars hchars => rwa [Naming.dropRawMarks.eq_2 chars hchars]

theorem gives_pagesLines {call : Call} (hline : OneLine call.operation)
    (hname : IsSpelled call.ident.name) (hinput : IsSpelled call.input.heading.ident.name) :
    Gives (joinLines (pagesLines call))
      (call.operation.pagination.map fun _ => referencePath call.input.heading.ident).toList := by
  unfold pagesLines
  cases hpagination : call.operation.pagination with
  | none => exact gives_empty
  | some pagination =>
    obtain ⟨houtput, hinputToken⟩ := hline.tokens pagination hpagination
    have hquiet : '\n' ∉ call.name.toList := hline.name
    have hcomment : Gives ("/// Pages of `" ++ call.name ++ "`, following `" ++
        pagination.outputToken ++ "` into `" ++ pagination.inputToken ++ "`." ++ "\n") [] := by
      refine gives_comment ?_ ?_
      · simp only [String.toList_append, List.append_assoc]
        exact (by decide : "//".toList <+: "/// Pages of `".toList).trans (List.prefix_append _ _)
      · simp [String.toList_append, hquiet, houtput, hinputToken]
    have hpages := gives_functionLines call "PaginationStream" "paginate"
      ((isSpelled_dropRawMarks hname).append (by decide : IsSpelled "_pages")) hinput
      (by decide) (by decide +kernel)
    exact gives_joinLines_plain (by decide) (gives_joinLines_plain hcomment hpages)

/-- The paths in the source text of an operation are those of its input. -/
theorem gives_callSource {call : Call} (hline : OneLine call.operation)
    (hname : IsSpelled call.ident.name) (hinput : IsSpelled call.input.heading.ident.name) :
    Gives (callSource call) (referencePath call.input.heading.ident ::
      (call.operation.pagination.map fun _ => referencePath call.input.heading.ident).toList) := by
  have hquiet : '\n' ∉ call.name.toList := hline.name
  have hcomment : Gives ("/// Invokes `" ++ call.name ++ "`." ++ "\n") [] := by
    refine gives_comment ?_ ?_
    · simp only [String.toList_append, List.append_assoc]
      exact (by decide : "//".toList <+: "/// Invokes `".toList).trans (List.prefix_append _ _)
    · simp [String.toList_append, hquiet]
  have hinvoke := gives_functionLines call "OperationOutput" "invoke" hname hinput
    (by decide) (by decide +kernel)
  have hall := gives_joinLines_plain hcomment
    (gives_joinLines_append hinvoke (gives_pagesLines hline hname hinput))
  simpa only [callSource, List.cons_append, List.nil_append] using hall

end Generate
end ServiceBindings
