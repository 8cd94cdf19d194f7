import ServiceBindings.Proofs.Generate.Code
import ServiceBindings.Proofs.Generate.ConstantNames
import ServiceBindings.Proofs.Generate.Regular
import ServiceBindings.Proofs.Text.Expect

/-! The constants of generated enumerations, and their test for values, read off the source text. -/
namespace ServiceBindings

/-- Compiling came to this plan of an enumeration. -/
def Plan.Enumeration.Compiled (e : Enumeration) : Prop :=
  ∃ ledger name, Generate.Ledger.Reachable ledger ∧ Fields.get? ledger.enumerations name = some e

namespace Generate
open Naming (IsCapital IsIdentifier IsSpelled constantCase)
open Plan (Constant Enumeration)
open Text (parts? quoted)

/-- The line with which the block of a type's own items begins. -/
def blockLine (type : String) : String :=
  "impl " ++ type ++ " \x7b"

/-- The lines of this block, up to the bracket that closes it. -/
def blockOf (type : String) (lines : List (List Char)) : List (List Char) :=
  match lines.dropWhile (· ≠ (blockLine type).toList) with
  | _ :: rest => rest.takeWhile (· ≠ ['\x7d'])
  | [] => []

/-- With these characters the declaration of a constant begins. -/
def constantStart : List Char :=
  "    pub const ".toList

def constantOf? (line : List Char) : Option (String × String) :=
  match parts? .code line with
  | some [code, value, [';']] =>
    (Text.expect? constantStart code).bind fun rest =>
      let name := rest.takeWhile (· ≠ ':')
      if rest = name ++ ": &'static str = ".toList then
        some (String.ofList name, String.ofList value)
      else none
  | _ => none

/-- The constants that source text declares for a type, all of them read off its code. -/
def declaredConstants? (type source : String) : Option (List (String × String)) :=
  (codeLines? source).bind fun lines =>
    ((blockOf type lines).filter constantStart.isPrefixOf).mapM constantOf?

/-- The texts between bars, up to a closing parenthesis. -/
def alternatives? : List (List Char) → Option (List String)
  | [value, [')']] => some [String.ofList value]
  | value :: [' ', '|', ' '] :: rest => (alternatives? rest).map (String.ofList value :: ·)
  | _ => none

/-- The values for which the test on a line holds: none, or those that it matches. -/
def matched? (line : List Char) : Option (List String) :=
  match parts? .code line with
  | some [code] => if code = "        false".toList then some [] else none
  | some (code :: rest) =>
    if code = "        matches!(value, ".toList then alternatives? rest else none
  | _ => none

def existsLine : String :=
  "    pub fn exists(value: &str) -> bool \x7b"

/-- The values for which the test holds that source text has for a type. -/
def testedValues? (type source : String) : Option (List String) :=
  (codeLines? source).bind fun lines =>
    match (blockOf type lines).dropWhile (· ≠ existsLine.toList) with
    | _ :: test :: _ => matched? test
    | _ => none

section Reading

theorem notMem_of_isCapital {name : String} (h : IsCapital name) {c : Char}
    (hc : Naming.isCapitalChar c = false) : c ∉ name.toList := by
  intro hmem
  rw [h.chars c hmem] at hc
  cases hc

theorem toList_constantLine (name : String) (constant : Constant) :
    (constantLine name constant).toList = constantStart ++ (name.toList ++
      (": &'static str = ".toList ++ ((quoted constant.value).toList ++ [';']))) := by
  show ("    pub const " ++ name ++ ": &'static str = " ++ quoted constant.value ++ ";").toList = _
  simp only [String.toList_append, List.append_assoc]
  rfl

theorem constantOf?_constantLine {name : String} (hname : IsCapital name) (constant : Constant) :
    constantOf? (constantLine name constant).toList = some (name, constant.value) := by
  have hline : (constantLine name constant).toList =
      (constantStart ++ (name.toList ++ ": &'static str = ".toList)) ++
        ((quoted constant.value).toList ++ [';']) := by
    rw [toList_constantLine, List.append_assoc, List.append_assoc]
  have hcode : '"' ∉ constantStart ++ (name.toList ++ ": &'static str = ".toList) := by
    rw [List.mem_append, List.mem_append, not_or, not_or]
    exact ⟨by decide, notMem_of_isCapital hname rfl, by decide⟩
  have hcolon : ∀ c ∈ name.toList, decide (c ≠ ':') = true := fun c hc =>
    decide_eq_true fun heq => notMem_of_isCapital hname rfl (heq ▸ hc)
  have hstop : (": &'static str = ".toList).takeWhile (· ≠ ':') = [] := by decide
  have hend : parts? .code [';'] = some [[';']] := rfl
  rw [constantOf?, hline, Text.parts?_code_append hcode, Text.parts?_quoted, hend]
  simp only [Option.map_some, List.modifyHead_cons, List.append_nil, Text.expect?_append,
    Option.bind_some, String.ofList_toList]
  rw [List.takeWhile_append_of_pos hcolon, hstop, List.append_nil, if_pos rfl, String.ofList_toList]

/-- The alternatives of a match are read as the values from which they were made. -/
theorem exists_alternatives {values : List String} (h : values ≠ []) :
    ∃ parts, parts? .code ((" | ".intercalate (values.map quoted)).toList ++ [')']) =
      some ([] :: parts) ∧ alternatives? parts = some values := by
  induction values with
  | nil => exact absurd rfl h
  | cons value rest ih =>
    cases rest with
    | nil =>
      refine ⟨[value.toList, [')']], ?_, by simp [alternatives?]⟩
      rw [List.map_singleton, String.intercalate_singleton, Text.parts?_quoted]
      rfl
    | cons next more =>
      obtain ⟨parts, hparts, hvalues⟩ := ih (List.cons_ne_nil _ _)
      refine ⟨value.toList :: " | ".toList :: parts, ?_, ?_⟩
      · rw [List.map_cons, List.map_cons, String.intercalate_cons_cons, ← List.map_cons,
          String.toList_append, String.toList_append, List.append_assoc, List.append_assoc,
          Text.parts?_quoted, Text.parts?_code_append (by decide), hparts]
        rfl
      · show alternatives? (value.toList :: [' ', '|', ' '] :: parts) = _
        rw [alternatives?, hvalues, Option.map_some, String.ofList_toList]

theorem matched?_membershipTest (values : List String) :
    matched? ("        " ++ membershipTest (values.map quoted)).toList = some values := by
  cases values with
  | nil => decide
  | cons value rest =>
    obtain ⟨parts, hparts, hvalues⟩ := exists_alternatives (List.cons_ne_nil value rest)
    have hne : parts ≠ [] := by
      rintro rfl
      cases hvalues
    have hline : ("        " ++ membershipTest ((value :: rest).map quoted)).toList =
        "        matches!(value, ".toList ++
          ((" | ".intercalate ((value :: rest).map quoted)).toList ++ [')']) := by
      rw [membershipTest, if_neg (by simp)]
      simp only [String.toList_append, List.append_assoc]
      rfl
    obtain ⟨first, others, rfl⟩ := List.exists_cons_of_ne_nil hne
    rw [matched?, hline, Text.parts?_code_append (by decide), hparts]
    simpa using hvalues

section Block
variable {e : Enumeration}

/-- The lines between the comment on the shape and the block. -/
def openingLines (e : Enumeration) : List String :=
  ["#[derive(Debug, Clone, Copy, PartialEq, Eq)]", "pub struct " ++ e.ident.name ++ ";", ""]

def constantLines (e : Enumeration) : List String :=
  List.zipWith constantLine (constantNames [] e.constants) e.constants

def listLine (e : Enumeration) : String :=
  "        &[" ++ ", ".intercalate (e.constants.map fun c => quoted c.value) ++ "]"

def testLine (e : Enumeration) : String :=
  "        " ++ membershipTest (e.constants.map fun c => quoted c.value)

/-- The lines behind the comment on the list of values, up to the end of the block. -/
def functionsLines (e : Enumeration) : List String :=
  ["    pub fn values() -> &'static [&'static str] \x7b", listLine e, "    \x7d", "", existsLine,
    testLine e, "    \x7d"]

theorem enumerationSource_eq (e : Enumeration) :
    enumerationSource e = joinLines (("/// Values of `" ++ e.shape ++ "`.") ::
      (openingLines e ++ blockLine e.ident.name :: (constantLines e ++
        "" :: "    /// All values, ordered by constant name." ::
          (functionsLines e ++ ["\x7d"])))) := by
  unfold enumerationSource openingLines blockLine constantLines functionsLines listLine testLine
    existsLine
  simp only [List.cons_append, List.nil_append]

/-- The code of the block of an enumeration line by line. Nothing but its indent is left of the
comment. -/
def blockLines (e : Enumeration) : List (List Char) :=
  (constantLines e).map String.toList ++
    [] :: "    ".toList :: (functionsLines e).map String.toList

/-- The code of an enumeration line by line. -/
def enumerationLines (e : Enumeration) : List (List Char) :=
  [] :: ((openingLines e).map String.toList ++
    (blockLine e.ident.name).toList :: (blockLines e ++ [['\x7d'], []]))

theorem isCode_constantLine {name : String} (hname : IsCapital name) (constant : Constant) :
    IsCode (constantLine name constant) := by
  have hcapital : IsCode name := .of_forall fun c hc => by
    refine ⟨?_, ?_, ?_⟩ <;> rintro rfl <;> exact notMem_of_isCapital hname rfl hc
  exact ((((.of_plain (by decide) : IsCode "    pub const ").append hcapital).append
    (.of_plain (by decide))).append (.quoted constant.value)).append (.of_plain (by decide))

theorem isCode_intercalate_quoted {separator : String} (h : IsCode separator)
    (values : List String) : IsCode (separator.intercalate (values.map quoted)) := by
  refine h.intercalate fun text hmem => ?_
  obtain ⟨value, -, rfl⟩ := List.mem_map.1 hmem
  exact .quoted value

theorem isCode_listLine (e : Enumeration) : IsCode (listLine e) := by
  have hquoted := isCode_intercalate_quoted (.of_plain (by decide) : IsCode ", ")
    (e.constants.map (·.value))
  rw [List.map_map] at hquoted
  exact ((.of_plain (by decide) : IsCode "        &[").append hquoted).append
    (.of_plain (by decide))

theorem isCode_testLine (e : Enumeration) : IsCode (testLine e) := by
  have hquoted := isCode_intercalate_quoted (.of_plain (by decide) : IsCode " | ")
    (e.constants.map (·.value))
  rw [List.map_map] at hquoted
  refine (.of_plain (by decide) : IsCode "        ").append ?_
  unfold membershipTest
  split_ifs
  · exact .of_plain (by decide)
  · exact ((.of_plain (by decide) : IsCode "matches!(value, ").append hquoted).append
      (.of_plain (by decide))

theorem isCode_openingLines (hname : IsCode e.ident.name) :
    ∀ line ∈ openingLines e, IsCode line := by
  intro line hmem
  simp only [openingLines, List.mem_cons, List.not_mem_nil, or_false] at hmem
  rcases hmem with rfl | rfl | rfl
  · exact .of_plain (by decide)
  · exact ((.of_plain (by decide) : IsCode "pub struct ").append hname).append
      (.of_plain (by decide))
  · exact .of_plain (by decide)

theorem isCode_blockLine {type : String} (h : IsCode type) : IsCode (blockLine type) :=
  ((.of_plain (by decide) : IsCode "impl ").append h).append (.of_plain (by decide))

theorem zipWith_constantLine (names : List String) (constants : List Constant) :
    List.zipWith constantLine names constants =
      (names.zip constants).map fun pair => constantLine pair.1 pair.2 := by
  rw [List.map_zip_eq_zipWith]
  rfl

theorem exists_of_mem_constantLines {line : String} (h : line ∈ constantLines e) :
    ∃ name ∈ constantNames [] e.constants, ∃ constant, line = constantLine name constant := by
  rw [constantLines, zipWith_constantLine] at h
  obtain ⟨⟨name, constant⟩, hpair, rfl⟩ := List.mem_map.1 h
  exact ⟨name, (List.of_mem_zip hpair).1, constant, rfl⟩

theorem isCode_constantLines (hnames : ∀ name ∈ constantNames [] e.constants, IsCapital name) :
    ∀ line ∈ constantLines e, IsCode line := by
  intro line hmem
  obtain ⟨name, hname, constant, rfl⟩ := exists_of_mem_constantLines hmem
  exact isCode_constantLine (hnames name hname) constant

theorem isCode_functionsLines (e : Enumeration) : ∀ line ∈ functionsLines e, IsCode line := by
  intro line hmem
  simp only [functionsLines, List.mem_cons, List.not_mem_nil, or_false] at hmem
  rcases hmem with rfl | rfl | rfl | rfl | rfl | rfl | rfl
  · exact .of_plain (by decide)
  · exact isCode_listLine e
  · exact .of_plain (by decide)
  · exact .of_plain (by decide)
  · exact .of_plain (by decide)
  · exact isCode_testLine e
  · exact .of_plain (by decide)

theorem leaves_shapeComment (hline : '\n' ∉ e.shape.toList) (hreturn : '\r' ∉ e.shape.toList) :
    Leaves ("/// Values of `" ++ e.shape ++ "`.") [] := by
  have hmarks : "/// Values of `" ++ e.shape ++ "`." =
      "" ++ "//" ++ ("/ Values of `" ++ e.shape ++ "`.") := by
    simp [String.ext_iff]
  rw [hmarks]
  exact leaves_comment (.of_plain (by decide)) (by simp [hline]) (by simp [hreturn])

theorem codeLines?_enumerationSource (hident : IsSpelled e.ident.name)
    (hnames : ∀ name ∈ constantNames [] e.constants, IsCapital name)
    (hline : '\n' ∉ e.shape.toList) (hreturn : '\r' ∉ e.shape.toList) :
    codeLines? (enumerationSource e) = some (enumerationLines e) := by
  have hname : IsCode e.ident.name := .of_isSpelled hident
  have hblank : Leaves "" [] := (IsCode.of_plain (by decide)).leaves
  have hclose : Leaves "\x7d" ['\x7d'] := (IsCode.of_plain (by decide)).leaves
  have hcomment : Leaves ("    " ++ "//" ++ "/ All values, ordered by constant name.")
      "    ".toList := leaves_comment (.of_plain (by decide)) (by decide) (by decide)
  have hblock := List.rel_append (forall₂_leaves (isCode_constantLines hnames))
    (.cons hblank (.cons hcomment (List.rel_append (forall₂_leaves (isCode_functionsLines e))
      (.cons hclose .nil))))
  have hlines := List.Forall₂.cons (leaves_shapeComment hline hreturn)
    (List.rel_append (forall₂_leaves (isCode_openingLines hname))
      (.cons (isCode_blockLine hname).leaves hblock))
  rw [enumerationSource_eq]
  refine (codeLines?_joinLines hlines).trans ?_
  simp [enumerationLines, blockLines]

/-- A carriage return in the name of the shape stands in a comment that may not have any. -/
theorem codeLines?_eq_none (hline : '\n' ∉ e.shape.toList) (hreturn : '\r' ∈ e.shape.toList) :
    codeLines? (enumerationSource e) = none := by
  have hmarks : ("/// Values of `" ++ e.shape ++ "`.").toList =
      '/' :: '/' :: ("/ Values of `" ++ e.shape ++ "`.").toList := by
    simp
  rw [enumerationSource_eq, codeLines?, toList_joinLines_cons, hmarks, List.cons_append,
    List.cons_append, uncommented?, uncommented?_comment (by simp [hline]),
    if_pos (by simp [hreturn]), Option.map_none]

/-- The lines of constants are read as the names and values from which they were made. -/
theorem mapM_constantOf? (constants : List Constant) {names : List String}
    (hnames : ∀ name ∈ names, IsCapital name) :
    ((List.zipWith constantLine names constants).map String.toList).mapM constantOf? =
      some (names.zip (constants.map (·.value))) := by
  induction names generalizing constants with
  | nil => rfl
  | cons name rest ih =>
    cases constants with
    | nil => rfl
    | cons constant others =>
      obtain ⟨hname, hrest⟩ := List.forall_mem_cons.1 hnames
      rw [List.zipWith_cons_cons, List.map_cons, List.mapM_cons, constantOf?_constantLine hname,
        ih others hrest]
      rfl

theorem not_prefix_append {start other : List Char} (h : ¬start <+: other ∧ ¬other <+: start)
    (rest : List Char) : ¬start <+: other ++ rest := by
  intro hstart
  rcases List.prefix_or_prefix_of_prefix hstart (List.prefix_append other rest) with hle | hle
  · exact h.1 hle
  · exact h.2 hle

theorem ne_of_not_prefix {start line : List Char} (h : ¬start <+: line) :
    decide (line ≠ start) = true :=
  decide_eq_true fun heq => h (heq ▸ List.prefix_rfl)

theorem not_prefix_constantLines {start : List Char}
    (h : ¬start <+: constantStart ∧ ¬constantStart <+: start) :
    ∀ line ∈ (constantLines e).map String.toList, ¬start <+: line := by
  intro line hmem
  obtain ⟨_, hline, rfl⟩ := List.mem_map.1 hmem
  obtain ⟨name, -, constant, rfl⟩ := exists_of_mem_constantLines hline
  rw [toList_constantLine]
  exact not_prefix_append h _

/-- No line of the functions begins like that of a constant or like the end of the block. -/
theorem not_prefix_functionsLines (e : Enumeration) {start : List Char}
    (h : start = constantStart ∨ start = ['\x7d']) :
    ∀ line ∈ (functionsLines e).map String.toList, ¬start <+: line := by
  intro line hmem
  simp only [functionsLines, List.map_cons, List.map_nil, List.mem_cons, List.not_mem_nil,
    or_false] at hmem
  rcases hmem with rfl | rfl | rfl | rfl | rfl | rfl | rfl
  · rcases h with rfl | rfl <;> decide
  · rw [listLine, String.append_assoc, String.toList_append]
    rcases h with rfl | rfl <;> exact not_prefix_append (by decide) _
  · rcases h with rfl | rfl <;> decide
  · rcases h with rfl | rfl <;> decide
  · rcases h with rfl | rfl <;> decide
  · rw [testLine, String.toList_append]
    rcases h with rfl | rfl <;> exact not_prefix_append (by decide) _
  · rcases h with rfl | rfl <;> decide

theorem blockOf_enumerationLines (e : Enumeration) :
    blockOf e.ident.name (enumerationLines e) = blockLines e := by
  have hopening : ∀ line ∈ [] :: (openingLines e).map String.toList,
      decide (line ≠ (blockLine e.ident.name).toList) = true := by
    intro line hmem
    have hstart : "impl ".toList <+: (blockLine e.ident.name).toList := by
      rw [blockLine, String.append_assoc, String.toList_append]
      exact List.prefix_append _ _
    refine ne_of_not_prefix fun hline => absurd (hstart.trans hline) ?_
    simp only [openingLines, List.map_cons, List.map_nil, List.mem_cons, List.not_mem_nil,
      or_false] at hmem
    rcases hmem with rfl | rfl | rfl | rfl
    · decide
    · decide
    · rw [String.append_assoc, String.toList_append]
      exact not_prefix_append (by decide) _
    · decide
  have hinside : ∀ line ∈ blockLines e, decide (line ≠ ['\x7d']) = true := by
    refine List.forall_mem_append.2 ⟨fun line hmem => ?_, ?_⟩
    · exact ne_of_not_prefix (not_prefix_constantLines (by decide) line hmem)
    · refine List.forall_mem_cons.2 ⟨by decide, List.forall_mem_cons.2 ⟨by decide, ?_⟩⟩
      exact fun line hmem => ne_of_not_prefix (not_prefix_functionsLines e (.inr rfl) line hmem)
  rw [blockOf, enumerationLines, ← List.cons_append, List.dropWhile_append_of_pos hopening,
    List.dropWhile_cons_of_neg (by simp)]
  dsimp only
  rw [List.takeWhile_append_of_pos hinside, List.takeWhile_cons_of_neg (by decide), List.append_nil]

/-- No other line of the block begins like the declaration of a constant. -/
theorem filter_blockLines (e : Enumeration) :
    (blockLines e).filter constantStart.isPrefixOf = (constantLines e).map String.toList := by
  have hconstants : ((constantLines e).map String.toList).filter constantStart.isPrefixOf =
      (constantLines e).map String.toList := by
    refine List.filter_eq_self.2 fun line hmem => ?_
    obtain ⟨_, hline, rfl⟩ := List.mem_map.1 hmem
    obtain ⟨name, -, constant, rfl⟩ := exists_of_mem_constantLines hline
    rw [toList_constantLine, List.isPrefixOf_iff_prefix]
    exact List.prefix_append _ _
  have hfunctions : ((functionsLines e).map String.toList).filter constantStart.isPrefixOf =
      [] := by
    refine List.filter_eq_nil_iff.2 fun line hmem => ?_
    rw [List.isPrefixOf_iff_prefix]
    exact not_prefix_functionsLines e (.inl rfl) line hmem
  rw [blockLines, List.filter_append, hconstants, List.filter_cons_of_neg (by decide),
    List.filter_cons_of_neg (by decide), hfunctions, List.append_nil]

theorem declaredConstants?_of_codeLines?
    (hnames : ∀ name ∈ constantNames [] e.constants, IsCapital name)
    (hcode : codeLines? (enumerationSource e) = some (enumerationLines e)) :
    declaredConstants? e.ident.name (enumerationSource e) =
      some ((constantNames [] e.constants).zip (e.constants.map (·.value))) := by
  rw [declaredConstants?, hcode, Option.bind_some, blockOf_enumerationLines, filter_blockLines]
  exact mapM_constantOf? e.constants hnames

theorem testedValues?_of_codeLines?
    (hcode : codeLines? (enumerationSource e) = some (enumerationLines e)) :
    testedValues? e.ident.name (enumerationSource e) = some (e.constants.map (·.value)) := by
  have hconstants : ∀ line ∈ (constantLines e).map String.toList,
      decide (line ≠ existsLine.toList) = true := fun line hmem =>
    ne_of_not_prefix (not_prefix_constantLines (by decide) line hmem)
  have hlist : decide ((listLine e).toList ≠ existsLine.toList) = true := by
    rw [listLine, String.append_assoc, String.toList_append]
    exact ne_of_not_prefix (not_prefix_append (by decide) _)
  have htest := matched?_membershipTest (e.constants.map (·.value))
  rw [List.map_map] at htest
  rw [testedValues?, hcode, Option.bind_some, blockOf_enumerationLines, blockLines,
    List.dropWhile_append_of_pos hconstants, List.dropWhile_cons_of_pos (by decide),
    List.dropWhile_cons_of_pos (by decide)]
  simp only [functionsLines, List.map_cons]
  rw [List.dropWhile_cons_of_pos (by decide), List.dropWhile_cons_of_pos (by exact hlist),
    List.dropWhile_cons_of_pos (by decide), List.dropWhile_cons_of_pos (by decide),
    List.dropWhile_cons_of_neg (by simp)]
  exact htest

end Block

end Reading

/-- The source of a compiled enumeration declares all constants in order, each with its value. Their
names are identifiers that are apart: each is the first candidate that no constant before it has.
The test in the source holds for the values of the constants alone. All this is read off the whole
source, unless the name of the shape breaks the comment in which it stands. -/
theorem constants_declared_apart {e : Enumeration} (h : e.Compiled) :
    let names := constantNames [] e.constants
    names.length = e.constants.length ∧ names.Nodup ∧ (∀ name ∈ names, IsIdentifier name) ∧
      (∀ i constant, e.constants[i]? = some constant → ∃ k ≤ i,
        names[i]? = some (constantCandidate (constantBase constant.name) k) ∧
        StopsAt (names.take i) (constantBase constant.name) k) ∧
      ('\n' ∉ e.shape.toList → '\r' ∉ e.shape.toList →
        declaredConstants? e.ident.name (enumerationSource e) =
          some (names.zip (e.constants.map (·.value))) ∧
        ∃ tested, testedValues? e.ident.name (enumerationSource e) = some tested ∧
          ∀ value, value ∈ tested ↔ e.contains value = true) ∧
      ('\n' ∉ e.shape.toList → '\r' ∈ e.shape.toList →
        codeLines? (enumerationSource e) = none) := by
  intro names
  obtain ⟨ledger, name, hreachable, he⟩ := h
  obtain ⟨hident, values, hkept⟩ :=
    hreachable.regular.enumerations _ (Fields.mem_of_get? he)
  have hnames : ∀ name ∈ names, IsCapital name := fun name hmem =>
    isCapital_of_mem_constantNames (fun constant hc => ((hkept.mem_iff constant).1 hc).2) hmem
  refine ⟨length_constantNames [] e.constants, (nodup_constantNames [] e.constants).1,
    fun name hmem => (hnames name hmem).isIdentifier, fun i constant hi => ?_,
    fun hline hreturn => ?_, codeLines?_eq_none⟩
  · obtain ⟨k, hk, hname, hstops⟩ := constantNames_stop [] hi
    exact ⟨k, by simpa using hk, hname, hstops⟩
  · have hcode := codeLines?_enumerationSource hident hnames hline hreturn
    refine ⟨declaredConstants?_of_codeLines? hnames hcode, _, testedValues?_of_codeLines? hcode,
      fun value => ?_⟩
    simp [Enumeration.contains]

/-- Values with names that are no identifiers, or that become one identifier. -/
def oddities : Shape where
  name := "Oddities"
  kind := .enumeration ["a b", "a_b", "a_b_2", "1st", "", "say \"__\"\n", "__"]
  locationName := none
  xmlNamespace := none
  timestampFormat := none
  streaming := false

def odditiesEnumeration : Enumeration where
  ident := ⟨.enums, "Oddities"⟩
  shape := "Oddities"
  constants := [⟨"", ""⟩, ⟨"1ST", "1st"⟩, ⟨"A B", "a b"⟩, ⟨"A_B", "a_b"⟩, ⟨"A_B_2", "a_b_2"⟩,
    ⟨"SAY _", "say \"__\"\n"⟩, ⟨"_", "__"⟩]

theorem compiled_odditiesEnumeration : odditiesEnumeration.Compiled := by
  have hloaded : (Job.mk albumModel {}).model.Loaded := .load load_albumText
  exact ⟨_, "Oddities", .request (.enumeration oddities) ({} : Memory) (.fresh hloaded) hloaded,
    by decide +kernel⟩

theorem constants_declared_of_oddities :
    odditiesEnumeration.Compiled ∧
      ('\n' ∉ odditiesEnumeration.shape.toList ∧ '\r' ∉ odditiesEnumeration.shape.toList) ∧
      constantNames [] odditiesEnumeration.constants =
        ["VALUE", "_1ST", "A_B", "A_B_2", "A_B_2_2", "SAY__", "VALUE_"] ∧
      declaredConstants? "Oddities" (enumerationSource odditiesEnumeration) =
        some [("VALUE", ""), ("_1ST", "1st"), ("A_B", "a b"), ("A_B_2", "a_b"),
          ("A_B_2_2", "a_b_2"), ("SAY__", "say \"__\"\n"), ("VALUE_", "__")] ∧
      ∃ tested, testedValues? "Oddities" (enumerationSource odditiesEnumeration) = some tested ∧
        ∀ value, value ∈ tested ↔ odditiesEnumeration.contains value = true := by
  have hnames : constantNames [] odditiesEnumeration.constants =
      ["VALUE", "_1ST", "A_B", "A_B_2", "A_B_2_2", "SAY__", "VALUE_"] := by decide +kernel
  have hshape : '\n' ∉ odditiesEnumeration.shape.toList ∧
      '\r' ∉ odditiesEnumeration.shape.toList := by decide
  obtain ⟨-, -, -, -, hread, -⟩ := constants_declared_apart compiled_odditiesEnumeration
  obtain ⟨hdeclared, htested⟩ := hread hshape.1 hshape.2
  rw [hnames] at hdeclared
  exact ⟨compiled_odditiesEnumeration, hshape, hnames, hdeclared, htested⟩

/-- The name of a shape that ends the comment in which it stands and begins one without an end. -/
def hidingName : String :=
  "Kind`.\n/*"

def hidingDocument : Document := .object [
  ("metadata", .object [("protocol", .string "json"), ("apiVersion", .string "1")]),
  ("operations", .object [("Get", .object [("input", shapeReference "In")])]),
  ("shapes", .object [
    ("In", .object [("type", .string "structure"),
      ("members", .object [("kind", shapeReference hidingName)])]),
    (hidingName, .object [("type", .string "string"), ("enum", .array [.string "a"])])])]

def hidingModel : ServiceModel where
  service := ⟨"Service", "1", .json, none, none, none⟩
  shapes := [
    ("In", ⟨"In", .structure ⟨[bodyMember "kind" hidingName], none⟩, none, none, none, false⟩),
    (hidingName, ⟨hidingName, .enumeration ["a"], none, none, none, false⟩)]
  operations := [("Get", ⟨"Get", "In", none, "POST", "/", none, none⟩)]

def hidingEnumeration : Enumeration where
  ident := ⟨.enums, "Kind"⟩
  shape := hidingName
  constants := [⟨"A", "a"⟩]

theorem codeLines?_hidingEnumeration : codeLines? (enumerationSource hidingEnumeration) = none := by
  have hmarks : ("/// Values of `" ++ hidingEnumeration.shape ++ "`.").toList =
      '/' :: '/' :: ("/ Values of `Kind`.".toList ++ '\n' :: '/' :: '*' :: "`.".toList) := by
    decide
  have hopen : '*' ∉ "`.".toList ++ '\n' :: (joinLines (openingLines hidingEnumeration ++
      blockLine hidingEnumeration.ident.name :: (constantLines hidingEnumeration ++
        "" :: "    /// All values, ordered by constant name." ::
          (functionsLines hidingEnumeration ++ ["\x7d"])))).toList := by
    rw [List.mem_append, List.mem_cons, not_or, not_or]
    exact ⟨by decide, by decide, notMem_joinLines (by decide) (by decide +kernel)⟩
  rw [enumerationSource_eq, codeLines?, toList_joinLines_cons, hmarks]
  simp only [List.cons_append, List.append_assoc]
  rw [uncommented?, uncommented?_comment (by decide), if_neg (by decide), uncommented?,
    uncommented?_openBlock hopen]
  rfl

/-- The one constant of the enumeration stands in a comment that has no end. -/
theorem constants_lost_to_line_break :
    ServiceModel.load (Json.Node.ofDocument hidingDocument).text = .ok hidingModel ∧
      (let run : Run Memory := (Run.start ⟨hidingModel, {}⟩ {}).after [.compile "Get"]
       Fields.get? run.ledger.enumerations hidingName = some hidingEnumeration ∧
        run.sink.artifacts.head? = some
          (run.job.artifact hidingEnumeration.ident (enumerationSource hidingEnumeration))) ∧
      hidingEnumeration.Compiled ∧
      constantNames [] hidingEnumeration.constants = ["A"] ∧
      hidingEnumeration.contains "a" = true ∧
      declaredConstants? "Kind" (enumerationSource hidingEnumeration) = none ∧
      testedValues? "Kind" (enumerationSource hidingEnumeration) = none := by
  have hload : ServiceModel.load (Json.Node.ofDocument hidingDocument).text = .ok hidingModel :=
    ServiceModel.load_text (by decide) rfl
  have hloaded : (Job.mk hidingModel {}).model.Loaded := .load hload
  have hcompiled : hidingEnumeration.Compiled :=
    ⟨_, hidingName, .request (.operation "Get") ({} : Memory) (.fresh hloaded) hloaded,
      by decide +kernel⟩
  have hcode := codeLines?_hidingEnumeration
  refine ⟨hload, ⟨by decide +kernel, rfl⟩, hcompiled, by decide +kernel, by decide +kernel, ?_, ?_⟩
  · rw [declaredConstants?, hcode, Option.bind_none]
  · rw [testedValues?, hcode, Option.bind_none]

end Generate
end ServiceBindings
