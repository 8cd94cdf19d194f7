import ServiceBindings.Proofs.Generate.Lines

/-! The code of generated source: what is left of its lines without the comments. Comments and
literals are told apart in the text itself, so that markup in a comment hides no code and markup in
a literal begins no comment. Raw strings and quotes as characters are not generated. -/
namespace ServiceBindings.Generate
open Naming (IsSpelled)
open Text (quoted)

/-- Where in source text a character stands: in code, in a comment that its line ends, in one that
a mark ends, within so many others, or in a literal. -/
inductive Region where
  | code
  | line
  | block (outer : Nat)
  | literal

/-- The region behind the mark that ends a comment. -/
def Region.afterBlock : Nat → Region
  | 0 => .code
  | outer + 1 => .block outer

/-- Source text without its comments. There is none if a comment or a literal is left open, or if a
carriage return stands in a comment on items, which may not have any. -/
def uncommented? : Region → List Char → Option (List Char)
  | .code, '/' :: '/' :: rest => uncommented? .line rest
  | .code, '/' :: '*' :: rest => uncommented? (.block 0) rest
  | .code, c :: rest => (uncommented? (if c = '"' then .literal else .code) rest).map (c :: ·)
  | .line, c :: rest =>
    if c = '\n' then (uncommented? .code rest).map (c :: ·)
    else if c = '\r' then none
    else uncommented? .line rest
  | .block outer, '*' :: '/' :: rest => uncommented? (.afterBlock outer) rest
  | .block outer, '/' :: '*' :: rest => uncommented? (.block (outer + 1)) rest
  | .block outer, _ :: rest => uncommented? (.block outer) rest
  | .literal, '\\' :: c :: rest => (uncommented? .literal rest).map fun more => '\\' :: c :: more
  | .literal, c :: rest => (uncommented? (if c = '"' then .code else .literal) rest).map (c :: ·)
  | .code, [] => some []
  | .line, [] => some []
  | _, [] => none

example : uncommented? .code "/// \"a\nb /* /* \" */ // */ \"// /* \\\" c\" / d // e".toList =
    some "\nb  \"// /* \\\" c\" / d ".toList := by decide

def codeLines? (source : String) : Option (List (List Char)) :=
  (uncommented? .code source.toList).map (·.splitOn '\n')

/-- A character of code that neither ends a line nor begins a literal or a comment. -/
def isPlainChar (c : Char) : Bool :=
  c ≠ '\n' && c ≠ '"' && c ≠ '/'

/-- A text on one line without comments: in code it stays as it is. -/
structure IsCode (text : String) : Prop where
  unbroken : Unbroken text
  kept : ∀ rest, uncommented? .code (text.toList ++ rest) =
    (uncommented? .code rest).map (text.toList ++ ·)

/-- Only a slash can begin a comment. -/
theorem uncommented?_code_cons {c : Char} (h : c ≠ '/') (rest : List Char) :
    uncommented? .code (c :: rest) =
      (uncommented? (if c = '"' then .literal else .code) rest).map (c :: ·) := by
  rw [uncommented?]
  all_goals intros; simp_all

theorem uncommented?_literal {chars : List Char} (h : ∀ c ∈ chars, c ≠ '"' ∧ c ≠ '\\')
    (rest : List Char) :
    uncommented? .literal (chars ++ rest) = (uncommented? .literal rest).map (chars ++ ·) := by
  induction chars with
  | nil => simp
  | cons c more ih =>
    obtain ⟨hquote, hslash⟩ := h c List.mem_cons_self
    have hmore := ih fun d hd => h d (List.mem_cons_of_mem _ hd)
    rw [List.cons_append, uncommented?, if_neg hquote, hmore, Option.map_map]
    · rfl
    all_goals intros; simp_all

theorem uncommented?_quotedChar (c : Char) (rest : List Char) :
    uncommented? .literal (Text.quotedChar c ++ rest) =
      (uncommented? .literal rest).map (Text.quotedChar c ++ ·) := by
  unfold Text.quotedChar
  split_ifs with _ _ _ _ hquote hslash
  iterate 6 rfl
  · exact uncommented?_literal (by simp [hquote, hslash]) rest
  · have hpoint : ∀ d ∈ '\x7b' :: (Text.hexDigits c.toNat ++ ['\x7d']), d ≠ '"' ∧ d ≠ '\\' := by
      intro d hd
      simp only [List.mem_cons, List.mem_append, List.not_mem_nil, or_false] at hd
      rcases hd with rfl | hd | rfl
      · decide
      · exact hexDigits_plain _ d hd
      · decide
    have hread := uncommented?_literal hpoint rest
    simp only [List.cons_append, uncommented?] at hread ⊢
    rw [hread, Option.map_map]
    rfl

namespace IsCode
variable {a b : String}

theorem append (ha : IsCode a) (hb : IsCode b) : IsCode (a ++ b) where
  unbroken := ha.unbroken.append hb.unbroken
  kept rest := by
    rw [String.toList_append, List.append_assoc, ha.kept, hb.kept, Option.map_map]
    simp [Function.comp_def]

/-- Without quotes and slashes there are no literals and no comments. -/
theorem of_plain {text : String} (h : text.toList.all isPlainChar = true) : IsCode text where
  unbroken hmem := by simpa [isPlainChar] using List.all_eq_true.1 h _ hmem
  kept rest := by
    generalize text.toList = chars at h
    induction chars with
    | nil => simp
    | cons c more ih =>
      obtain ⟨hc, hplain⟩ := Bool.and_eq_true_iff.1 h
      have hmore := ih hplain
      have hquote : c ≠ '"' := by
        rintro rfl
        cases hc
      have hslash : c ≠ '/' := by
        rintro rfl
        cases hc
      rw [List.cons_append, uncommented?_code_cons hslash, if_neg hquote, hmore, Option.map_map]
      rfl

theorem of_forall {text : String} (h : ∀ c ∈ text.toList, c ≠ '\n' ∧ c ≠ '"' ∧ c ≠ '/') :
    IsCode text := by
  refine of_plain (List.all_eq_true.2 fun c hc => ?_)
  obtain ⟨hbreak, hquote, hslash⟩ := h c hc
  simp [isPlainChar, hbreak, hquote, hslash]

theorem of_isSpelled {name : String} (h : IsSpelled name) : IsCode name := by
  refine of_forall fun c hc => ?_
  have hname := h c hc
  refine ⟨?_, ?_, ?_⟩ <;> rintro rfl <;> exact absurd hname (by decide)

protected theorem quoted (s : String) : IsCode (quoted s) where
  unbroken := unbroken_quoted s
  kept rest := by
    have hinside (chars : List Char) :
        uncommented? .literal (chars.flatMap Text.quotedChar ++ '"' :: rest) =
          (uncommented? .code rest).map (chars.flatMap Text.quotedChar ++ '"' :: ·) := by
      induction chars with
      | nil => simp [uncommented?]
      | cons c more ih =>
        rw [List.flatMap_cons, List.append_assoc, uncommented?_quotedChar, ih, Option.map_map]
        simp [Function.comp_def]
    rw [quoted, String.toList_ofList, List.cons_append, List.append_assoc, List.singleton_append,
      uncommented?_code_cons (by decide), if_pos rfl, hinside, Option.map_map]
    simp [Function.comp_def]

theorem intercalate {separator : String} (hseparator : IsCode separator) {texts : List String}
    (h : ∀ text ∈ texts, IsCode text) : IsCode (separator.intercalate texts) := by
  induction texts with
  | nil => exact (of_plain (by decide) : IsCode "")
  | cons text rest ih =>
    have hrest := ih fun other hmem => h other (List.mem_cons_of_mem _ hmem)
    cases rest with
    | nil => exact h text List.mem_cons_self
    | cons next more =>
      rw [String.intercalate_cons_cons]
      exact ((h text List.mem_cons_self).append hseparator).append hrest

end IsCode

/-- This is all that is left of a line without its comments. -/
def Leaves (line : String) (code : List Char) : Prop :=
  '\n' ∉ code ∧ ∀ rest, uncommented? .code (line.toList ++ '\n' :: rest) =
    (uncommented? .code rest).map (code ++ '\n' :: ·)

theorem IsCode.leaves {line : String} (h : IsCode line) : Leaves line line.toList := by
  refine ⟨h.unbroken, fun rest => ?_⟩
  rw [h.kept, uncommented?_code_cons (by decide), if_neg (by decide), Option.map_map]
  rfl

theorem forall₂_leaves {lines : List String} (h : ∀ line ∈ lines, IsCode line) :
    List.Forall₂ Leaves lines (lines.map String.toList) :=
  List.forall₂_map_right_iff.2 (List.forall₂_same.2 fun line hmem => (h line hmem).leaves)

/-- A comment goes on to the end of the line, whatever stands in it. -/
theorem uncommented?_comment {comment : List Char} (hline : '\n' ∉ comment) (rest : List Char) :
    uncommented? .line (comment ++ '\n' :: rest) =
      if '\r' ∈ comment then none else (uncommented? .code rest).map ('\n' :: ·) := by
  induction comment with
  | nil => simp [uncommented?]
  | cons c more ih =>
    obtain ⟨hc, hmore⟩ := not_or.1 (mt List.mem_cons.2 hline)
    rw [List.cons_append, uncommented?, if_neg (Ne.symm hc), ih hmore]
    by_cases hreturn : c = '\r'
    · simp [hreturn]
    · simp [hreturn, Ne.symm hreturn]

/-- Without an asterisk there is no mark that ends a comment. -/
theorem uncommented?_openBlock {chars : List Char} (h : '*' ∉ chars) (outer : Nat) :
    uncommented? (.block outer) chars = none := by
  induction chars with
  | nil => rfl
  | cons c more ih =>
    obtain ⟨hc, hmore⟩ := not_or.1 (mt List.mem_cons.2 h)
    rw [uncommented?, ih hmore]
    all_goals intros; simp_all

theorem leaves_comment {indent comment : String} (hindent : IsCode indent)
    (hline : '\n' ∉ comment.toList) (hreturn : '\r' ∉ comment.toList) :
    Leaves (indent ++ "//" ++ comment) indent.toList := by
  refine ⟨hindent.unbroken, fun rest => ?_⟩
  have hmarks : (indent ++ "//" ++ comment).toList ++ '\n' :: rest =
      indent.toList ++ '/' :: '/' :: (comment.toList ++ '\n' :: rest) := by
    simp
  rw [hmarks, hindent.kept, uncommented?, uncommented?_comment hline, if_neg hreturn,
    Option.map_map]
  rfl

theorem toList_joinLines_cons (line : String) (lines : List String) :
    (joinLines (line :: lines)).toList = line.toList ++ '\n' :: (joinLines lines).toList := by
  simp [joinLines, String.join_cons]

theorem notMem_joinLines {c : Char} (hc : c ≠ '\n') {lines : List String}
    (h : ∀ line ∈ lines, c ∉ line.toList) : c ∉ (joinLines lines).toList := by
  induction lines with
  | nil => exact List.not_mem_nil
  | cons line rest ih =>
    obtain ⟨hline, hrest⟩ := List.forall_mem_cons.1 h
    rw [toList_joinLines_cons, List.mem_append, List.mem_cons]
    rintro (hmem | heq | hmem)
    · exact hline hmem
    · exact hc heq
    · exact ih hrest hmem

theorem codeLines?_joinLines {lines : List String} {codes : List (List Char)}
    (h : List.Forall₂ Leaves lines codes) :
    codeLines? (joinLines lines) = some (codes ++ [[]]) := by
  unfold codeLines?
  induction h with
  | nil => rfl
  | @cons line code lines codes hline _ ih =>
    obtain ⟨more, hmore, hcodes⟩ := Option.map_eq_some_iff.1 ih
    rw [toList_joinLines_cons, hline.2, hmore, Option.map_some, Option.map_some,
      List.splitOn_append_cons_self_of_not_mem hline.1, hcodes]
    rfl

end ServiceBindings.Generate
