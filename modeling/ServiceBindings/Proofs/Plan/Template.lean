import Mathlib.Tactic.Common
import ServiceBindings.Plan.Call
import ServiceBindings.Proofs.Steps

/-! Templates as they were written: their pieces make up the text, and their labels name members
that the path carries. -/
namespace ServiceBindings.Plan

/-- A piece as it stands in the text of a template. -/
def Segment.source : Segment → List Char
  | .literal s => s.toList
  | .label _ name greedy => '{' :: (name.toList ++ ((if greedy then ['+'] else []) ++ ['}']))

/-- The question mark and what is always sent behind it, as it stands in the text of a template. -/
def Template.suffix (template : Template) : List Char :=
  match template.fixedQuery with
  | some fixed => '?' :: fixed.toList
  | none => []

/-- A piece that can be told from the pieces around it, and whose label names a member of the path
by its name in messages or its own. -/
def Segment.IsProper (layout : Layout) : Segment → Prop
  | .literal s => s ≠ "" ∧ '{' ∉ s.toList
  | .label member name greedy =>
    name ≠ "" ∧ '}' ∉ name.toList ∧ (greedy = false → name.toList.getLast? ≠ some '+') ∧
      ∃ found, layout.labelMember? name = some found ∧ found.1.name = member

/-- Proper pieces that make up a text. -/
structure MakeUp (layout : Layout) (path : List Segment) (chars : List Char) : Prop where
  source : path.flatMap Segment.source = chars
  proper : ∀ segment ∈ path, segment.IsProper layout

/-- A label names a member that the path carries. -/
def Segment.FitsLabel (layout : Layout) : Segment → Prop
  | .literal _ => True
  | .label name _ _ => ∃ member ∈ layout.members, member.1.location = .uri ∧ member.1.name = name

namespace Layout
variable {layout : Layout} {template : String}

theorem of_labelMember? {name : String} {member : Binding × Target}
    (h : layout.labelMember? name = some member) :
    member ∈ layout.members ∧ member.1.location = .uri := by
  obtain ⟨hmem, hlocation⟩ := List.mem_filter.1 (List.mem_of_find?_eq_some h)
  exact ⟨hmem, by simpa using hlocation⟩

theorem source_literalSegments (chars : List Char) :
    (literalSegments chars).flatMap Segment.source = chars := by
  unfold literalSegments
  split_ifs with hchars
  · rw [hchars, List.flatMap_nil]
  · rw [List.flatMap_singleton, Segment.source, String.toList_ofList]

theorem isProper_of_mem_literalSegments {chars : List Char} (hchars : '{' ∉ chars)
    {segment : Segment} (h : segment ∈ literalSegments chars) : segment.IsProper layout := by
  unfold literalSegments at h
  split_ifs at h with hne
  · simp at h
  · obtain rfl := List.mem_singleton.1 h
    exact ⟨by simpa using hne, by simpa using hchars⟩

theorem of_labelSegment {chars : List Char} {segment : Segment}
    (h : layout.labelSegment template chars = .ok segment) :
    segment.source = '{' :: (chars ++ ['}']) ∧ ('}' ∉ chars → segment.IsProper layout) := by
  unfold labelSegment labelName at h
  by_cases hlast : chars.getLast? = some '+'
  · rw [if_pos hlast] at h
    dsimp only at h
    have hchars : chars.dropLast ++ ['+'] = chars := List.dropLast_append_getLast? _ hlast
    split_ifs at h with hname
    split at h
    · next member hmember =>
      obtain rfl := Except.ok.inj h
      constructor
      · rw [Segment.source, String.toList_ofList, if_pos rfl, ← List.append_assoc, hchars]
      · intro hbrace
        refine ⟨hname, ?_, by simp, member, hmember, rfl⟩
        rw [String.toList_ofList]
        exact fun hmem => hbrace (List.dropLast_subset _ hmem)
    · simp at h
  · rw [if_neg hlast] at h
    dsimp only at h
    split_ifs at h with hname
    split at h
    · next member hmember =>
      obtain rfl := Except.ok.inj h
      constructor
      · rw [Segment.source, String.toList_ofList, if_neg (by decide), List.nil_append]
      · intro hbrace
        exact ⟨hname, by simpa using hbrace, by simpa using hlast, member, hmember, rfl⟩
    · simp at h

mutual

theorem makeUp_of_segments {before chars : List Char} {path : List Segment}
    (h : layout.segments template before chars = .ok path) (hbefore : '{' ∉ before) :
    MakeUp layout path (before ++ chars) := by
  cases chars with
  | nil =>
    rw [segments] at h
    split_ifs at h
    obtain rfl := Except.ok.inj h
    rw [List.append_nil]
    exact ⟨source_literalSegments before, fun _ => isProper_of_mem_literalSegments hbefore⟩
  | cons c rest =>
    rw [segments] at h
    split_ifs at h with hc
    · obtain ⟨others, hothers, rfl⟩ := map_eq_ok.1 h
      have hlater := makeUp_of_labelSegments hothers List.not_mem_nil
      refine ⟨?_, fun segment hmem => ?_⟩
      · rw [List.flatMap_append, source_literalSegments, hlater.source, List.nil_append, hc]
      · rcases List.mem_append.1 hmem with hmem | hmem
        · exact isProper_of_mem_literalSegments hbefore hmem
        · exact hlater.proper segment hmem
    · rw [List.append_cons]
      exact makeUp_of_segments h (by simp [hbefore, Ne.symm hc])

theorem makeUp_of_labelSegments {name chars : List Char} {path : List Segment}
    (h : layout.labelSegments template name chars = .ok path) (hname : '}' ∉ name) :
    MakeUp layout path ('{' :: (name ++ chars)) := by
  cases chars with
  | nil => simp [labelSegments] at h
  | cons c rest =>
    rw [labelSegments] at h
    split_ifs at h with hc
    · obtain ⟨label, hlabel, h⟩ := bind_eq_ok.1 h
      obtain ⟨others, hothers, h⟩ := bind_eq_ok.1 h
      obtain rfl := Except.ok.inj h
      obtain ⟨hsource, hproper⟩ := of_labelSegment hlabel
      have hlater := makeUp_of_segments hothers List.not_mem_nil
      refine ⟨?_, List.forall_mem_cons.2 ⟨hproper hname, hlater.proper⟩⟩
      rw [List.flatMap_cons, hsource, hlater.source, hc]
      simp
    · rw [List.append_cons]
      exact makeUp_of_labelSegments h (by simp [hname, Ne.symm hc])

end

end Layout

/-- A template is the text that was read. -/
theorem makeUp_of_template {layout : Layout} {text : String} {template : Template}
    (h : layout.template text = .ok template) :
    MakeUp layout template.path (text.toList.takeWhile (· ≠ '?')) ∧
      text.toList.dropWhile (· ≠ '?') = template.suffix := by
  unfold Layout.template at h
  obtain ⟨path, hpath, h⟩ := bind_eq_ok.1 h
  obtain rfl := Except.ok.inj h
  refine ⟨Layout.makeUp_of_segments hpath List.not_mem_nil, ?_⟩
  cases hdrop : text.toList.dropWhile (· ≠ '?') with
  | nil => rfl
  | cons c query =>
    have hc := List.head?_dropWhile_not (· ≠ '?') text.toList
    rw [hdrop] at hc
    obtain rfl : c = '?' := by simpa using hc
    exact congrArg (List.cons '?') String.toList_ofList.symm

theorem makeUp_of_templateOf {operation : Operation} {layout : Layout} {template : Template}
    (h : templateOf operation layout = .ok template) :
    MakeUp layout template.path (operation.requestUri.toList.takeWhile (· ≠ '?')) ∧
      operation.requestUri.toList.dropWhile (· ≠ '?') = template.suffix := by
  unfold templateOf at h
  split_ifs at h
  exact makeUp_of_template h

/-- All labels of an operation's template name members that the path carries. -/
theorem fitsLabel_of_templateOf {operation : Operation} {layout : Layout} {template : Template}
    (h : templateOf operation layout = .ok template) {segment : Segment}
    (hmem : segment ∈ template.path) : segment.FitsLabel layout := by
  have hproper := (makeUp_of_templateOf h).1.proper segment hmem
  cases segment with
  | literal s => trivial
  | label member name greedy =>
    obtain ⟨-, -, -, found, hfound, rfl⟩ := hproper
    obtain ⟨hmem, hlocation⟩ := Layout.of_labelMember? hfound
    exact ⟨found, hmem, hlocation, rfl⟩

end ServiceBindings.Plan
