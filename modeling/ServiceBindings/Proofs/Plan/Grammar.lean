import ServiceBindings.Proofs.Plan.Template

/-! The texts that are read as templates. Braces are only looked for where a label begins, inside
it, and behind the last one, so that a text with unbalanced braces may be read. -/
namespace ServiceBindings.Plan

def Segment.isLabel : Segment → Bool
  | .literal _ => false
  | .label _ _ _ => true

/-- A member that the path carries has this name, in messages or as its own. -/
def Layout.IsLabelName (layout : Layout) (name : String) : Prop :=
  ∃ member ∈ layout.members, member.1.location = .uri ∧
    (member.1.wireName = name ∨ member.1.name = name)

/-- A piece that is found in a text: the text up to an opening brace, or a label that names a member
up to its closing brace. A plus before that brace is no part of the name. -/
def Segment.IsReadable (layout : Layout) : Segment → Prop
  | .literal s => '{' ∉ s.toList
  | .label _ name greedy =>
    name ≠ "" ∧ '}' ∉ name.toList ∧ (greedy = false → name.toList.getLast? ≠ some '+') ∧
      layout.IsLabelName name

/-- A piece whose only braces are those around a label. -/
def Segment.IsBraceFree : Segment → Prop
  | .literal s => '{' ∉ s.toList ∧ '}' ∉ s.toList
  | .label _ name _ => '{' ∉ name.toList ∧ '}' ∉ name.toList

/-- A closing brace in text that stands for itself has a label somewhere behind it. -/
def ClosesInFront : List Segment → Prop
  | [] => True
  | .literal s :: rest =>
    ('}' ∈ s.toList → ∃ segment ∈ rest, segment.isLabel = true) ∧ ClosesInFront rest
  | .label _ _ _ :: rest => ClosesInFront rest

/-- Readable pieces that make up a text. -/
structure Reads (layout : Layout) (path : List Segment) (chars : List Char) : Prop where
  source : path.flatMap Segment.source = chars
  readable : ∀ segment ∈ path, segment.IsReadable layout

theorem closesInFront_of_isBraceFree {path : List Segment}
    (h : ∀ segment ∈ path, segment.IsBraceFree) : ClosesInFront path := by
  induction path with
  | nil => trivial
  | cons segment rest ih =>
    obtain ⟨hsegment, hrest⟩ := List.forall_mem_cons.1 h
    cases segment with
    | literal s => exact ⟨fun hmem => absurd hmem hsegment.2, ih hrest⟩
    | label member name greedy => exact ih hrest

theorem closesInFront_literalSegments_append {chars : List Char} {rest : List Segment}
    (hchars : '}' ∈ chars → ∃ segment ∈ rest, segment.isLabel = true) (hrest : ClosesInFront rest) :
    ClosesInFront (literalSegments chars ++ rest) := by
  unfold literalSegments
  split_ifs with hempty
  · exact hrest
  · exact ⟨by simpa using hchars, hrest⟩

theorem Segment.IsProper.isReadable {layout : Layout} {segment : Segment}
    (h : segment.IsProper layout) : segment.IsReadable layout := by
  cases segment with
  | literal s => exact h.2
  | label member name greedy =>
    obtain ⟨hname, hbrace, hplus, found, hfound, -⟩ := h
    obtain ⟨hmem, hlocation⟩ := Layout.of_labelMember? hfound
    exact ⟨hname, hbrace, hplus, found, hmem, hlocation, by simpa using List.find?_some hfound⟩

theorem MakeUp.reads {layout : Layout} {path : List Segment} {chars : List Char}
    (h : MakeUp layout path chars) : Reads layout path chars :=
  ⟨h.source, fun segment hmem => (h.proper segment hmem).isReadable⟩

namespace Layout
variable {layout : Layout} {template : String}

/-! ### What is read closes its braces in front of a label -/

theorem isLabel_of_labelSegment {chars : List Char} {segment : Segment}
    (h : layout.labelSegment template chars = .ok segment) : segment.isLabel = true := by
  unfold labelSegment at h
  dsimp only at h
  split_ifs at h
  split at h
  · obtain rfl := Except.ok.inj h
    rfl
  · cases h

mutual

theorem closesInFront_of_segments {before chars : List Char} {path : List Segment}
    (h : layout.segments template before chars = .ok path) : ClosesInFront path := by
  cases chars with
  | nil =>
    rw [segments] at h
    split_ifs at h with hbefore
    obtain rfl := Except.ok.inj h
    rw [← List.append_nil (literalSegments before)]
    exact closesInFront_literalSegments_append (fun hmem => absurd hmem (by simpa using hbefore))
      trivial
  | cons c rest =>
    rw [segments] at h
    split_ifs at h with hc
    · obtain ⟨others, hothers, rfl⟩ := map_eq_ok.1 h
      obtain ⟨hlabel, hcloses⟩ := closesInFront_of_labelSegments hothers
      exact closesInFront_literalSegments_append (fun _ => hlabel) hcloses
    · exact closesInFront_of_segments h

theorem closesInFront_of_labelSegments {name chars : List Char} {path : List Segment}
    (h : layout.labelSegments template name chars = .ok path) :
    (∃ segment ∈ path, segment.isLabel = true) ∧ ClosesInFront path := by
  cases chars with
  | nil => simp [labelSegments] at h
  | cons c rest =>
    rw [labelSegments] at h
    split_ifs at h with hc
    · obtain ⟨label, hlabel, h⟩ := bind_eq_ok.1 h
      obtain ⟨others, hothers, h⟩ := bind_eq_ok.1 h
      obtain rfl := Except.ok.inj h
      have his := isLabel_of_labelSegment hlabel
      have hlater := closesInFront_of_segments hothers
      refine ⟨⟨label, List.mem_cons_self, his⟩, ?_⟩
      cases label with
      | literal s => cases his
      | label member name greedy => exact hlater
    · exact closesInFront_of_labelSegments h

end

/-! ### Readable pieces are read -/

theorem segments_append {chars : List Char} (hchars : '{' ∉ chars) (before rest : List Char) :
    layout.segments template before (chars ++ rest) =
      layout.segments template (before ++ chars) rest := by
  induction chars generalizing before with
  | nil => rw [List.nil_append, List.append_nil]
  | cons c chars ih =>
    obtain ⟨hc, hchars⟩ := not_or.1 (mt List.mem_cons.2 hchars)
    rw [List.cons_append, segments, if_neg (Ne.symm hc), ih hchars, ← List.append_cons]

theorem labelSegments_append {chars : List Char} (hchars : '}' ∉ chars) (name rest : List Char) :
    layout.labelSegments template name (chars ++ rest) =
      layout.labelSegments template (name ++ chars) rest := by
  induction chars generalizing name with
  | nil => rw [List.nil_append, List.append_nil]
  | cons c chars ih =>
    obtain ⟨hc, hchars⟩ := not_or.1 (mt List.mem_cons.2 hchars)
    rw [List.cons_append, labelSegments, if_neg (Ne.symm hc), ih hchars, ← List.append_cons]

theorem labelName_append {name : List Char} {greedy : Bool}
    (h : greedy = false → name.getLast? ≠ some '+') :
    labelName (name ++ (if greedy then ['+'] else [])) = (name, greedy) := by
  unfold labelName
  cases greedy with
  | false => rw [if_neg Bool.false_ne_true, List.append_nil, if_neg (h rfl)]
  | true => rw [if_pos rfl, if_pos List.getLast?_concat, List.dropLast_concat]

theorem exists_labelMember? {name : String} (h : layout.IsLabelName name) :
    ∃ found, layout.labelMember? name = some found := by
  obtain ⟨member, hmem, hlocation, hname⟩ := h
  refine Option.isSome_iff_exists.1 (List.find?_isSome.2 ⟨member, ?_, by simpa using hname⟩)
  exact List.mem_filter.2 ⟨hmem, by simpa using hlocation⟩

variable (template) in
theorem exists_labelSegment {member name : String} {greedy : Bool}
    (h : (Segment.label member name greedy).IsReadable layout) :
    ∃ segment,
      layout.labelSegment template (name.toList ++ (if greedy then ['+'] else [])) =
        .ok segment := by
  obtain ⟨hne, -, hplus, hname⟩ := h
  obtain ⟨found, hfound⟩ := exists_labelMember? hname
  unfold labelSegment
  rw [labelName_append hplus]
  dsimp only
  rw [String.ofList_toList, if_neg hne, hfound]
  exact ⟨_, rfl⟩

variable (template) in
/-- The text that was passed may hold a closing brace as long as a label is still to come. -/
theorem exists_segments {path : List Segment}
    (hreadable : ∀ segment ∈ path, segment.IsReadable layout) (hcloses : ClosesInFront path)
    {before : List Char} (hbefore : '}' ∈ before → ∃ segment ∈ path, segment.isLabel = true) :
    ∃ pieces, layout.segments template before (path.flatMap Segment.source) = .ok pieces := by
  induction path generalizing before with
  | nil =>
    rw [List.flatMap_nil, segments, if_neg]
    · exact ⟨_, rfl⟩
    · intro hmem
      obtain ⟨segment, hsegment, -⟩ := hbefore (by simpa using hmem)
      exact absurd hsegment List.not_mem_nil
  | cons segment rest ih =>
    obtain ⟨hsegment, hrest⟩ := List.forall_mem_cons.1 hreadable
    cases segment with
    | literal s =>
      rw [List.flatMap_cons, Segment.source, segments_append hsegment]
      refine ih hrest hcloses.2 fun hmem => ?_
      rcases List.mem_append.1 hmem with hmem | hmem
      · obtain ⟨label, hlabel, his⟩ := hbefore hmem
        rcases List.mem_cons.1 hlabel with rfl | hlabel
        · cases his
        · exact ⟨label, hlabel, his⟩
      · exact hcloses.1 hmem
    | label member name greedy =>
      obtain ⟨label, hlabel⟩ := exists_labelSegment template hsegment
      obtain ⟨pieces, hpieces⟩ :=
        ih hrest hcloses fun hmem => absurd hmem List.not_mem_nil
      have hname : '}' ∉ name.toList ++ (if greedy then ['+'] else []) := by
        rw [List.mem_append, not_or]
        exact ⟨hsegment.2.1, by split_ifs <;> decide⟩
      refine ⟨literalSegments before ++ (label :: pieces), ?_⟩
      rw [List.flatMap_cons, Segment.source, List.cons_append, segments, if_pos rfl,
        ← List.append_assoc, List.append_assoc _ ['}'], labelSegments_append hname,
        List.nil_append, List.singleton_append, labelSegments, if_pos rfl, hlabel]
      simp only [bind, Except.bind, hpieces, pure, Except.pure, Except.map]

/-- A text is read as a template exactly if, up to its first question mark, it is made of readable
pieces, and no closing brace stands behind the last label but its own. It is read if its only braces
are those around its labels. The pieces of a template make up that text, and what is always sent is
what follows the question mark. -/
theorem template_read_iff (layout : Layout) (text : String) :
    ((∃ template, layout.template text = .ok template) ↔
        ∃ path, Reads layout path (text.toList.takeWhile (· ≠ '?')) ∧ ClosesInFront path) ∧
      ((∃ path, Reads layout path (text.toList.takeWhile (· ≠ '?')) ∧
          ∀ segment ∈ path, segment.IsBraceFree) →
        ∃ template, layout.template text = .ok template) ∧
      ∀ template, layout.template text = .ok template →
        MakeUp layout template.path (text.toList.takeWhile (· ≠ '?')) ∧
          text.toList.dropWhile (· ≠ '?') = template.suffix := by
  have hread : ∀ path, Reads layout path (text.toList.takeWhile (· ≠ '?')) → ClosesInFront path →
      ∃ template, layout.template text = .ok template := by
    rintro path ⟨hsource, hreadable⟩ hcloses
    obtain ⟨pieces, hpieces⟩ := exists_segments text hreadable hcloses
      fun hmem => absurd hmem List.not_mem_nil
    rw [hsource] at hpieces
    exact ⟨_, bind_eq_ok.2 ⟨pieces, hpieces, rfl⟩⟩
  refine ⟨⟨?_, fun ⟨path, hreads, hcloses⟩ => hread path hreads hcloses⟩, ?_,
    fun _ => makeUp_of_template⟩
  · rintro ⟨template, htemplate⟩
    obtain ⟨path, hpath, h⟩ := bind_eq_ok.1 htemplate
    obtain rfl := Except.ok.inj h
    exact ⟨path, (makeUp_of_template htemplate).1.reads, closesInFront_of_segments hpath⟩
  · rintro ⟨path, hreads, hfree⟩
    exact hread path hreads (closesInFront_of_isBraceFree hfree)

end Layout

/-- Text whose only braces are those around labels has as many of one kind as of the other. -/
theorem count_source_of_isBraceFree {path : List Segment}
    (h : ∀ segment ∈ path, segment.IsBraceFree) :
    (path.flatMap Segment.source).count '{' = (path.flatMap Segment.source).count '}' := by
  have hsegment : ∀ segment ∈ path, segment.source.count '{' = segment.source.count '}' := by
    intro segment hmem
    have hfree := h segment hmem
    cases segment with
    | literal s =>
      rw [Segment.source, List.count_eq_zero.2 hfree.1, List.count_eq_zero.2 hfree.2]
    | label member name greedy =>
      have hopening : name.toList.count '{' = 0 := List.count_eq_zero.2 hfree.1
      have hclosing : name.toList.count '}' = 0 := List.count_eq_zero.2 hfree.2
      cases greedy <;> simp [Segment.source, hopening, hclosing]
  rw [List.count_flatMap, List.count_flatMap]
  exact congrArg List.sum (List.map_congr_left hsegment)

/-- An input with a member whose name in messages holds a brace. -/
def bracedInput : Layout where
  heading := ⟨"In", ⟨.input, "In"⟩, none, none⟩
  members := [
    (⟨"Id", "id", "Id", false, .uri, false, none⟩, .scalar .string none false),
    (⟨"Key", "key", "a\x7bb", false, .uri, false, none⟩, .scalar .string none false)]

theorem template_read_of_bracedInput :
    bracedInput.template "/\x7bId+\x7d?x" =
        .ok ⟨[.literal "/", .label "Id" "Id" true], some "x"⟩ ∧
      "/\x7bId+\x7d?x".toList.dropWhile (· ≠ '?') = ['?', 'x'] := by
  have htemplate : bracedInput.template "/\x7bId+\x7d?x" =
      .ok ⟨[.literal "/", .label "Id" "Id" true], some "x"⟩ := rfl
  exact ⟨htemplate, ((Layout.template_read_iff bracedInput _).2.2 _ htemplate).2⟩

/-- A closing brace in front of a label is read as text, and an opening brace inside a label as a
part of its name. -/
theorem unbalanced_braces_read :
    (bracedInput.template "/a\x7d/\x7bId\x7d" =
        .ok ⟨[.literal "/a\x7d/", .label "Id" "Id" false], none⟩ ∧
      ¬∃ path, Reads bracedInput path ("/a\x7d/\x7bId\x7d".toList.takeWhile (· ≠ '?')) ∧
        ∀ segment ∈ path, segment.IsBraceFree) ∧
    bracedInput.template "/\x7ba\x7bb\x7d" =
        .ok ⟨[.literal "/", .label "Key" "a\x7bb" false], none⟩ ∧
      ¬∃ path, Reads bracedInput path ("/\x7ba\x7bb\x7d".toList.takeWhile (· ≠ '?')) ∧
        ∀ segment ∈ path, segment.IsBraceFree := by
  have hbalanced : ∀ {chars : List Char}, chars.count '{' ≠ chars.count '}' →
      ¬∃ path, Reads bracedInput path chars ∧ ∀ segment ∈ path, segment.IsBraceFree := by
    rintro chars hcount ⟨path, hreads, hfree⟩
    exact hcount (hreads.source ▸ count_source_of_isBraceFree hfree)
  exact ⟨⟨rfl, hbalanced (by decide)⟩, rfl, hbalanced (by decide)⟩

end ServiceBindings.Plan
