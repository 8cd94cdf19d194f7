import Mathlib.Data.List.TakeWhile
import ServiceBindings.Proofs.Xml.Written

/-! Behind the declarations of a document, the scanner takes no character that a document may not
hold. -/
namespace ServiceBindings.Xml
open Token (Place Step need? passing placeWithin runOf? scanFrom skipSpace step? upTo?)

/-- What is left of a text lies behind characters that a document may hold. -/
def Takes (chars rest : List Char) : Prop :=
  ∃ taken, chars = taken ++ rest ∧ ∀ c ∈ taken, isChar c = true

namespace Takes
variable {chars rest others : List Char}

theorem refl (chars : List Char) : Takes chars chars :=
  ⟨[], rfl, by simp⟩

theorem trans (h : Takes chars rest) (h' : Takes rest others) : Takes chars others := by
  obtain ⟨taken, rfl, htaken⟩ := h
  obtain ⟨more, rfl, hmore⟩ := h'
  refine ⟨taken ++ more, by rw [List.append_assoc], fun c hc => ?_⟩
  exact (List.mem_append.1 hc).elim (htaken c) (hmore c)

theorem cons {c : Char} (hc : isChar c = true) (h : Takes chars rest) :
    Takes (c :: chars) rest := by
  obtain ⟨taken, rfl, htaken⟩ := h
  exact ⟨c :: taken, rfl, List.forall_mem_cons.2 ⟨hc, htaken⟩⟩

theorem isChar (h : Takes chars rest) (hrest : ∀ c ∈ rest, Xml.isChar c = true) :
    ∀ c ∈ chars, Xml.isChar c = true := by
  obtain ⟨taken, rfl, htaken⟩ := h
  exact fun c hc => (List.mem_append.1 hc).elim (htaken c) (hrest c)

end Takes

theorem isChar_of_isSpace {c : Char} (h : isSpace c = true) : isChar c = true := by
  simp only [isSpace, Bool.or_eq_true, decide_eq_true_eq] at h
  rcases h with ((rfl | rfl) | rfl) | rfl <;> decide

theorem isChar_of_isNameChar {c : Char} (h : isNameChar c = true) : isChar c = true := by
  have hranges : ∀ range ∈ nameStartRanges ++ nameTailRanges,
      0x20 ≤ range.1 ∧ (range.2 < 0xFFFE ∨ 0xFFFF < range.1) := by decide
  have hany : inRanges (nameStartRanges ++ nameTailRanges) c = true := by
    rw [inRanges, List.any_append]
    exact h
  obtain ⟨range, hrange, hin⟩ := List.any_eq_true.1 hany
  rw [Bool.and_eq_true, decide_eq_true_eq, decide_eq_true_eq] at hin
  have hplace := hranges range hrange
  have hne : c.toNat ≠ 0xFFFE ∧ c.toNat ≠ 0xFFFF := by omega
  rw [isChar, if_neg (by omega)]
  simpa using hne

theorem isChar_of_isNameStart {c : Char} (h : isNameStart c = true) : isChar c = true :=
  isChar_of_isNameChar (by rw [isNameChar, h, Bool.true_or])

theorem takes_dropWhile {passes : Char → Bool} (h : ∀ c, passes c = true → isChar c = true)
    (chars : List Char) : Takes chars (chars.dropWhile passes) :=
  ⟨chars.takeWhile passes, List.takeWhile_append_dropWhile.symm,
    fun c hc => h c (List.mem_takeWhile_imp hc)⟩

theorem takes_skipSpace (chars : List Char) : Takes chars (skipSpace chars) :=
  takes_dropWhile (fun _ => isChar_of_isSpace) chars

section
variable {chars rest found : List Char}

theorem takes_of_need? {expected : String} (hexpected : IsText expected)
    (h : need? expected chars = some rest) : Takes chars rest := by
  unfold need? at h
  unfold IsText at hexpected
  generalize expected.toList = expected at hexpected h
  induction expected generalizing chars with
  | nil =>
    obtain rfl := Option.some.inj h
    exact .refl _
  | cons e more ih =>
    cases chars with
    | nil => cases h
    | cons c others =>
      rw [Text.expect?] at h
      split_ifs at h with heq
      subst heq
      exact .cons (hexpected e List.mem_cons_self)
        (ih (fun c hc => hexpected c (List.mem_cons_of_mem _ hc)) h)

theorem takes_of_upTo? {close : String} (hclose : IsText close)
    (h : upTo? close chars = some (found, rest)) : Takes chars rest := by
  induction chars generalizing found with
  | nil =>
    obtain ⟨left, hleft, heq⟩ := Option.map_eq_some_iff.1 h
    obtain rfl : left = rest := (Prod.mk.inj heq).2
    exact takes_of_need? hclose hleft
  | cons c others ih =>
    rw [upTo?] at h
    split at h
    · next left hleft =>
      obtain rfl : left = rest := (Prod.mk.inj (Option.some.inj h)).2
      exact takes_of_need? hclose hleft
    · split_ifs at h with hc
      obtain ⟨⟨inner, left⟩, hleft, heq⟩ := Option.map_eq_some_iff.1 h
      obtain rfl : left = rest := (Prod.mk.inj heq).2
      exact .cons hc (ih hleft)

theorem takes_of_runOf? {passes : Char → Bool} (h : runOf? passes chars = some (found, rest)) :
    Takes chars rest := by
  induction chars generalizing found with
  | nil =>
    obtain rfl : [] = rest := (Prod.mk.inj (Option.some.inj h)).2
    exact .refl _
  | cons c others ih =>
    rw [runOf?] at h
    split_ifs at h with hc hpasses
    · obtain ⟨⟨inner, left⟩, hleft, heq⟩ := Option.map_eq_some_iff.1 h
      obtain rfl : left = rest := (Prod.mk.inj heq).2
      exact .cons hc (ih hleft)
    · obtain rfl : c :: others = rest := (Prod.mk.inj (Option.some.inj h)).2
      exact .refl _

theorem takes_of_read? {name : Name} (h : Name.read? chars = some (name, rest)) :
    Takes chars rest := by
  unfold Name.read? at h
  dsimp only at h
  split_ifs at h
  obtain rfl : chars.dropWhile isNameChar = rest := (Prod.mk.inj (Option.some.inj h)).2
  exact takes_dropWhile (fun _ => isChar_of_isNameChar) chars

theorem takes_of_anyName? (h : Token.anyName? chars = some (found, rest)) : Takes chars rest := by
  cases chars with
  | nil => cases h
  | cons c others =>
    rw [Token.anyName?] at h
    split_ifs at h with hc
    obtain rfl : others.dropWhile isNameChar = rest := (Prod.mk.inj (Option.some.inj h)).2
    exact .cons (isChar_of_isNameStart hc) (takes_dropWhile (fun _ => isChar_of_isNameChar) others)

theorem takes_of_quote? {q : Char} (h : Token.quote? chars = some (q, rest)) :
    isChar q = true ∧ Takes chars rest := by
  unfold Token.quote? at h
  split at h
  · obtain ⟨rfl, rfl⟩ := Prod.mk.inj (Option.some.inj h)
    exact ⟨by decide, .cons (by decide) (.refl _)⟩
  · obtain ⟨rfl, rfl⟩ := Prod.mk.inj (Option.some.inj h)
    exact ⟨by decide, .cons (by decide) (.refl _)⟩
  · cases h

theorem takes_of_equals? (h : Token.equals? chars = some rest) : Takes chars rest := by
  obtain ⟨left, hleft, rfl⟩ := Option.map_eq_some_iff.1 h
  exact (takes_skipSpace chars).trans ((takes_of_need? (by decide) hleft).trans
    (takes_skipSpace left))

theorem takes_of_comment? (h : Token.comment? chars = some rest) : Takes chars rest := by
  obtain ⟨inside, hopen, h⟩ := Option.bind_eq_some_iff.1 h
  obtain ⟨⟨body, left⟩, hclose, h⟩ := Option.bind_eq_some_iff.1 h
  dsimp only at h
  split_ifs at h
  obtain rfl := Option.some.inj h
  exact (takes_of_need? (by decide) hopen).trans (takes_of_upTo? (by decide) hclose)

theorem takes_of_instruction? (h : Token.instruction? chars = some rest) : Takes chars rest := by
  unfold Token.instruction? at h
  split_ifs at h
  obtain ⟨inside, hopen, h⟩ := Option.bind_eq_some_iff.1 h
  obtain ⟨⟨name, behind⟩, hname, h⟩ := Option.bind_eq_some_iff.1 h
  obtain ⟨⟨body, left⟩, hclose, h⟩ := Option.bind_eq_some_iff.1 h
  obtain rfl := Option.some.inj h
  exact (takes_of_need? (by decide) hopen).trans ((takes_of_anyName? hname).trans
    ((takes_skipSpace behind).trans (takes_of_upTo? (by decide) hclose)))

end

/-- A place behind the declarations of a document. -/
def Within : Place → Prop
  | .declaration | .prolog | .doctype => False
  | .beforeRoot | .content _ | .tag _ | .afterRoot => True

theorem within_placeWithin (depth : Nat) : Within (placeWithin depth) := by
  unfold placeWithin
  split_ifs <;> trivial

/-- Any step there may be takes characters that a document may hold, and stays behind the
declarations. -/
def StepTakes (chars : List Char) (step? : Option Step) : Prop :=
  ∀ step, step? = some step → Within step.place ∧ Takes chars step.rest

section
variable {place : Place} {chars : List Char}

theorem stepTakes_none : StepTakes chars none := fun _ h => by cases h

theorem stepTakes_some {step : Step} (hplace : Within step.place) (h : Takes chars step.rest) :
    StepTakes chars (some step) := by
  rintro step ⟨⟩
  exact ⟨hplace, h⟩

theorem stepTakes_passing (hplace : Within place) {rest? : Option (List Char)}
    (h : ∀ rest, rest? = some rest → Takes chars rest) : StepTakes chars (passing place rest?) := by
  rintro step hstep
  obtain ⟨rest, hrest, rfl⟩ := Option.map_eq_some_iff.1 hstep
  exact ⟨hplace, h rest hrest⟩

theorem stepTakes_misc? (hplace : Within place) {other : Option Step} (h : StepTakes chars other) :
    StepTakes chars ((Token.misc? place chars).getD other) := by
  unfold Token.misc?
  split_ifs
  · exact stepTakes_passing hplace fun _ => takes_of_comment?
  · exact stepTakes_passing hplace fun _ => takes_of_instruction?
  · exact stepTakes_some hplace (takes_skipSpace chars)
  · exact h

theorem stepTakes_elementStart? (depth : Nat) :
    StepTakes chars (Token.elementStart? depth chars) := by
  intro step h
  obtain ⟨inside, hopen, h⟩ := Option.bind_eq_some_iff.1 h
  obtain ⟨⟨name, rest⟩, hname, h⟩ := Option.bind_eq_some_iff.1 h
  obtain rfl := Option.some.inj h
  exact ⟨trivial, (takes_of_need? (by decide) hopen).trans (takes_of_read? hname)⟩

theorem stepTakes_elementEnd? (depth : Nat) : StepTakes chars (Token.elementEnd? depth chars) := by
  intro step h
  obtain ⟨inside, hopen, h⟩ := Option.bind_eq_some_iff.1 h
  obtain ⟨⟨name, behind⟩, hname, h⟩ := Option.bind_eq_some_iff.1 h
  obtain ⟨rest, hclose, h⟩ := Option.bind_eq_some_iff.1 h
  obtain rfl := Option.some.inj h
  exact ⟨within_placeWithin _, (takes_of_need? (by decide) hopen).trans
    ((takes_of_read? hname).trans
      ((takes_skipSpace behind).trans (takes_of_need? (by decide) hclose)))⟩

theorem stepTakes_text? (depth : Nat) : StepTakes chars (Token.text? depth chars) := by
  intro step h
  obtain ⟨⟨run, rest⟩, hrun, h⟩ := Option.bind_eq_some_iff.1 h
  dsimp only at h
  split_ifs at h
  obtain rfl := Option.some.inj h
  exact ⟨trivial, takes_of_runOf? hrun⟩

theorem stepTakes_cdata? (depth : Nat) : StepTakes chars (Token.cdata? depth chars) := by
  intro step h
  obtain ⟨inside, hopen, h⟩ := Option.bind_eq_some_iff.1 h
  obtain ⟨⟨run, rest⟩, hclose, h⟩ := Option.bind_eq_some_iff.1 h
  obtain rfl := Option.some.inj h
  exact ⟨trivial, (takes_of_need? (by decide) hopen).trans (takes_of_upTo? (by decide) hclose)⟩

theorem stepTakes_contentStep? (depth : Nat) :
    StepTakes chars (Token.contentStep? depth chars) := by
  unfold Token.contentStep?
  split
  · split_ifs
    · exact stepTakes_passing (by trivial) fun _ => takes_of_comment?
    · exact stepTakes_cdata? depth
  · exact stepTakes_passing (by trivial) fun _ => takes_of_instruction?
  · exact stepTakes_elementEnd? depth
  · exact stepTakes_elementStart? depth
  · exact stepTakes_text? depth

theorem stepTakes_attribute? (depth : Nat) : StepTakes chars (Token.attribute? depth chars) := by
  intro step h
  obtain ⟨⟨name, behind⟩, hname, h⟩ := Option.bind_eq_some_iff.1 h
  obtain ⟨quoted, hequals, h⟩ := Option.bind_eq_some_iff.1 h
  obtain ⟨⟨q, inside⟩, hquote, h⟩ := Option.bind_eq_some_iff.1 h
  obtain ⟨⟨value, last⟩, hvalue, h⟩ := Option.bind_eq_some_iff.1 h
  obtain ⟨rest, hclose, h⟩ := Option.bind_eq_some_iff.1 h
  obtain rfl := Option.some.inj h
  obtain ⟨hq, hopen⟩ := takes_of_quote? hquote
  have hmark : IsText (String.singleton q) := by simpa [IsText] using hq
  exact ⟨trivial, (takes_of_read? hname).trans ((takes_of_equals? hequals).trans
    (hopen.trans ((takes_of_runOf? hvalue).trans (takes_of_need? hmark hclose))))⟩

theorem StepTakes.of_takes {others : List Char} {step? : Option Step} (h : Takes chars others)
    (h' : StepTakes others step?) : StepTakes chars step? := fun step hstep =>
  ⟨(h' step hstep).1, h.trans (h' step hstep).2⟩

theorem stepTakes_tagStep? (depth : Nat) : StepTakes chars (Token.tagStep? depth chars) := by
  refine .of_takes (takes_skipSpace chars) ?_
  unfold Token.tagStep?
  split
  · next rest hrest =>
    rw [hrest]
    intro step h
    obtain ⟨behind, hclose, rfl⟩ := Option.map_eq_some_iff.1 h
    exact ⟨within_placeWithin _, .cons (by decide) (takes_of_need? (by decide) hclose)⟩
  · next rest hrest =>
    rw [hrest]
    exact stepTakes_some trivial (.cons (by decide) (.refl _))
  · split_ifs
    · exact stepTakes_attribute? depth
    · exact stepTakes_none

theorem stepTakes_step? (hplace : Within place) : StepTakes chars (step? place chars) := by
  cases place with
  | declaration | prolog | doctype => exact hplace.elim
  | beforeRoot => exact stepTakes_misc? (by trivial) (stepTakes_elementStart? 0)
  | content depth => exact stepTakes_contentStep? depth
  | tag depth => exact stepTakes_tagStep? depth
  | afterRoot => exact stepTakes_misc? (by trivial) stepTakes_none

/-- What is scanned to its end behind the declarations is made up of characters that a document may
hold. -/
theorem isChar_of_scanFrom {fuel : Nat} (hplace : Within place)
    (h : (scanFrom fuel place chars).2 = true) : ∀ c ∈ chars, isChar c = true := by
  induction fuel generalizing place chars with
  | zero =>
    cases chars with
    | nil => simp
    | cons => cases h
  | succ fuel ih =>
    cases chars with
    | nil => simp
    | cons c rest =>
      rw [scanFrom] at h
      split at h
      · cases h
      · next step hstep =>
        obtain ⟨hnext, htakes⟩ := stepTakes_step? hplace step hstep
        exact htakes.isChar (ih hnext h)

end

mutual

def Node.texts : Node → List String
  | .element _ attributes children => attributes.map Prod.snd ++ textsOf children
  | .text s => [s]

def textsOf : List Node → List String
  | [] => []
  | node :: rest => node.texts ++ textsOf rest

end

mutual

def Node.names : Node → List String
  | .element name attributes children => name :: (attributes.map Prod.fst ++ namesOf children)
  | .text _ => []

def namesOf : List Node → List String
  | [] => []
  | node :: rest => node.names ++ namesOf rest

end

theorem textsOf_append (nodes others : List Node) :
    textsOf (nodes ++ others) = textsOf nodes ++ textsOf others := by
  induction nodes with
  | nil => rfl
  | cons node rest ih => rw [List.cons_append, textsOf, textsOf, ih, List.append_assoc]

theorem namesOf_append (nodes others : List Node) :
    namesOf (nodes ++ others) = namesOf nodes ++ namesOf others := by
  induction nodes with
  | nil => rfl
  | cons node rest ih => rw [List.cons_append, namesOf, namesOf, ih, List.append_assoc]

/-- Nodes are plain if all their names are names and all their texts are texts. -/
theorem arePlain_iff_names_texts (nodes : List Node) : ArePlain nodes ↔
    (∀ name ∈ namesOf nodes, IsName name) ∧ ∀ s ∈ textsOf nodes, IsText s := by
  induction nodes using content_induction with
  | nil => simp [ArePlain, namesOf, textsOf]
  | text s others ih =>
    rw [ArePlain, Node.IsPlain, ih, namesOf, textsOf, Node.names, Node.texts]
    simp only [List.nil_append, List.singleton_append, List.forall_mem_cons]
    tauto
  | element name attributes children others ihchildren ih =>
    rw [ArePlain, Node.IsPlain, ihchildren, ih, namesOf, textsOf, Node.names, Node.texts]
    simp only [List.forall_mem_append, List.forall_mem_cons, List.forall_mem_map, forall_and,
      List.cons_append]
    tauto

theorem isChar_of_escapeChar {c : Char} (h : ∀ x ∈ escapeChar c, isChar x = true) :
    isChar c = true := by
  unfold escapeChar at h
  split_ifs at h with hamp hlt hgt hquot hapos hreturn
  · exact hamp ▸ by decide
  · exact hlt ▸ by decide
  · exact hgt ▸ by decide
  · exact hquot ▸ by decide
  · exact hapos ▸ by decide
  · exact hreturn ▸ by decide
  · exact h c List.mem_cons_self

/-- No character is hidden by the way it is written. -/
theorem isText_of_escape {s : String} (h : ∀ x ∈ s.toList.flatMap escapeChar, isChar x = true) :
    IsText s := fun c hc => isChar_of_escapeChar fun x hx => h x (List.mem_flatMap.2 ⟨c, hc, hx⟩)

theorem isText_of_chars (nodes : List Node) (h : ∀ x ∈ nodesChars nodes, isChar x = true) :
    ∀ s ∈ textsOf nodes, IsText s := by
  induction nodes using content_induction with
  | nil => simp [textsOf]
  | text s others ih =>
    rw [nodesChars, Node.chars, List.forall_mem_append] at h
    rw [textsOf, Node.texts, List.singleton_append, List.forall_mem_cons]
    exact ⟨isText_of_escape h.1, ih h.2⟩
  | element name attributes children others ihchildren ih =>
    rw [nodesChars, List.forall_mem_append, chars_element, List.forall_mem_cons,
      List.forall_mem_append] at h
    obtain ⟨⟨-, -, htag⟩, hothers⟩ := h
    unfold tagChars at htag
    obtain ⟨hattributes, hcontent⟩ := List.forall_mem_append.1 htag
    rw [textsOf, Node.texts, List.forall_mem_append, List.forall_mem_append, List.forall_mem_map]
    refine ⟨⟨fun entry hmem => isText_of_escape fun x hx => ?_, ?_⟩, ih hothers⟩
    · refine hattributes x (List.mem_flatMap.2 ⟨entry, hmem, ?_⟩)
      simp [attributeChars, hx]
    · cases children with
      | nil => simp [textsOf]
      | cons child more =>
        refine ihchildren fun x hx => hcontent x ?_
        exact List.mem_cons_of_mem _ (List.mem_append_left _ hx)

/-- A document is read only if it is scanned to its end. -/
theorem scan_of_read_eq_some {s : String} {root : Root} (h : read (Text.utf8 s) = .ok (some root)) :
    (Token.scan s).2 = true := by
  rw [read, Text.ofUtf8?_utf8] at h
  dsimp only at h
  split_ifs at h with hblank
  · cases h
  obtain ⟨found, hfound, -⟩ := map_eq_ok.1 h
  cases hwhole : (Token.scan s).2 with
  | true => rfl
  | false =>
    rw [hwhole] at hfound
    unfold readTokens at hfound
    split at hfound <;> cases hfound

theorem isChar_of_scan_documentText {root : Element} (hname : IsName root.name)
    (h : (Token.scan (documentText (some root))).2 = true) :
    ∀ c ∈ root.toNode.chars, isChar c = true := by
  obtain ⟨c, more, hc, hstart⟩ := hname.exists_cons
  obtain ⟨rest, hchars⟩ : ∃ rest, root.toNode.chars = '<' :: c :: rest := by
    rw [Element.toNode, chars_element, hc]
    exact ⟨_, rfl⟩
  have htext : (documentText (some root)).toList = declaration.toList ++ root.toNode.chars :=
    String.toList_ofList
  have hopen : (documentText (some root)).toList = '<' :: ((declaration.toList).tail ++
      root.toNode.chars) := htext
  obtain ⟨steps, hlength, hscan⟩ := scans_declaration root.toNode.chars ⟨_, _, hchars, by decide⟩
  obtain ⟨fuel, hfuel⟩ : ∃ fuel, (documentText (some root)).toList.length + 2 =
      steps + (fuel + 1) := by
    rw [htext]
    exact ⟨(declaration.toList ++ root.toNode.chars).length + 1 - steps, by omega⟩
  rw [scan_of_tag hopen, hfuel, htext, hscan, hchars, scanFrom_prolog hstart, ← hchars] at h
  exact isChar_of_scanFrom (by trivial) h

/-- An element whose names are names is read back from its document exactly when all of its texts
are made up of characters that a document may hold. -/
theorem read_documentText_iff {root : Element} (hnames : ∀ name ∈ root.toNode.names, IsName name) :
    (∃ found, read (Text.utf8 (documentText (some root))) = .ok (some found)) ↔
      ∀ s ∈ root.toNode.texts, IsText s := by
  have hnode : root.toNode.IsPlain ↔ ∀ s ∈ root.toNode.texts, IsText s := by
    have hall := arePlain_iff_names_texts [root.toNode]
    simpa [ArePlain, namesOf, textsOf, and_iff_right hnames] using hall
  constructor
  · rintro ⟨found, hfound⟩
    have hname : IsName root.name := hnames _ List.mem_cons_self
    have hchars := isChar_of_scan_documentText hname (scan_of_read_eq_some hfound)
    have htexts := isText_of_chars [root.toNode] (by simpa [nodesChars] using hchars)
    simpa [textsOf] using htexts
  · exact fun htexts => ⟨_, read_documentText (hnode.2 htexts)⟩

end ServiceBindings.Xml
