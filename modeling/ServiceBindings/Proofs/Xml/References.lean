import ServiceBindings.Proofs.Text.Numerals
import ServiceBindings.Proofs.Xml.Escape

/-! References in texts. A text can be read exactly if each of its ampersands begins a reference of
the grammar, but for a plus sign that is let through before the digits of a number. Escaped texts
have six references and no other markup, and the texts are read back from them. -/
namespace ServiceBindings.Xml
open Text (Writes)

/-- What the grammar allows between the ampersand and the semicolon of a reference, and the
character for which the reference stands: one of five names, or the number of the character in base
ten or sixteen. -/
inductive Entity : List Char → Char → Prop where
  | lt : Entity ['l', 't'] '<'
  | gt : Entity ['g', 't'] '>'
  | amp : Entity ['a', 'm', 'p'] '&'
  | quot : Entity ['q', 'u', 'o', 't'] '"'
  | apos : Entity ['a', 'p', 'o', 's'] '\''
  | decimal {digits : List Char} {c : Char} (h : Writes 10 digits c.toNat) :
    Entity ('#' :: digits) c
  | hexadecimal {digits : List Char} {c : Char} (h : Writes 16 digits c.toNat) :
    Entity ('#' :: 'x' :: digits) c

/-- A number behind a plus sign, which no reference of the grammar has. -/
inductive SignedEntity : List Char → Char → Prop where
  | decimal {digits : List Char} {c : Char} (h : Writes 10 digits c.toNat) :
    SignedEntity ('#' :: '+' :: digits) c
  | hexadecimal {digits : List Char} {c : Char} (h : Writes 16 digits c.toNat) :
    SignedEntity ('#' :: 'x' :: '+' :: digits) c

/-- What is read between an ampersand and a semicolon. -/
def ReadEntity (inner : List Char) (c : Char) : Prop :=
  Entity inner c ∨ SignedEntity inner c

/-- Behind an ampersand, a reference to a character goes up to the next semicolon, and the rest of
the text comes later. -/
def BeginsReference (entity : List Char → Char → Prop) (rest later : List Char) (c : Char) : Prop :=
  ∃ inner, rest = inner ++ ';' :: later ∧ ';' ∉ inner ∧ entity inner c

/-- A text, and the same text with each reference replaced by its character. -/
inductive Unescapes (entity : List Char → Char → Prop) : List Char → List Char → Prop where
  | nil : Unescapes entity [] []
  | plain {c : Char} {rest found : List Char} (h : c ≠ '&') (hrest : Unescapes entity rest found) :
    Unescapes entity (c :: rest) (c :: found)
  | reference {c : Char} {rest later found : List Char} (h : BeginsReference entity rest later c)
    (hlater : Unescapes entity later found) : Unescapes entity ('&' :: rest) (c :: found)

/-- What stands behind any ampersand of a text is as it should be. -/
def EveryAmpersand (p : List Char → Prop) (chars : List Char) : Prop :=
  ∀ rest, '&' :: rest <:+ chars → p rest

/-- Every ampersand of a text begins a reference. -/
def HasReferences (entity : List Char → Char → Prop) (chars : List Char) : Prop :=
  EveryAmpersand (fun rest => ∃ later c, BeginsReference entity rest later c) chars

/-- Somewhere in a text, a number is announced and a plus sign follows. -/
def HasSign (chars : List Char) : Prop :=
  ['&', '#', '+'] <:+: chars ∨ ['&', '#', 'x', '+'] <:+: chars

section Ampersands
variable {p : List Char → Prop}

theorem everyAmpersand_nil : EveryAmpersand p [] := by
  intro rest h
  cases List.suffix_nil.1 h

theorem everyAmpersand_cons {c : Char} {rest : List Char} :
    EveryAmpersand p (c :: rest) ↔ (c = '&' → p rest) ∧ EveryAmpersand p rest := by
  constructor
  · intro h
    refine ⟨?_, fun r hr => h r (hr.trans (List.suffix_cons c rest))⟩
    rintro rfl
    exact h rest List.suffix_rfl
  · rintro ⟨hfirst, hrest⟩ r hr
    rcases List.suffix_cons_iff.1 hr with heq | hr
    · obtain ⟨rfl, rfl⟩ := List.cons.inj heq
      exact hfirst rfl
    · exact hrest r hr

theorem everyAmpersand_append_of_notMem {a b : List Char} (h : '&' ∉ a) :
    EveryAmpersand p (a ++ b) ↔ EveryAmpersand p b := by
  induction a with
  | nil => rfl
  | cons c a ih =>
    obtain ⟨hc, ha⟩ := not_or.1 (mt List.mem_cons.2 h)
    rw [List.cons_append, everyAmpersand_cons, ih ha]
    exact and_iff_right fun heq => absurd heq.symm hc

theorem EveryAmpersand.of_suffix {a b : List Char} (h : EveryAmpersand p b) (hsuffix : a <:+ b) :
    EveryAmpersand p a :=
  fun rest hrest => h rest (hrest.trans hsuffix)

/-- References are passed over as a whole, so behind an ampersand the induction goes on anywhere. -/
theorem ampersand_induction {motive : List Char → Prop} (nil : motive [])
    (plain : ∀ c rest, c ≠ '&' → motive rest → motive (c :: rest))
    (ampersand : ∀ rest, (∀ later, later <:+ rest → motive later) → motive ('&' :: rest))
    (chars : List Char) : motive chars := by
  suffices ∀ later, later <:+ chars → motive later from this chars List.suffix_rfl
  induction chars with
  | nil =>
    intro later h
    rw [List.suffix_nil.1 h]
    exact nil
  | cons c rest ih =>
    intro later h
    rcases List.suffix_cons_iff.1 h with rfl | h
    · by_cases hc : c = '&'
      · subst hc
        exact ampersand rest ih
      · exact plain c rest hc (ih rest List.suffix_rfl)
    · exact ih later h

end Ampersands

section Entities
variable {inner : List Char} {c : Char}

theorem charAt?_eq_some_iff {code : Nat} : charAt? code = some c ↔ code = c.toNat := by
  have hvalid : charAt? code = if code.isValidChar then some (Char.ofNat code) else none := rfl
  rw [hvalid]
  constructor
  · intro h
    split_ifs at h with hcode
    rw [← Option.some.inj h, Char.ofNat, dif_pos hcode]
    rfl
  · rintro rfl
    have hcode : c.toNat.isValidChar := c.valid
    rw [if_pos hcode, Char.ofNat_toNat]

/-- Digits stand for the character whose number they write, with a plus sign before them or without
one. -/
theorem bind_charAt?_eq_some_iff {base : Nat} (hb : base ≤ 16) {chars : List Char} :
    (Text.ofPlusDigits? base chars).bind charAt? = some c ↔
      Writes base chars c.toNat ∨ ∃ digits, chars = '+' :: digits ∧ Writes base digits c.toNat := by
  simp only [Option.bind_eq_some_iff, charAt?_eq_some_iff, exists_eq_right,
    Text.ofPlusDigits?_eq_some_iff hb]

/-- Between ampersand and semicolon, exactly the entities of the grammar and those with a sign are
read. -/
theorem entityChar?_eq_some_iff : entityChar? inner = some c ↔ ReadEntity inner c := by
  constructor
  · intro h
    unfold entityChar? at h
    split at h
    case h_6 digits =>
      rcases (bind_charAt?_eq_some_iff (by decide)).1 h with hwrites | ⟨digits, rfl, hwrites⟩
      · exact .inl (.hexadecimal hwrites)
      · exact .inr (.hexadecimal hwrites)
    case h_7 digits _ =>
      rcases (bind_charAt?_eq_some_iff (by decide)).1 h with hwrites | ⟨digits, rfl, hwrites⟩
      · exact .inl (.decimal hwrites)
      · exact .inr (.decimal hwrites)
    case h_8 => cases h
    all_goals
      obtain rfl := Option.some.inj h
      exact .inl (by constructor)
  · rintro (h | h)
    · cases h with
      | @decimal digits _ h =>
        have hx : ∀ rest, digits ≠ 'x' :: rest := by
          rintro rest rfl
          exact h.notMem (by decide) (by decide) List.mem_cons_self
        rw [entityChar?.eq_7 digits hx]
        exact (bind_charAt?_eq_some_iff (by decide)).2 (.inl h)
      | hexadecimal h => exact (bind_charAt?_eq_some_iff (by decide)).2 (.inl h)
      | _ => rfl
    · cases h with
      | decimal h => exact (bind_charAt?_eq_some_iff (by decide)).2 (.inr ⟨_, rfl, h⟩)
      | hexadecimal h => exact (bind_charAt?_eq_some_iff (by decide)).2 (.inr ⟨_, rfl, h⟩)

/-- Entities hold letters, digits and number signs. -/
theorem Entity.notMem (h : Entity inner c) {x : Char} (hx : x ∈ ['&', ';', '+']) : x ∉ inner := by
  have hdigit : ∀ x ∈ ['&', ';', '+'], ∀ d < 16, x ≠ Text.hexDigit d ∧ x ≠ Text.upperHexDigit d :=
    List.all_iff_forall_prop.1 (by decide)
  have hnumber : ∀ x ∈ ['&', ';', '+'], x ≠ '#' ∧ x ≠ 'x' :=
    List.all_iff_forall_prop.1 (by decide)
  cases h with
  | decimal h =>
    have hmem := h.notMem (by decide) (hdigit x hx)
    simp [hmem, hnumber x hx]
  | hexadecimal h =>
    have hmem := h.notMem (by decide) (hdigit x hx)
    simp [hmem, hnumber x hx]
  | _ =>
    simp only [List.mem_cons, List.not_mem_nil, or_false] at hx
    rcases hx with rfl | rfl | rfl <;> decide

theorem SignedEntity.notMem (h : SignedEntity inner c) {x : Char} (hx : x ∈ ['&', ';']) :
    x ∉ inner := by
  have hdigit : ∀ x ∈ ['&', ';'], ∀ d < 16, x ≠ Text.hexDigit d ∧ x ≠ Text.upperHexDigit d :=
    List.all_iff_forall_prop.1 (by decide)
  have hnumber : ∀ x ∈ ['&', ';'], x ≠ '#' ∧ x ≠ 'x' ∧ x ≠ '+' :=
    List.all_iff_forall_prop.1 (by decide)
  cases h with
  | decimal h | hexadecimal h =>
    have hmem := h.notMem (by decide) (hdigit x hx)
    simp [hmem, hnumber x hx]

theorem ReadEntity.notMem (h : ReadEntity inner c) : '&' ∉ inner :=
  h.elim (fun h => h.notMem (by decide)) fun h => h.notMem (by decide)

end Entities

section Reading
variable {entity : List Char → Char → Prop} {chars found rest later : List Char} {c : Char}

theorem BeginsReference.suffix (h : BeginsReference entity rest later c) : later <:+ rest := by
  obtain ⟨inner, rfl, -, -⟩ := h
  exact ⟨inner ++ [';'], by simp⟩

/-- Inside a reference, a text is read exactly if the entity that has begun ends at the next
semicolon. -/
theorem unescapeChars_some_eq_ok {before : List Char} :
    unescapeChars (some before) chars = .ok found ↔ ∃ inner later c others,
      chars = inner ++ ';' :: later ∧ ';' ∉ inner ∧ ReadEntity (before.reverse ++ inner) c ∧
        unescapeChars none later = .ok others ∧ found = c :: others := by
  constructor
  · intro h
    induction chars generalizing before with
    | nil => cases h
    | cons x rest ih =>
      rw [unescapeChars] at h
      split_ifs at h with hx
      · subst hx
        cases hchar : entityChar? before.reverse with
        | none =>
          rw [hchar] at h
          cases h
        | some c =>
          rw [hchar] at h
          obtain ⟨others, hothers, rfl⟩ := map_eq_ok.1 h
          refine ⟨[], rest, c, others, rfl, List.not_mem_nil, ?_, hothers, rfl⟩
          rwa [List.append_nil, ← entityChar?_eq_some_iff]
      · obtain ⟨inner, later, c, others, rfl, hend, hentity, hothers, rfl⟩ := ih h
        refine ⟨x :: inner, later, c, others, rfl, ?_, ?_, hothers, rfl⟩
        · exact mt List.mem_cons.1 (not_or.2 ⟨Ne.symm hx, hend⟩)
        · simpa using hentity
  · rintro ⟨inner, later, c, others, rfl, hend, hentity, hothers, rfl⟩
    rw [unescapeChars_some before later hend, entityChar?_eq_some_iff.2 hentity, hothers]
    rfl

theorem unescapeChars_ampersand :
    unescapeChars none ('&' :: rest) = .ok found ↔ ∃ later c others,
      BeginsReference ReadEntity rest later c ∧ unescapeChars none later = .ok others ∧
        found = c :: others := by
  rw [unescapeChars, if_pos rfl, unescapeChars_some_eq_ok]
  constructor
  · rintro ⟨inner, later, c, others, hrest, hend, hentity, hothers, hfound⟩
    exact ⟨later, c, others, ⟨inner, hrest, hend, hentity⟩, hothers, hfound⟩
  · rintro ⟨later, c, others, ⟨inner, hrest, hend, hentity⟩, hothers, hfound⟩
    exact ⟨inner, later, c, others, hrest, hend, hentity, hothers, hfound⟩

/-- A text is read exactly as its references say. -/
theorem unescapeChars_eq_ok_iff :
    unescapeChars none chars = .ok found ↔ Unescapes ReadEntity chars found := by
  constructor
  · intro h
    induction chars using ampersand_induction generalizing found with
    | nil =>
      obtain rfl := Except.ok.inj h
      exact .nil
    | plain c rest hc ih =>
      rw [unescapeChars, if_neg hc] at h
      obtain ⟨others, hothers, rfl⟩ := map_eq_ok.1 h
      exact .plain hc (ih hothers)
    | ampersand rest ih =>
      obtain ⟨later, c, others, hreference, hothers, rfl⟩ := unescapeChars_ampersand.1 h
      exact .reference hreference (ih later hreference.suffix hothers)
  · intro h
    induction h with
    | nil => rfl
    | plain hc _ ih =>
      rw [unescapeChars, if_neg hc, ih]
      rfl
    | reference hreference _ ih =>
      exact unescapeChars_ampersand.2 ⟨_, _, _, hreference, ih, rfl⟩

theorem HasReferences.exists_unescapes (h : HasReferences entity chars) :
    ∃ found, Unescapes entity chars found := by
  induction chars using ampersand_induction with
  | nil => exact ⟨[], .nil⟩
  | plain c rest hc ih =>
    obtain ⟨found, hfound⟩ := ih (everyAmpersand_cons.1 h).2
    exact ⟨c :: found, .plain hc hfound⟩
  | ampersand rest ih =>
    obtain ⟨hfirst, hrest⟩ := everyAmpersand_cons.1 h
    obtain ⟨later, c, hreference⟩ := hfirst rfl
    obtain ⟨found, hfound⟩ := ih later hreference.suffix (hrest.of_suffix hreference.suffix)
    exact ⟨c :: found, .reference hreference hfound⟩

/-- References hold no ampersands, so there are none but those at which references were found. -/
theorem Unescapes.hasReferences (hentity : ∀ inner c, entity inner c → '&' ∉ inner)
    (h : Unescapes entity chars found) : HasReferences entity chars := by
  induction h with
  | nil => exact everyAmpersand_nil
  | plain hc _ ih => exact everyAmpersand_cons.2 ⟨fun heq => absurd heq hc, ih⟩
  | reference hreference _ ih =>
    refine everyAmpersand_cons.2 ⟨fun _ => ⟨_, _, hreference⟩, ?_⟩
    obtain ⟨inner, rfl, -, hinner⟩ := hreference
    rw [everyAmpersand_append_of_notMem (hentity inner _ hinner), everyAmpersand_cons]
    exact ⟨fun heq => absurd heq (by decide), ih⟩

end Reading

section Signs
variable {chars rest later : List Char} {c : Char}

theorem infix_ampersand_iff {mark : List Char} :
    '&' :: mark <:+: chars ↔ ∃ rest, mark <+: rest ∧ '&' :: rest <:+ chars := by
  rw [List.infix_iff_prefix_suffix]
  constructor
  · rintro ⟨_, ⟨later, rfl⟩, hsuffix⟩
    exact ⟨mark ++ later, List.prefix_append mark later, hsuffix⟩
  · rintro ⟨rest, hmark, hsuffix⟩
    exact ⟨'&' :: rest, List.cons_prefix_cons.2 ⟨rfl, hmark⟩, hsuffix⟩

theorem not_hasSign_iff : ¬HasSign chars ↔
    EveryAmpersand (fun rest => ¬['#', '+'] <+: rest ∧ ¬['#', 'x', '+'] <+: rest) chars := by
  rw [HasSign, infix_ampersand_iff, infix_ampersand_iff, EveryAmpersand]
  constructor
  · intro h rest hsuffix
    exact ⟨fun hmark => h (.inl ⟨rest, hmark, hsuffix⟩),
      fun hmark => h (.inr ⟨rest, hmark, hsuffix⟩)⟩
  · rintro h (⟨rest, hmark, hsuffix⟩ | ⟨rest, hmark, hsuffix⟩)
    · exact (h rest hsuffix).1 hmark
    · exact (h rest hsuffix).2 hmark

/-- A beginning without a semicolon is a beginning of what stands before the first one. -/
theorem prefix_of_prefix_append {mark inner : List Char} (h : mark <+: inner ++ ';' :: later)
    (hmark : ';' ∉ mark) : mark <+: inner := by
  rcases List.prefix_or_prefix_of_prefix h (List.prefix_append inner _) with hprefix | hprefix
  · exact hprefix
  · obtain ⟨more, rfl⟩ := hprefix
    rw [List.prefix_append_right_inj] at h
    cases more with
    | nil => exact ⟨[], by rw [List.append_nil, List.append_nil]⟩
    | cons x more =>
      obtain ⟨rfl, -⟩ := List.cons_prefix_cons.1 h
      exact absurd (List.mem_append_right inner List.mem_cons_self) hmark

/-- The references of the grammar are those that are read and have no sign. -/
theorem beginsReference_entity_iff : BeginsReference Entity rest later c ↔
    BeginsReference ReadEntity rest later c ∧ ¬['#', '+'] <+: rest ∧ ¬['#', 'x', '+'] <+: rest := by
  constructor
  · rintro ⟨inner, rfl, hend, hentity⟩
    have hplus {mark : List Char} (hsemicolon : ';' ∉ mark) (hmark : '+' ∈ mark) :
        ¬mark <+: inner ++ ';' :: later := fun hprefix =>
      hentity.notMem (by decide) ((prefix_of_prefix_append hprefix hsemicolon).mem hmark)
    exact ⟨⟨inner, rfl, hend, .inl hentity⟩, hplus (by decide) (by decide),
      hplus (by decide) (by decide)⟩
  · rintro ⟨⟨inner, rfl, hend, hentity | hentity⟩, hdecimal, hhexadecimal⟩
    · exact ⟨inner, rfl, hend, hentity⟩
    · cases hentity with
      | decimal h => exact absurd ⟨_, rfl⟩ hdecimal
      | hexadecimal h => exact absurd ⟨_, rfl⟩ hhexadecimal

theorem hasReferences_entity_iff :
    HasReferences Entity chars ↔ HasReferences ReadEntity chars ∧ ¬HasSign chars := by
  rw [not_hasSign_iff]
  constructor
  · intro h
    constructor
    · intro rest hsuffix
      obtain ⟨later, c, hreference⟩ := h rest hsuffix
      exact ⟨later, c, (beginsReference_entity_iff.1 hreference).1⟩
    · intro rest hsuffix
      obtain ⟨later, c, hreference⟩ := h rest hsuffix
      exact (beginsReference_entity_iff.1 hreference).2
  · rintro ⟨h, hsign⟩ rest hsuffix
    obtain ⟨later, c, hreference⟩ := h rest hsuffix
    exact ⟨later, c, beginsReference_entity_iff.2 ⟨hreference, hsign rest hsuffix⟩⟩

end Signs

/-- A text is read exactly if each of its ampersands begins a reference, and then it is the text
with every reference replaced by its character. The references are those of the grammar, and the
same with a plus sign before the digits: the texts of the grammar are those that are read and have
no such sign. -/
theorem references_read_iff (s : String) :
    (∀ t, unescape s = .ok t ↔ Unescapes ReadEntity s.toList t.toList) ∧
      ((∃ t, unescape s = .ok t) ↔ HasReferences ReadEntity s.toList) ∧
      (HasReferences Entity s.toList ↔ (∃ t, unescape s = .ok t) ∧ ¬HasSign s.toList) := by
  have hread (t : String) : unescape s = .ok t ↔ Unescapes ReadEntity s.toList t.toList := by
    rw [unescape, map_eq_ok, ← unescapeChars_eq_ok_iff]
    constructor
    · rintro ⟨found, hfound, rfl⟩
      rwa [String.toList_ofList]
    · intro hfound
      exact ⟨t.toList, hfound, String.ofList_toList⟩
  have hexists : (∃ t, unescape s = .ok t) ↔ HasReferences ReadEntity s.toList := by
    constructor
    · rintro ⟨t, ht⟩
      exact ((hread t).1 ht).hasReferences fun _ _ hentity => hentity.notMem
    · intro h
      obtain ⟨found, hfound⟩ := h.exists_unescapes
      exact ⟨String.ofList found, (hread _).2 (by rwa [String.toList_ofList])⟩
  exact ⟨hread, hexists, by rw [hexists, hasReferences_entity_iff]⟩

/-- A plus sign before the digits of a number goes unnoticed. -/
theorem signed_reference_read :
    unescape "&#+65;" = .ok "A" ∧ ¬HasReferences Entity "&#+65;".toList := by
  have hsign : HasSign "&#+65;".toList := .inl ⟨[], ['6', '5', ';'], rfl⟩
  exact ⟨rfl, fun h => (hasReferences_entity_iff.1 h).2 hsign⟩

section Writing

def writtenReferences : List String :=
  ["&amp;", "&lt;", "&gt;", "&quot;", "&apos;", "&#xD;"]

/-- The characters that have references in escaped texts. -/
def markupChars : List Char :=
  ['&', '<', '>', '"', '\'', '\r']

theorem escapeChar_eq (c : Char) :
    (c ∉ markupChars ∧ escapeChar c = [c]) ∨
      (c ∈ markupChars ∧ ∃ reference ∈ writtenReferences, escapeChar c = reference.toList) := by
  by_cases hc : c ∈ markupChars
  · have hall : ∀ c ∈ markupChars, ∃ reference ∈ writtenReferences,
        escapeChar c = reference.toList := List.all_iff_forall_prop.1 (by decide)
    exact .inr ⟨hc, hall c hc⟩
  · exact .inl ⟨hc, escapeChar_of_notMem hc⟩

/-- In an escaped text, ampersands are those of the references that were written. -/
theorem everyAmpersand_flatMap (chars : List Char) :
    EveryAmpersand (fun rest => ∃ reference ∈ writtenReferences, reference.toList <+: '&' :: rest)
      (chars.flatMap escapeChar) := by
  have hshape : ∀ reference ∈ writtenReferences,
      reference.toList.head? = some '&' ∧ '&' ∉ reference.toList.tail := by decide
  induction chars with
  | nil => exact everyAmpersand_nil
  | cons c rest ih =>
    rw [List.flatMap_cons]
    rcases escapeChar_eq c with ⟨hc, hplain⟩ | ⟨-, reference, hmem, hreference⟩
    · rw [hplain, List.singleton_append, everyAmpersand_cons]
      refine ⟨?_, ih⟩
      rintro rfl
      exact absurd List.mem_cons_self hc
    · obtain ⟨hhead, htail⟩ := hshape reference hmem
      obtain ⟨inner, hinner⟩ := List.head?_eq_some_iff.1 hhead
      rw [hinner, List.tail_cons] at htail
      rw [hreference, hinner, List.cons_append, everyAmpersand_cons,
        everyAmpersand_append_of_notMem htail]
      refine ⟨fun _ => ⟨reference, hmem, ?_⟩, ih⟩
      rw [hinner, ← List.cons_append]
      exact List.prefix_append _ _

theorem length_le_flatMap_escapeChar (chars : List Char) :
    chars.length ≤ (chars.flatMap escapeChar).length := by
  have hone (c : Char) : 1 ≤ (escapeChar c).length := by
    have hall : ∀ reference ∈ writtenReferences, 1 ≤ reference.toList.length := by decide
    rcases escapeChar_eq c with ⟨-, hplain⟩ | ⟨-, reference, hmem, hreference⟩
    · rw [hplain, List.length_singleton]
    · rw [hreference]
      exact hall reference hmem
  induction chars with
  | nil => exact Nat.le_refl 0
  | cons c rest ih =>
    have hc := hone c
    rw [List.flatMap_cons, List.length_append, List.length_cons]
    omega

/-- Exactly the texts without markup stay as they are. -/
theorem flatMap_escapeChar_eq_self_iff {chars : List Char} :
    chars.flatMap escapeChar = chars ↔ ∀ c ∈ chars, c ∉ markupChars := by
  constructor
  · intro h
    induction chars with
    | nil => exact fun c hc => absurd hc List.not_mem_nil
    | cons c rest ih =>
      rw [List.flatMap_cons] at h
      rcases escapeChar_eq c with ⟨hc, hplain⟩ | ⟨hc, -⟩
      · rw [hplain, List.singleton_append] at h
        exact List.forall_mem_cons.2 ⟨hc, ih (List.cons.inj h).2⟩
      · -- A reference makes the text longer, and nothing makes it shorter again.
        have hlonger : ∀ c ∈ markupChars, 1 < (escapeChar c).length :=
          List.all_iff_forall_prop.1 (by decide)
        have hfirst := hlonger c hc
        have hrest := length_le_flatMap_escapeChar rest
        have hlength := congrArg List.length h
        rw [List.length_append, List.length_cons] at hlength
        omega
  · intro h
    have hplain : ∀ c ∈ chars, escapeChar c = [c] := fun c hc =>
      (escapeChar_eq c).elim And.right fun hmarkup => absurd hmarkup.1 (h c hc)
    rw [List.flatMap_congr hplain]
    exact List.flatMap_singleton' chars

end Writing

/-- Escaped texts have no markup but ampersands, each of which begins one of six references, and
they are read back as the texts from which they were made. Texts without markup stay as they are.
-/
theorem escape_safe_and_reversible (s : String) :
    (∀ c ∈ ['<', '>', '"', '\'', '\r'], c ∉ (escape s).toList) ∧
      EveryAmpersand
        (fun rest => ∃ reference ∈ writtenReferences, reference.toList <+: '&' :: rest)
        (escape s).toList ∧
      unescape (escape s) = .ok s ∧
      (escape s = s ↔ ∀ c ∈ s.toList, c ∉ markupChars) := by
  rw [escape, String.toList_ofList]
  refine ⟨fun c hc hmem => notMem_of_mem_escape hmem hc, everyAmpersand_flatMap s.toList, ?_, ?_⟩
  · rw [unescape_flatMap, String.ofList_toList]
  · rw [← flatMap_escapeChar_eq_self_iff, ← String.toList_inj, String.toList_ofList]

end ServiceBindings.Xml
