import ServiceBindings.Proofs.Xml.Escape
import ServiceBindings.Proofs.Xml.Name
import ServiceBindings.Xml.Element
import ServiceBindings.Xml.Token

/-! The parts of a written document as the scanner cuts them. -/
namespace ServiceBindings.Xml
open Token (Place Step need? placeWithin runOf? scanFrom skipSpace step? upTo?)

/-- Reading on from a place yields tokens and comes to another place. Every step is paid for by a
character that it takes. -/
def Scans (place : Place) (chars : List Char) (tokens : List Token) (next : Place)
    (rest : List Char) : Prop :=
  ∃ steps, steps + rest.length ≤ chars.length ∧ ∀ fuel, scanFrom (steps + fuel) place chars =
    (tokens ++ (scanFrom fuel next rest).1, (scanFrom fuel next rest).2)

namespace Scans
variable {place next last : Place} {chars rest others : List Char} {tokens more : List Token}

theorem refl (place : Place) (chars : List Char) : Scans place chars [] place chars :=
  ⟨0, by simp, fun fuel => by simp⟩

theorem trans (h : Scans place chars tokens next rest) (h' : Scans next rest more last others) :
    Scans place chars (tokens ++ more) last others := by
  obtain ⟨steps, hlength, hscan⟩ := h
  obtain ⟨steps', hlength', hscan'⟩ := h'
  refine ⟨steps + steps', by omega, fun fuel => ?_⟩
  rw [Nat.add_assoc, hscan, hscan', List.append_assoc]

theorem step {token : Option Token} (h : step? place chars = some { token, place := next, rest })
    (hlength : rest.length < chars.length) : Scans place chars token.toList next rest := by
  obtain ⟨c, others, rfl⟩ : ∃ c others, chars = c :: others :=
    List.exists_cons_of_length_pos (by omega)
  refine ⟨1, by omega, fun fuel => ?_⟩
  rw [Nat.add_comm, scanFrom, h]

/-- A step that yields a token. -/
theorem one {token : Token}
    (h : step? place chars = some { token := some token, place := next, rest })
    (hlength : rest.length < chars.length) : Scans place chars [token] next rest :=
  step h hlength

/-- A step that yields none. -/
theorem pass (h : step? place chars = some { place := next, rest })
    (hlength : rest.length < chars.length) : Scans place chars [] next rest :=
  step h hlength

end Scans

/-- No name begins with markup or white space. -/
theorem ne_of_isNameStart {c d : Char} (h : isNameStart c = true)
    (hd : d ∈ ['!', '?', '/', '>', ' ', '\t', '\n', '\r']) : c ≠ d := by
  rintro rfl
  revert h
  simp only [List.mem_cons, List.not_mem_nil, or_false] at hd
  rcases hd with rfl | rfl | rfl | rfl | rfl | rfl | rfl | rfl <;> decide

theorem isSpace_of_isNameStart {c : Char} (h : isNameStart c = true) : isSpace c = false := by
  have hne {d : Char} (hd : d ∈ ['!', '?', '/', '>', ' ', '\t', '\n', '\r']) : c ≠ d :=
    ne_of_isNameStart h hd
  simp [isSpace, hne]

theorem skipSpace_cons {c : Char} (h : isSpace c = false) (rest : List Char) :
    skipSpace (c :: rest) = c :: rest :=
  List.dropWhile_cons_of_neg (by simp [h])

theorem need?_cons (c : Char) (rest : List Char) :
    need? (String.singleton c) (c :: rest) = some rest := by
  simp [need?, Text.expect?]

/-- A run is cut off in front of the first character that does not pass. -/
theorem runOf?_append {passes : Char → Bool} {run : List Char}
    (hrun : ∀ c ∈ run, passes c = true ∧ isChar c = true) {c : Char} (hc : passes c = false)
    (hchar : isChar c = true) (rest : List Char) :
    runOf? passes (run ++ c :: rest) = some (run, c :: rest) := by
  induction run with
  | nil => rw [List.nil_append, runOf?, if_pos hchar, if_neg (by simp [hc])]
  | cons d run ih =>
    obtain ⟨hpasses, hd⟩ := hrun d List.mem_cons_self
    rw [List.cons_append, runOf?, if_pos hd, if_pos hpasses,
      ih fun c hmem => hrun c (List.mem_cons_of_mem _ hmem)]
    rfl

/-- A text without the sign that ends tags does not hold the end of a section. -/
theorem upTo?_eq_none {chars : List Char} (h : '>' ∉ chars) : upTo? "]]>" chars = none := by
  have hneed (chars : List Char) (h : '>' ∉ chars) : need? "]]>" chars = none := by
    match chars with
    | [] => rfl
    | [a] => simp [need?, Text.expect?]
    | [a, b] => simp [need?, Text.expect?]
    | a :: b :: c :: rest =>
      have hc : '>' ≠ c := by
        rintro rfl
        simp at h
      simp [need?, Text.expect?, hc]
  induction chars with
  | nil => rfl
  | cons c rest ih =>
    rw [upTo?, hneed _ h]
    rw [List.mem_cons, not_or] at h
    simp [ih h.2]

section
variable {s : String} {rest : List Char}

theorem elementStart?_of_isName (hs : IsName s) (hrest : EndsName rest) (depth : Nat) :
    Token.elementStart? depth ('<' :: (s.toList ++ rest)) =
      some { token := some (.elementStart (Name.ofText s)), place := .tag depth, rest } := by
  have hneed : need? "<" ('<' :: (s.toList ++ rest)) = some (s.toList ++ rest) := need?_cons '<' _
  simp [Token.elementStart?, hneed, hs.read? hrest]

/-- A tag opens inside an element. -/
theorem scans_elementStart (hs : IsName s) (hrest : EndsName rest) (depth : Nat) :
    Scans (.content depth) ('<' :: (s.toList ++ rest)) [.elementStart (Name.ofText s)]
      (.tag depth) rest := by
  obtain ⟨c, more, hc, hstart⟩ := hs.exists_cons
  have hne (d : Char) (hd : d ∈ ['!', '?', '/', '>', ' ', '\t', '\n', '\r'])
      (tail : List Char) : s.toList ++ rest = d :: tail → False := by
    intro heq
    rw [hc, List.cons_append] at heq
    exact ne_of_isNameStart hstart hd (List.cons.inj heq).1
  refine .one ?_ (by simp [hc]; omega)
  rw [step?, Token.contentStep?.eq_4 _ _ (hne '!' (by decide)) (hne '?' (by decide))
    (hne '/' (by decide)), elementStart?_of_isName hs hrest]

/-- A name, a sign of equality and a value between quotes are read as an attribute. -/
theorem attribute?_append (hs : IsName s) {value : String}
    (hvalue : ∀ c ∈ value.toList, isChar c = true) (depth : Nat) (rest : List Char) :
    Token.attribute? depth
      (s.toList ++ '=' :: '"' :: (value.toList.flatMap escapeChar ++ '"' :: rest)) =
        some ⟨some (.attribute (Name.ofText s) (String.ofList (value.toList.flatMap escapeChar))),
          .tag depth, rest⟩ := by
  have hends : EndsName ('=' :: '"' :: (value.toList.flatMap escapeChar ++ '"' :: rest)) := by
    simp only [EndsName, List.head?_cons, Option.all_some]
    decide
  have hequals (chars : List Char) : Token.equals? ('=' :: '"' :: chars) = some ('"' :: chars) := by
    have hneed : need? "=" ('=' :: '"' :: chars) = some ('"' :: chars) := need?_cons '=' _
    rw [Token.equals?, skipSpace_cons (by decide), hneed, Option.map_some,
      skipSpace_cons (by decide)]
  have hrun :
      runOf? (fun c => c ≠ '"' && c ≠ '<') (value.toList.flatMap escapeChar ++ '"' :: rest) =
        some (value.toList.flatMap escapeChar, '"' :: rest) := by
    refine runOf?_append (fun x hx => ⟨?_, isChar_of_mem_escape hvalue hx⟩) rfl (by decide) rest
    have hplain := notMem_of_mem_escape hx
    simp only [List.mem_cons, not_or] at hplain
    simp [hplain.1, hplain.2.2.1]
  simp only [Token.attribute?, hs.read? hends, hequals, Token.quote?, hrun, Option.bind_eq_bind,
    Option.bind_some, need?_cons]

/-- What stands between quotes is read up to the closing one. -/
theorem scans_attribute (hs : IsName s) {value : String}
    (hvalue : ∀ c ∈ value.toList, isChar c = true) (depth : Nat) :
    Scans (.tag depth) (attributeChars (s, value) ++ rest)
      [.attribute (Name.ofText s) (String.ofList (value.toList.flatMap escapeChar))]
      (.tag depth) rest := by
  obtain ⟨c, more, hc, hstart⟩ := hs.exists_cons
  have hchars : attributeChars (s, value) ++ rest =
      ' ' :: (s.toList ++ '=' :: '"' :: (value.toList.flatMap escapeChar ++ '"' :: rest)) := by
    simp [attributeChars]
  rw [hchars]
  refine .one ?_ (by simp; omega)
  have hskip (rest : List Char) : skipSpace (' ' :: (s.toList ++ rest)) = s.toList ++ rest := by
    rw [hc, List.cons_append, skipSpace, List.dropWhile_cons_of_pos (by decide)]
    exact skipSpace_cons (isSpace_of_isNameStart hstart) _
  rw [step?, Token.tagStep?, hskip]
  split
  · next heq =>
    rw [hc] at heq
    exact absurd (List.cons.inj heq).1 (ne_of_isNameStart hstart (by decide))
  · next heq =>
    rw [hc] at heq
    exact absurd (List.cons.inj heq).1 (ne_of_isNameStart hstart (by decide))
  · have hspace (chars : List Char) : (' ' :: chars).head?.any isSpace = true := rfl
    rw [if_pos (hspace _), attribute?_append hs hvalue]

theorem scans_tagEnd (depth : Nat) (rest : List Char) :
    Scans (.tag depth) ('>' :: rest) [.tagEnd] (.content (depth + 1)) rest := by
  refine .one ?_ (by simp)
  rw [step?, Token.tagStep?, skipSpace_cons (by decide)]
  rfl

theorem scans_emptyEnd (depth : Nat) (rest : List Char) :
    Scans (.tag depth) ('/' :: '>' :: rest) [.emptyEnd] (placeWithin depth) rest := by
  refine .one ?_ (by simp only [List.length_cons]; omega)
  rw [step?, Token.tagStep?, skipSpace_cons (by decide)]
  show (need? (String.singleton '>') ('>' :: rest)).map _ = _
  rw [need?_cons]
  rfl

theorem scans_elementEnd (hs : IsName s) (depth : Nat) (rest : List Char) :
    Scans (.content (depth + 1)) ('<' :: '/' :: (s.toList ++ '>' :: rest))
      [.elementEnd (Name.ofText s)] (placeWithin depth) rest := by
  have hends : EndsName ('>' :: rest) := by
    simp only [EndsName, List.head?_cons, Option.all_some]
    decide
  have hneed : need? "</" ('<' :: '/' :: (s.toList ++ '>' :: rest)) =
      some (s.toList ++ '>' :: rest) := by
    simp [need?, Text.expect?]
  have hclose : need? ">" (skipSpace ('>' :: rest)) = some rest := by
    rw [skipSpace_cons (by decide)]
    exact need?_cons '>' rest
  refine .one ?_ (by simp; omega)
  rw [step?, Token.contentStep?]
  simp [Token.elementEnd?, hneed, hs.read? hends, hclose]

/-- The characters of a text are one token, unless there are none. -/
def textTokens (chars : List Char) : List Token :=
  if chars = [] then [] else [.text (String.ofList (chars.flatMap escapeChar))]

theorem scans_text {chars : List Char} (hchars : ∀ c ∈ chars, isChar c = true) (depth : Nat)
    (rest : List Char) :
    Scans (.content depth) (chars.flatMap escapeChar ++ '<' :: rest) (textTokens chars)
      (.content depth) ('<' :: rest) := by
  by_cases hnil : chars = []
  · subst hnil
    exact .refl _ _
  · rw [textTokens, if_neg hnil]
    have hescape (x : Char) (hx : x ∈ chars.flatMap escapeChar) : x ≠ '<' ∧ x ≠ '>' := by
      have hplain := notMem_of_mem_escape hx
      simp only [List.mem_cons, not_or] at hplain
      exact ⟨hplain.1, hplain.2.1⟩
    obtain ⟨c, more, hc⟩ := List.exists_cons_of_ne_nil (mt flatMap_escapeChar_eq_nil.1 hnil)
    have hrun : runOf? (· ≠ '<') (chars.flatMap escapeChar ++ '<' :: rest) =
        some (chars.flatMap escapeChar, '<' :: rest) :=
      runOf?_append (fun x hx => ⟨by simpa using (hescape x hx).1, isChar_of_mem_escape hchars hx⟩)
        rfl (by decide) rest
    have hsection : upTo? "]]>" (chars.flatMap escapeChar) = none :=
      upTo?_eq_none fun hmem => (hescape _ hmem).2 rfl
    have hne (tail : List Char) :
        chars.flatMap escapeChar ++ '<' :: rest = '<' :: tail → False := by
      intro heq
      rw [hc, List.cons_append] at heq
      exact (hescape c (hc ▸ List.mem_cons_self)).1 (List.cons.inj heq).1
    refine .one ?_ (by simp only [hc, List.length_append, List.length_cons]; omega)
    rw [step?, Token.contentStep?.eq_5 _ _ (fun _ => hne _) (fun _ => hne _) (fun _ => hne _) hne]
    simp only [Token.text?, hrun, hsection, Option.bind_eq_bind, Option.bind_some]
    rfl

end
end ServiceBindings.Xml
