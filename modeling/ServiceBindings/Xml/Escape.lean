import ServiceBindings.Text.Digits

/-! Character references of XML. -/
namespace ServiceBindings.Xml

/-- A character of a text or of an attribute's value as it is written. -/
def escapeChar (c : Char) : List Char :=
  if c = '&' then "&amp;".toList
  else if c = '<' then "&lt;".toList
  else if c = '>' then "&gt;".toList
  else if c = '"' then "&quot;".toList
  else if c = '\'' then "&apos;".toList
  else if c = '\r' then "&#xD;".toList
  else [c]

/-- A text with references for the characters of markup and for the carriage return. -/
def escape (s : String) : String :=
  String.ofList (s.toList.flatMap escapeChar)

/-- Why a text with references cannot be read. -/
inductive EscapeError where
  /-- No semicolon follows an ampersand. -/
  | unterminated
  | invalidEntity (entity : String)
deriving DecidableEq

def EscapeError.message : EscapeError → String
  | unterminated => "unterminated entity reference"
  | invalidEntity entity => "invalid entity reference: &" ++ entity ++ ";"

def charAt? (code : Nat) : Option Char :=
  if code < 0xD800 ∨ 0xDFFF < code ∧ code < 0x110000 then some (Char.ofNat code) else none

/-- The character that a reference between ampersand and semicolon names. The digits of a number may
follow a plus sign. -/
def entityChar? : List Char → Option Char
  | ['l', 't'] => some '<'
  | ['g', 't'] => some '>'
  | ['a', 'm', 'p'] => some '&'
  | ['q', 'u', 'o', 't'] => some '"'
  | ['a', 'p', 'o', 's'] => some '\''
  | '#' :: 'x' :: digits => (Text.ofPlusDigits? 16 digits).bind charAt?
  | '#' :: digits => (Text.ofPlusDigits? 10 digits).bind charAt?
  | _ => none

/-- Reads on inside a reference whose characters so far are given in reverse, or outside of one. -/
def unescapeChars : Option (List Char) → List Char → Except EscapeError (List Char)
  | none, [] => .ok []
  | some _, [] => .error .unterminated
  | none, c :: rest =>
    if c = '&' then unescapeChars (some []) rest
    else (unescapeChars none rest).map (c :: ·)
  | some entity, c :: rest =>
    if c = ';' then
      match entityChar? entity.reverse with
      | some found => (unescapeChars none rest).map (found :: ·)
      | none => .error (.invalidEntity (String.ofList entity.reverse))
    else unescapeChars (some (c :: entity)) rest

def unescape (s : String) : Except EscapeError String :=
  (unescapeChars none s.toList).map String.ofList

end ServiceBindings.Xml
