import ServiceBindings.Text.Expect
import ServiceBindings.Xml.Name

/-! Documents cut into the tokens that make up elements. -/
namespace ServiceBindings.Xml

/-- A token. Declarations, document types, comments and instructions yield none. -/
inductive Token where
  /-- A tag opens: its name. -/
  | elementStart (name : Name)
  /-- An attribute with its value as written. -/
  | attribute (name : Name) (value : String)
  /-- An opening tag ends; content follows. -/
  | tagEnd
  /-- A tag ends whose element has no content. -/
  | emptyEnd
  | elementEnd (name : Name)
  /-- Character data as written. -/
  | text (s : String)
  /-- Character data without references. -/
  | cdata (s : String)
deriving DecidableEq

namespace Token

/-- What may come next in a document. -/
inductive Place where
  | declaration
  | prolog
  | doctype
  | beforeRoot
  /-- Inside so many open elements. -/
  | content (depth : Nat)
  | tag (depth : Nat)
  | afterRoot

def skipSpace (chars : List Char) : List Char :=
  chars.dropWhile isSpace

def needSpace? : List Char → Option (List Char)
  | [] => none
  | c :: rest => if isSpace c then some (skipSpace rest) else none

def need? (expected : String) (chars : List Char) : Option (List Char) :=
  Text.expect? expected.toList chars

def quote? : List Char → Option (Char × List Char)
  | '"' :: rest => some ('"', rest)
  | '\'' :: rest => some ('\'', rest)
  | _ => none

def equals? (chars : List Char) : Option (List Char) :=
  (need? "=" (skipSpace chars)).map skipSpace

/-- The characters up to the closing text and what follows it; all of them are characters that a
document may hold. -/
def upTo? (close : String) : List Char → Option (List Char × List Char)
  | [] => (need? close []).map fun rest => ([], rest)
  | c :: chars =>
    match need? close (c :: chars) with
    | some rest => some ([], rest)
    | none =>
      if isChar c then (upTo? close chars).map fun (found, rest) => (c :: found, rest) else none

/-- The characters as long as they pass a test and what follows them; every character that is looked
at is one that a document may hold. -/
def runOf? (passes : Char → Bool) : List Char → Option (List Char × List Char)
  | [] => some ([], [])
  | c :: chars =>
    if isChar c then
      if passes c then (runOf? passes chars).map fun (run, rest) => (c :: run, rest)
      else some ([], c :: chars)
    else none

/-- What follows a name of any characters of names, which may hold colons. -/
def anyName? : List Char → Option (List Char × List Char)
  | [] => none
  | c :: chars =>
    if isNameStart c then some (c :: chars.takeWhile isNameChar, chars.dropWhile isNameChar)
    else none

def literal? (chars : List Char) : Option (List Char) := do
  let (q, chars) ← quote? chars
  need? (String.singleton q) (chars.dropWhile (· ≠ q))

/-- What follows a comment. Two hyphens occur only at its end. -/
def comment? (chars : List Char) : Option (List Char) := do
  let chars ← need? "<!--" chars
  let (body, rest) ← upTo? "-->" chars
  if body.getLast? = some '-' ∨ (List.zip body body.tail).any (· = ('-', '-')) then none
  else some rest

/-- What follows an instruction. The declaration of a document is none. -/
def instruction? (chars : List Char) : Option (List Char) := do
  if Text.startsWith "<?xml " chars then none
  else
    let chars ← need? "<?" chars
    let (_, chars) ← anyName? chars
    let (_, rest) ← upTo? "?>" (skipSpace chars)
    some rest

/-- White space between the parts of a declaration; none is needed before its end. -/
def declarationSpace? (chars : List Char) : Option (List Char) :=
  if chars.head?.all isSpace ∨ Text.startsWith "?>" chars then some (skipSpace chars) else none

/-- What follows a named value in quotes whose characters pass a test; nothing is read when the name
is not there. -/
def declarationPart? (name : String) (valid : List Char → Bool) (chars : List Char) :
    Option (Option (List Char)) :=
  match need? name chars with
  | none => some none
  | some chars => do
    let (q, chars) ← quote? (← equals? chars)
    let value := chars.takeWhile (· ≠ q)
    let rest ← need? (String.singleton q) (chars.dropWhile (· ≠ q))
    if valid value then some (some rest) else none

/-- A version: a one, a point and digits. -/
def isVersion (value : List Char) : Bool :=
  match value with
  | '1' :: '.' :: digits => digits.all Char.isDigit
  | _ => false

/-- What follows the declaration of a document: its version, and at will its encoding and whether it
stands alone. -/
def declaration? (chars : List Char) : Option (List Char) := do
  let chars ← need? "<?xml " chars
  let chars ← (← declarationPart? "version" isVersion (skipSpace chars))
  let chars ← declarationSpace? chars
  let isEncodingChar := fun c : Char => c.isAlphanum || c == '.' || c == '-' || c == '_'
  let chars ← match ← declarationPart? "encoding" (·.all isEncodingChar) chars with
    | some chars => declarationSpace? chars
    | none => some chars
  let isYesOrNo := fun value => value = "yes".toList || value = "no".toList
  let chars := (← declarationPart? "standalone" isYesOrNo chars).getD chars
  need? "?>" (skipSpace chars)

/-- What follows the address of an external part of a document type; nothing is read when there is
none. -/
def externalId? (chars : List Char) : Option (Option (List Char)) :=
  match need? "SYSTEM" chars, need? "PUBLIC" chars with
  | some chars, _ => do some (some (← literal? (← needSpace? chars)))
  | none, some chars => do
    some (some (← literal? (← needSpace? (← literal? (← needSpace? chars)))))
  | none, none => some none

/-- What follows the beginning of a document type, and whether declarations come next. -/
def doctype? (chars : List Char) : Option (Bool × List Char) := do
  let chars ← needSpace? (← need? "<!DOCTYPE" chars)
  let (_, chars) ← anyName? chars
  let chars := skipSpace chars
  match skipSpace ((← externalId? chars).getD chars) with
  | '[' :: rest => some (true, rest)
  | '>' :: rest => some (false, rest)
  | _ => none

/-- What follows the name of a notation, which may be missing at the end of the text. -/
def notation? (chars : List Char) : Option (List Char) := do
  match ← needSpace? chars with
  | [] => some []
  | chars => (anyName? chars).map Prod.snd

def entityMeaning? (general : Bool) (chars : List Char) : Option (List Char) := do
  match quote? chars with
  | some _ => literal? chars
  | none =>
    let chars ← (← externalId? chars)
    match if general then need? "NDATA" (skipSpace chars) else none with
    | some chars => notation? chars
    | none => some chars

def entity? (chars : List Char) : Option (List Char) := do
  let chars ← needSpace? (← need? "<!ENTITY" chars)
  let (general, chars) ← match chars with
    | '%' :: rest => (needSpace? rest).map fun rest => (false, rest)
    | chars => some (true, chars)
  let (_, chars) ← anyName? chars
  let chars ← entityMeaning? general (← needSpace? chars)
  need? ">" (skipSpace chars)

/-- What a step of reading yields. -/
structure Step where
  token : Option Token := none
  place : Place
  rest : List Char

/-- A step over a part that yields no token and leaves the place as it is. -/
def passing (place : Place) (rest? : Option (List Char)) : Option Step :=
  rest?.map fun rest => { place, rest }

/-- A step over a comment, an instruction or white space; none if there is neither of them. -/
def misc? (place : Place) (chars : List Char) : Option (Option Step) :=
  if Text.startsWith "<!--" chars then some (passing place (comment? chars))
  else if Text.startsWith "<?" chars then some (passing place (instruction? chars))
  else if chars.head?.any isSpace then some (passing place (some (skipSpace chars)))
  else none

/-- The place behind a whole element or a closing tag that leaves so many elements open. -/
def placeWithin (depth : Nat) : Place :=
  if depth = 0 then .afterRoot else .content depth

def prologStep? (chars : List Char) : Option Step :=
  if Text.startsWith "<!DOCTYPE" chars then
    (doctype? chars).map fun (opened, rest) =>
      { place := if opened then .doctype else .beforeRoot, rest }
  else (misc? .prolog chars).getD (some { place := .beforeRoot, rest := chars })

def doctypeStep? (chars : List Char) : Option Step :=
  match misc? .doctype chars with
  | some step => step
  | none =>
    if Text.startsWith "<!ENTITY" chars then passing .doctype (entity? chars)
    else if Text.startsWith "]" chars then
      passing .beforeRoot (need? ">" (skipSpace chars.tail))
    else if Text.startsWith "<!ELEMENT" chars || Text.startsWith "<!ATTLIST" chars ||
        Text.startsWith "<!NOTATION" chars then
      passing .doctype (need? ">" (chars.dropWhile (· ≠ '>')))
    else none

def elementStart? (depth : Nat) (chars : List Char) : Option Step := do
  let (name, rest) ← Name.read? (← need? "<" chars)
  some { token := some (.elementStart name), place := .tag depth, rest }

def beforeRootStep? (chars : List Char) : Option Step :=
  (misc? .beforeRoot chars).getD (elementStart? 0 chars)

def elementEnd? (depth : Nat) (chars : List Char) : Option Step := do
  let (name, rest) ← Name.read? (← need? "</" chars)
  let rest ← need? ">" (skipSpace rest)
  some { token := some (.elementEnd name), place := placeWithin (depth - 1), rest }

/-- Character data up to the next tag. It does not hold the end of a section without references. -/
def text? (depth : Nat) (chars : List Char) : Option Step := do
  let (run, rest) ← runOf? (· ≠ '<') chars
  if (upTo? "]]>" run).isSome then none
  else some { token := some (.text (String.ofList run)), place := .content depth, rest }

def cdata? (depth : Nat) (chars : List Char) : Option Step := do
  let (run, rest) ← upTo? "]]>" (← need? "<![CDATA[" chars)
  some { token := some (.cdata (String.ofList run)), place := .content depth, rest }

def contentStep? (depth : Nat) (chars : List Char) : Option Step :=
  match chars with
  | '<' :: '!' :: _ =>
    if Text.startsWith "<!--" chars then passing (.content depth) (comment? chars)
    else cdata? depth chars
  | '<' :: '?' :: _ => passing (.content depth) (instruction? chars)
  | '<' :: '/' :: _ => elementEnd? depth chars
  | '<' :: _ => elementStart? depth chars
  | _ => text? depth chars

def attribute? (depth : Nat) (chars : List Char) : Option Step := do
  let (name, chars) ← Name.read? chars
  let (q, chars) ← quote? (← equals? chars)
  let (value, chars) ← runOf? (fun c => c ≠ q && c ≠ '<') chars
  let rest ← need? (String.singleton q) chars
  some { token := some (.attribute name (String.ofList value)), place := .tag depth, rest }

def tagStep? (depth : Nat) (chars : List Char) : Option Step :=
  match skipSpace chars with
  | '/' :: rest =>
    (need? ">" rest).map fun rest =>
      { token := some .emptyEnd, place := placeWithin depth, rest }
  | '>' :: rest => some { token := some .tagEnd, place := .content (depth + 1), rest }
  | rest => if chars.head?.any isSpace then attribute? depth rest else none

def step? (place : Place) (chars : List Char) : Option Step :=
  match place with
  | .declaration =>
    if Text.startsWith "<?xml " chars then passing .prolog (declaration? chars)
    else some { place := .prolog, rest := chars }
  | .prolog => prologStep? chars
  | .doctype => doctypeStep? chars
  | .beforeRoot => beforeRootStep? chars
  | .content depth => contentStep? depth chars
  | .tag depth => tagStep? depth chars
  | .afterRoot => (misc? .afterRoot chars).getD none

/-- The tokens of a text from a place on, and whether all of the text is well formed. -/
def scanFrom : Nat → Place → List Char → List Token × Bool
  | _, _, [] => ([], true)
  | 0, _, _ :: _ => ([], false)
  | fuel + 1, place, c :: chars =>
    match step? place (c :: chars) with
    | none => ([], false)
    | some step =>
      let (tokens, whole) := scanFrom fuel step.place step.rest
      (step.token.toList ++ tokens, whole)

/-- The tokens of a document up to the first fault, and whether there is none. A mark of byte order
before it is skipped. Every step but the first two takes a character, which bounds the steps. -/
def scan (s : String) : List Token × Bool :=
  let chars := match s.toList with
    | c :: rest => if c = '\uFEFF' then rest else c :: rest
    | [] => []
  scanFrom (chars.length + 2) .declaration chars

end Token
end ServiceBindings.Xml
