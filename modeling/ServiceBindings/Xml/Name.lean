/-! Characters and names of XML. -/
namespace ServiceBindings.Xml

def inRanges (ranges : List (Nat × Nat)) (c : Char) : Bool :=
  ranges.any fun range => range.1 ≤ c.toNat && c.toNat ≤ range.2

def nameStartRanges : List (Nat × Nat) :=
  [(0x3A, 0x3A), (0x41, 0x5A), (0x5F, 0x5F), (0x61, 0x7A), (0xC0, 0xD6), (0xD8, 0xF6),
   (0xF8, 0x2FF), (0x370, 0x37D), (0x37F, 0x1FFF), (0x200C, 0x200D), (0x2070, 0x218F),
   (0x2C00, 0x2FEF), (0x3001, 0xD7FF), (0xF900, 0xFDCF), (0xFDF0, 0xFFFD), (0x10000, 0xEFFFF)]

def nameTailRanges : List (Nat × Nat) :=
  [(0x2D, 0x2E), (0x30, 0x39), (0xB7, 0xB7), (0x300, 0x36F), (0x203F, 0x2040)]

def isNameStart (c : Char) : Bool := inRanges nameStartRanges c

def isNameChar (c : Char) : Bool := isNameStart c || inRanges nameTailRanges c

/-- White space of markup. -/
def isSpace (c : Char) : Bool :=
  c = ' ' || c = '\t' || c = '\n' || c = '\r'

/-- A character that a document may hold. -/
def isChar (c : Char) : Bool :=
  if c.toNat < 0x20 then isSpace c else c.toNat ≠ 0xFFFE && c.toNat ≠ 0xFFFF

/-- A name in two parts, around a colon. -/
structure Name where
  /-- The short name of the namespace; empty if there is none. -/
  space : String
  base : String
deriving DecidableEq

def Name.text (name : Name) : String :=
  if name.space = "" then name.base else name.space ++ ":" ++ name.base

def Name.declaresNamespace (name : Name) : Bool :=
  name.space = "xmlns" || name.space = "" && name.base = "xmlns"

/-- The name with which a text begins, and what follows it. A name has at most one colon, its second
part is not empty, and neither part begins with a character that only continues names. -/
def Name.read? (chars : List Char) : Option (Name × List Char) :=
  let run := chars.takeWhile isNameChar
  let rest := chars.dropWhile isNameChar
  let (space, base) := match run.dropWhile (· ≠ ':') with
    | [] => ([], run)
    | _ :: base => (run.takeWhile (· ≠ ':'), base)
  let starts := fun part : List Char => part.head?.all isNameStart
  if ':' ∉ base ∧ base ≠ [] ∧ starts space ∧ starts base then
    some (⟨String.ofList space, String.ofList base⟩, rest)
  else none

end ServiceBindings.Xml
