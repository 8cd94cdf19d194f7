import ServiceBindings.Naming.Case

/-! Identifiers of generated items, and the files in which they are placed. -/
namespace ServiceBindings.Naming

/-- A module of generated source. -/
inductive Area where
  | input
  | output
  /-- All other structures. -/
  | types
  | enums
  /-- Functions that call operations. -/
  | client
deriving DecidableEq

def Area.text : Area → String
  | input => "input"
  | output => "output"
  | types => "types"
  | enums => "enums"
  | client => "client"

structure Identifier where
  area : Area
  name : String
deriving DecidableEq

def Identifier.text (ident : Identifier) : String :=
  ident.area.text ++ "::" ++ ident.name

/-- Types that every module sees; a generated type of such a name would hide one of them. -/
def reservedTypes : List String :=
  ["Box", "Clone", "Default", "Err", "Error", "None", "Object", "Ok", "Option", "Result", "Self",
    "Some", "String", "Vec"]

/-- Keywords that are names when a raw mark stands before them. -/
def keywords : List String :=
  ["abstract", "as", "async", "await", "become", "box", "break", "const", "continue", "do", "dyn",
    "else", "enum", "extern", "false", "final", "fn", "for", "if", "impl", "in", "let", "loop",
    "macro", "match", "mod", "move", "mut", "override", "priv", "pub", "ref", "return", "static",
    "struct", "trait", "true", "try", "type", "typeof", "unsafe", "unsized", "use", "virtual",
    "where", "while", "yield"]

/-- Keywords that are never names, even behind a raw mark. -/
def pathKeywords : List String :=
  ["crate", "self", "super", "Self"]

/-- The mark that makes a keyword a name. -/
def rawMark : List Char :=
  ['r', '#']

def typeName (name : String) : String :=
  let spelled := pascalCase name
  if spelled ∈ reservedTypes then "Aws" ++ spelled else spelled

def memberName (name : String) : String :=
  let spelled := snakeCase name
  if spelled ∈ pathKeywords then spelled ++ "_"
  else if spelled ∈ keywords then String.ofList rawMark ++ spelled
  else spelled

/-- Characters without the raw marks at their start. -/
def dropRawMarks : List Char → List Char
  | 'r' :: '#' :: rest => dropRawMarks rest
  | chars => chars

/-- The name, without its extension, of the file for an item. -/
def fileStem (name : String) : String :=
  snakeCase (String.ofList (dropRawMarks name.toList))

end ServiceBindings.Naming
