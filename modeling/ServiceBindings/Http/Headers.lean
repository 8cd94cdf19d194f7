import ServiceBindings.Fields

/-! Names and values of headers, and messages' headers in the order of their first appearance. -/
namespace ServiceBindings.Http

/-- A character of a token, as methods and names of headers are. -/
def isTokenChar (c : Char) : Bool :=
  c.isAlphanum || "!#$%&'*+-.^_`|~".toList.contains c

def isToken (s : String) : Bool :=
  s ≠ "" && s.toList.all isTokenChar

/-- A name of a header in lower case. -/
def headerName? (s : String) : Option String :=
  if isToken s then some (s.map Char.toLower) else none

def isHeaderChar (c : Char) : Bool :=
  c = '\t' || 32 ≤ c.toNat && c.toNat ≠ 127

def isHeaderValue (s : String) : Bool :=
  s.toList.all isHeaderChar

/-- A value that can be read back as text: visible characters of ASCII, spaces and tabs. -/
def isVisible (s : String) : Bool :=
  s.toList.all fun c => c = '\t' || 32 ≤ c.toNat && c.toNat < 127

/-- Headers: for each name in lower case its values, in the order in which the names appeared. -/
abbrev Headers := Fields (List String)

namespace Headers

def append (headers : Headers) (name value : String) : Headers :=
  let name := name.map Char.toLower
  Fields.set name ((Fields.get? headers name).getD [] ++ [value]) headers

/-- Makes a value the only one of its name. -/
def insert (headers : Headers) (name value : String) : Headers :=
  Fields.set (name.map Char.toLower) [value] headers

/-- Enters names and values in order; a repeated name has several values. -/
def ofList (entries : List (String × String)) : Headers :=
  entries.foldl (fun headers entry => append headers entry.1 entry.2) []

/-- The first value of a name, if it can be read as text. -/
def text? (headers : Headers) (name : String) : Option String :=
  match Fields.get? headers (name.map Char.toLower) with
  | some (value :: _) => if isVisible value then some value else none
  | _ => none

def contains (headers : Headers) (name : String) : Bool :=
  (Fields.get? headers (name.map Char.toLower)).isSome

def entries (headers : Headers) : List (String × String) :=
  headers.flatMap fun header => header.2.map fun value => (header.1, value)

end Headers
end ServiceBindings.Http
