import ServiceBindings.Document
import ServiceBindings.Text.Base64
import ServiceBindings.Time.Format

/-! JSON texts to be written, and the one way in which they are written. -/
namespace ServiceBindings.Json

inductive Node where
  | null
  | bool (b : Bool)
  | string (s : String)
  /-- Text that stands without quotes, such as a numeral. -/
  | bare (s : String)
  | array (items : List Node)
  | object (members : List (String × Node))

def escapeChar (c : Char) : List Char :=
  if c = '"' then ['\\', '"']
  else if c = '\\' then ['\\', '\\']
  else if c = '\x08' then ['\\', 'b']
  else if c = '\x0c' then ['\\', 'f']
  else if c = '\n' then ['\\', 'n']
  else if c = '\r' then ['\\', 'r']
  else if c = '\t' then ['\\', 't']
  else if c.toNat < 32 then
    ['\\', 'u', '0', '0', Text.hexDigit (c.toNat / 16), Text.hexDigit (c.toNat % 16)]
  else [c]

def quotedChars (s : String) : List Char :=
  '"' :: (s.toList.flatMap escapeChar ++ ['"'])

mutual

def Node.chars : Node → List Char
  | .null => "null".toList
  | .bool b => if b then "true".toList else "false".toList
  | .string s => quotedChars s
  | .bare s => s.toList
  | .array [] => ['[', ']']
  | .array (item :: rest) => '[' :: (item.chars ++ moreItems rest)
  | .object [] => ['\x7b', '\x7d']
  | .object ((key, value) :: rest) =>
    '\x7b' :: (quotedChars key ++ ':' :: (value.chars ++ moreMembers rest))

def moreItems : List Node → List Char
  | [] => [']']
  | item :: rest => ',' :: (item.chars ++ moreItems rest)

/-- The members after the first, each behind a comma, and the closing brace. -/
def moreMembers : List (String × Node) → List Char
  | [] => ['\x7d']
  | (key, value) :: rest =>
    ',' :: (quotedChars key ++ ':' :: (value.chars ++ moreMembers rest))

end

def Node.text (node : Node) : String :=
  String.ofList node.chars

/-- A number; a float that is not finite is written as a text. -/
def Node.ofNumber : Number → Node
  | .unsigned n => .bare (Text.integer n)
  | .signed i => .bare (Text.integer i)
  | .float x => if x.isFinite then .bare (Decimal.text x) else .string (Decimal.text x)

def Node.ofBytes (bytes : Bytes) : Node :=
  .string (Text.Base64.encode bytes)

/-- An instant in a written form: epoch seconds as a numeral, the other forms as a text. -/
def Node.ofInstant? (t : Instant) (form : Time.Format) : Option Node :=
  (Time.format? t form).map fun s => if form = .epochSeconds then .bare s else .string s

mutual

def Node.ofDocument : Document → Node
  | .object members => .object (nodesOfMembers members)
  | .array items => .array (nodesOfItems items)
  | .number n => .ofNumber n
  | .string s => .string s
  | .bool b => .bool b
  | .null => .null

def nodesOfItems : List Document → List Node
  | [] => []
  | item :: rest => Node.ofDocument item :: nodesOfItems rest

def nodesOfMembers : List (String × Document) → List (String × Node)
  | [] => []
  | (key, value) :: rest => (key, Node.ofDocument value) :: nodesOfMembers rest

end

end ServiceBindings.Json
