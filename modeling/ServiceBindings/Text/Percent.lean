import ServiceBindings.Text.Digits
import ServiceBindings.Text.Utf8

/-! Percent escapes: a character that may not stand for itself is written byte by byte. -/
namespace ServiceBindings.Text.Percent

def escapeByte (b : UInt8) : List Char :=
  ['%', upperHexDigit (b.toNat / 16), upperHexDigit (b.toNat % 16)]

/-- A character that is kept stands for itself. -/
def escapeChar (keeps : Char → Bool) (c : Char) : List Char :=
  if keeps c then [c] else (String.utf8EncodeChar c).flatMap escapeByte

def escape (keeps : Char → Bool) (s : String) : String :=
  String.ofList (s.toList.flatMap (escapeChar keeps))

/-- Letters and digits of ASCII, and `- . _ ~`. -/
def isUnreserved (c : Char) : Bool :=
  c.isAlphanum || c == '-' || c == '.' || c == '_' || c == '~'

def label (greedy : Bool) (s : String) : String :=
  escape (fun c => isUnreserved c || greedy && c == '/') s

def query (s : String) : String :=
  escape isUnreserved s

/-- A value of a form: as in a query, with a plus sign for a space. -/
def form (s : String) : String :=
  String.ofList (s.toList.flatMap fun c => if c = ' ' then ['+'] else escapeChar isUnreserved c)

end ServiceBindings.Text.Percent
