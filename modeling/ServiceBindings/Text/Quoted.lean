import ServiceBindings.Text.Digits
import ServiceBindings.Text.Printable

/-! Texts in quotes, as source text writes them. -/
namespace ServiceBindings.Text

/-- A character between quotes: it stands for itself, or behind a backslash by a letter or its code
point. -/
def quotedChar (c : Char) : List Char :=
  if c = '\x00' then ['\\', '0']
  else if c = '\t' then ['\\', 't']
  else if c = '\r' then ['\\', 'r']
  else if c = '\n' then ['\\', 'n']
  else if c = '"' then ['\\', '"']
  else if c = '\\' then ['\\', '\\']
  else if isPrintable c then [c]
  else '\\' :: 'u' :: '\x7b' :: (hexDigits c.toNat ++ ['\x7d'])

def quoted (s : String) : String :=
  String.ofList ('"' :: (s.toList.flatMap quotedChar ++ ['"']))

end ServiceBindings.Text
