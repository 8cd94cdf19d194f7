/-! Texts as bytes: the encoding in one to four bytes, its strict and its forgiving reading. -/
namespace ServiceBindings

/-- Content as a list of bytes. -/
abbrev Bytes := List UInt8

namespace Text

def utf8 (s : String) : Bytes :=
  s.toList.flatMap String.utf8EncodeChar

/-- What a first byte asks for: the number of bytes that follow it, the bounds of the byte right
after it, and its own share of the code point. -/
def leadByte (b : Nat) : Option (Nat × Nat × Nat × Nat) :=
  if b < 0x80 then some (0, 0, 0, b)
  else if b < 0xC2 then none
  else if b < 0xE0 then some (1, 0x80, 0xBF, b - 0xC0)
  else if b = 0xE0 then some (2, 0xA0, 0xBF, 0)
  else if b = 0xED then some (2, 0x80, 0x9F, 0xD)
  else if b < 0xF0 then some (2, 0x80, 0xBF, b - 0xE0)
  else if b = 0xF0 then some (3, 0x90, 0xBF, 0)
  else if b < 0xF4 then some (3, 0x80, 0xBF, b - 0xF0)
  else if b = 0xF4 then some (3, 0x80, 0x8F, 4)
  else none

/-- Takes `count` further bytes, the first of them between `low` and `high`. The answer is the code
point, if all are there, and the number of bytes that fit. -/
def tailBytes : Nat → Nat → Nat → Nat → Bytes → Option Nat × Nat
  | 0, _, _, code, _ => (some code, 0)
  | _ + 1, _, _, _, [] => (none, 0)
  | count + 1, low, high, code, b :: rest =>
    if low ≤ b.toNat ∧ b.toNat ≤ high then
      let (found, taken) := tailBytes count 0x80 0xBF (code * 64 + (b.toNat - 0x80)) rest
      (found, taken + 1)
    else (none, 0)

/-- The character that begins with byte `b`, if it is well formed, and how many of the bytes behind
it belong to it or to its well-formed beginning. -/
def readChar (b : UInt8) (rest : Bytes) : Option Char × Nat :=
  match leadByte b.toNat with
  | none => (none, 0)
  | some (count, low, high, code) =>
    let (found, taken) := tailBytes count low high code rest
    (found.map Char.ofNat, taken)

/-- The characters of the bytes; each longest ill-formed beginning of a character is `none`. -/
def decodeChars : Bytes → List (Option Char)
  | [] => []
  | b :: rest =>
    (readChar b rest).1 :: decodeChars (rest.drop (readChar b rest).2)
  termination_by bytes => bytes.length
  decreasing_by simp only [List.length_drop, List.length_cons]; omega

def ofUtf8? (bytes : Bytes) : Option String :=
  ((decodeChars bytes).mapM id).map String.ofList

/-- The text of the bytes, with a replacement character for each longest ill-formed beginning. -/
def ofUtf8Lossy (bytes : Bytes) : String :=
  String.ofList ((decodeChars bytes).map (·.getD '\uFFFD'))

end Text
end ServiceBindings
