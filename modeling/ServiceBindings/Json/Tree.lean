import ServiceBindings.Json.Numeral
import ServiceBindings.Text.Expect
import ServiceBindings.Text.Utf8

/-! JSON texts as read. A tree keeps repeated names, numerals without a value and texts whose
escapes name no character, so that content which nobody asks for need not be sound. -/
namespace ServiceBindings.Json

inductive Piece where
  | char (c : Char)
  /-- An escape by four hexadecimal digits. -/
  | unit (n : Nat)

/-- A JSON text as read. A quoted text is none when its escapes name no character. -/
inductive Tree where
  | null
  | bool (b : Bool)
  | numeral (n : Numeral)
  | string (s : Option String)
  | array (items : List Tree)
  /-- Members in order, with repeated names. -/
  | object (members : List (Option String × Tree))

/-- White space between the parts of a JSON text. -/
def isSpace (c : Char) : Bool :=
  c = ' ' || c = '\t' || c = '\n' || c = '\r'

def skipSpace (chars : List Char) : List Char :=
  chars.dropWhile isSpace

def escaped? (c : Char) : Option Char :=
  if c = '"' ∨ c = '\\' ∨ c = '/' then some c
  else if c = 'b' then some '\x08'
  else if c = 'f' then some '\x0c'
  else if c = 'n' then some '\n'
  else if c = 'r' then some '\r'
  else if c = 't' then some '\t'
  else none

/-- The pieces of a quoted text behind its opening quote, and what follows the closing one. -/
def pieces? : List Char → Option (List Piece × List Char)
  | [] => none
  | '"' :: rest => some ([], rest)
  | '\\' :: 'u' :: a :: b :: c :: d :: rest =>
    match Text.ofDigits? 16 [a, b, c, d], pieces? rest with
    | some n, some (pieces, rest) => some (.unit n :: pieces, rest)
    | _, _ => none
  | '\\' :: e :: rest =>
    match escaped? e, pieces? rest with
    | some c, some (pieces, rest) => some (.char c :: pieces, rest)
    | _, _ => none
  | c :: rest =>
    if c.toNat < 32 ∨ c = '\\' then none
    else (pieces? rest).map fun (pieces, rest) => (.char c :: pieces, rest)

/-- The characters of pieces. The units of a character beyond the first plane stand in pairs. -/
def joinPieces? : List Piece → Option (List Char)
  | [] => some []
  | .char c :: rest => (joinPieces? rest).map (c :: ·)
  | .unit high :: .unit low :: rest =>
    if 0xD800 ≤ high ∧ high < 0xDC00 then
      if 0xDC00 ≤ low ∧ low < 0xE000 then
        (joinPieces? rest).map
          (Char.ofNat (0x10000 + (high - 0xD800) * 0x400 + (low - 0xDC00)) :: ·)
      else none
    else if 0xDC00 ≤ high ∧ high < 0xE000 then none
    else (joinPieces? (.unit low :: rest)).map (Char.ofNat high :: ·)
  | .unit n :: rest =>
    if 0xD800 ≤ n ∧ n < 0xE000 then none else (joinPieces? rest).map (Char.ofNat n :: ·)

def quoted? (chars : List Char) : Option (Option String × List Char) :=
  (pieces? chars).map fun (pieces, rest) => ((joinPieces? pieces).map String.ofList, rest)

mutual

def tree? : Nat → List Char → Option (Tree × List Char)
  | 0, _ => none
  | fuel + 1, chars =>
    match skipSpace chars with
    | '"' :: rest => (quoted? rest).map fun (s, rest) => (.string s, rest)
    | '[' :: rest =>
      match skipSpace rest with
      | ']' :: rest => some (.array [], rest)
      | rest => (items? fuel rest).map fun (items, rest) => (.array items, rest)
    | '\x7b' :: rest =>
      match skipSpace rest with
      | '\x7d' :: rest => some (.object [], rest)
      | rest => (members? fuel rest).map fun (members, rest) => (.object members, rest)
    | 'n' :: rest => (Text.expect? "ull".toList rest).map fun rest => (.null, rest)
    | 't' :: rest => (Text.expect? "rue".toList rest).map fun rest => (.bool true, rest)
    | 'f' :: rest => (Text.expect? "alse".toList rest).map fun rest => (.bool false, rest)
    | rest => (Numeral.read? rest).map fun (n, rest) => (.numeral n, rest)

def items? : Nat → List Char → Option (List Tree × List Char)
  | 0, _ => none
  | fuel + 1, chars =>
    match tree? fuel chars with
    | none => none
    | some (item, rest) =>
      match skipSpace rest with
      | ']' :: rest => some ([item], rest)
      | ',' :: rest => (items? fuel rest).map fun (items, rest) => (item :: items, rest)
      | _ => none

def members? : Nat → List Char → Option (List (Option String × Tree) × List Char)
  | 0, _ => none
  | fuel + 1, chars =>
    match skipSpace chars with
    | '"' :: rest =>
      match quoted? rest with
      | none => none
      | some (key, rest) =>
        match skipSpace rest with
        | ':' :: rest =>
          match tree? fuel rest with
          | none => none
          | some (value, rest) =>
            match skipSpace rest with
            | '\x7d' :: rest => some ([(key, value)], rest)
            | ',' :: rest =>
              (members? fuel rest).map fun (members, rest) => ((key, value) :: members, rest)
            | _ => none
        | _ => none
    | _ => none

end

/-- The tree of a whole text. A step of reading takes a character at least every second time, which
bounds the steps. -/
def Tree.ofChars? (chars : List Char) : Option Tree :=
  match tree? (2 * chars.length + 2) chars with
  | some (tree, rest) => if skipSpace rest = [] then some tree else none
  | none => none

mutual

def Tree.depth : Tree → Nat
  | .array items => depthOfItems items + 1
  | .object members => depthOfMembers members + 1
  | _ => 0

def depthOfItems : List Tree → Nat
  | [] => 0
  | item :: rest => max item.depth (depthOfItems rest)

def depthOfMembers : List (Option String × Tree) → Nat
  | [] => 0
  | (_, value) :: rest => max value.depth (depthOfMembers rest)

end

end ServiceBindings.Json
