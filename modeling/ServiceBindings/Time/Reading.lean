import ServiceBindings.Decimal.Reading
import ServiceBindings.Text.Blank
import ServiceBindings.Text.Expect
import ServiceBindings.Time.Format

/-! Instants read from their written forms. -/
namespace ServiceBindings.Time

/-- The number that exactly `width` leading digits write, and what follows them. -/
def number? (width : Nat) (chars : List Char) : Option (Nat × List Char) :=
  let leading := chars.take width
  if leading.length = width ∧ leading.all Char.isDigit then
    (Text.ofDigits? 10 leading).map fun n => (n, chars.drop width)
  else none

/-- The place in a list of the name with which a text begins, and what follows the name. -/
def name? : List String → List Char → Option (Nat × List Char)
  | [], _ => none
  | name :: names, chars =>
    match Text.expect? name.toList chars with
    | some rest => some (0, rest)
    | none => (name? names chars).map fun (i, rest) => (i + 1, rest)

/-- Hour, minute and second, and what follows them. -/
def clock? (chars : List Char) : Option ((Nat × Nat × Nat) × List Char) := do
  let (hour, chars) ← number? 2 chars
  let chars ← Text.expect? [':'] chars
  let (minute, chars) ← number? 2 chars
  let chars ← Text.expect? [':'] chars
  let (second, chars) ← number? 2 chars
  some ((hour, minute, second), chars)

/-- The nanoseconds of an optional fraction and what follows it. Digits past the ninth are dropped.
-/
def fraction? : List Char → Option (Nat × List Char)
  | '.' :: chars => do
    let (digits, rest) := Decimal.spanDigits chars
    let n ← Text.ofDigits? 10 digits
    some (n * Nat.pow 10 (9 - digits.length) / Nat.pow 10 (digits.length - 9), rest)
  | chars => some (0, chars)

/-- The offset from universal time in seconds, at the end of a text. -/
def offset? : List Char → Option Int
  | ['Z'] => some 0
  | ['z'] => some 0
  | sign :: chars => do
    let (hour, chars) ← number? 2 chars
    let chars ← Text.expect? [':'] chars
    let (minute, chars) ← number? 2 chars
    let seconds : Int := (hour * 3600 + minute * 60 : Nat)
    if hour ≤ 23 ∧ minute ≤ 59 ∧ chars = [] then
      if sign = '+' then some seconds else if sign = '-' then some (-seconds) else none
    else none
  | [] => none

/-- The last second of a month in universal time, where alone a leap second may follow. -/
def endsMonth (seconds : Int) : Bool :=
  let date := Date.ofDays (seconds / 86400)
  seconds % 86400 = 86399 && date.day = daysInMonth date.year date.month

/-- Reads a date, one character of ASCII, a time with an optional fraction, and an offset. A leap
second is taken for the last nanosecond before it. -/
def dateTime? (chars : List Char) : Option Instant := do
  let (year, chars) ← number? 4 chars
  let chars ← Text.expect? ['-'] chars
  let (month, chars) ← number? 2 chars
  let chars ← Text.expect? ['-'] chars
  let (day, chars) ← number? 2 chars
  let separator ← chars.head?
  let ((hour, minute, second), chars) ← clock? chars.tail
  let (nanos, chars) ← fraction? chars
  let offset ← offset? chars
  let date : Date := ⟨year, month, day⟩
  if separator.toNat < 128 ∧ date.Valid ∧ hour ≤ 23 ∧ minute ≤ 59 ∧ second ≤ 60 then
    let midnight := date.toDays * 86400 - offset
    if second = 60 then
      let seconds := midnight + (hour * 3600 + minute * 60 + 59 : Nat)
      if endsMonth seconds then some (Instant.ofParts seconds 999999999) else none
    else some (Instant.ofParts (midnight + (hour * 3600 + minute * 60 + second : Nat)) nanos)
  else none

/-- A year of exactly four digits with an optional sign, and what follows it. -/
def signedYear? : List Char → Option (Int × List Char)
  | '-' :: chars => (number? 4 chars).map fun (n, rest) => (-(n : Int), rest)
  | '+' :: chars => (number? 4 chars).map fun (n, rest) => ((n : Int), rest)
  | chars => (number? 4 chars).map fun (n, rest) => ((n : Int), rest)

/-- Reads the name of any weekday, a date and a time in universal time. -/
def httpDate? (chars : List Char) : Option Instant := do
  let (_, chars) ← name? weekdayNames chars
  let chars ← Text.expect? ", ".toList chars
  let (day, chars) ← number? 2 chars
  let chars ← Text.expect? [' '] chars
  let (month, chars) ← name? monthNames chars
  let chars ← Text.expect? [' '] chars
  let (year, chars) ← signedYear? chars
  let chars ← Text.expect? [' '] chars
  let ((hour, minute, second), chars) ← clock? chars
  let chars ← Text.expect? " GMT".toList chars
  let date : Date := ⟨year, month + 1, day⟩
  if chars = [] ∧ date.Valid ∧ hour ≤ 23 ∧ minute ≤ 59 ∧ second ≤ 59 then
    some (Instant.ofParts
      (date.toDays * 86400 + (hour * 3600 + minute * 60 + second : Nat)) 0)
  else none

def epochSeconds? (chars : List Char) : Option Instant :=
  (Decimal.float? chars).bind fun x => if x.isFinite then some (Instant.ofFloat x) else none

/-- The instant that a text writes in a form, apart from white space around it. -/
def read? (form : Format) (s : String) : Option Instant :=
  let chars := Text.trimmed s.toList
  match form with
  | .dateTime => dateTime? chars
  | .httpDate => httpDate? chars
  | .epochSeconds => epochSeconds? chars

/-- The instant that a text writes in the first of the forms that fits it. -/
def readAny? (s : String) : Option Instant :=
  ((read? .dateTime s).or (read? .httpDate s)).or (read? .epochSeconds s)

/-- A text that is no instant in the form in which it was read last. -/
structure ReadError where
  form : Format
deriving DecidableEq

def ReadError.message : ReadError → String
  | ⟨.dateTime⟩ => "failed to parse DateTime timestamp"
  | ⟨.httpDate⟩ => "failed to parse HttpDate timestamp"
  | ⟨.epochSeconds⟩ => "failed to parse EpochSeconds timestamp: not a number of seconds"

end ServiceBindings.Time
