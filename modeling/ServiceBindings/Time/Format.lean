import ServiceBindings.Text.Digits
import ServiceBindings.Time.Calendar
import ServiceBindings.Time.Instant

/-! The written forms of instants. -/
namespace ServiceBindings.Time

inductive Format where
  /-- `2019-12-16T23:48:18.52Z`. -/
  | dateTime
  /-- `Mon, 16 Dec 2019 23:48:18 GMT`. -/
  | httpDate
  /-- `1576540098.52`. -/
  | epochSeconds
deriving DecidableEq

/-- The fraction of a second: a point and nine digits without their last zeros; nothing for none. -/
def fractionChars (nanos : Nat) : List Char :=
  if nanos = 0 then []
  else '.' :: ((Text.paddedDigits 9 nanos).reverse.dropWhile (· = '0')).reverse

/-- A year in four digits, a negative one behind a minus sign. -/
def yearChars (year : Int) : List Char :=
  if year < 0 then '-' :: Text.paddedDigits 4 year.natAbs else Text.paddedDigits 4 year.natAbs

def clockChars (second : Nat) : List Char :=
  Text.paddedDigits 2 (second / 3600) ++ ':' ::
    (Text.paddedDigits 2 (second / 60 % 60) ++ ':' :: Text.paddedDigits 2 (second % 60))

/-- The day on which an instant lies, if its year has at most four digits. -/
def date? (t : Instant) : Option Date :=
  let date := Date.ofDays (t.seconds / 86400)
  if -9999 ≤ date.year ∧ date.year ≤ 9999 then some date else none

/-- The characters of an instant's written form. Only epoch seconds can write every year. -/
def chars? (t : Instant) : Format → Option (List Char)
  | .epochSeconds =>
    some ((if t.seconds < 0 then ['-'] else []) ++ Text.digits t.seconds.natAbs ++
      fractionChars t.nanos)
  | .dateTime => do
    let date ← date? t
    some (yearChars date.year ++ '-' :: (Text.paddedDigits 2 date.month ++ '-' ::
      (Text.paddedDigits 2 date.day ++ 'T' :: (clockChars (t.seconds % 86400).toNat ++
        (fractionChars t.nanos ++ ['Z'])))))
  | .httpDate => do
    let date ← date? t
    some ((weekdayName (t.seconds / 86400)).toList ++ ',' :: ' ' ::
      (Text.paddedDigits 2 date.day ++ ' ' :: ((monthName date.month).toList ++ ' ' ::
        (yearChars date.year ++ ' ' :: (clockChars (t.seconds % 86400).toNat ++
          " GMT".toList)))))

def format? (t : Instant) (form : Format) : Option String :=
  (chars? t form).map String.ofList

end ServiceBindings.Time
