import ServiceBindings.Text.Digits

/-! Decimal numerals read as floats. -/
namespace ServiceBindings.Decimal

def notANumber : Float := 0.0 / 0.0

def infinity : Float := 1.0 / 0.0

/-- The float nearest to `n * 10 ^ e`. Beyond every finite float it is infinite, and below half of
the least positive float it is zero. -/
def nearestFloat (n : Nat) (e : Int) : Float :=
  let order := (Text.digits n).length + e
  if n = 0 ∨ order < -400 then 0.0
  else if 400 < order then infinity
  else Float.ofScientific n (e < 0) e.natAbs

def spanDigits (chars : List Char) : List Char × List Char :=
  chars.span Char.isDigit

/-- A decimal exponent, with its letter, up to the end of the text; none is written for zero. -/
def exponent? : List Char → Option Int
  | [] => some 0
  | c :: rest =>
    if c = 'e' ∨ c = 'E' then
      match rest with
      | '-' :: rest => (Text.ofDigits? 10 rest).map fun n => -(n : Int)
      | rest => (Text.ofPlusDigits? 10 rest).map fun n => (n : Int)
    else none

/-- A numeral without a sign: digits with an optional point and exponent. At least one digit
stands before or after the point. -/
def unsigned? (chars : List Char) : Option Float :=
  let (whole, rest) := spanDigits chars
  let (fraction, rest) := match rest with
    | '.' :: rest => spanDigits rest
    | rest => ([], rest)
  match Text.ofDigits? 10 (whole ++ fraction), exponent? rest with
  | some n, some e => some (nearestFloat n (e - fraction.length))
  | _, _ => none

/-- A number word or a numeral, without a sign. -/
def magnitude? (chars : List Char) : Option Float :=
  match String.ofList (chars.map Char.toLower) with
  | "inf" | "infinity" => some infinity
  | "nan" => some notANumber
  | _ => unsigned? chars

/-- The float that a text writes: a numeral, an infinity or not a number, with an optional sign. -/
def float? (chars : List Char) : Option Float :=
  match chars with
  | '-' :: rest => (magnitude? rest).map fun x => -x
  | '+' :: rest => magnitude? rest
  | chars => magnitude? chars

end ServiceBindings.Decimal
