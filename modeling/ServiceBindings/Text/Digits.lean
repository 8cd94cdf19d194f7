/-! Numerals: digits written and read in base ten and sixteen. -/
namespace ServiceBindings.Text

def hexDigit (n : Nat) : Char :=
  if n < 10 then Char.ofNat (48 + n) else Char.ofNat (87 + n)

def upperHexDigit (n : Nat) : Char :=
  if n < 10 then Char.ofNat (48 + n) else Char.ofNat (55 + n)

def digitValue? (base : Nat) (c : Char) : Option Nat :=
  let value? :=
    if '0' ≤ c ∧ c ≤ '9' then some (c.toNat - 48)
    else if 'a' ≤ c ∧ c ≤ 'f' then some (c.toNat - 87)
    else if 'A' ≤ c ∧ c ≤ 'F' then some (c.toNat - 55)
    else none
  value?.filter (· < base)

def digits (n : Nat) : List Char :=
  if n < 10 then [hexDigit n] else digits (n / 10) ++ [hexDigit (n % 10)]

/-- The digits of a number in base sixteen, in lower case, the highest first. -/
def hexDigits (n : Nat) : List Char :=
  if n < 16 then [hexDigit n] else hexDigits (n / 16) ++ [hexDigit (n % 16)]

/-- The digits of a number, led by zeros up to a width. -/
def paddedDigits (width n : Nat) : List Char :=
  let shown := digits n
  List.replicate (width - shown.length) '0' ++ shown

def natural (n : Nat) : String :=
  String.ofList (digits n)

/-- An integer in base ten, a negative one behind a minus sign. -/
def integer (i : Int) : String :=
  String.ofList (if i < 0 then '-' :: digits i.natAbs else digits i.natAbs)

def ofDigits? (base : Nat) : List Char → Option Nat
  | [] => none
  | chars => chars.foldlM (fun n c => (digitValue? base c).map (n * base + ·)) 0

def ofPlusDigits? (base : Nat) : List Char → Option Nat
  | '+' :: rest => ofDigits? base rest
  | chars => ofDigits? base chars

/-- The least natural number beyond the signed integers of 64 bits. -/
def int64Bound : Int := 9223372036854775808

/-- The integer that a text writes in base ten, behind an optional sign, if it lies in the signed
range of 64 bits. -/
def int64? (chars : List Char) : Option Int :=
  let value? : Option Int := match chars with
    | '-' :: rest => (ofDigits? 10 rest).map fun n => -(n : Int)
    | chars => (ofPlusDigits? 10 chars).map fun n => (n : Int)
  value?.filter fun i => -int64Bound ≤ i ∧ i < int64Bound

end ServiceBindings.Text
