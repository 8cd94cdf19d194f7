/-! Fixed beginnings of texts. -/
namespace ServiceBindings.Text

/-- What follows an expected beginning, if the text has it. -/
def expect? : List Char → List Char → Option (List Char)
  | [], chars => some chars
  | _ :: _, [] => none
  | e :: expected, c :: chars => if e = c then expect? expected chars else none

/-- Whether a text begins with `expected`. -/
def startsWith (expected : String) (chars : List Char) : Bool :=
  (expect? expected.toList chars).isSome

end ServiceBindings.Text
