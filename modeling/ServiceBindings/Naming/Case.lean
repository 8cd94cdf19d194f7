/-! Spellings of names in generated source. They keep letters and digits of ASCII alone. -/
namespace ServiceBindings.Naming

/-- Words run together, each with a capital: `start` tells whether a word begins here. -/
def pascalChars (start : Bool) : List Char → List Char
  | [] => []
  | c :: rest =>
    if c.isAlphanum then (if start then c.toUpper else c) :: pascalChars false rest
    else pascalChars true rest

/-- Whether a word begins at a capital: behind a small letter or digit, or at the last capital of a
run that a small letter follows. -/
def beginsWord (previous : Char) (next : Option Char) : Bool :=
  previous.isLower || previous.isDigit || previous.isUpper && next.any Char.isLower

/-- Words in small letters with an underscore between them, given the character before them. -/
def snakeChars (previous : Option Char) : List Char → List Char
  | [] => []
  | c :: rest =>
    if c.isAlphanum then
      if c.isUpper && previous.any (beginsWord · rest.head?) then
        '_' :: c.toLower :: snakeChars (some c) rest
      else c.toLower :: snakeChars (some c) rest
    else if previous.any Char.isAlphanum then '_' :: snakeChars (some c) rest
    else snakeChars (some c) rest

/-- Characters without the underscores at their end. -/
def trimEndUnderscores (chars : List Char) : List Char :=
  (chars.reverse.dropWhile (· = '_')).reverse

/-- A digit at the start gets an underscore before it. -/
def guardDigit (chars : List Char) : List Char :=
  if chars.head?.any Char.isDigit then '_' :: chars else chars

/-- The spelling of a type. -/
def pascalCase (name : String) : String :=
  String.ofList (guardDigit (pascalChars true name.toList))

/-- The spelling of a field or function. -/
def snakeCase (name : String) : String :=
  String.ofList (guardDigit (trimEndUnderscores (snakeChars none name.toList)))

/-- Puts an underscore between a small letter and a capital or digit behind it. -/
def separateWords : List Char → List Char
  | a :: b :: rest =>
    if a.isLower && (b.isUpper || b.isDigit) then a :: '_' :: separateWords (b :: rest)
    else a :: separateWords (b :: rest)
  | chars => chars

def isConstantChar (c : Char) : Bool :=
  c.isUpper || c.isDigit || c = ' '

/-- Replaces each run of other characters by one underscore: `inRun` tells whether a run goes on. -/
def collapseRuns (inRun : Bool) : List Char → List Char
  | [] => []
  | c :: rest =>
    if isConstantChar c then c :: collapseRuns false rest
    else if inRun then collapseRuns true rest
    else '_' :: collapseRuns true rest

/-- The name of a value of an enumeration: words in capitals with one underscore between them. -/
def constantCase (value : String) : String :=
  String.ofList (collapseRuns false ((separateWords value.toList).map Char.toUpper))

end ServiceBindings.Naming
