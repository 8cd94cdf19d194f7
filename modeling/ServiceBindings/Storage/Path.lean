/-! Paths as texts: slashes separate the steps. -/
namespace ServiceBindings.Storage.Path

/-- The path of a part of a directory. A part that begins with a slash stands by itself. -/
def join (directory part : String) : String :=
  if directory = "" ∨ part.toList.head? = some '/' then part
  else if directory.toList.getLast? = some '/' then directory ++ part
  else directory ++ "/" ++ part

/-- What stands between the slashes of a path. -/
def pieces (path : String) : List String :=
  (path.toList.splitOnP (· = '/')).map String.ofList

/-- A piece that leads nowhere: nothing, or a single point. -/
def isIdle (piece : String) : Bool :=
  piece = "" || piece = "."

/-- The steps along a path: a name leads down, and two points lead up. -/
def steps (path : String) : List String :=
  (pieces path).filter (!isIdle ·)

/-- The path without its last step. -/
def parent (path : String) : String :=
  let before := ((pieces path).reverse.dropWhile isIdle).drop 1
  "/".intercalate (before.dropWhile isIdle).reverse

def maxSize : Nat := 4095

def maxNameSize : Nat := 255

/-- Whether a text can be a path: it is short enough and has no null character. -/
def isPath (text : String) : Bool :=
  text.utf8ByteSize ≤ maxSize && !text.toList.contains '\x00'

/-- Whether a step can be the name of a file or a directory. -/
def isName (step : String) : Bool :=
  step ≠ ".." && step.utf8ByteSize ≤ maxNameSize

end ServiceBindings.Storage.Path
