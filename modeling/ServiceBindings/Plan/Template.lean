import ServiceBindings.Plan.Target

/-! Templates of addresses: a path with labels for members, and a query that is always sent. -/
namespace ServiceBindings.Plan

inductive Segment where
  | literal (s : String)
  /-- The value of a member, under the name that the template has for it. A greedy label keeps the
  slashes of its value. -/
  | label (member name : String) (greedy : Bool)
deriving DecidableEq

structure Template where
  path : List Segment
  /-- The query that is always sent. -/
  fixedQuery : Option String
deriving DecidableEq

/-- Text of a path as a piece, unless there is none. -/
def literalSegments (chars : List Char) : List Segment :=
  if chars = [] then [] else [.literal (String.ofList chars)]

/-- The name inside braces, and whether a plus behind it makes the label greedy. -/
def labelName (chars : List Char) : List Char × Bool :=
  if chars.getLast? = some '+' then (chars.dropLast, true) else (chars, false)

namespace Layout

/-- The member that a label names, by its name in messages or its own. -/
def labelMember? (layout : Layout) (name : String) : Option (Binding × Target) :=
  (layout.membersAt .uri).find? fun member => member.1.wireName = name ∨ member.1.name = name

/-- The piece for what stands between braces. -/
def labelSegment (layout : Layout) (template : String) (chars : List Char) :
    Except ModelError Segment :=
  let (name, greedy) := labelName chars
  let name := String.ofList name
  if name = "" then .error (.invalidUriTemplate template)
  else
    match layout.labelMember? name with
    | some member => .ok (.label member.1.name name greedy)
    | none => .error (.unknownMember layout.heading.shape name)

mutual

/-- The pieces of a path, given the text before it. A closing brace may not follow the last label.
-/
def segments (layout : Layout) (template : String) (before : List Char) :
    List Char → Except ModelError (List Segment)
  | [] =>
    if before.contains '}' then .error (.invalidUriTemplate template)
    else .ok (literalSegments before)
  | c :: rest =>
    if c = '{' then
      (labelSegments layout template [] rest).map (literalSegments before ++ ·)
    else segments layout template (before ++ [c]) rest

/-- The pieces from inside a label on, given what stands of its name. -/
def labelSegments (layout : Layout) (template : String) (name : List Char) :
    List Char → Except ModelError (List Segment)
  | [] => .error (.invalidUriTemplate template)
  | c :: rest =>
    if c = '}' then do
      let label ← layout.labelSegment template name
      return label :: (← segments layout template [] rest)
    else labelSegments layout template (name ++ [c]) rest

end

/-- Reads a template for an input. What follows the first question mark is always sent. -/
def template (layout : Layout) (text : String) : Except ModelError Template := do
  let chars := text.toList
  let path ← layout.segments text [] (chars.takeWhile (· ≠ '?'))
  let fixedQuery :=
    match chars.dropWhile (· ≠ '?') with
    | [] => none
    | _ :: query => some (String.ofList query)
  return { path, fixedQuery }

end Layout
end ServiceBindings.Plan
