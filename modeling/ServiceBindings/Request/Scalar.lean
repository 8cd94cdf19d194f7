import ServiceBindings.Number
import ServiceBindings.Plan.Target
import ServiceBindings.Text.Base64
import ServiceBindings.Value.Basic
import ServiceBindings.Value.Path

/-! Texts of values without parts, and the errors of writing requests. -/
namespace ServiceBindings.Request
open Plan (Target)

inductive Error where
  | kind (path expected found : String)
  | missingLabel (label : String)
  | invalidHeader (name : String)
  | unwritableInstant
  | invalidAddress
deriving DecidableEq

def Error.message : Error → String
  | kind path expected found => "`" ++ path ++ "` expected " ++ expected ++ ", found " ++ found
  | missingLabel label => "no value for URI label `" ++ label ++ "`"
  | invalidHeader name => "invalid value for header `" ++ name ++ "`"
  | unwritableInstant => "failed to format timestamp"
  | invalidAddress => "failed to build request"

def wrongKind {α : Type} (path : String) (target : Target) (value : Value) : Except Error α :=
  .error (.kind path target.expected value.kind)

def instantText (t : Instant) (form : Time.Format) : Except Error String :=
  match Time.format? t form with
  | some s => .ok s
  | none => .error .unwritableInstant

/-- The text of a value without parts. Instants are written in the form of their target, or else in
the given one. -/
def scalarText (form : Time.Format) (path : String) (target : Target) (value : Value) :
    Except Error String :=
  match target, value with
  | .enumeration _, .string s => .ok s
  | .scalar .string _ _, .string s => .ok s
  | .scalar .boolean _ _, .boolean b => .ok (if b then "true" else "false")
  | .scalar .integer _ _, .integer i => .ok (Text.integer i)
  | .scalar .float _ _, .float x => .ok (Number.float x).text
  | .scalar .float _ _, .integer i => .ok (Text.integer i)
  | .scalar .timestamp format _, .timestamp t => instantText t (format.getD form)
  | .scalar .blob _ _, .blob bytes => .ok (Text.Base64.encode bytes)
  | _, _ => wrongKind path target value

/-- Writes items with the given step, each under its position, and puts the results together. -/
def eachItem {α : Type} (step : String → Value → Except Error (List α)) (path : String) :
    Nat → List Value → Except Error (List α)
  | _, [] => .ok []
  | position, item :: rest => do
    let written ← step (itemPath path position) item
    return written ++ (← eachItem step path (position + 1) rest)

/-- Writes entries with the given step, each under its key, and puts the results together. -/
def eachEntry {α : Type} (step : String → String → Value → Except Error (List α))
    (path : String) : List (String × Value) → Except Error (List α)
  | [] => .ok []
  | (key, value) :: rest => do
    let written ← step key (partPath path key) value
    return written ++ (← eachEntry step path rest)

end ServiceBindings.Request
