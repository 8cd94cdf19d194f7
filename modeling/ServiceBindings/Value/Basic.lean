import ServiceBindings.Http.Source
import ServiceBindings.Time.Instant
import ServiceBindings.Fields

/-! Values of shapes. -/
namespace ServiceBindings

inductive Value where
  | string (s : String)
  | boolean (b : Bool)
  | integer (i : Int)
  | float (x : Float)
  | timestamp (t : Instant)
  | blob (bytes : Bytes)
  | stream (source : Http.Source)
  | list (items : List Value)
  | map (entries : List (String × Value))
  /-- The members of a structure that are present, under the name of its shape. -/
  | structure (shape : String) (fields : List (String × Value))

/-- A structure's value: the members that are present, each name once. -/
structure Record where
  shape : String
  fields : Fields Value := []

def Record.toValue (record : Record) : Value :=
  .structure record.shape record.fields

namespace Record

def get? (record : Record) (name : String) : Option Value :=
  Fields.get? record.fields name

def set (record : Record) (name : String) (value : Value) : Record :=
  { record with fields := Fields.set name value record.fields }

def erase (record : Record) (name : String) : Record :=
  { record with fields := Fields.erase record.fields name }

end Record

namespace Value

def kind : Value → String
  | string _ => "string"
  | boolean _ => "boolean"
  | integer _ => "integer"
  | float _ => "float"
  | timestamp _ => "timestamp"
  | blob _ => "blob"
  | stream _ => "stream"
  | list _ => "list"
  | map _ => "map"
  | .structure _ _ => "structure"

def string? : Value → Option String
  | string s => some s
  | _ => none

def integer? : Value → Option Int
  | integer i => some i
  | _ => none

def items? : Value → Option (List Value)
  | list items => some items
  | _ => none

def entries? : Value → Option (Fields Value)
  | map entries => some entries
  | _ => none

def record? : Value → Option Record
  | .structure shape fields => some ⟨shape, fields⟩
  | _ => none

mutual

/-- Values are the same when their kinds and parts are, whatever the order of entries and members.
Floats are compared as numbers, and sources by whether they share their content. -/
def same : Value → Value → Bool
  | string s, string t => s = t
  | boolean a, boolean b => a = b
  | integer i, integer j => i = j
  | float x, float y => x == y
  | timestamp t, timestamp u => t = u
  | blob a, blob b => a = b
  | stream a, stream b => a.same b
  | list a, list b => sameItems a b
  | map a, map b => a.length = b.length && sameEntries a b
  | .structure s a, .structure t b => s = t && a.length = b.length && sameEntries a b
  | _, _ => false

/-- Items are compared in order. -/
def sameItems : List Value → List Value → Bool
  | [], [] => true
  | a :: rest, b :: others => a.same b && sameItems rest others
  | _, _ => false

/-- Each entry is compared with the one of its name. -/
def sameEntries : List (String × Value) → Fields Value → Bool
  | [], _ => true
  | (name, a) :: rest, others =>
    (match Fields.get? others name with
      | some b => a.same b
      | none => false) && sameEntries rest others

end

end Value
end ServiceBindings
