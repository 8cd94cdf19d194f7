import ServiceBindings.Fields
import ServiceBindings.Json.Tree

/-! JSON texts of a known layout: records with known fields, and values under free names. -/
namespace ServiceBindings.Json

/-- The fields of a record that are there. A record is written as an object or as an array of its
fields in their order, and then a field that may be missing in an object may not be left out. -/
structure Record where
  fields : Fields Tree
  /-- Whether the record is written as an array. -/
  positional : Bool

/-- Reads a record with these fields. Other members of an object are passed over; a known one may
not be repeated. -/
def Tree.record? (names : List String) : Tree → Option Record
  | .array items =>
    if items.length ≤ names.length then some ⟨names.zip items, true⟩ else none
  | .object members => do
    let named ← members.mapM fun entry => entry.1.map fun key => (key, entry.2)
    let known := named.filter fun entry => names.contains entry.1
    if (known.map Prod.fst).Nodup then some ⟨known, false⟩ else none
  | _ => none

def Tree.text? : Tree → Option String
  | .string s => s
  | _ => none

def Tree.bool? : Tree → Option Bool
  | .bool b => some b
  | _ => none

def Tree.list? {α : Type} (read : Tree → Option α) : Tree → Option (List α)
  | .array items => items.mapM read
  | _ => none

/-- Values under free names that are all read alike: first place, last value. -/
def Tree.fields? {α : Type} (read : Tree → Option α) : Tree → Option (Fields α)
  | .object members => do
    let entries ← members.mapM fun entry => do some (← entry.1, ← read entry.2)
    some (Fields.ofList entries)
  | _ => none

namespace Record
variable {α : Type}

def need? (record : Record) (name : String) (read : Tree → Option α) : Option α :=
  (Fields.get? record.fields name).bind read

def optional? (record : Record) (name : String) (read : Tree → Option α) : Option (Option α) :=
  match Fields.get? record.fields name with
  | none => if record.positional then none else some none
  | some .null => some none
  | some tree => (read tree).map some

/-- A field that has a default when it is missing. -/
def default? (record : Record) (name : String) (value : α) (read : Tree → Option α) : Option α :=
  match Fields.get? record.fields name with
  | none => some value
  | some tree => read tree

end Record
end ServiceBindings.Json
