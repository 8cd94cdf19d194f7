import ServiceBindings.Document
import ServiceBindings.Plan.Target
import ServiceBindings.Text.Base64
import ServiceBindings.Text.Blank
import ServiceBindings.Time.Reading
import ServiceBindings.Value.Basic
import ServiceBindings.Value.Path

/-! Documents read as values of a target. -/
namespace ServiceBindings
open Plan (Binding Layout Target)

/-- Where a document comes from. -/
inductive Origin where
  /-- From a caller: members stand under their own names, and blobs are texts. -/
  | caller
  /-- From a JSON payload or from headers: members stand under their names in messages. -/
  | json
  /-- From an XML payload, where all data are texts and one element may stand for a list. -/
  | xml
deriving DecidableEq

/-- A part of a document that is no value of its target. -/
inductive Misfit where
  | kind (path expected found : String)
  | timestamp (path : String)
  | base64 (path : String)
deriving DecidableEq

def misfit {α : Type} (path expected : String) (doc : Document) : Except Misfit α :=
  .error (.kind path expected doc.kind)

def isBlankText (s : String) : Bool :=
  s.toList.all Text.isBlank

/-- The instant of a text in the form that is asked for, or in any form. -/
def readInstant (path : String) (format : Option Time.Format) (s : String) :
    Except Misfit Value :=
  match (format.bind fun form => Time.read? form s).or (Time.readAny? s) with
  | some t => .ok (.timestamp t)
  | none => .error (.timestamp path)

/-- The bytes of a text. A caller gives them as they are, and a streaming blob becomes a source of
its own. -/
def readBlob (origin : Origin) (path : String) (streaming : Bool) (s : String) :
    Except Misfit Value :=
  match origin with
  | .caller =>
    if streaming then .ok (.stream { id := 0, content := Text.utf8 s })
    else .ok (.blob (Text.utf8 s))
  | _ =>
    match Text.Base64.decode? s with
    | some bytes => .ok (.blob bytes)
    | none => .error (.base64 path)

def readFloat (s : String) : Option Float :=
  Decimal.float? (Text.trimmed s.toList)

/-- The value of data without parts. Texts may stand for numbers and truth values, and the other way
around for strings. -/
def readScalar (origin : Origin) (kind : Scalar) (format : Option Time.Format) (streaming : Bool)
    (path : String) (doc : Document) : Except Misfit Value :=
  let wrong := misfit path kind.text doc
  match kind, doc with
  | .string, .string s => .ok (.string s)
  | .string, .number n => .ok (.string n.text)
  | .string, .bool b => .ok (.string (if b then "true" else "false"))
  | .boolean, .bool b => .ok (.boolean b)
  | .boolean, .string s =>
    if s = "true" then .ok (.boolean true)
    else if s = "false" then .ok (.boolean false)
    else wrong
  | .integer, .number n => (n.int64?.map fun i => .ok (.integer i)).getD wrong
  | .integer, .string s =>
    ((Text.int64? (Text.trimmed s.toList)).map fun i => .ok (.integer i)).getD wrong
  | .float, .number n => .ok (.float n.toFloat)
  | .float, .string s => ((readFloat s).map fun x => .ok (.float x)).getD wrong
  | .timestamp, .number n => .ok (.timestamp (Instant.ofFloat n.toFloat))
  | .timestamp, .string s => readInstant path format s
  | .blob, .string s => readBlob origin path streaming s
  | _, _ => wrong

/-- The documents that an element of a list or map holds under the name of its entries. One document
that is no array stands for itself. -/
def entryDocuments (path expected entry : String) (flattened : Bool) (doc : Document) :
    Except Misfit (List Document) :=
  let unwrap : Document → List Document
    | .array items => items
    | single => [single]
  if flattened then .ok (unwrap doc)
  else
    match doc with
    | .object members => .ok (((Fields.get? members entry).map unwrap).getD [])
    | .string s => if isBlankText s then .ok [] else misfit path expected doc
    | _ => misfit path expected doc

def itemDocuments (origin : Origin) (path : String) (itemName : Option String) (flattened : Bool)
    (doc : Document) : Except Misfit (List Document) :=
  match origin, doc with
  | .xml, _ => entryDocuments path "list" (Plan.itemElement itemName) flattened doc
  | _, .array items => .ok items
  | _, _ => misfit path "list" doc

def entryOf (path : String) (keyName valueName : Option String) (entry : Document) :
    Except Misfit (String × Document) :=
  match entry.get? (Plan.keyElement keyName) with
  | some (.string key) => .ok (key, (entry.get? (Plan.valueElement valueName)).getD .null)
  | some other => misfit path "map key" other
  | none => misfit path "map entry" entry

/-- Whether members of a place are read from a document, and under which name. -/
def memberKey? (origin : Origin) (binding : Binding) : Option String :=
  match origin with
  | .caller => some binding.name
  | _ => if binding.location = .body then some binding.wireName else none

/-- Reads items with the given step, each under its position. Nothing comes of an absent one. -/
def readItems (step : String → Document → Except Misfit (Option Value)) (path : String) :
    Nat → List Document → Except Misfit (List Value)
  | _, [] => .ok []
  | position, doc :: rest => do
    let value ← step (itemPath path position) doc
    return value.toList ++ (← readItems step path (position + 1) rest)

def readEntries (step : String → Document → Except Misfit (Option Value)) (path : String) :
    Fields Value → List (String × Document) → Except Misfit (Fields Value)
  | entries, [] => .ok entries
  | entries, (key, doc) :: rest => do
    match ← step (partPath path key) doc with
    | some value => readEntries step path (Fields.set key value entries) rest
    | none => readEntries step path entries rest

/-- Reads the entries of elements with the given step, each element before the next one is looked
at. -/
def readElements (step : String → Document → Except Misfit (Option Value)) (path : String)
    (keyName valueName : Option String) :
    Fields Value → List Document → Except Misfit (Fields Value)
  | entries, [] => .ok entries
  | entries, element :: rest => do
    let entry ← entryOf path keyName valueName element
    let entries ← readEntries step path entries [entry]
    readElements step path keyName valueName entries rest

/-- The members of a document that is to be a structure; an element without content has none. -/
def membersOf (origin : Origin) (path : String) (doc : Document) :
    Except Misfit (Fields Document) :=
  match doc with
  | .object members => .ok members
  | .string s =>
    if origin = .xml ∧ isBlankText s then .ok [] else misfit path "structure" doc
  | _ => misfit path "structure" doc

mutual

def readPresent (origin : Origin) (path : String) (doc : Document) :
    Target → Except Misfit Value
  | .scalar kind format streaming => readScalar origin kind format streaming path doc
  | .enumeration _ =>
    match doc with
    | .string s => .ok (.string s)
    | _ => misfit path "enum string" doc
  | .list _ item itemName flattened => do
    let docs ← itemDocuments origin path itemName flattened doc
    let step := fun path doc =>
      if doc.isNull then .ok none else (readPresent origin path doc item).map some
    return .list (← readItems step path 0 docs)
  | .map _ _ value keyName valueName flattened => do
    let step := fun path doc =>
      if doc.isNull then .ok none else (readPresent origin path doc value).map some
    match origin, doc with
    | .xml, _ =>
      let elements ← entryDocuments path "map" "entry" flattened doc
      return .map (← readElements step path keyName valueName [] elements)
    | _, .object entries => return .map (← readEntries step path [] entries)
    | _, _ => misfit path "map" doc
  | .structure heading members => do
    let docs ← membersOf origin path doc
    return .structure heading.shape (← readMembers origin path docs members)

/-- Reads members in the order of their declaration. What is absent or null is left out. -/
def readMembers (origin : Origin) (path : String) (docs : Fields Document) :
    List (Binding × Target) → Except Misfit (Fields Value)
  | [] => .ok []
  | (binding, target) :: rest => do
    match (memberKey? origin binding).bind (Fields.get? docs) with
    | none => readMembers origin path docs rest
    | some doc =>
      if doc.isNull then readMembers origin path docs rest
      else
        let value ← readPresent origin (partPath path binding.name) doc target
        return (binding.name, value) :: (← readMembers origin path docs rest)

end

/-- Reads a document; nothing comes of null. -/
def readValue (origin : Origin) (path : String) (target : Target) (doc : Document) :
    Except Misfit (Option Value) :=
  if doc.isNull then .ok none else (readPresent origin path doc target).map some

def readRecord (origin : Origin) (path : String) (layout : Layout) (doc : Document) :
    Except Misfit Record := do
  let docs ← membersOf origin path doc
  return { shape := layout.heading.shape, fields := ← readMembers origin path docs layout.members }

end ServiceBindings
