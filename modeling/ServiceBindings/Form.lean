import ServiceBindings.Text.Percent

/-! Bodies of name and value pairs, where dotted names with positions stand for nesting. -/
namespace ServiceBindings.Form

inductive Node where
  | text (s : String)
  | fields (members : List (String × Node))
  /-- Items, under the list's own name or under the name of an item. -/
  | list (item : Option String) (items : List Node)
  /-- Entries, under the map's own name or under the name of an entry, with the names of a key and
  of a value. -/
  | map (entry : Option String) (key value : String) (entries : List (String × Node))

def within (name part : String) : String :=
  name ++ "." ++ part

/-- The name under which the parts of a list or map are counted. -/
def counted (name : String) (part : Option String) : String :=
  match part with
  | none => name
  | some part => within name part

mutual

/-- The pairs of a value under a name. Positions are counted from one. -/
def Node.pairs (name : String) : Node → List (String × String)
  | .text s => [(name, s)]
  | .fields members => fieldPairs name members
  | .list item items => itemPairs (counted name item) 1 items
  | .map entry key value entries => entryPairs (counted name entry) key value 1 entries

def fieldPairs (name : String) : List (String × Node) → List (String × String)
  | [] => []
  | (part, node) :: rest => node.pairs (within name part) ++ fieldPairs name rest

def itemPairs (name : String) (position : Nat) : List Node → List (String × String)
  | [] => []
  | item :: rest =>
    item.pairs (within name (Text.natural position)) ++ itemPairs name (position + 1) rest

/-- The pairs of entries from a position on: the key of an entry, then its value. -/
def entryPairs (name keyName valueName : String) (position : Nat) :
    List (String × Node) → List (String × String)
  | [] => []
  | (key, node) :: rest =>
    let entry := within name (Text.natural position)
    (within entry keyName, key) ::
      (node.pairs (within entry valueName) ++ entryPairs name keyName valueName (position + 1) rest)

end

/-- A pair as it is written. Only the value is escaped. -/
def pairText (pair : String × String) : String :=
  pair.1 ++ "=" ++ Text.Percent.form pair.2

/-- The body of a request: the action, the version of the service and the fields in order. -/
def body (action version : String) (fields : List (String × Node)) : String :=
  let pairs := fields.flatMap fun field => field.2.pairs field.1
  "&".intercalate ((("Action", action) :: ("Version", version) :: pairs).map pairText)

end ServiceBindings.Form
