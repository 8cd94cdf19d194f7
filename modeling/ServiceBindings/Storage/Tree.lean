import ServiceBindings.Fields
import ServiceBindings.Storage.Path

/-!
Trees of files and directories, and what reading and writing at a path does to them.

A place is told by the names that lead down to it (`get?`, `put`). A path says more than a place: it
can lead up again, and only through directories that are there.
-/
namespace ServiceBindings.Storage

inductive Tree where
  | file (content : String)
  /-- A directory with its entries, each name once. -/
  | directory (entries : List (String × Tree))

namespace Tree

def get? : Tree → List String → Option Tree
  | tree, [] => some tree
  | file _, _ :: _ => none
  | directory entries, name :: rest =>
    match Fields.get? entries name with
    | some inner => inner.get? rest
    | none => none

/-- What stands below a place is what stands there in the tree of that place. -/
theorem get?_append (tree : Tree) (place below : List String) :
    tree.get? (place ++ below) = (tree.get? place).bind (·.get? below) := by
  induction place generalizing tree with
  | nil => simp [get?]
  | cons name rest ih =>
    cases tree with
    | file content => rfl
    | directory entries =>
      simp only [List.cons_append, get?]
      cases Fields.get? entries name with
      | none => rfl
      | some inner => exact ih inner

/-- Puts something at a place. Below a file there is no place. -/
def put : Tree → List String → Tree → Tree
  | _, [], new => new
  | file content, _ :: _, _ => file content
  | directory entries, name :: rest, new =>
    let inner := (Fields.get? entries name).getD (directory [])
    directory (Fields.set name (inner.put rest new) entries)

def hasDirectory (tree : Tree) (place : List String) : Bool :=
  match tree.get? place with
  | some (directory _) => true
  | _ => false

def step? (tree : Tree) (place : List String) (step : String) : Option (List String) :=
  if step = ".." then some place.dropLast
  else if tree.hasDirectory (place ++ [step]) then some (place ++ [step])
  else none

def read? (tree : Tree) (path : String) : Option String := do
  guard (Path.isPath path)
  let place ← (Path.steps (Path.parent path)).foldlM tree.step? []
  let name ← (Path.steps path).getLast?
  match tree.get? (place ++ [name]) with
  | some (file content) => some content
  | _ => none

/-- Takes steps from a directory, and makes the directories that are missing. What was made stays,
also when a file is in the way of a later step or that step can be no name. -/
def makeDirectories : List String → List String → Tree → Option (List String) × Tree
  | [], place, tree => (some place, tree)
  | step :: rest, place, tree =>
    match tree.step? place step with
    | some place => makeDirectories rest place tree
    | none =>
      if Path.isName step && (tree.get? (place ++ [step])).isNone then
        makeDirectories rest (place ++ [step]) (tree.put (place ++ [step]) (directory []))
      else (none, tree)

/-- Writes a file at a path, and says whether that was possible. The directories on the way to it
are made, and they stay even if the file cannot be written. -/
def write (tree : Tree) (path content : String) : Bool × Tree :=
  if Path.isPath (Path.parent path) then
    match makeDirectories (Path.steps (Path.parent path)) [] tree, (Path.steps path).getLast? with
    | (some place, tree), some name =>
      if Path.isPath path && Path.isName name && !tree.hasDirectory (place ++ [name]) then
        (true, tree.put (place ++ [name]) (file content))
      else (false, tree)
    | (_, tree), _ => (false, tree)
  else (false, tree)

mutual

/-- The files of a tree that stands at a path, with their own paths. -/
def files (path : String) : Tree → List (String × String)
  | file content => [(path, content)]
  | directory entries => filesAmong path entries

def filesAmong (path : String) : List (String × Tree) → List (String × String)
  | [] => []
  | (name, tree) :: rest => files (Path.join path name) tree ++ filesAmong path rest

end

end Tree
end ServiceBindings.Storage
