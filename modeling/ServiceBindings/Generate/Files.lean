import ServiceBindings.Generate.Artifact
import ServiceBindings.Storage.Tree

/-! Items as files of a folder. A file that is up to date is left as it is. -/
namespace ServiceBindings.Generate
open Storage (Path.join Path.steps Tree)

/-- What keeps the contents of files by their paths. -/
class Store (τ : Type) where
  read? : τ → String → Option String
  /-- Writes a file at a path, and says whether that was possible. -/
  write : τ → String → String → Bool × τ

instance : Store Tree where
  read? := Tree.read?
  write := Tree.write

/-- A folder of files, and what the present run has settled in it. -/
structure Folder (τ : Type) where
  root : String
  store : τ
  /-- The contents that are settled, by the steps to their files. -/
  settled : List (List String × String) := []

namespace Folder
variable {τ : Type}

/-- A new run over the same files. -/
def restart (folder : Folder τ) : Folder τ :=
  { folder with settled := [] }

/-- Takes an item unless another one was taken with the same path. -/
def write [Store τ] (artifact : Artifact) (folder : Folder τ) :
    Except EmitError Outcome × Folder τ :=
  let path := Path.join folder.root artifact.path
  match folder.settled.lookup (Path.steps path) with
  | some present =>
    if present = artifact.source then (.ok .unchanged, folder)
    else (.error (.conflict artifact.ident), folder)
  | none =>
    let settled := (Path.steps path, artifact.source) :: folder.settled
    if Store.read? folder.store path = some artifact.source then
      (.ok .unchanged, { folder with settled })
    else match Store.write folder.store path artifact.source with
      | (true, store) => (.ok .written, { folder with store, settled })
      | (false, store) => (.error .unwritable, { folder with store })

instance [Store τ] : Sink (Folder τ) where
  write := write

end Folder

abbrev Files := Folder Tree

namespace Files

/-- The path of the folder for generated files. It leaves 4079 bytes for a path below it. -/
def home : String := "/tmp/generated0"

/-- A folder with files, each written after the one before it. -/
def ofList (files : List (String × String)) : Files where
  root := home
  store := files.foldl (fun tree file => (tree.write (Path.join home file.1) file.2).2)
    (Tree.makeDirectories (Path.steps home) [] (.directory [])).2

/-- The files below the folder with their paths from there, in the order of these. -/
def entries (files : Files) : List (String × String) :=
  match files.store.get? (Path.steps files.root) with
  | some tree => (tree.files "").mergeSort fun a b => a.1 ≤ b.1
  | none => []

end Files
end ServiceBindings.Generate
