import ServiceBindings.Naming.Identifier
import ServiceBindings.Storage.Path

/-! Generated items and the places that take them. -/
namespace ServiceBindings.Generate
open Naming (Identifier)

structure Artifact where
  serviceModule : String
  ident : Identifier
  source : String
deriving DecidableEq

def Artifact.path (artifact : Artifact) : String :=
  Storage.Path.join artifact.serviceModule
    (artifact.ident.area.text ++ "/" ++ Naming.fileStem artifact.ident.name ++ ".rs")

/-- What has become of an item that was taken. -/
inductive Outcome where
  | written
  | unchanged
deriving DecidableEq

inductive EmitError where
  | conflict (ident : Identifier)
  | unwritable
deriving DecidableEq

def EmitError.message : EmitError → String
  | conflict ident => "`" ++ ident.text ++ "` was already emitted with different content"
  | unwritable => "failed to write artifact"

class Sink (σ : Type) where
  /-- Takes an item. The place may change even if the item is not taken. -/
  write : Artifact → σ → Except EmitError Outcome × σ

end ServiceBindings.Generate
