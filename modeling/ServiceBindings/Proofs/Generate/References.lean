import ServiceBindings.Proofs.Generate.Emission

/-! Generated source names nothing but items that were written before it. -/
namespace ServiceBindings.Generate
open Naming (Identifier)
open Plan (Call Enumeration Layout)

/-- Every path in the source text of an item is that of an item before it. -/
def LeadsBack (before : List Artifact) (artifact : Artifact) : Prop :=
  ∀ path ∈ typePaths artifact.source, ∃ earlier ∈ before, path = referencePath earlier.ident

theorem Known.exists_artifact {artifacts : List Artifact} {ident : Identifier}
    (h : Known artifacts ident) : ∃ earlier ∈ artifacts, referencePath ident =
      referencePath earlier.ident := by
  obtain ⟨earlier, hmem, heq⟩ := List.mem_map.1 h.2
  exact ⟨earlier, hmem, by rw [heq]⟩

theorem leadsBack_of_knownMembers {job : Job} {before : List Artifact} {layout : Layout}
    (hname : Naming.IsSpelled layout.heading.ident.name)
    (hmembers : KnownMembers before layout.members) :
    LeadsBack before (job.artifact layout.heading.ident (structureSource layout)) := by
  have hknown : ∀ ident ∈ layout.mentions, Known before ident := by
    intro ident hmem
    obtain ⟨member, hmember, hident⟩ := List.mem_flatMap.1 hmem
    exact (hmembers member hmember).2 ident hident
  have hgives := gives_structureSource hname (fun member hmem => (hmembers member hmem).1)
    fun ident hmem => (hknown ident hmem).1
  intro path hpath
  have hpaths : typePaths (structureSource layout) = layout.mentions.map referencePath :=
    hgives.typePaths_eq
  obtain ⟨ident, hident, rfl⟩ := List.mem_map.1 (hpaths ▸ hpath)
  exact (hknown ident hident).exists_artifact

theorem leadsBack_of_known_input {job : Job} {before : List Artifact} {call : Call}
    (hline : OneLine call.operation) (hname : Naming.IsSpelled call.ident.name)
    (hinput : Known before call.input.heading.ident) :
    LeadsBack before (job.artifact call.ident (callSource call)) := by
  have hgives := gives_callSource hline hname hinput.1
  intro path hpath
  have hpaths : typePaths (callSource call) = _ := hgives.typePaths_eq
  have hmem := hpaths ▸ hpath
  have heq : path = referencePath call.input.heading.ident := by
    rcases List.mem_cons.1 hmem with heq | hmem
    · exact heq
    · obtain ⟨-, -, heq⟩ := Option.map_eq_some_iff.1 (Option.mem_toList.1 hmem)
      exact heq.symm
  rw [heq]
  exact hinput.exists_artifact

theorem oneLine_of_loaded {model : ServiceModel} (hmodel : model.Loaded) {name : String}
    {operation : Operation} (hoperation : model.operation name = .ok operation)
    (hname : '\n' ∉ operation.name.toList) : OneLine operation := by
  have hfound : Fields.get? model.operations name = some operation := by
    unfold ServiceModel.operation at hoperation
    split at hoperation
    · next found hfound => rw [hfound, Except.ok.inj hoperation]
    · cases hoperation
  refine ⟨hname, fun pagination hpagination => ?_⟩
  obtain ⟨hinput, houtput⟩ :=
    hmodel.hasTokens (name, operation) (Fields.mem_of_get? hfound) pagination hpagination
  have hbreak : ServiceModel.isTokenChar '\n' = false := by decide
  exact ⟨fun hmem => absurd (houtput _ hmem) (by simp [hbreak]),
    fun hmem => absurd (hinput _ hmem) (by simp [hbreak])⟩

namespace Run

/-- Whatever a run was asked for, each item is that of an enumeration, of a structure, or of an
operation. The source of a structure names nothing but items before it; so does that of an
operation, unless a line break in its name ends the comments that hold the name. -/
theorem references_written_before_after_any_steps {model : ServiceModel} (hmodel : model.Loaded)
    (settings : Settings) (steps : List Step) :
    let run : Run Memory := (start ⟨model, settings⟩ {}).after steps
    ∀ before artifact later, run.sink.artifacts = before ++ artifact :: later →
      (∃ e : Enumeration, artifact = run.job.artifact e.ident (enumerationSource e)) ∨
      (∃ layout : Layout,
        artifact = run.job.artifact layout.heading.ident (structureSource layout) ∧
        LeadsBack before artifact) ∨
      ∃ call : Call, artifact = run.job.artifact call.ident (callSource call) ∧
        ('\n' ∉ call.name.toList → LeadsBack before artifact) := by
  intro run before artifact later hsplit
  have hempty : (start ⟨model, settings⟩ ({} : Memory)).IsFiled := filed_start ⟨model, settings⟩
  have hfiled : run.IsFiled := hempty.after steps
  have hjob : run.job = ⟨model, settings⟩ := job_after _ steps
  cases hfiled.items before artifact later hsplit with
  | enumeration e => exact .inl ⟨e, rfl⟩
  | «structure» layout hname hmembers =>
    exact .inr (.inl ⟨layout, rfl, leadsBack_of_knownMembers hname hmembers⟩)
  | call call name hoperation hname hinput =>
    refine .inr (.inr ⟨call, rfl, fun hbreak => ?_⟩)
    have hmodel : run.job.model.Loaded := hjob ▸ hmodel
    exact leadsBack_of_known_input (oneLine_of_loaded hmodel hoperation hbreak) hname hinput

theorem references_of_album :
    ServiceModel.load albumText = .ok albumModel ∧
      let run : Run Memory := (start ⟨albumModel, {}⟩ {}).after [.compile "Get", .compile "Put"]
      ∃ before album later, run.sink.artifacts = before ++ album :: later ∧
        before.map (·.ident.text) = ["types::Song", "enums::Kind"] ∧
        album.ident.text = "input::Album" ∧
        ((∃ e : Enumeration, album = run.job.artifact e.ident (enumerationSource e)) ∨
        (∃ layout : Layout,
          album = run.job.artifact layout.heading.ident (structureSource layout) ∧
          LeadsBack before album) ∨
        ∃ call : Call, album = run.job.artifact call.ident (callSource call) ∧
          ('\n' ∉ call.name.toList → LeadsBack before album)) := by
  have hidents : ((start ⟨albumModel, {}⟩ ({} : Memory)).after
      [.compile "Get", .compile "Put"]).sink.artifacts.map (·.ident.text) =
        ["types::Song", "enums::Kind"] ++ "input::Album" :: ["client::put"] := by decide +kernel
  obtain ⟨before, rest, hsplit, hbefore, hrest⟩ := List.map_eq_append_iff.1 hidents
  obtain ⟨album, later, rfl, halbum, -⟩ := List.map_eq_cons_iff.1 hrest
  have hback := references_written_before_after_any_steps (.load load_albumText) {}
    [.compile "Get", .compile "Put"] before album later hsplit
  exact ⟨load_albumText, before, album, later, hsplit, hbefore, halbum, hback⟩

/-- The name of an operation that ends the comment in which it stands. -/
def breakingName : String :=
  "Get`.\npub type Alias = crate::types::Ghost;\n/// `"

def breakingDocument : Document := .object [
  ("metadata", .object [("protocol", .string "json"), ("apiVersion", .string "1")]),
  ("operations", .object [(breakingName, .object [("input", shapeReference "In")])]),
  ("shapes", .object [
    ("In", .object [("type", .string "structure"),
      ("members", .object [("a", shapeReference "S")])]),
    ("S", .object [("type", .string "string")])])]

def breakingModel : ServiceModel where
  service := ⟨"Service", "1", .json, none, none, none⟩
  shapes := [
    ("In", ⟨"In", .structure ⟨[bodyMember "a" "S"], none⟩, none, none, none, false⟩),
    ("S", ⟨"S", .scalar .string, none, none, none, false⟩)]
  operations := [(breakingName, ⟨breakingName, "In", none, "POST", "/", none, none⟩)]

def breakingCall : Call where
  service := breakingModel.service
  operation := ⟨breakingName, "In", none, "POST", "/", none, none⟩
  ident := ⟨.client, "get_pub_type_alias_crate_types_ghost"⟩
  input := {
    heading := ⟨"In", ⟨.input, "In"⟩, none, none⟩
    members := [(⟨"a", "a", "a", false, .body, false, none⟩, .scalar .string none false)] }
  output := none
  template := ⟨[.literal "/"], none⟩

/-- The operation names an item that is never written. -/
theorem dangling_reference_of_line_break :
    ServiceModel.load (Json.Node.ofDocument breakingDocument).text = .ok breakingModel ∧
      let run : Run Memory := (start ⟨breakingModel, {}⟩ {}).after [.compile breakingName]
      run.sink.artifacts.map (·.ident.text) =
        ["input::In", "client::get_pub_type_alias_crate_types_ghost"] ∧
      ∃ artifact ∈ run.sink.artifacts, "crate::types::Ghost" ∈ typePaths artifact.source := by
  have hlast : ((start ⟨breakingModel, {}⟩ ({} : Memory)).after
      [.compile breakingName]).sink.artifacts.getLast? =
        some (Job.artifact ⟨breakingModel, {}⟩ breakingCall.ident (callSource breakingCall)) := rfl
  have hcomment : Gives ("/// Invokes `" ++ breakingCall.name ++ "`." ++ "\n")
      ["crate::types::Ghost"] := by decide +kernel
  have hinvoke := @gives_functionLines breakingCall breakingCall.ident.name "OperationOutput"
    "invoke" (by decide) (by decide) (by decide +kernel) (by decide +kernel)
  have hsource := gives_joinLines_cons hcomment hinvoke
  have hpaths : typePaths (callSource breakingCall) = _ := hsource.typePaths_eq
  refine ⟨ServiceModel.load_text (by decide +kernel) rfl, by decide +kernel, _,
    List.mem_of_getLast? hlast, ?_⟩
  rw [Job.artifact, hpaths]
  exact List.mem_cons_self

end Run
end ServiceBindings.Generate
