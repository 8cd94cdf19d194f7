import ServiceBindings.Proofs.Generate.Filed

/-! Items reach the memory once each, and none of them is refused. -/
namespace ServiceBindings.Generate
open Naming (Area Identifier)

/-- Items in memory are those that were compiled, each of them was handed over once, and nothing
else was. So none of another identifier is refused. -/
def Memory.oncePromise : Promise Memory where
  holds idents memory := Memory.promise.holds idents memory ∧
    memory.artifacts.map (·.ident) = memory.attempted.reverse ∧ memory.attempted.Nodup
  mayRefuse := False
  mono himp h := ⟨Memory.promise.mono himp h.1, h.2⟩
  write_ok {idents memory artifact outcome after} h hnew hwrite := by
    obtain ⟨hidents, hattempted, hnodup⟩ := h
    have hne : ∀ present ∈ memory.artifacts, present.ident ≠ artifact.ident :=
      fun present hmem heq => hnew (heq ▸ hidents present hmem)
    have hafter := Memory.promise.write_ok hidents hnew hwrite
    obtain ⟨-, rfl⟩ := Prod.mk.inj ((Memory.write_of_new hne).symm.trans hwrite)
    refine ⟨hafter, ?_, List.nodup_cons.2 ⟨fun hmem => ?_, hnodup⟩⟩
    · rw [List.map_append, hattempted, List.reverse_cons, List.map_singleton]
    · rw [← List.mem_reverse, ← hattempted] at hmem
      obtain ⟨present, hpresent, heq⟩ := List.mem_map.1 hmem
      exact hne present hpresent heq
  write_error {idents memory artifact fault after} h hnew hwrite :=
    (Memory.promise.write_error h.1 hnew hwrite).2.elim

/-- Items of a sound state with the same file are the same. -/
theorem Sound.ident_eq_of_file {σ : Type} [Sink σ] {job : Job} {promise : Promise σ}
    {state : Ledger × σ} (h : Sound job promise state) {a b : Identifier}
    (ha : state.1.HasItem a) (hb : state.1.HasItem b) (hfile : a.file = b.file) : a = b := by
  have howner (ident : Identifier) (hitem : state.1.HasItem ident) :
      ∃ owner, (owner, ident) ∈ state.1.names.given := by
    rcases hitem with ⟨name, e, he, rfl⟩ | ⟨name, layout, hlayout, rfl⟩ | ⟨name, call, hcall, rfl⟩
    · obtain ⟨-, -, -, -, -, -, -, hident⟩ := h.enumerations name e he
      exact ⟨_, Naming.Names.mem_given_shape hident⟩
    · obtain ⟨-, -, -, -, -, hident, -⟩ := h.structures name layout hlayout
      exact ⟨_, Naming.Names.mem_given_shape hident⟩
    · obtain ⟨-, -, -, hident⟩ := h.calls name call hcall
      exact ⟨_, Naming.Names.mem_given_operation hident⟩
  obtain ⟨owner, howner_a⟩ := howner a ha
  obtain ⟨other, howner_b⟩ := howner b hb
  exact (Prod.mk.inj (List.inj_on_of_nodup_map h.names.nodup howner_a howner_b hfile)).2

/-- Below one directory, different parts have different paths. -/
theorem join_injective {directory part other : String} (hpart : part.toList.head? ≠ some '/')
    (hother : other.toList.head? ≠ some '/')
    (h : Storage.Path.join directory part = Storage.Path.join directory other) : part = other := by
  unfold Storage.Path.join at h
  simp only [hpart, hother, or_false] at h
  split_ifs at h
  · exact h
  · exact (String.append_right_inj _).1 h
  · exact (String.append_right_inj _).1 h

theorem Artifact.file_eq_of_path {a b : Artifact} (hservice : a.serviceModule = b.serviceModule)
    (h : a.path = b.path) : a.ident.file = b.ident.file := by
  have hstart (area : Area) (rest : String) :
      (area.text ++ "/" ++ rest ++ ".rs").toList.head? ≠ some '/' := by
    cases area <;> simp [Area.text, String.toList_append]
  unfold Artifact.path at h
  rw [hservice] at h
  have hparts := join_injective (hstart _ _) (hstart _ _) h
  have hstems (area : Area) (stem other : String)
      (h : area.text ++ "/" ++ stem ++ ".rs" = area.text ++ "/" ++ other ++ ".rs") :
      stem = other := by
    simpa using h
  have hareas : a.ident.area = b.ident.area := by
    have hchars := congrArg (fun text => text.toList.head?) hparts
    revert hchars
    cases a.ident.area <;> cases b.ident.area <;> simp [Area.text, String.toList_append]
  rw [hareas] at hparts
  exact Prod.ext hareas (hstems _ _ _ hparts)

theorem Placed.serviceModule {job : Job} {before : List Artifact} {artifact : Artifact}
    (h : Placed job before artifact) : artifact.serviceModule = job.settings.serviceModule := by
  cases h <;> rfl

namespace Run

/-- Whatever a run is asked for, no item is refused, each is handed over once, and no two items
share a module and a file, or a path. -/
theorem emitted_once_after_any_steps {model : ServiceModel} (hmodel : model.Loaded)
    (settings : Settings) (steps : List Step) :
    let run : Run Memory := (start ⟨model, settings⟩ {}).after steps
    (∀ name fault, (run.compile name).1 ≠ .error (.emit fault)) ∧
    (∀ name fault, (name, .emit fault) ∉ run.all.1.failures) ∧
    (∀ ident ∈ run.sink.attempted, run.sink.attempts ident = 1) ∧
    run.sink.artifacts.map (·.ident) = run.sink.attempted.reverse ∧
    run.sink.artifacts.Pairwise fun a b => a.ident.file ≠ b.ident.file ∧ a.path ≠ b.path := by
  intro run
  have hm : model.WellFormed := hmodel.wellFormed
  have hfresh : (start ⟨model, settings⟩ ({} : Memory)).IsSound Memory.oncePromise :=
    isSound_start ⟨model, settings⟩ ⟨fun artifact hmem => by simp at hmem, rfl, List.nodup_nil⟩
  obtain ⟨hrun, hjob⟩ := hfresh.after hm steps
  have hjob : run.job = ⟨model, settings⟩ := hjob
  have hm : run.job.model.WellFormed := hjob ▸ hm
  obtain ⟨hitems, hattempted, hnodup⟩ := hrun.sound.sink
  have hempty : (start ⟨model, settings⟩ ({} : Memory)).IsFiled := filed_start ⟨model, settings⟩
  have hfiled : run.IsFiled := hempty.after steps
  have hservice (artifact : Artifact) (hmem : artifact ∈ run.sink.artifacts) :
      artifact.serviceModule = run.job.settings.serviceModule := by
    obtain ⟨before, later, hsplit⟩ := List.append_of_mem hmem
    exact (hfiled.items before artifact later hsplit).serviceModule
  refine ⟨fun name fault heq => ?_, fun name fault hmem => ?_, fun ident hmem => ?_, hattempted, ?_⟩
  · have hagrees := (hrun.compile hm name).2.2
    rw [heq] at hagrees
    exact hagrees
  · exact (hrun.compileAll hm _).2.2.failures name _ hmem
  · exact List.count_eq_one_of_mem hnodup hmem
  · have hidents : (run.sink.artifacts.map (·.ident)).Nodup := by
      rw [hattempted]
      exact List.nodup_reverse.2 hnodup
    refine (List.pairwise_map.1 hidents).imp_of_mem fun {a b} ha hb hne => ?_
    have hfile : a.ident.file ≠ b.ident.file := fun heq =>
      hne (hrun.sound.ident_eq_of_file (hitems a ha) (hitems b hb) heq)
    refine ⟨hfile, fun hpath => hfile (Artifact.file_eq_of_path ?_ hpath)⟩
    rw [hservice a ha, hservice b hb]

end Run

def shapeReference (name : String) : Document :=
  .object [("shape", .string name)]

/-- A description with one operation that fails behind a shape that both of them use. -/
def albumDocument : Document := .object [
  ("metadata", .object [("protocol", .string "json"), ("apiVersion", .string "1")]),
  ("operations", .object [
    ("Get", .object [("input", shapeReference "Query")]),
    ("Put", .object [("input", shapeReference "Album")])]),
  ("shapes", .object [
    ("Query", .object [("type", .string "structure"),
      ("members", .object [("song", shapeReference "Song"), ("lost", shapeReference "Lost")])]),
    ("Album", .object [("type", .string "structure"),
      ("members", .object [("sides", shapeReference "Sides"), ("kind", shapeReference "Kind")])]),
    ("Sides", .object [("type", .string "map"), ("key", shapeReference "S"),
      ("value", shapeReference "Songs")]),
    ("Songs", .object [("type", .string "list"), ("member", shapeReference "Song")]),
    ("Song", .object [("type", .string "structure"),
      ("members", .object [("title", shapeReference "S")])]),
    ("Kind", .object [("type", .string "string"), ("enum", .array [.string "single"])]),
    ("S", .object [("type", .string "string")])])]

def albumText : String :=
  (Json.Node.ofDocument albumDocument).text

def bodyMember (name target : String) : Member :=
  ⟨name, target, false, .body, none, false, none, false, none⟩

/-- The model that `albumText` describes. -/
def albumModel : ServiceModel where
  service := ⟨"Service", "1", .json, none, none, none⟩
  shapes := [
    ("Query", ⟨"Query", .structure ⟨[bodyMember "song" "Song", bodyMember "lost" "Lost"], none⟩,
      none, none, none, false⟩),
    ("Album", ⟨"Album", .structure ⟨[bodyMember "sides" "Sides", bodyMember "kind" "Kind"], none⟩,
      none, none, none, false⟩),
    ("Sides", ⟨"Sides", .map ⟨"S", none⟩ ⟨"Songs", none⟩ false, none, none, none, false⟩),
    ("Songs", ⟨"Songs", .list ⟨"Song", none⟩ false, none, none, none, false⟩),
    ("Song", ⟨"Song", .structure ⟨[bodyMember "title" "S"], none⟩, none, none, none, false⟩),
    ("Kind", ⟨"Kind", .enumeration ["single"], none, none, none, false⟩),
    ("S", ⟨"S", .scalar .string, none, none, none, false⟩)]
  operations := [
    ("Get", ⟨"Get", "Query", none, "POST", "/", none, none⟩),
    ("Put", ⟨"Put", "Album", none, "POST", "/", none, none⟩)]

theorem load_albumText : ServiceModel.load albumText = .ok albumModel :=
  ServiceModel.load_text (by decide) rfl

namespace Run

theorem emitted_once_of_album :
    ServiceModel.load albumText = .ok albumModel ∧
      let run : Run Memory := (start ⟨albumModel, {}⟩ {}).after
        [.compile "Get", .compile "Put", .compile "Get"]
      run.sink.attempted.reverse.map (·.text) =
        ["types::Song", "enums::Kind", "input::Album", "client::put"] ∧
      (∀ ident ∈ run.sink.attempted, run.sink.attempts ident = 1) ∧
      run.sink.artifacts.Pairwise fun a b => a.ident.file ≠ b.ident.file ∧ a.path ≠ b.path := by
  obtain ⟨-, -, honce, -, hapart⟩ := emitted_once_after_any_steps (.load load_albumText) {}
    [.compile "Get", .compile "Put", .compile "Get"]
  exact ⟨load_albumText, by decide +kernel, honce, hapart⟩

end Run
end ServiceBindings.Generate
