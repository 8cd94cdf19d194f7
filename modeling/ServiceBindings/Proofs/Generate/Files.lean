import ServiceBindings.Generate.Files
import ServiceBindings.Proofs.Generate.Replay
import ServiceBindings.Proofs.Storage.Tree

/-! Items as files: after a run a folder holds what memory holds after the same run, and running
again changes nothing. -/
namespace ServiceBindings.Generate
open Naming (Area Identifier)
open Storage (Path.join Path.steps Path.steps_parent Path.IsLead Tree)

def fileName (ident : Identifier) : String :=
  Naming.fileStem ident.name ++ ".rs"

theorem areaText_injective : Function.Injective Area.text := by
  intro a b h
  revert h
  cases a <;> cases b <;> simp [Area.text]

theorem file_eq_of_names {a b : Identifier} (harea : a.area.text = b.area.text)
    (hname : fileName a = fileName b) : a.file = b.file :=
  Prod.ext (areaText_injective harea) ((String.append_left_inj _).1 hname)

theorem steps_areaText (area : Area) : Path.steps area.text = [area.text] := by
  cases area <;> decide

theorem steps_fileName (ident : Identifier) : Path.steps (fileName ident) = [fileName ident] := by
  have hstem : Naming.IsSpelled (Naming.fileStem ident.name) := Naming.isSpelled_snakeCase _
  apply Storage.Path.steps_of_name
  · rw [fileName, String.toList_append]
    intro hmem
    rcases List.mem_append.1 hmem with hmem | hmem
    · exact absurd (hstem _ hmem) (by decide)
    · exact absurd hmem (by decide)
  · have hlast : (fileName ident).toList.getLast? = some 's' := by
      rw [fileName, String.toList_append]
      exact List.getLast?_append_of_ne_nil _ (by decide)
    have hne (piece : String) (hpiece : piece.toList.getLast? ≠ some 's') :
        fileName ident ≠ piece := fun heq => hpiece (heq ▸ hlast)
    simp [Storage.Path.isIdle, hne "" (by decide), hne "." (by decide)]

theorem areaText_ne_up (area : Area) : area.text ≠ ".." := by
  cases area <;> decide

/-- The steps to an item in a folder: those to its service, its module and its file. -/
theorem exists_steps_eq (root serviceModule : String) : ∃ base : List String,
    ∀ artifact : Artifact, artifact.serviceModule = serviceModule →
      Path.steps (Path.join root artifact.path) =
        base ++ [artifact.ident.area.text, fileName artifact.ident] := by
  obtain ⟨base, hbase, hjoin⟩ := Storage.Path.exists_join_join_eq root serviceModule
  refine ⟨Path.steps base, fun artifact hservice => ?_⟩
  have hstart : (artifact.ident.area.text ++ "/" ++ fileName artifact.ident).toList.head? ≠
      some '/' := by
    cases artifact.ident.area <;> simp [Area.text, String.toList_append]
  have hpath : artifact.path = Path.join serviceModule
      (artifact.ident.area.text ++ "/" ++ fileName artifact.ident) := by
    rw [Artifact.path, hservice, fileName, String.append_assoc]
  rw [hpath, hjoin _ hstart, hbase.steps_append, Storage.Path.steps_slash, steps_areaText,
    steps_fileName, List.singleton_append]

/-- Items of one service at the same place are in one file of one module. -/
theorem file_eq_of_locate? {tree : Tree} {root : String} {a b : Artifact} {place : List String}
    (hservice : a.serviceModule = b.serviceModule)
    (ha : tree.locate? (Path.join root a.path) = some place)
    (hb : tree.locate? (Path.join root b.path) = some place) : a.ident.file = b.ident.file := by
  obtain ⟨base, hsteps⟩ := exists_steps_eq root b.serviceModule
  have hends (artifact : Artifact) (h : artifact.serviceModule = b.serviceModule)
      (hplace : tree.locate? (Path.join root artifact.path) = some place) :
      ∃ before, place = before ++ [artifact.ident.area.text, fileName artifact.ident] := by
    obtain ⟨directory, name, hdirectory, hname, rfl⟩ := Tree.locate?_eq_some.1 hplace
    rw [hsteps artifact h, List.getLast?_append_of_ne_nil _ (by simp)] at hname
    obtain rfl := Option.some.inj hname
    have hlead : (base ++ [artifact.ident.area.text, fileName artifact.ident]).dropLast =
        base ++ [artifact.ident.area.text] := by
      rw [List.dropLast_append_of_ne_nil (by simp)]
      rfl
    rw [Storage.Path.steps_parent, hsteps artifact h, hlead, List.foldlM_append] at hdirectory
    obtain ⟨before, -, hstep⟩ := Option.bind_eq_some_iff.1 hdirectory
    rw [List.foldlM_cons] at hstep
    obtain ⟨next, hnext, hlast⟩ := Option.bind_eq_some_iff.1 hstep
    obtain rfl := Option.some.inj hlast
    rw [Tree.step?, if_neg (areaText_ne_up _)] at hnext
    split_ifs at hnext
    obtain rfl := Option.some.inj hnext
    exact ⟨before, by rw [List.append_assoc]; rfl⟩
  obtain ⟨before, hbefore⟩ := hends a hservice ha
  obtain ⟨before', hbefore'⟩ := hends b rfl hb
  have heq := hbefore.symm.trans hbefore'
  have hlast := (List.append_inj' heq (by simp)).2
  simp only [List.cons.injEq, and_true] at hlast
  exact file_eq_of_names hlast.1 hlast.2

theorem file_eq_of_steps {root : String} {a b : Artifact}
    (hservice : a.serviceModule = b.serviceModule)
    (h : Path.steps (Path.join root a.path) = Path.steps (Path.join root b.path)) :
    a.ident.file = b.ident.file := by
  obtain ⟨base, hsteps⟩ := exists_steps_eq root b.serviceModule
  rw [hsteps a hservice, hsteps b rfl] at h
  simpa [List.append_cancel_left_eq] using file_eq_of_names (by simp_all) (by simp_all)

def placesOf (root : String) (items : List Artifact) (tree : Tree) : List (List String) :=
  items.filterMap fun artifact => tree.locate? (Path.join root artifact.path)

theorem mem_placesOf {root : String} {items : List Artifact} {tree : Tree} {place : List String} :
    place ∈ placesOf root items tree ↔
      ∃ artifact ∈ items, tree.locate? (Path.join root artifact.path) = some place := by
  rw [placesOf, List.mem_filterMap]

/-- A folder holds items, one file each, and nothing but their files was changed for them. -/
structure Holds (root : String) (before : Tree) (items : List Artifact) (files : Files) :
    Prop where
  settled : ∀ entry ∈ files.settled, ∃ artifact ∈ items,
    entry.1 = Path.steps (Path.join root artifact.path)
  read : ∀ artifact ∈ items, files.store.read? (Path.join root artifact.path) = some artifact.source
  changes : Tree.ChangesAt (placesOf root items files.store) before files.store
  sameRoot : files.root = root

variable {root : String} {before : Tree} {items : List Artifact} {files after : Files}

/-- An item is settled under no other item's path. -/
theorem Holds.lookup_eq_none (h : Holds root before items files) {artifact : Artifact}
    (hservice : ∀ other ∈ items, other.serviceModule = artifact.serviceModule)
    (hnew : ∀ other ∈ items, other.ident.file ≠ artifact.ident.file) :
    files.settled.lookup (Path.steps (Path.join root artifact.path)) = none := by
  rw [List.lookup_eq_none_iff]
  intro entry hentry
  obtain ⟨other, hother, heq⟩ := h.settled entry hentry
  rw [heq, bne_iff_ne]
  exact fun hsteps => hnew other hother (file_eq_of_steps (hservice other hother) hsteps.symm)

/-- The folder with an item settled. -/
def settle (files : Files) (artifact : Artifact) (store : Tree) : Files where
  root := files.root
  store
  settled := (Path.steps (Path.join files.root artifact.path), artifact.source) :: files.settled

/-- A file that is up to date is left as it is. -/
theorem write_of_same {artifact : Artifact}
    (hnew : files.settled.lookup (Path.steps (Path.join files.root artifact.path)) = none)
    (hsame : files.store.read? (Path.join files.root artifact.path) = some artifact.source) :
    Sink.write artifact files = (.ok .unchanged, settle files artifact files.store) := by
  have hread : Store.read? files.store (Path.join files.root artifact.path) =
    some artifact.source := hsame
  show Folder.write artifact files = _
  unfold Folder.write
  dsimp only
  rw [hnew]
  dsimp only
  rw [if_pos hread]
  rfl

/-- Any other file is written, if that is possible. -/
theorem write_of_other {artifact : Artifact}
    (hnew : files.settled.lookup (Path.steps (Path.join files.root artifact.path)) = none)
    (hother : files.store.read? (Path.join files.root artifact.path) ≠ some artifact.source)
    {written : Bool} {store : Tree}
    (hwrite : files.store.write (Path.join files.root artifact.path) artifact.source =
      (written, store)) :
    Sink.write artifact files = if written then (.ok .written, settle files artifact store)
      else (.error .unwritable, { files with store }) := by
  have hread : Store.read? files.store (Path.join files.root artifact.path) ≠
    some artifact.source := hother
  have hstore : Store.write files.store (Path.join files.root artifact.path) artifact.source =
    (written, store) := hwrite
  show Folder.write artifact files = _
  unfold Folder.write
  dsimp only
  rw [hnew]
  dsimp only
  rw [if_neg hread, hstore]
  cases written <;> rfl

/-- A change at the place of one more item keeps the others. -/
theorem Holds.settle (h : Holds root before items files) {artifact : Artifact}
    (hservice : ∀ other ∈ items, other.serviceModule = artifact.serviceModule)
    (hnew : ∀ other ∈ items, other.ident.file ≠ artifact.ident.file) {store : Tree}
    {place : List String} (hplace : store.locate? (Path.join root artifact.path) = some place)
    (hread : store.read? (Path.join root artifact.path) = some artifact.source)
    (hchanges : Tree.ChangesAt [place] files.store store) :
    Holds root before (items ++ [artifact]) (settle files artifact store) := by
  obtain rfl := h.sameRoot
  refine ⟨fun entry hentry => ?_, fun other hother => ?_, ?_, rfl⟩
  · rcases List.mem_cons.1 hentry with rfl | hentry
    · exact ⟨artifact, List.mem_append_right _ List.mem_cons_self, rfl⟩
    · obtain ⟨other, hother, heq⟩ := h.settled entry hentry
      exact ⟨other, List.mem_append_left _ hother, heq⟩
  · rcases List.mem_append.1 hother with hother | hother
    · obtain ⟨hpath, there, hthere, hfile⟩ := Tree.read?_eq_some.1 (h.read other hother)
      have hthere := hchanges.locate? hthere
      have hne : there ≠ place := fun heq => hnew other hother
        (file_eq_of_locate? (hservice other hother) hthere (heq ▸ hplace))
      rcases hchanges.elsewhere there (by simpa using hne) with hsame | ⟨hnone, -⟩
      · exact Tree.read?_eq_some.2 ⟨hpath, there, hthere, hsame.trans hfile⟩
      · cases hnone.symm.trans hfile
    · obtain rfl := List.mem_singleton.1 hother
      exact hread
  · refine (h.changes.mono fun other hother => ?_).trans (hchanges.mono fun other hother => ?_)
    · obtain ⟨item, hitem, hlocate⟩ := mem_placesOf.1 hother
      exact mem_placesOf.2 ⟨item, List.mem_append_left _ hitem, hchanges.locate? hlocate⟩
    · obtain rfl := List.mem_singleton.1 hother
      exact mem_placesOf.2 ⟨artifact, List.mem_append_right _ List.mem_cons_self, hplace⟩

/-- A folder takes an item in a file of its own, or the file cannot be written. -/
theorem Holds.write (h : Holds root before items files)
    (hbefore : before.seen? [] = some .directory) {artifact : Artifact}
    (hservice : ∀ other ∈ items, other.serviceModule = artifact.serviceModule)
    (hnew : ∀ other ∈ items, other.ident.file ≠ artifact.ident.file)
    {result : Except EmitError Outcome} (hwrite : Sink.write artifact files = (result, after)) :
    result = .error .unwritable ∨
      (∃ outcome, result = .ok outcome) ∧ Holds root before (items ++ [artifact]) after := by
  obtain rfl := h.sameRoot
  have hfree := h.lookup_eq_none hservice hnew
  by_cases hsame : files.store.read? (Path.join files.root artifact.path) = some artifact.source
  · rw [write_of_same hfree hsame] at hwrite
    obtain ⟨rfl, rfl⟩ := Prod.mk.inj hwrite
    obtain ⟨-, place, hplace, -⟩ := Tree.read?_eq_some.1 hsame
    exact .inr ⟨⟨_, rfl⟩, h.settle hservice hnew hplace hsame (.refl _)⟩
  · rcases hstore : files.store.write (Path.join files.root artifact.path) artifact.source with
      ⟨_ | _, store⟩
    · rw [write_of_other hfree hsame hstore] at hwrite
      obtain ⟨rfl, rfl⟩ := Prod.mk.inj hwrite
      exact .inl rfl
    · rw [write_of_other hfree hsame hstore] at hwrite
      obtain ⟨rfl, rfl⟩ := Prod.mk.inj hwrite
      obtain ⟨hread, place, hplace, hchanges⟩ :=
        Tree.write_eq_true (h.changes.directories [] hbefore) hstore
      exact .inr ⟨⟨_, rfl⟩, h.settle hservice hnew hplace hread hchanges⟩

/-- Items of one service, no two of them in one file. -/
structure Apart (items : List Artifact) : Prop where
  files : items.Pairwise fun a b => a.ident.file ≠ b.ident.file
  service : ∀ a ∈ items, ∀ b ∈ items, a.serviceModule = b.serviceModule

theorem Apart.artifact {artifact : Artifact} {rest : List Artifact}
    (h : Apart (items ++ artifact :: rest)) :
    (∀ other ∈ items, other.serviceModule = artifact.serviceModule) ∧
      ∀ other ∈ items, other.ident.file ≠ artifact.ident.file :=
  ⟨fun other hother => h.service other (List.mem_append_left _ hother) artifact
      (List.mem_append_right _ List.mem_cons_self),
    fun other hother => (List.pairwise_append.1 h.files).2.2 other hother artifact
      List.mem_cons_self⟩

/-- A folder takes such items one after the other, up to the first that cannot be written. -/
theorem Holds.writeAll (h : Holds root before items files)
    (hbefore : before.seen? [] = some .directory) {more : List Artifact}
    (hapart : Apart (items ++ more)) {result : Except EmitError Unit}
    (hwrite : writeAll more files = (result, after)) :
    result = .error .unwritable ∨
      result = .ok () ∧ Holds root before (items ++ more) after := by
  induction more generalizing items files with
  | nil =>
    obtain ⟨rfl, rfl⟩ := Prod.mk.inj hwrite
    exact .inr ⟨rfl, by rwa [List.append_nil]⟩
  | cons artifact rest ih =>
    obtain ⟨hservice, hnew⟩ := hapart.artifact
    rcases hfirst : Sink.write artifact files with ⟨answer, next⟩
    rcases h.write hbefore hservice hnew hfirst with rfl | ⟨⟨outcome, rfl⟩, hnext⟩
    · rw [writeAll_cons_of_error hfirst] at hwrite
      obtain ⟨rfl, -⟩ := Prod.mk.inj hwrite
      exact .inl rfl
    · rw [writeAll_cons_of_ok hfirst] at hwrite
      rw [List.append_cons] at hapart ⊢
      exact ih hnext hapart hwrite

/-- A place for items, with what it answered to each. -/
structure Watched (σ : Type) where
  sink : σ
  answers : List (Artifact × Except EmitError Outcome) := []

instance {σ : Type} [Sink σ] : Sink (Watched σ) where
  write artifact watched :=
    let (answer, sink) := Sink.write artifact watched.sink
    (answer, ⟨sink, watched.answers ++ [(artifact, answer)]⟩)

theorem watched_write {σ : Type} [Sink σ] {artifact : Artifact} {sink next : σ}
    {answer : Except EmitError Outcome} (h : Sink.write artifact sink = (answer, next))
    (answers : List (Artifact × Except EmitError Outcome)) :
    Sink.write artifact (⟨sink, answers⟩ : Watched σ) =
      (answer, ⟨next, answers ++ [(artifact, answer)]⟩) := by
  show (let (answer, sink) := Sink.write artifact sink
    (answer, (⟨sink, answers ++ [(artifact, answer)]⟩ : Watched σ))) = _
  rw [h]

/-- A folder that is up to date finds all items unchanged, and changes nothing. -/
theorem Holds.writeAll_again (h : Holds root before items files) {more : List Artifact}
    (hapart : Apart (items ++ more))
    (hread : ∀ artifact ∈ more,
      files.store.read? (Path.join root artifact.path) = some artifact.source)
    (answers : List (Artifact × Except EmitError Outcome)) :
    ∃ settled, Generate.writeAll more files = (.ok (), { files with settled }) ∧
      Generate.writeAll more (⟨files, answers⟩ : Watched Files) =
        (.ok (), ⟨{ files with settled }, answers ++ more.map fun artifact =>
          (artifact, .ok .unchanged)⟩) := by
  induction more generalizing items files answers with
  | nil => exact ⟨files.settled, rfl, by rw [List.map_nil, List.append_nil]; rfl⟩
  | cons artifact rest ih =>
    obtain rfl := h.sameRoot
    obtain ⟨hservice, hnew⟩ := hapart.artifact
    have hsame := hread artifact List.mem_cons_self
    have hfirst := write_of_same (h.lookup_eq_none hservice hnew) hsame
    obtain ⟨-, place, hplace, -⟩ := Tree.read?_eq_some.1 hsame
    have hnext := h.settle hservice hnew hplace hsame (.refl _)
    rw [List.append_cons] at hapart
    obtain ⟨settled, hrest, hwatched⟩ := ih hnext hapart
      (fun other hother => hread other (List.mem_cons_of_mem _ hother))
      (answers ++ [(artifact, .ok .unchanged)])
    refine ⟨settled, (writeAll_cons_of_ok hfirst rest).trans hrest, ?_⟩
    rw [writeAll_cons_of_ok (watched_write hfirst answers), hwatched, List.map_cons,
      ← List.append_cons]
    rfl

namespace Run

theorem apart_itemsOf {job : Job} (hmodel : job.model.Loaded) : Apart (itemsOf job) :=
  ⟨pairwise_file_itemsOf hmodel, fun _ ha _ hb =>
    (serviceModule_of_mem_itemsOf ha).trans (serviceModule_of_mem_itemsOf hb).symm⟩

/-- A run with files comes to the same report as in memory when every file can be written. Each item
is then read at its path, directories are made for them, and nothing else changes. Running again in
that folder comes to the same report too, finds every item unchanged and changes nothing. -/
theorem files_as_memory {model : ServiceModel} (hmodel : model.Loaded) (settings : Settings)
    (root : String) (entries : List (String × Tree)) :
    let job : Job := ⟨model, settings⟩
    let before := Tree.directory entries
    let memory := (start job ({} : Memory)).all
    let files := (start job (⟨root, before, []⟩ : Files)).all
    let store := files.2.sink.store
    let again := (start job files.2.sink.restart).all
    let watched := (start job (⟨files.2.sink.restart, []⟩ : Watched Files)).all
    (∀ failure ∈ files.1.failures, failure.2 ≠ .emit .unwritable) →
    files.1 = memory.1 ∧
    (∀ artifact ∈ memory.2.sink.artifacts,
      store.read? (Path.join root artifact.path) = some artifact.source) ∧
    (∀ place, (∀ artifact ∈ memory.2.sink.artifacts,
        store.locate? (Path.join root artifact.path) ≠ some place) →
      store.seen? place = before.seen? place ∨
        before.seen? place = none ∧ store.seen? place = some .directory) ∧
    again.1 = memory.1 ∧ again.2.sink.store = store ∧
    watched.1 = again.1 ∧ watched.2.sink.sink = again.2.sink ∧
    watched.2.sink.answers =
      memory.2.sink.artifacts.map fun artifact => (artifact, .ok .unchanged) := by
  intro job before memory files store again watched hwritable
  obtain ⟨hreport, hitems⟩ := @all_memory job hmodel
  have hapart := @apart_itemsOf job hmodel
  have hempty : Holds root before [] (⟨root, before, []⟩ : Files) :=
    ⟨by simp, by simp, .refl before, rfl⟩
  rcases hwrite : writeAll (itemsOf job) (⟨root, before, []⟩ : Files) with ⟨result, last⟩
  rcases hempty.writeAll rfl hapart hwrite with rfl | ⟨rfl, hholds⟩
  · obtain ⟨name, hmem⟩ := exists_failure_of_writeAll hwrite
    exact absurd rfl (hwritable _ hmem)
  · rw [List.nil_append] at hholds
    have hfiles : files = _ := all_of_writeAll hwrite
    have hlast : files.2.sink = last := congrArg (fun there => there.2.sink) hfiles
    have hstore : store = last.store := congrArg Folder.store hlast
    have hrestart : Holds root last.store [] last.restart :=
      ⟨by simp [Folder.restart], by simp, .refl last.store, hholds.sameRoot⟩
    obtain ⟨settled, hagain, hwatched⟩ := hrestart.writeAll_again hapart hholds.read []
    have hsame : again = (start job last.restart).all :=
      congrArg (fun sink => (start job (Folder.restart sink)).all) hlast
    have hsame' : watched = (start job (⟨last.restart, []⟩ : Watched Files)).all :=
      congrArg (fun sink => (start job (⟨Folder.restart sink, []⟩ : Watched Files)).all) hlast
    have hagain := hsame.trans (all_of_writeAll hagain)
    have hwatched := hsame'.trans (all_of_writeAll hwatched)
    rw [hitems, hreport, hstore, hfiles, hagain, hwatched]
    refine ⟨rfl, hholds.read, fun place hplace => hholds.changes.elsewhere place fun hmem => ?_,
      rfl, rfl, rfl, rfl, List.nil_append _⟩
    obtain ⟨artifact, hartifact, hlocate⟩ := mem_placesOf.1 hmem
    exact hplace artifact hartifact hlocate

/-- Operations that are in the order of their names are compiled as they come. -/
theorem all_of_pairwise {σ : Type} [Sink σ] {job : Job} {names : List String}
    (hnames : Fields.names job.model.operations = names) (h : names.Pairwise (· ≤ ·)) (sink : σ) :
    (start job sink).all = (start job sink).compileAll names := by
  have hsorted : names.Pairwise fun a b => decide (a ≤ b) = true := h.imp decide_eq_true
  show (start job sink).compileAll (job.model.operations.names.mergeSort fun a b => a ≤ b) = _
  rw [hnames, List.mergeSort_of_pairwise hsorted]

/-- Files from before: one at the path of an item, and one that is no item. -/
def oldEntries : List (String × Tree) := [
  ("notes", .file "kept"),
  ("out", .directory [("albums", .directory [("enums", .directory [("kind.rs", .file "old")])])])]

theorem files_as_memory_of_album :
    ServiceModel.load albumText = .ok albumModel ∧
      let job : Job := ⟨albumModel, { serviceModule := "albums" }⟩
      let memory := (start job ({} : Memory)).all
      let files := (start job (⟨"out", .directory oldEntries, []⟩ : Files)).all
      let watched := (start job (⟨files.2.sink.restart, []⟩ : Watched Files)).all
      (files.1.failures.map Prod.fst = ["Get"] ∧
        (files.2.sink.store.files "").map Prod.fst = ["notes", "out/albums/enums/kind.rs",
          "out/albums/types/song.rs", "out/albums/input/album.rs", "out/albums/client/put.rs"]) ∧
      files.1 = memory.1 ∧
      watched.2.sink.answers =
        memory.2.sink.artifacts.map fun artifact => (artifact, .ok .unchanged) := by
  refine ⟨load_albumText, ?_⟩
  intro job memory files watched
  have hfiles : files = (start job (⟨"out", .directory oldEntries, []⟩ : Files)).compileAll
      ["Get", "Put"] := all_of_pairwise rfl (by decide) _
  have hrun : (∀ failure ∈ files.1.failures, failure.2 ≠ .emit .unwritable) ∧
      files.1.failures.map Prod.fst = ["Get"] ∧
      (files.2.sink.store.files "").map Prod.fst = ["notes", "out/albums/enums/kind.rs",
        "out/albums/types/song.rs", "out/albums/input/album.rs", "out/albums/client/put.rs"] := by
    rw [hfiles]
    decide +kernel
  obtain ⟨hreport, -, -, -, -, -, -, hanswers⟩ :=
    files_as_memory (.load load_albumText) job.settings "out" oldEntries hrun.1
  exact ⟨hrun.2, hreport, hanswers⟩

end Run
end ServiceBindings.Generate
