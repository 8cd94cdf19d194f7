import Mathlib.Data.Option.Basic
import ServiceBindings.Proofs.Fields
import ServiceBindings.Proofs.Storage.Path
import ServiceBindings.Storage.Tree

/-! What stands at the places of a tree, and what writing at a path changes there. -/
namespace ServiceBindings.Storage.Tree

/-- What is seen at one place. -/
inductive Entry where
  | file (content : String)
  | directory
deriving DecidableEq

def top : Tree → Entry
  | file content => .file content
  | directory _ => .directory

def seen? (tree : Tree) (place : List String) : Option Entry :=
  (tree.get? place).map top

theorem hasDirectory_eq_true {tree : Tree} {place : List String} :
    tree.hasDirectory place = true ↔ tree.seen? place = some .directory := by
  unfold hasDirectory seen?
  rcases tree.get? place with _ | _ | _ <;> simp [top]

theorem seen?_append (tree : Tree) (place below : List String) :
    tree.seen? (place ++ below) = (tree.get? place).bind (·.seen? below) := by
  rw [seen?, get?_append]
  cases tree.get? place <;> rfl

theorem seen?_nil (tree : Tree) : tree.seen? [] = some tree.top := by
  rw [seen?, get?, Option.map_some]

theorem seen?_directory_cons (entries : List (String × Tree)) (step : String)
    (rest : List String) :
    (directory entries).seen? (step :: rest) = (Fields.get? entries step).bind (·.seen? rest) := by
  rw [seen?, get?]
  cases Fields.get? entries step <;> rfl

/-- Only below directories there are places. -/
theorem directory_of_seen? {tree : Tree} {place : List String} {step : String}
    {rest : List String} {entry : Entry} (h : tree.seen? (place ++ step :: rest) = some entry) :
    tree.seen? place = some .directory := by
  rw [seen?_append] at h
  obtain ⟨inner, hinner, h⟩ := Option.bind_eq_some_iff.1 h
  rw [seen?, hinner]
  cases inner with
  | file content => cases h
  | directory entries => rfl

theorem seen?_dropLast {tree : Tree} {place : List String}
    (h : tree.seen? place = some .directory) : tree.seen? place.dropLast = some .directory := by
  rcases List.eq_nil_or_concat place with rfl | ⟨before, name, rfl⟩
  · exact h
  · rw [List.concat_eq_append] at h
    rw [List.concat_eq_append, List.dropLast_concat]
    exact directory_of_seen? h

/-- Something with nothing below it may stand in a directory under a name that is no directory's,
and nothing else changes then. -/
theorem seen?_directory_set {entries : List (String × Tree)} {name : String} {new : Tree}
    (hold : (directory entries).seen? [name] ≠ some .directory)
    (hnew : ∀ step rest, new.get? (step :: rest) = none) (other : List String) :
    (directory (Fields.set name new entries)).seen? other =
      if other = [name] then some new.top else (directory entries).seen? other := by
  cases other with
  | nil => rfl
  | cons step below =>
    rw [seen?_directory_cons, seen?_directory_cons, Fields.get?_set]
    by_cases hstep : step = name
    · subst hstep
      rw [seen?_directory_cons] at hold
      rw [if_pos rfl, Option.bind_some]
      cases below with
      | nil => rw [seen?_nil, if_pos rfl]
      | cons next rest =>
        rw [seen?, hnew, if_neg (by simp)]
        cases hinner : Fields.get? entries step with
        | none => rfl
        | some inner =>
          cases inner with
          | file content => rfl
          | directory entries => simp [hinner, seen?_nil, top] at hold
    · rw [if_neg hstep, if_neg fun h => hstep (List.cons.inj h).1]

/-- In a directory, something with nothing below it may be put where no directory is, and nothing
else changes then. -/
theorem seen?_put {tree : Tree} (new : Tree) {place : List String} {name : String}
    (hplace : tree.seen? place = some .directory)
    (hold : tree.seen? (place ++ [name]) ≠ some .directory)
    (hnew : ∀ step rest, new.get? (step :: rest) = none) (other : List String) :
    (tree.put (place ++ [name]) new).seen? other =
      if other = place ++ [name] then some new.top else tree.seen? other := by
  induction place generalizing tree other with
  | nil =>
    cases tree with
    | file content => cases hplace
    | directory entries =>
      rw [List.nil_append] at hold ⊢
      rw [put, put]
      exact seen?_directory_set hold hnew other
  | cons first rest ih =>
    cases tree with
    | file content => cases hplace
    | directory entries =>
      rw [seen?_directory_cons] at hplace
      obtain ⟨inner, hinner, hbelow⟩ := Option.bind_eq_some_iff.1 hplace
      rw [List.cons_append, seen?_directory_cons, hinner, Option.bind_some] at hold
      rw [List.cons_append, put, hinner]
      cases other with
      | nil => rfl
      | cons step below =>
        rw [seen?_directory_cons, seen?_directory_cons, Fields.get?_set]
        by_cases hstep : step = first
        · subst hstep
          rw [if_pos rfl, hinner, Option.bind_some, Option.bind_some, Option.getD_some,
            ih hbelow hold]
          simp
        · rw [if_neg hstep, if_neg fun h => hstep (List.cons.inj h).1]

/-- Away from some places, directories are made where nothing was, and that is all. Directories
stay everywhere. -/
structure ChangesAt (places : List (List String)) (before after : Tree) : Prop where
  elsewhere : ∀ place ∉ places, after.seen? place = before.seen? place ∨
    before.seen? place = none ∧ after.seen? place = some .directory
  directories : ∀ place, before.seen? place = some .directory →
    after.seen? place = some .directory

variable {before middle after tree : Tree} {places more : List (List String)}

theorem ChangesAt.refl (tree : Tree) : ChangesAt places tree tree :=
  ⟨fun _ _ => .inl rfl, fun _ h => h⟩

theorem ChangesAt.mono (h : ChangesAt places before after) (hmore : places ⊆ more) :
    ChangesAt more before after :=
  ⟨fun place hplace => h.elsewhere place fun hmem => hplace (hmore hmem), h.directories⟩

theorem ChangesAt.trans (h : ChangesAt places before middle)
    (h' : ChangesAt places middle after) : ChangesAt places before after := by
  refine ⟨fun place hplace => ?_, fun place hdirectory =>
    h'.directories place (h.directories place hdirectory)⟩
  rcases h.elsewhere place hplace with hsame | ⟨hnone, hdirectory⟩
  · rw [← hsame]
    exact h'.elsewhere place hplace
  · exact .inr ⟨hnone, h'.directories place hdirectory⟩

/-- Steps lead where they led, as long as directories stay. -/
theorem ChangesAt.step? (h : ChangesAt places before after) {place next : List String}
    {step : String} (hstep : before.step? place step = some next) :
    after.step? place step = some next := by
  unfold Tree.step? at hstep ⊢
  split_ifs at hstep with hup hdirectory
  · rwa [if_pos hup]
  · rwa [if_neg hup, if_pos (hasDirectory_eq_true.2
      (h.directories _ (hasDirectory_eq_true.1 hdirectory)))]

theorem ChangesAt.foldlM_step? (h : ChangesAt places before after) {steps : List String}
    {place last : List String} (hsteps : steps.foldlM before.step? place = some last) :
    steps.foldlM after.step? place = some last := by
  induction steps generalizing place with
  | nil => exact hsteps
  | cons step rest ih =>
    rw [List.foldlM_cons] at hsteps ⊢
    obtain ⟨next, hnext, hrest⟩ := Option.bind_eq_some_iff.1 hsteps
    exact Option.bind_eq_some_iff.2 ⟨next, h.step? hnext, ih hrest⟩

/-- A step leads from a directory to a directory. -/
theorem directory_of_step? {place next : List String} {step : String}
    (hplace : tree.seen? place = some .directory) (h : tree.step? place step = some next) :
    tree.seen? next = some .directory := by
  unfold step? at h
  split_ifs at h with hup hdirectory
  · exact Option.some.inj h ▸ seen?_dropLast hplace
  · exact Option.some.inj h ▸ hasDirectory_eq_true.1 hdirectory

/-- A new directory where nothing was changes nothing else. -/
theorem changesAt_put_directory {place : List String} {name : String}
    (hplace : tree.seen? place = some .directory) (hnone : tree.get? (place ++ [name]) = none) :
    ChangesAt [] tree (tree.put (place ++ [name]) (directory [])) ∧
      (tree.put (place ++ [name]) (directory [])).seen? (place ++ [name]) = some .directory := by
  have hentry : tree.seen? (place ++ [name]) = none := by rw [seen?, hnone, Option.map_none]
  have hold : tree.seen? (place ++ [name]) ≠ some .directory := by simp [hentry]
  have hput := seen?_put (directory []) hplace hold fun _ _ => rfl
  refine ⟨⟨fun other _ => ?_, fun other hdirectory => ?_⟩, by rw [hput, if_pos rfl]; rfl⟩
  · rw [hput other]
    split_ifs with h
    · exact .inr ⟨h ▸ hentry, rfl⟩
    · exact .inl rfl
  · rw [hput other]
    split_ifs with h
    · rfl
    · exact hdirectory

/-- A new file where no directory is changes nothing else. -/
theorem changesAt_put_file {place : List String} {name : String} (content : String)
    (hplace : tree.seen? place = some .directory)
    (hold : tree.seen? (place ++ [name]) ≠ some .directory) :
    ChangesAt [place ++ [name]] tree (tree.put (place ++ [name]) (file content)) ∧
      (tree.put (place ++ [name]) (file content)).seen? (place ++ [name]) =
        some (.file content) := by
  have hput := seen?_put (file content) hplace hold fun _ _ => rfl
  refine ⟨⟨fun other hother => ?_, fun other hdirectory => ?_⟩, by rw [hput, if_pos rfl]; rfl⟩
  · rw [hput other, if_neg (by simpa using hother)]
    exact .inl rfl
  · rw [hput other, if_neg fun heq : other = place ++ [name] => hold (heq ▸ hdirectory)]
    exact hdirectory

/-- Directories that are made on the way lead to its end. -/
theorem makeDirectories_eq_some {steps place last : List String}
    (hplace : tree.seen? place = some .directory)
    (h : makeDirectories steps place tree = (some last, after)) :
    ChangesAt [] tree after ∧ steps.foldlM after.step? place = some last ∧
      after.seen? last = some .directory := by
  induction steps generalizing place tree with
  | nil =>
    obtain ⟨hlast, rfl⟩ := Prod.mk.inj h
    obtain rfl := Option.some.inj hlast
    exact ⟨.refl tree, rfl, hplace⟩
  | cons step rest ih =>
    rw [makeDirectories] at h
    rw [List.foldlM_cons]
    cases hstep : tree.step? place step with
    | some next =>
      rw [hstep] at h
      obtain ⟨hchanges, hrest, hlast⟩ := ih (directory_of_step? hplace hstep) h
      exact ⟨hchanges, Option.bind_eq_some_iff.2 ⟨next, hchanges.step? hstep, hrest⟩, hlast⟩
    | none =>
      rw [hstep] at h
      dsimp only at h
      split_ifs at h with hfree
      · rw [Bool.and_eq_true, Option.isNone_iff_eq_none] at hfree
        obtain ⟨hmade, hthere⟩ := changesAt_put_directory hplace hfree.2
        obtain ⟨hchanges, hrest, hlast⟩ := ih hthere h
        have hname : step ≠ ".." := by
          rintro rfl
          exact absurd hfree.1 (by decide)
        have hnext : after.step? place step = some (place ++ [step]) := by
          rw [Tree.step?, if_neg hname, if_pos (hasDirectory_eq_true.2
            (hchanges.directories _ hthere))]
        exact ⟨hmade.trans hchanges, Option.bind_eq_some_iff.2 ⟨_, hnext, hrest⟩, hlast⟩
      · cases h

def locate? (tree : Tree) (path : String) : Option (List String) := do
  let place ← (Path.steps (Path.parent path)).foldlM tree.step? []
  let name ← (Path.steps path).getLast?
  return place ++ [name]

theorem locate?_eq_some {path : String} {place : List String} :
    tree.locate? path = some place ↔ ∃ directory name,
      (Path.steps (Path.parent path)).foldlM tree.step? [] = some directory ∧
      (Path.steps path).getLast? = some name ∧ place = directory ++ [name] := by
  unfold locate?
  rw [Option.bind_eq_bind, Option.bind_eq_some_iff]
  refine exists_congr fun directory => ?_
  rw [Option.bind_eq_bind, Option.bind_eq_some_iff]
  constructor
  · rintro ⟨hdirectory, name, hname, hplace⟩
    exact ⟨name, hdirectory, hname, (Option.some.inj hplace).symm⟩
  · rintro ⟨name, hdirectory, hname, rfl⟩
    exact ⟨hdirectory, name, hname, rfl⟩

theorem ChangesAt.locate? (h : ChangesAt places before after) {path : String}
    {place : List String} (hplace : before.locate? path = some place) :
    after.locate? path = some place := by
  obtain ⟨directory, name, hdirectory, hname, rfl⟩ := locate?_eq_some.1 hplace
  exact locate?_eq_some.2 ⟨directory, name, h.foldlM_step? hdirectory, hname, rfl⟩

theorem seen?_eq_file {place : List String} {content : String} :
    tree.seen? place = some (.file content) ↔ tree.get? place = some (file content) := by
  unfold seen?
  rcases tree.get? place with _ | _ | _ <;> simp [top]

/-- A path is read where it leads. -/
theorem read?_eq_some {path content : String} :
    tree.read? path = some content ↔ Path.isPath path = true ∧
      ∃ place, tree.locate? path = some place ∧ tree.seen? place = some (.file content) := by
  unfold read?
  simp only [Option.bind_eq_bind, Option.bind_eq_some_iff, locate?_eq_some, seen?_eq_file]
  constructor
  · rintro ⟨⟨⟩, hpath, directory, hdirectory, name, hname, hfile⟩
    split at hfile
    · next found heq =>
      obtain rfl := Option.some.inj hfile
      exact ⟨(Option.guard_eq_some' _).1 hpath, _, ⟨directory, name, hdirectory, hname, rfl⟩, heq⟩
    · cases hfile
  · rintro ⟨hpath, _, ⟨directory, name, hdirectory, hname, rfl⟩, hfile⟩
    exact ⟨(), (Option.guard_eq_some' _).2 hpath, directory, hdirectory, name, hname, by rw [hfile]⟩

/-- What is written is at the place to which the path leads then. -/
theorem write_eq_true {path content : String} (hroot : tree.seen? [] = some .directory)
    (h : tree.write path content = (true, after)) :
    after.read? path = some content ∧ ∃ place, after.locate? path = some place ∧
      ChangesAt [place] tree after := by
  unfold write at h
  split_ifs at h with hparent
  · rcases hmade : makeDirectories (Path.steps (Path.parent path)) [] tree with ⟨_ | place, made⟩
    · rw [hmade] at h
      cases h
    rw [hmade] at h
    cases hlast : (Path.steps path).getLast? with
    | none =>
      rw [hlast] at h
      cases h
    | some name =>
      rw [hlast] at h
      dsimp only at h
      split_ifs at h with hwritable
      · obtain ⟨-, rfl⟩ := Prod.mk.inj h
        rw [Bool.and_eq_true, Bool.and_eq_true, Bool.not_eq_true', ← Bool.not_eq_true,
          hasDirectory_eq_true] at hwritable
        obtain ⟨⟨hpath, -⟩, hold⟩ := hwritable
        obtain ⟨hmakes, hsteps, hplace⟩ := makeDirectories_eq_some hroot hmade
        obtain ⟨hputs, hfile⟩ := changesAt_put_file content hplace hold
        have hlocate := locate?_eq_some.2 ⟨place, name, hputs.foldlM_step? hsteps, hlast, rfl⟩
        exact ⟨read?_eq_some.2 ⟨hpath, _, hlocate, hfile⟩, _, hlocate,
          (hmakes.mono (List.nil_subset _)).trans hputs⟩
      · cases h
  · cases h

end ServiceBindings.Storage.Tree
