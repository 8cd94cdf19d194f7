import ServiceBindings.Proofs.Model.Texts
import ServiceBindings.Proofs.Naming.Names

/-! Names that are asked for in any order. The search for each of them stops, an owner keeps the
name that it was first given, and no two owners share a file. -/
namespace ServiceBindings.Naming

/-- The names that the search for a free one tries: the base by itself, and then with numbers from
two on. -/
def candidate (base : String) : Nat → String
  | 0 => base
  | k + 1 => base ++ Text.natural (k + 2)

/-- The search stops at a candidate: its file is free, and those of all candidates before it are
taken. -/
structure StopsAt (taken : List (Area × String)) (area : Area) (base : String) (k : Nat) :
    Prop where
  free : (area, fileStem (candidate base k)) ∉ taken
  before : ∀ j < k, (area, fileStem (candidate base j)) ∈ taken

theorem candidates_eq_map (base : String) (count : Nat) :
    candidates base count = (List.range (count + 1)).map (candidate base) := by
  rw [List.range_succ_eq_map, List.map_cons, List.map_map]
  rfl

/-- The free name is the candidate at which the search stops, and there it does stop. -/
theorem exists_stopsAt (taken : List (Area × String)) (area : Area) (base : String) :
    ∃ k ≤ taken.length + 1, StopsAt taken area base k ∧
      freeName taken area base = candidate base k := by
  have hfree := fileStem_freeName_notMem taken area base
  have hfind : (candidates base (taken.length + 1)).find?
      (fun name => (area, fileStem name) ∉ taken) =
        ((List.range (taken.length + 2)).find?
          fun k => (area, fileStem (candidate base k)) ∉ taken).map (candidate base) := by
    rw [candidates_eq_map, List.find?_map]
    rfl
  unfold freeName at hfree ⊢
  rw [hfind] at hfree ⊢
  cases hfound : (List.range (taken.length + 2)).find?
      fun k => (area, fileStem (candidate base k)) ∉ taken with
  | none =>
    -- The base itself would be free, and it is the first candidate.
    rw [hfound] at hfree
    exact absurd (decide_eq_true hfree) (List.find?_eq_none.1 hfound 0 (by simp))
  | some k =>
    obtain ⟨hk, hmem, hbefore⟩ := List.find?_range_eq_some.1 hfound
    have hlt := List.mem_range.1 hmem
    exact ⟨k, by omega, ⟨by simpa using hk, fun j hj => by simpa using hbefore j hj⟩, rfl⟩

inductive Query where
  | shape (s : Shape)
  | operation (name : String)

namespace Query

/-- What has the name that is asked for. A shape is known by its own name. -/
def owner : Query → Owner
  | shape s => .shape s.name
  | operation name => .operation name

def base : Query → String
  | shape s => typeName s.name
  | operation name => memberName name

end Query

namespace Names

/-- The module of a name that is asked for. -/
def areaFor (names : Names) : Query → Area
  | .shape s => names.areaOf s
  | .operation _ => .client

def known? (names : Names) : Owner → Option Identifier
  | .shape name => Fields.get? names.shapes name
  | .operation name => Fields.get? names.operations name

def answer (names : Names) : Query → Identifier × Names
  | .shape s => names.shape s
  | .operation name => names.operation name

def answers (names : Names) : List Query → List (Query × Identifier) × Names
  | [] => ([], names)
  | query :: rest =>
    let (ident, next) := names.answer query
    let (others, last) := next.answers rest
    ((query, ident) :: others, last)

theorem answers_cons (names : Names) (query : Query) (rest : List Query) :
    names.answers (query :: rest) =
      ((query, (names.answer query).1) :: ((names.answer query).2.answers rest).1,
        ((names.answer query).2.answers rest).2) := rfl

theorem mem_given_of_known? {names : Names} {owner : Owner} {ident : Identifier}
    (h : names.known? owner = some ident) : (owner, ident) ∈ names.given := by
  cases owner with
  | shape name => exact mem_given_shape h
  | operation name => exact mem_given_operation h

theorem Grows.known? {before after : Names} (h : before.Grows after) {owner : Owner}
    {ident : Identifier} (hknown : before.known? owner = some ident) :
    after.known? owner = some ident := by
  cases owner with
  | shape name => exact h.shapes name ident hknown
  | operation name => exact h.operations name ident hknown

/-- A name is recalled, or the search for a new one stops. -/
theorem answer_cases (names : Names) (query : Query) :
    names.known? query.owner = some (names.answer query).1 ∨
    ∃ k ≤ names.taken.length + 1, StopsAt names.taken (names.areaFor query) query.base k ∧
      (names.answer query).1 = ⟨names.areaFor query, candidate query.base k⟩ := by
  have hclaim (area : Area) (base : String) : ∃ k ≤ names.taken.length + 1,
      StopsAt names.taken area base k ∧ (names.claim area base).1 = ⟨area, candidate base k⟩ := by
    obtain ⟨k, hk, hstops, hname⟩ := exists_stopsAt names.taken area base
    exact ⟨k, hk, hstops, by rw [claim, hname]⟩
  cases query with
  | shape s =>
    rcases names.shape_cases s with ⟨hfound, -⟩ | ⟨-, hident, -⟩
    · exact .inl hfound
    · obtain ⟨k, hk, hstops, hname⟩ := hclaim (names.areaOf s) (typeName s.name)
      exact .inr ⟨k, hk, hstops, hident.trans hname⟩
  | operation name =>
    rcases names.operation_cases name with ⟨hfound, -⟩ | ⟨-, hident, -⟩
    · exact .inl hfound
    · obtain ⟨k, hk, hstops, hname⟩ := hclaim .client (memberName name)
      exact .inr ⟨k, hk, hstops, hident.trans hname⟩

/-- An answer keeps the names sound, takes none of them back, and is known from then on. -/
theorem Sound.answer {names : Names} (h : names.Sound) (query : Query) :
    (names.answer query).2.Sound ∧ names.Grows (names.answer query).2 ∧
      (names.answer query).2.known? query.owner = some (names.answer query).1 := by
  cases query with
  | shape s => exact ⟨h.shape s, names.grows_shape s, names.get?_shapes_shape s⟩
  | operation name =>
    exact ⟨h.operation name, names.grows_operation name, names.get?_operations_operation name⟩

/-- All answers are known in the end, by names that are still sound. -/
theorem Sound.answers {names : Names} (h : names.Sound) (queries : List Query) :
    (names.answers queries).2.Sound ∧ names.Grows (names.answers queries).2 ∧
      ∀ a ∈ (names.answers queries).1,
        (names.answers queries).2.known? a.1.owner = some a.2 := by
  induction queries generalizing names with
  | nil => exact ⟨h, .refl names, fun a hmem => by simp [Names.answers] at hmem⟩
  | cons query rest ih =>
    obtain ⟨hsound, hgrows, hknown⟩ := h.answer query
    obtain ⟨hlast, hmore, hothers⟩ := ih hsound
    rw [answers_cons]
    refine ⟨hlast, hgrows.trans hmore, fun a hmem => ?_⟩
    rcases List.mem_cons.1 hmem with rfl | hmem
    · exact hmore.known? hknown
    · exact hothers a hmem

theorem map_fst_answers (names : Names) (queries : List Query) :
    (names.answers queries).1.map Prod.fst = queries := by
  induction queries generalizing names with
  | nil => rfl
  | cons query rest ih => rw [answers_cons, List.map_cons, ih]

/-- Whatever names are asked for, every query is answered: by the name that is known, or by the
first candidate whose file is free. An owner is answered alike each time, and two of them never with
one module and one file. Different shapes of a model are different owners. -/
theorem stable_and_apart {model : ServiceModel} (hmodel : model.Loaded) (queries : List Query) :
    let answers := ((ofModel model).answers queries).1
    let names := ((ofModel model).answers queries).2
    answers.map Prod.fst = queries ∧
    (∀ query, names.known? query.owner = some (names.answer query).1 ∨
      ∃ k ≤ names.taken.length + 1, StopsAt names.taken (names.areaFor query) query.base k ∧
        (names.answer query).1 = ⟨names.areaFor query, candidate query.base k⟩) ∧
    (∀ a ∈ answers, ∀ b ∈ answers, a.1.owner = b.1.owner → a.2 = b.2) ∧
    (∀ a ∈ answers, ∀ b ∈ answers, a.1.owner ≠ b.1.owner → a.2.file ≠ b.2.file ∧ a.2 ≠ b.2) ∧
    ∀ s ∈ model.shapes.map Prod.snd, ∀ t ∈ model.shapes.map Prod.snd, s ≠ t →
      (Query.shape s).owner ≠ (Query.shape t).owner := by
  intro answers names
  obtain ⟨hsound, -, hknown⟩ := (sound_ofModel model).answers queries
  refine ⟨map_fst_answers _ queries, answer_cases names, fun a ha b hb howner => ?_,
    fun a ha b hb howner => ?_, fun s hs t ht hne howner => ?_⟩
  · have hb := hknown b hb
    rw [← howner, hknown a ha] at hb
    exact Option.some.inj hb
  · have hfile : a.2.file ≠ b.2.file := fun heq =>
      howner (Prod.mk.inj (List.inj_on_of_nodup_map hsound.nodup
        (mem_given_of_known? (hknown a ha)) (mem_given_of_known? (hknown b hb)) heq)).1
    exact ⟨hfile, fun heq => hfile (heq ▸ rfl)⟩
  · have hshapes := hmodel.wellFormed.shapes
    obtain ⟨entry, hentry, rfl⟩ := List.mem_map.1 hs
    obtain ⟨other, hother, rfl⟩ := List.mem_map.1 ht
    have hname : entry.1 = other.1 := by
      rw [← hshapes.keys entry hentry, ← hshapes.keys other hother]
      exact Owner.shape.inj howner
    exact hne (congrArg Prod.snd (List.inj_on_of_nodup_map hshapes.names hentry hother hname))

/-- Shapes whose names differ in case alone, one that is named like a numbered other, and one whose
name is that of a type in every module. -/
def policiesDocument : Document := .object [
  ("metadata", .object [("protocol", .string "json"), ("apiVersion", .string "1")]),
  ("shapes", .object [
    ("ACLPolicy", .object [("type", .string "structure")]),
    ("AclPolicy", .object [("type", .string "structure")]),
    ("AclPolicy2", .object [("type", .string "structure")]),
    ("Object", .object [("type", .string "string"), ("enum", .array [])])])]

/-- The model that `policiesDocument` describes. -/
def policiesModel : ServiceModel where
  service := ⟨"Service", "1", .json, none, none, none⟩
  shapes := [
    ("ACLPolicy", ⟨"ACLPolicy", .structure ⟨[], none⟩, none, none, none, false⟩),
    ("AclPolicy", ⟨"AclPolicy", .structure ⟨[], none⟩, none, none, none, false⟩),
    ("AclPolicy2", ⟨"AclPolicy2", .structure ⟨[], none⟩, none, none, none, false⟩),
    ("Object", ⟨"Object", .enumeration [], none, none, none, false⟩)]
  operations := []

theorem stable_and_apart_of_policies :
    ServiceModel.load (Json.Node.ofDocument policiesDocument).text = .ok policiesModel ∧
      let queries : List Query := .operation "Type" ::
        (policiesModel.shapes.map fun entry => .shape entry.2) ++
          [.operation "type", .operation "Type"]
      let answers := ((ofModel policiesModel).answers queries).1
      answers.map (·.2.text) = ["client::r#type", "types::ACLPolicy", "types::AclPolicy2",
        "types::AclPolicy22", "enums::AwsObject", "client::r#type2", "client::r#type"] ∧
      (∀ a ∈ answers, ∀ b ∈ answers, a.1.owner = b.1.owner → a.2 = b.2) ∧
      ∀ a ∈ answers, ∀ b ∈ answers, a.1.owner ≠ b.1.owner → a.2.file ≠ b.2.file ∧ a.2 ≠ b.2 := by
  have hload : ServiceModel.load (Json.Node.ofDocument policiesDocument).text = .ok policiesModel :=
    ServiceModel.load_text (by decide) rfl
  obtain ⟨-, -, hstable, hapart, -⟩ := stable_and_apart (.load hload) (.operation "Type" ::
    (policiesModel.shapes.map fun entry => .shape entry.2) ++
      [.operation "type", .operation "Type"])
  exact ⟨hload, by decide +kernel, hstable, hapart⟩

end Names
end ServiceBindings.Naming
