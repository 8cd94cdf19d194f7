import ServiceBindings.Proofs.Fields
import ServiceBindings.Proofs.Naming.Stems

/-! Names stay as they were given, and no two of them share a file. -/
namespace ServiceBindings.Naming

/-- What has a name. -/
inductive Owner where
  | shape (name : String)
  | operation (name : String)

def Identifier.file (ident : Identifier) : Area × String :=
  (ident.area, fileStem ident.name)

namespace Names

/-- All names that were given, with their owners. -/
def given (names : Names) : List (Owner × Identifier) :=
  names.shapes.map (fun entry => (.shape entry.1, entry.2)) ++
    names.operations.map fun entry => (.operation entry.1, entry.2)

/-- The files of the names differ, and all of them are known to be taken. -/
structure Sound (names : Names) : Prop where
  nodup : (names.given.map fun entry => entry.2.file).Nodup
  taken : ∀ entry ∈ names.given, entry.2.file ∈ names.taken

theorem sound_ofModel (model : ServiceModel) : (ofModel model).Sound :=
  ⟨List.nodup_nil, fun _ h => by simp [given, ofModel] at h⟩

theorem mem_given_shape {names : Names} {name : String} {ident : Identifier}
    (h : Fields.get? names.shapes name = some ident) : (.shape name, ident) ∈ names.given :=
  List.mem_append_left _ (List.mem_map_of_mem (Fields.mem_of_get? h))

theorem mem_given_operation {names : Names} {name : String} {ident : Identifier}
    (h : Fields.get? names.operations name = some ident) :
    (.operation name, ident) ∈ names.given :=
  List.mem_append_right _ (List.mem_map_of_mem (Fields.mem_of_get? h))

/-- An identifier belongs to one owner. -/
theorem Sound.owner_eq {names : Names} (h : names.Sound) {a b : Owner} {ident : Identifier}
    (ha : (a, ident) ∈ names.given) (hb : (b, ident) ∈ names.given) : a = b :=
  (Prod.mk.inj (List.inj_on_of_nodup_map h.nodup ha hb rfl)).1

theorem perm_given_of_shapes {names after : Names} {name : String} {ident : Identifier}
    (hshapes : after.shapes = names.shapes ++ [(name, ident)])
    (hoperations : after.operations = names.operations) :
    after.given.Perm ((.shape name, ident) :: names.given) := by
  rw [given, given, hshapes, hoperations, List.map_append, List.map_singleton, List.append_assoc]
  exact List.perm_middle

theorem perm_given_of_operations {names after : Names} {name : String} {ident : Identifier}
    (hshapes : after.shapes = names.shapes)
    (hoperations : after.operations = names.operations ++ [(name, ident)]) :
    after.given.Perm ((.operation name, ident) :: names.given) := by
  rw [given, given, hshapes, hoperations, List.map_append, List.map_singleton, ← List.append_assoc]
  exact List.perm_append_singleton _ _

/-- A new name keeps the names sound. -/
theorem Sound.cons {names after : Names} (h : names.Sound) (owner : Owner) (area : Area)
    (base : String) (htaken : after.taken = (names.claim area base).2.taken)
    (hgiven : after.given.Perm ((owner, (names.claim area base).1) :: names.given)) :
    after.Sound := by
  have hfree : (names.claim area base).1.file ∉ names.taken :=
    fileStem_freeName_notMem names.taken area base
  refine ⟨?_, fun entry hmem => ?_⟩
  · rw [(hgiven.map _).nodup_iff, List.map_cons, List.nodup_cons]
    refine ⟨fun hmem => ?_, h.nodup⟩
    obtain ⟨entry, hentry, hfile⟩ := List.mem_map.1 hmem
    exact hfree (hfile ▸ h.taken entry hentry)
  · rw [htaken]
    rcases List.mem_cons.1 (hgiven.mem_iff.1 hmem) with rfl | hmem
    · exact List.mem_cons_self
    · exact List.mem_cons_of_mem _ (h.taken entry hmem)

/-- Names are only added. -/
structure Grows (before after : Names) : Prop where
  roles : after.roles = before.roles
  shapes : ∀ name ident, Fields.get? before.shapes name = some ident →
    Fields.get? after.shapes name = some ident
  operations : ∀ name ident, Fields.get? before.operations name = some ident →
    Fields.get? after.operations name = some ident

theorem Grows.refl (names : Names) : names.Grows names :=
  ⟨rfl, fun _ _ h => h, fun _ _ h => h⟩

theorem Grows.trans {a b c : Names} (hab : a.Grows b) (hbc : b.Grows c) : a.Grows c :=
  ⟨hbc.roles.trans hab.roles, fun name ident h => hbc.shapes name ident (hab.shapes name ident h),
    fun name ident h => hbc.operations name ident (hab.operations name ident h)⟩

/-- What naming a shape does: it recalls the shape's name, or gives it a new one. -/
theorem shape_cases (names : Names) (s : Shape) :
    (Fields.get? names.shapes s.name = some (names.shape s).1 ∧ (names.shape s).2 = names) ∨
    (Fields.get? names.shapes s.name = none ∧
      (names.shape s).1 = (names.claim (names.areaOf s) (typeName s.name)).1 ∧
      (names.shape s).2 = { (names.claim (names.areaOf s) (typeName s.name)).2 with
        shapes := names.shapes ++ [(s.name, (names.shape s).1)] }) := by
  unfold shape
  cases h : Fields.get? names.shapes s.name with
  | some ident => exact .inl ⟨rfl, rfl⟩
  | none =>
    refine .inr ⟨rfl, rfl, ?_⟩
    have hset := Fields.set_of_notMem (Fields.get?_eq_none.1 h)
      (names.claim (names.areaOf s) (typeName s.name)).1
    simp only [claim] at hset ⊢
    rw [hset]

/-- What naming an operation does. -/
theorem operation_cases (names : Names) (name : String) :
    (Fields.get? names.operations name = some (names.operation name).1 ∧
      (names.operation name).2 = names) ∨
    (Fields.get? names.operations name = none ∧
      (names.operation name).1 = (names.claim .client (memberName name)).1 ∧
      (names.operation name).2 = { (names.claim .client (memberName name)).2 with
        operations := names.operations ++ [(name, (names.operation name).1)] }) := by
  unfold operation
  cases h : Fields.get? names.operations name with
  | some ident => exact .inl ⟨rfl, rfl⟩
  | none =>
    refine .inr ⟨rfl, rfl, ?_⟩
    have hset := Fields.set_of_notMem (Fields.get?_eq_none.1 h)
      (names.claim .client (memberName name)).1
    simp only [claim] at hset ⊢
    rw [hset]

theorem Sound.shape {names : Names} (h : names.Sound) (s : Shape) : (names.shape s).2.Sound := by
  rcases names.shape_cases s with ⟨-, hsame⟩ | ⟨-, hident, hnames⟩
  · rwa [hsame]
  · refine h.cons (.shape s.name) (names.areaOf s) (typeName s.name) (by rw [hnames]) ?_
    rw [← hident]
    exact perm_given_of_shapes (by rw [hnames]) (by rw [hnames]; rfl)

theorem Sound.operation {names : Names} (h : names.Sound) (name : String) :
    (names.operation name).2.Sound := by
  rcases names.operation_cases name with ⟨-, hsame⟩ | ⟨-, hident, hnames⟩
  · rwa [hsame]
  · refine h.cons (.operation name) .client (memberName name) (by rw [hnames]) ?_
    rw [← hident]
    exact perm_given_of_operations (by rw [hnames]; rfl) (by rw [hnames])

theorem get?_append_of_some {fields : Fields Identifier} {name key : String}
    {ident new : Identifier} (h : Fields.get? fields name = some ident) :
    Fields.get? (fields ++ [(key, new)]) name = some ident := by
  rw [Fields.get?_append, h, Option.some_or]

theorem get?_append_new {fields : Fields Identifier} {name : String} (ident : Identifier)
    (h : Fields.get? fields name = none) :
    Fields.get? (fields ++ [(name, ident)]) name = some ident := by
  rw [Fields.get?_append, h, Option.none_or, Fields.get?_cons, if_pos rfl]

theorem grows_shape (names : Names) (s : Shape) : names.Grows (names.shape s).2 := by
  rcases names.shape_cases s with ⟨-, hsame⟩ | ⟨-, -, hnames⟩
  · rw [hsame]
    exact .refl names
  · rw [hnames]
    exact ⟨rfl, fun _ _ h => get?_append_of_some h, fun _ _ h => h⟩

theorem grows_operation (names : Names) (name : String) :
    names.Grows (names.operation name).2 := by
  rcases names.operation_cases name with ⟨-, hsame⟩ | ⟨-, -, hnames⟩
  · rw [hsame]
    exact .refl names
  · rw [hnames]
    exact ⟨rfl, fun _ _ h => h, fun _ _ h => get?_append_of_some h⟩

/-- The name that a shape is given is the one that it has from then on. -/
theorem get?_shapes_shape (names : Names) (s : Shape) :
    Fields.get? (names.shape s).2.shapes s.name = some (names.shape s).1 := by
  rcases names.shape_cases s with ⟨hfound, hsame⟩ | ⟨hnew, -, hnames⟩
  · rw [hsame, hfound]
  · rw [hnames]
    exact get?_append_new _ hnew

/-- The name that an operation is given is the one that it has from then on. -/
theorem get?_operations_operation (names : Names) (name : String) :
    Fields.get? (names.operation name).2.operations name = some (names.operation name).1 := by
  rcases names.operation_cases name with ⟨hfound, hsame⟩ | ⟨hnew, -, hnames⟩
  · rw [hsame, hfound]
  · rw [hnames]
    exact get?_append_new _ hnew

end Names
end ServiceBindings.Naming
