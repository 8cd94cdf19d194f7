import Mathlib.Data.List.Induction
import Mathlib.Tactic.Common
import ServiceBindings.Proofs.Fields
import ServiceBindings.Xml.Reading

/-! What an element stands for, said of all its parts at once. The reader enters elements one by one
and comes to the same. -/
namespace ServiceBindings

namespace Fields
variable {α : Type}

theorem get?_map (names : List String) (value : String → α) (name : String) :
    get? (names.map fun n => (n, value n)) name =
      if name ∈ names then some (value name) else none := by
  induction names with
  | nil => rfl
  | cons first rest ih =>
    rw [List.map_cons, get?_cons, ih]
    by_cases h : name = first
    · simp [h]
    · simp [h]

/-- Among distinct names, setting a present one changes its value alone. -/
theorem set_map {names : List String} (hnodup : names.Nodup) {name : String} (hmem : name ∈ names)
    (value : String → α) (new : α) :
    set name new (names.map fun n => (n, value n)) =
      names.map fun n => (n, if n = name then new else value n) := by
  induction names with
  | nil => simp at hmem
  | cons first rest ih =>
    rw [List.nodup_cons] at hnodup
    rw [List.map_cons, List.map_cons, set]
    by_cases h : first = name
    · have hrest : ∀ n ∈ rest, (n, value n) = (n, if n = name then new else value n) := by
        intro n hn
        have hne : n ≠ name := fun heq => hnodup.1 (h ▸ heq ▸ hn)
        rw [if_neg hne]
      rw [if_pos h, if_pos h, List.map_congr_left hrest]
    · have hrest : name ∈ rest := (List.mem_cons.1 hmem).resolve_left (Ne.symm h)
      rw [if_neg h, if_neg h, ih hnodup.2 hrest]

end Fields

namespace Xml

/-- The values under one name: a single one stands for itself, several form an array. -/
def together : List Document → Document
  | [value] => value
  | values => .array values

def valuesOf (name : String) (children : List (String × Document)) : List Document :=
  (children.filter (·.1 = name)).map Prod.snd

/-- Elements side by side as members: one for each name, in the order of first occurrence. -/
def grouped (children : List (String × Document)) : List (String × Document) :=
  (children.map Prod.fst).eraseDups.map fun name => (name, together (valuesOf name children))

/-- What an element stands for: its text if it has neither elements nor attributes, and otherwise
its attributes and the elements inside it by their names, of which the elements win. -/
def documentOf (attributes : List (String × String)) (children : List (String × Document))
    (text : String) : Document :=
  if children = [] ∧ attributes = [] then .string text
  else
    .object (Fields.ofList
      (attributes.map (fun entry => (entry.1, .string entry.2)) ++ grouped children))

/-- What an element stands for is never an array, so several of them can be told from one. -/
def IsContent : Document → Prop
  | .string _ => True
  | .object _ => True
  | _ => False

theorem isContent_documentOf (attributes : List (String × String))
    (children : List (String × Document)) (text : String) :
    IsContent (documentOf attributes children text) := by
  unfold documentOf
  split_ifs <;> trivial

theorem mem_names_grouped {children : List (String × Document)} {name : String} :
    name ∈ Fields.names (grouped children) ↔ name ∈ children.map Prod.fst := by
  simp [Fields.names, grouped]

theorem grouped_eq_nil {children : List (String × Document)} :
    grouped children = [] ↔ children = [] := by
  constructor
  · intro h
    by_contra hne
    obtain ⟨child, rest, rfl⟩ := List.exists_cons_of_ne_nil hne
    have hmem : child.1 ∈ Fields.names (grouped (child :: rest)) := mem_names_grouped.2 (by simp)
    simp [h, Fields.names] at hmem
  · rintro rfl
    rfl

theorem valuesOf_append (name : String) (children others : List (String × Document)) :
    valuesOf name (children ++ others) = valuesOf name children ++ valuesOf name others := by
  simp [valuesOf]

theorem valuesOf_eq_nil {name : String} {children : List (String × Document)} :
    valuesOf name children = [] ↔ name ∉ children.map Prod.fst := by
  unfold valuesOf
  rw [List.map_eq_nil_iff, List.filter_eq_nil_iff, List.mem_map, not_exists]
  apply forall_congr'
  intro child
  rw [not_and, decide_eq_true_eq]

/-- One more value makes an array of what stands under its name, or goes to the end of the array. -/
theorem together_concat {values : List Document} (hcontent : ∀ value ∈ values, IsContent value)
    (hne : values ≠ []) (value : Document) :
    together (values ++ [value]) = match together values with
      | .array items => .array (items ++ [value])
      | first => .array [first, value] := by
  cases values with
  | nil => exact absurd rfl hne
  | cons first rest =>
    cases rest with
    | nil =>
      have hfirst := hcontent first List.mem_cons_self
      cases first with
      | string | object => rfl
      | array | number | bool | null => exact hfirst.elim
    | cons second rest => rfl

/-- An element of a new name makes a member of its own, at the end. -/
theorem grouped_concat_of_notMem {children : List (String × Document)} {name : String}
    (hnew : name ∉ children.map Prod.fst) (value : Document) :
    grouped (children ++ [(name, value)]) = grouped children ++ [(name, value)] := by
  have hnames : ((children ++ [(name, value)]).map Prod.fst).eraseDups =
      (children.map Prod.fst).eraseDups ++ [name] := by
    rw [List.map_append, List.eraseDups_append, List.map_singleton, List.removeAll]
    simp [hnew]
    rfl
  have hlast : valuesOf name (children ++ [(name, value)]) = [value] := by
    rw [valuesOf_append, valuesOf_eq_nil.2 hnew]
    simp [valuesOf]
  have hothers : ∀ other ∈ (children.map Prod.fst).eraseDups,
      valuesOf other (children ++ [(name, value)]) = valuesOf other children := by
    intro other hmem
    have hne : name ≠ other := fun heq => hnew (heq ▸ List.mem_eraseDups.1 hmem)
    have hnone : valuesOf other [(name, value)] = [] :=
      valuesOf_eq_nil.2 (by simpa using Ne.symm hne)
    rw [valuesOf_append, hnone, List.append_nil]
  unfold grouped
  rw [hnames, List.map_append, List.map_singleton, hlast]
  congr 1
  exact List.map_congr_left fun other hmem => by rw [hothers other hmem]

/-- An element of a present name changes the member of that name alone. -/
theorem grouped_concat_of_mem {children : List (String × Document)} {name : String}
    (hmem : name ∈ children.map Prod.fst) (value : Document) :
    grouped (children ++ [(name, value)]) = (children.map Prod.fst).eraseDups.map fun other =>
      (other, if other = name then together (valuesOf name children ++ [value])
        else together (valuesOf other children)) := by
  have hnames : ((children ++ [(name, value)]).map Prod.fst).eraseDups =
      (children.map Prod.fst).eraseDups := by
    have hnone : [name].removeAll (children.map Prod.fst) = [] := by
      rw [List.removeAll]
      simpa using hmem
    rw [List.map_append, List.eraseDups_append, List.map_singleton, hnone]
    exact List.append_nil _
  unfold grouped
  rw [hnames]
  refine List.map_congr_left fun other _ => ?_
  by_cases h : other = name
  · subst h
    rw [if_pos rfl, valuesOf_append]
    simp [valuesOf]
  · have hnone : valuesOf other [(name, value)] = [] := valuesOf_eq_nil.2 (by simpa using h)
    rw [if_neg h, valuesOf_append, hnone, List.append_nil]

def enterChildren (children : Fields Document) (others : List (String × Document)) :
    Fields Document :=
  others.foldl (fun children other => enterChild other.1 other.2 children) children

theorem nodup_names_enterChild {children : Fields Document} (h : (Fields.names children).Nodup)
    (name : String) (value : Document) :
    (Fields.names (enterChild name value children)).Nodup := by
  unfold enterChild
  split <;> exact Fields.nodup_names_set h _ _

/-- Entering one element after the other groups them by their names. -/
theorem enterChildren_nil (children : List (String × Document))
    (hcontent : ∀ child ∈ children, IsContent child.2) :
    enterChildren [] children = grouped children ∧ (Fields.names (grouped children)).Nodup := by
  -- The last element is entered into what the ones before it have made up.
  induction children using List.reverseRecOn with
  | nil => exact ⟨rfl, List.nodup_nil⟩
  | append_singleton rest last ih =>
    obtain ⟨name, value⟩ := last
    have hrest : ∀ child ∈ rest, IsContent child.2 := fun child hmem =>
      hcontent child (List.mem_append_left _ hmem)
    obtain ⟨hgrouped, hnodup⟩ := ih hrest
    have hstep : enterChildren [] (rest ++ [(name, value)]) =
        enterChild name value (grouped rest) := by
      rw [enterChildren, List.foldl_append, List.foldl_cons, List.foldl_nil]
      exact congrArg _ hgrouped
    have henter : enterChild name value (grouped rest) = grouped (rest ++ [(name, value)]) := by
      have hfound := Fields.get?_map (rest.map Prod.fst).eraseDups
        (fun name => together (valuesOf name rest)) name
      have hnames : (rest.map Prod.fst).eraseDups.Nodup := by
        simpa [Fields.names, grouped, Function.comp_def] using hnodup
      unfold enterChild
      by_cases hmem : name ∈ rest.map Prod.fst
      · have hvalues : ∀ value ∈ valuesOf name rest, IsContent value := by
          intro value hvalue
          obtain ⟨child, hchild, rfl⟩ := List.mem_map.1 hvalue
          exact hrest child ((List.mem_filter.1 hchild).1)
        have hne : valuesOf name rest ≠ [] := fun h => valuesOf_eq_nil.1 h hmem
        have hset := fun new => Fields.set_map hnames (List.mem_eraseDups.2 hmem)
          (fun name => together (valuesOf name rest)) new
        rw [if_pos (List.mem_eraseDups.2 hmem)] at hfound
        rw [grouped_concat_of_mem hmem, together_concat hvalues hne, grouped, hfound]
        cases together (valuesOf name rest) <;> exact hset _
      · rw [if_neg (fun h => hmem (List.mem_eraseDups.1 h))] at hfound
        rw [grouped_concat_of_notMem hmem, grouped, hfound]
        exact Fields.set_of_notMem (fun h => hmem (mem_names_grouped.1 h)) value
    rw [hstep, henter]
    exact ⟨rfl, henter ▸ nodup_names_enterChild hnodup name value⟩

/-- A frame into which elements were entered stands for all of them at once. -/
theorem document_enterChildren (name : String) (attributes : List (String × String))
    {children : List (String × Document)} (hcontent : ∀ child ∈ children, IsContent child.2)
    (text : String) :
    Frame.document { name, attributes, children := enterChildren [] children, text } =
      documentOf attributes children text := by
  have hgrouped := (enterChildren_nil children hcontent).1
  unfold Frame.document documentOf
  dsimp only
  rw [hgrouped]
  by_cases h : children = []
  · subst h
    rfl
  · have hne : grouped children ≠ [] := fun heq => h (grouped_eq_nil.1 heq)
    rw [if_neg (fun hboth => hne hboth.1), if_neg (fun hboth => h hboth.1)]

end Xml
end ServiceBindings
