import Mathlib.Data.List.TakeWhile
import Mathlib.Tactic.Common
import ServiceBindings.Storage.Path

/-! The steps of paths that are put together, and of the directory in which a path ends. -/
namespace ServiceBindings.Storage.Path

theorem pieces_eq_splitOn (path : String) :
    pieces path = (path.toList.splitOn '/').map String.ofList := rfl

theorem notMem_of_mem_splitOnP {α : Type} {p : α → Bool} {chars piece : List α}
    (h : piece ∈ chars.splitOnP p) {c : α} (hc : p c = true) : c ∉ piece := by
  induction chars generalizing piece with
  | nil =>
    rw [List.splitOnP_nil, List.mem_singleton] at h
    simp [h]
  | cons first rest ih =>
    rw [List.splitOnP_cons_eq_if_modifyHead] at h
    obtain ⟨head, others, hrest⟩ := List.exists_cons_of_ne_nil (List.splitOnP_ne_nil p rest)
    rw [hrest] at ih h
    split_ifs at h with hfirst
    · rcases List.mem_cons.1 h with rfl | h
      · exact List.not_mem_nil
      · exact ih h
    · rcases List.mem_cons.1 h with rfl | h
      · exact List.not_mem_cons_of_ne_of_not_mem (fun heq => hfirst (heq ▸ hc))
          (ih List.mem_cons_self)
      · exact ih (List.mem_cons_of_mem _ h)

theorem slash_notMem_of_mem_pieces {path piece : String} (h : piece ∈ pieces path) :
    '/' ∉ piece.toList := by
  obtain ⟨chars, hchars, rfl⟩ := List.mem_map.1 h
  rw [String.toList_ofList]
  exact notMem_of_mem_splitOnP hchars rfl

/-- Pieces that are put together are those of the path. -/
theorem pieces_intercalate {parts : List String} (hne : parts ≠ [])
    (hslash : ∀ part ∈ parts, '/' ∉ part.toList) : pieces ("/".intercalate parts) = parts := by
  have hparts : ∀ chars ∈ parts.map String.toList, '/' ∉ chars := by simpa using hslash
  rw [pieces_eq_splitOn, String.toList_intercalate]
  show ((['/'].intercalate (parts.map String.toList)).splitOn '/').map String.ofList = parts
  rw [List.splitOn_intercalate '/' hparts (by simpa using hne), List.map_map]
  simp [Function.comp_def]

theorem filter_not_dropWhile {α : Type} (p : α → Bool) (items : List α) :
    (items.dropWhile p).filter (!p ·) = items.filter (!p ·) := by
  induction items with
  | nil => rfl
  | cons first rest ih => cases h : p first <;> simp [h, ih]

/-- Dropping the first item that counts, with all before it, drops it among those that count. -/
theorem filter_not_drop_dropWhile {α : Type} (p : α → Bool) (items : List α) :
    ((items.dropWhile p).drop 1).filter (!p ·) = (items.filter (!p ·)).drop 1 := by
  rw [← filter_not_dropWhile p items]
  cases h : items.dropWhile p with
  | nil => rfl
  | cons first rest =>
    have hfirst : p first = false := by
      have hhead := List.head?_dropWhile_not p items
      rw [h] at hhead
      simpa using hhead
    rw [List.filter_cons_of_pos (by rw [hfirst]; rfl), List.drop_one, List.drop_one, List.tail_cons,
      List.tail_cons]

/-- The directory of a path is reached by all steps but the last. -/
theorem steps_parent (path : String) : steps (parent path) = (steps path).dropLast := by
  have hsteps (parts : List String) (hparts : ∀ part ∈ parts, part ∈ pieces path) :
      steps ("/".intercalate parts) = parts.filter (!isIdle ·) := by
    by_cases hne : parts = []
    · rw [hne]
      decide
    · rw [steps, pieces_intercalate hne fun part hmem =>
        slash_notMem_of_mem_pieces (hparts part hmem)]
  rw [parent, hsteps _ fun part hmem => ?_]
  · rw [List.filter_reverse, filter_not_dropWhile, filter_not_drop_dropWhile, List.filter_reverse,
      List.drop_one, List.tail_reverse, List.reverse_reverse, steps]
  · exact List.mem_reverse.1 ((List.dropWhile_subset _) ((List.drop_subset 1 _)
      ((List.dropWhile_subset _) (List.mem_reverse.1 hmem))))

/-- A path that ends where a further name may follow. -/
def IsLead (base : String) : Prop :=
  base = "" ∨ ∃ inner, base = inner ++ "/"

theorem pieces_slash (inner rest : String) :
    pieces (inner ++ "/" ++ rest) = pieces inner ++ pieces rest := by
  rw [pieces_eq_splitOn, String.toList_append, String.toList_append, List.append_assoc]
  show ((inner.toList ++ '/' :: rest.toList).splitOn '/').map String.ofList = _
  rw [List.splitOn_append_cons_self, List.map_append]
  rfl

/-- The steps before a slash come before those behind it. -/
theorem steps_slash (inner rest : String) :
    steps (inner ++ "/" ++ rest) = steps inner ++ steps rest := by
  rw [steps, pieces_slash, List.filter_append]
  rfl

/-- The steps of a lead come before those of what follows it. -/
theorem IsLead.steps_append {base : String} (h : IsLead base) (part : String) :
    steps (base ++ part) = steps base ++ steps part := by
  have hempty : steps "" = [] := by decide
  rcases h with rfl | ⟨inner, rfl⟩
  · rw [String.empty_append, hempty, List.nil_append]
  · have hinner := steps_slash inner ""
    rw [String.append_empty, hempty, List.append_nil] at hinner
    rw [steps_slash, hinner]

/-- A name is one step. -/
theorem steps_of_name {name : String} (hslash : '/' ∉ name.toList) (hidle : isIdle name = false) :
    steps name = [name] := by
  rw [steps, pieces_eq_splitOn, List.splitOn_eq_singleton hslash]
  simp [hidle]

/-- Parts are joined to a directory behind one and the same lead. -/
theorem exists_join_eq (directory : String) : ∃ base, IsLead base ∧
    ∀ part, part.toList.head? ≠ some '/' → join directory part = base ++ part := by
  by_cases hempty : directory = ""
  · exact ⟨"", .inl rfl, fun part _ => by rw [join, if_pos (.inl hempty), String.empty_append]⟩
  by_cases hlast : directory.toList.getLast? = some '/'
  · obtain ⟨chars, hchars⟩ := List.getLast?_eq_some_iff.1 hlast
    refine ⟨directory, .inr ⟨String.ofList chars, ?_⟩, fun part hpart => ?_⟩
    · rw [← String.toList_inj, hchars, String.toList_append, String.toList_ofList]
      rfl
    · rw [join, if_neg (not_or.2 ⟨hempty, hpart⟩), if_pos hlast]
  · refine ⟨directory ++ "/", .inr ⟨directory, rfl⟩, fun part hpart => ?_⟩
    rw [join, if_neg (not_or.2 ⟨hempty, hpart⟩), if_neg hlast]

theorem IsLead.append {base other : String} (hbase : IsLead base) (hother : IsLead other) :
    IsLead (base ++ other) := by
  rcases hother with rfl | ⟨inner, rfl⟩
  · rwa [String.append_empty]
  · exact .inr ⟨base ++ inner, String.append_assoc.symm⟩

theorem head?_append_of_ne {base part : String} (hbase : base ≠ "") :
    (base ++ part).toList.head? = base.toList.head? := by
  have hsome : base.toList.head?.isSome := by simpa using hbase
  rw [String.toList_append, List.head?_append, Option.or_of_isSome hsome]

/-- Parts are joined to a directory in another behind one and the same lead. -/
theorem exists_join_join_eq (outer directory : String) : ∃ base, IsLead base ∧
    ∀ part, part.toList.head? ≠ some '/' → join outer (join directory part) = base ++ part := by
  obtain ⟨base, hbase, hjoin⟩ := exists_join_eq directory
  obtain ⟨lead, hlead, hjoin'⟩ := exists_join_eq outer
  by_cases hempty : base = ""
  · refine ⟨lead, hlead, fun part hpart => ?_⟩
    rw [hjoin part hpart, hempty, String.empty_append, hjoin' part hpart]
  by_cases hslash : base.toList.head? = some '/'
  · refine ⟨base, hbase, fun part hpart => ?_⟩
    rw [hjoin part hpart, join, if_pos (.inr ((head?_append_of_ne hempty).trans hslash))]
  · refine ⟨lead ++ base, hlead.append hbase, fun part hpart => ?_⟩
    rw [hjoin part hpart, hjoin' _ (by rwa [head?_append_of_ne hempty]), String.append_assoc]

end ServiceBindings.Storage.Path
