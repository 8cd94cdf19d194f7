import Mathlib.Data.List.SplitBy
import ServiceBindings.Proofs.Naming.Spelling

/-! The names of constants. They are made in three steps, each of which is stated by itself, and
what they make of any value is a name that they leave as it is. -/
namespace ServiceBindings.Naming

/-- Whether a word ends between two characters: behind a small letter, before a capital or digit. -/
def endsBetween (a b : Char) : Bool :=
  a.isLower && (b.isUpper || b.isDigit)

/-- The first step: underscores at the places where words end. The second one is that small letters
of ASCII become capitals. -/
def partedWords (chars : List Char) : List Char :=
  ['_'].intercalate (chars.splitBy fun a b => !endsBetween a b)

/-- What stands for a run of characters, all or none of which a constant keeps. -/
def markOf (run : List Char) : List Char :=
  if run.all isConstantChar then run else ['_']

/-- The third step: one underscore for each run of characters that a constant does not keep. Runs go
on as far as they can. -/
def markedRuns (chars : List Char) : List Char :=
  (chars.splitBy fun a b => isConstantChar a == isConstantChar b).flatMap markOf

/-- Capitals, digits, spaces and single underscores. -/
structure IsConstant (name : String) : Prop where
  chars : ∀ c ∈ name.toList, isConstantChar c = true ∨ c = '_'
  single : SingleUnderscores name.toList

section Words
variable {piece : List Char}

/-- Nothing is put between the characters of one word. -/
theorem separateWords_append (hpiece : piece.IsChain fun a b => endsBetween a b = false)
    (hne : piece ≠ []) (rest : List Char) :
    separateWords (piece ++ rest) =
      piece.dropLast ++ separateWords (piece.getLast hne :: rest) := by
  induction piece with
  | nil => exact absurd rfl hne
  | cons a more ih =>
    cases more with
    | nil => rfl
    | cons b more =>
      obtain ⟨hfirst, hmore⟩ := List.isChain_cons_cons.1 hpiece
      have hrest := ih hmore (List.cons_ne_nil _ _)
      rw [endsBetween] at hfirst
      rw [List.cons_append, List.cons_append, separateWords, hfirst, if_neg (by decide),
        ← List.cons_append, hrest]
      rfl

theorem separateWords_of_isChain (hpiece : piece.IsChain fun a b => endsBetween a b = false) :
    separateWords piece = piece := by
  by_cases hne : piece = []
  · rw [hne]
    rfl
  · have hwhole := separateWords_append hpiece hne []
    rw [List.append_nil] at hwhole
    rw [hwhole]
    exact List.dropLast_append_getLast hne

/-- Words that are cut apart at each of their ends are separated by underscores. -/
theorem separateWords_flatten {pieces : List (List Char)}
    (hwhole : ∀ piece ∈ pieces, piece.IsChain fun a b => endsBetween a b = false)
    (hends : pieces.IsChain fun p q => ∃ hp hq, endsBetween (p.getLast hp) (q.head hq) = true) :
    separateWords pieces.flatten = ['_'].intercalate pieces := by
  induction pieces with
  | nil => rfl
  | cons piece rest ih =>
    obtain ⟨hpiece, hrest⟩ := List.forall_mem_cons.1 hwhole
    cases rest with
    | nil =>
      rw [List.flatten_singleton, List.intercalate_singleton]
      exact separateWords_of_isChain hpiece
    | cons next others =>
      obtain ⟨⟨hfilled, hnext, hend⟩, htail⟩ := List.isChain_cons_cons.1 hends
      obtain ⟨b, more, rfl⟩ := List.exists_cons_of_ne_nil hnext
      have hcut : separateWords (piece.getLast hfilled :: ((b :: more) :: others).flatten) =
          piece.getLast hfilled :: '_' :: separateWords ((b :: more) :: others).flatten :=
        if_pos hend
      calc separateWords (piece ++ ((b :: more) :: others).flatten)
        _ = piece.dropLast ++ (piece.getLast hfilled ::
              '_' :: separateWords ((b :: more) :: others).flatten) := by
          rw [separateWords_append hpiece hfilled, hcut]
        _ = piece ++ '_' :: separateWords ((b :: more) :: others).flatten := by
          rw [List.append_cons, List.dropLast_append_getLast]
        _ = ['_'].intercalate (piece :: (b :: more) :: others) := by
          rw [ih hrest htail, List.intercalate_cons_cons, List.append_assoc]
          rfl

theorem separateWords_eq_partedWords (chars : List Char) :
    separateWords chars = partedWords chars := by
  have hends := List.isChain_getLast_head_splitBy (fun a b => !endsBetween a b) chars
  have hwhole : ∀ piece ∈ chars.splitBy fun a b => !endsBetween a b,
      piece.IsChain fun a b => endsBetween a b = false := by
    intro piece hmem
    simpa using List.isChain_of_mem_splitBy hmem
  have hflat := separateWords_flatten hwhole (by simpa using hends)
  rwa [List.flatten_splitBy] at hflat

end Words

section Runs
variable {run : List Char}

/-- Characters that a constant keeps end a run of others. -/
theorem collapseRuns_append_of_kept (h : ∀ c ∈ run, isConstantChar c = true) (hne : run ≠ [])
    (inRun : Bool) (rest : List Char) :
    collapseRuns inRun (run ++ rest) = run ++ collapseRuns false rest := by
  induction run generalizing inRun with
  | nil => exact absurd rfl hne
  | cons c more ih =>
    obtain ⟨hc, hmore⟩ := List.forall_mem_cons.1 h
    rw [List.cons_append, collapseRuns, if_pos hc, List.cons_append]
    by_cases hnil : more = []
    · rw [hnil, List.nil_append, List.nil_append]
    · rw [ih hmore hnil]

theorem collapseRuns_append_of_other (h : ∀ c ∈ run, isConstantChar c = false)
    (rest : List Char) : collapseRuns true (run ++ rest) = collapseRuns true rest := by
  induction run with
  | nil => rfl
  | cons c more ih =>
    obtain ⟨hc, hmore⟩ := List.forall_mem_cons.1 h
    rw [List.cons_append, collapseRuns, hc, if_neg (by decide), if_pos rfl, ih hmore]

/-- In a run, all characters are kept or none. -/
theorem forall_mem_of_isChain (kept : Bool)
    (h : run.IsChain fun a b => isConstantChar a = isConstantChar b)
    (hhead : ∀ c ∈ run.head?, isConstantChar c = kept) : ∀ c ∈ run, isConstantChar c = kept := by
  induction run with
  | nil =>
    intro c hc
    cases hc
  | cons c more ih =>
    obtain ⟨hfirst, hmore⟩ := List.isChain_cons.1 h
    have hc : isConstantChar c = kept := hhead c rfl
    exact List.forall_mem_cons.2 ⟨hc, ih hmore fun d hd => (hfirst d hd).symm.trans hc⟩

/-- Runs that are cut apart at each change are replaced one by one. -/
theorem collapseRuns_flatten {runs : List (List Char)} (inRun : Bool)
    (huniform : ∀ run ∈ runs, run.IsChain fun a b => isConstantChar a = isConstantChar b)
    (hne : [] ∉ runs)
    (hchange : runs.IsChain fun p q =>
      ∃ hp hq, isConstantChar (p.getLast hp) ≠ isConstantChar (q.head hq))
    (hfirst : inRun = true → ∀ run ∈ runs.head?, ∀ c ∈ run.head?, isConstantChar c = true) :
    collapseRuns inRun runs.flatten = runs.flatMap markOf := by
  induction runs generalizing inRun with
  | nil => rfl
  | cons run rest ih =>
    obtain ⟨hrun, hrest⟩ := List.forall_mem_cons.1 huniform
    obtain ⟨hfilled, hothers⟩ := not_or.1 (mt List.mem_cons.2 hne)
    obtain ⟨hnext, htail⟩ := List.isChain_cons.1 hchange
    obtain ⟨c, more, rfl⟩ := List.exists_cons_of_ne_nil (Ne.symm hfilled)
    rw [List.flatten_cons, List.flatMap_cons, markOf]
    cases hkept : isConstantChar c with
    | true =>
      have hall := forall_mem_of_isChain true hrun (by simpa using hkept)
      rw [collapseRuns_append_of_kept hall (List.cons_ne_nil _ _),
        ih false hrest hothers htail (by simp), if_pos (List.all_eq_true.2 hall)]
    | false =>
      have hall := forall_mem_of_isChain false hrun (by simpa using hkept)
      have hstart : inRun = false := by
        by_contra hin
        have hc := hfirst (by simpa using hin) _ rfl c rfl
        rw [hkept] at hc
        cases hc
      have hnextKept : ∀ next ∈ rest.head?, ∀ d ∈ next.head?, isConstantChar d = true := by
        intro next hmem d hd
        obtain ⟨hp, hq, hdiffer⟩ := hnext next hmem
        rw [hall _ (List.getLast_mem hp)] at hdiffer
        rw [List.head?_eq_some_head hq] at hd
        obtain rfl := Option.some.inj hd
        simpa using hdiffer.symm
      have hmark : ¬(c :: more).all isConstantChar = true := by simp [hkept]
      rw [hstart, List.cons_append, collapseRuns, hkept, if_neg (by decide), if_neg (by decide),
        collapseRuns_append_of_other (List.forall_mem_cons.1 hall).2,
        ih true hrest hothers htail fun _ => hnextKept, if_neg hmark]
      rfl

theorem collapseRuns_eq_markedRuns (chars : List Char) :
    collapseRuns false chars = markedRuns chars := by
  have hchange := List.isChain_getLast_head_splitBy
    (fun a b => isConstantChar a == isConstantChar b) chars
  have huniform : ∀ run ∈ chars.splitBy fun a b => isConstantChar a == isConstantChar b,
      run.IsChain fun a b => isConstantChar a = isConstantChar b := by
    intro run hmem
    simpa using List.isChain_of_mem_splitBy hmem
  have hflat := collapseRuns_flatten false huniform (List.nil_notMem_splitBy _ _)
    (by simpa using hchange) (by simp)
  rwa [List.flatten_splitBy] at hflat

end Runs

section Form
variable {inRun : Bool} {chars : List Char}

theorem isConstantChar_of_mem_collapseRuns {c : Char} (h : c ∈ collapseRuns inRun chars) :
    isConstantChar c = true ∨ c = '_' := by
  induction chars generalizing inRun with
  | nil => cases h
  | cons d rest ih =>
    rw [collapseRuns] at h
    split_ifs at h with hkept hrun
    · rcases List.mem_cons.1 h with rfl | h
      · exact .inl hkept
      · exact ih h
    · exact ih h
    · rcases List.mem_cons.1 h with rfl | h
      · exact .inr rfl
      · exact ih h

theorem ne_underscore_of_isConstantChar {c : Char} (h : isConstantChar c = true) : c ≠ '_' := by
  rintro rfl
  cases h

/-- While a run goes on, no underscore is put. -/
theorem singleUnderscores_collapseRuns (inRun : Bool) (chars : List Char) :
    SingleUnderscores (collapseRuns inRun chars) ∧
      (inRun = true → ∀ c ∈ (collapseRuns inRun chars).head?, c ≠ '_') := by
  induction chars generalizing inRun with
  | nil => exact ⟨.nil, by simp [collapseRuns]⟩
  | cons c rest ih =>
    rw [collapseRuns]
    split_ifs with hkept hrun
    · refine ⟨(ih false).1.cons fun _ _ heq => ?_, fun _ d hd => ?_⟩
      · exact absurd heq (ne_underscore_of_isConstantChar hkept)
      · obtain rfl := Option.some.inj hd
        exact ne_underscore_of_isConstantChar hkept
    · exact ⟨(ih true).1, fun _ => (ih true).2 rfl⟩
    · exact ⟨(ih true).1.cons fun d hd _ => (ih true).2 rfl d hd, fun h => absurd h hrun⟩

theorem isConstant_constantCase (value : String) : IsConstant (constantCase value) := by
  constructor <;> rw [constantCase, String.toList_ofList]
  · exact fun c hc => isConstantChar_of_mem_collapseRuns hc
  · exact (singleUnderscores_collapseRuns _ _).1

theorem collapseRuns_eq_self (hchars : ∀ c ∈ chars, isConstantChar c = true ∨ c = '_')
    (hsingle : SingleUnderscores chars) (hhead : inRun = true → ∀ c ∈ chars.head?, c ≠ '_') :
    collapseRuns inRun chars = chars := by
  induction chars generalizing inRun with
  | nil => rfl
  | cons c rest ih =>
    obtain ⟨hchar, hrest⟩ := List.forall_mem_cons.1 hchars
    obtain ⟨hnext, htail⟩ := List.isChain_cons.1 hsingle
    rcases hchar with hkept | rfl
    · rw [collapseRuns, if_pos hkept, ih hrest htail (by simp)]
    · have hrun : ¬inRun = true := fun h => hhead h '_' rfl rfl
      rw [collapseRuns, if_neg (by decide), if_neg hrun,
        ih hrest htail fun _ d hd => hnext d hd rfl]

theorem isLower_of_isConstantChar {c : Char} (h : isConstantChar c = true ∨ c = '_') :
    c.isLower = false := by
  simp only [isConstantChar, Bool.or_eq_true, decide_eq_true_eq] at h
  rcases h with ((hupper | hdigit) | rfl) | rfl
  · exact isLower_of_isUpper hupper
  · exact isLower_of_isDigit hdigit
  · rfl
  · rfl

/-- A name of the form is left as it is. -/
theorem IsConstant.constantCase_eq {name : String} (h : IsConstant name) :
    constantCase name = name := by
  have hlower : ∀ c ∈ name.toList, c.isLower = false := fun c hc =>
    isLower_of_isConstantChar (h.chars c hc)
  have hwhole : name.toList.IsChain fun a b => endsBetween a b = false := by
    refine (List.pairwise_of_forall_mem_list fun a ha b _ => ?_).isChain
    rw [endsBetween, hlower a ha, Bool.false_and]
  have hupper : name.toList.map Char.toUpper = name.toList :=
    (List.map_congr_left fun c hc => toUpper_of_isLower_eq_false (hlower c hc)).trans
      (List.map_id _)
  rw [constantCase, separateWords_of_isChain hwhole, hupper,
    collapseRuns_eq_self h.chars h.single (by simp), String.ofList_toList]

theorem isConstant_iff {name : String} : IsConstant name ↔ constantCase name = name :=
  ⟨IsConstant.constantCase_eq, fun h => h ▸ isConstant_constantCase name⟩

end Form

/-- The name of a value has the form, and it is left as it is, as names of the form are and no
others. It is what the three steps make of the value. -/
theorem constantCase_normal (value : String) :
    IsConstant (constantCase value) ∧
      constantCase (constantCase value) = constantCase value ∧
      (IsConstant value ↔ constantCase value = value) ∧
      constantCase value =
        String.ofList (markedRuns ((partedWords value.toList).map Char.toUpper)) := by
  refine ⟨isConstant_constantCase value, (isConstant_constantCase value).constantCase_eq,
    isConstant_iff, ?_⟩
  rw [constantCase, separateWords_eq_partedWords, collapseRuns_eq_markedRuns]

example : constantCase "s3:ObjectCreated:*" = "S_3_OBJECT_CREATED_" := by decide +kernel

end ServiceBindings.Naming
