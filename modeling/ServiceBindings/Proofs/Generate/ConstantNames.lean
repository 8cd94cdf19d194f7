import Mathlib.Data.List.Nodup
import Mathlib.Data.List.Perm.Subperm
import ServiceBindings.Generate.Source
import ServiceBindings.Proofs.Naming.ConstantCase
import ServiceBindings.Proofs.Text.Digits

/-! Names of constants in generated source. Each constant gets the first name that is still free, so
the names are different, and all of them are identifiers, whatever the values are. -/
namespace ServiceBindings

namespace Naming

/-- A name that source text may declare as it stands. -/
structure IsIdentifier (name : String) : Prop where
  first : ∃ c ∈ name.toList.head?, c.isAlpha = true ∨ c = '_'
  chars : ∀ c ∈ name.toList, c.isAlphanum = true ∨ c = '_'
  ne_underscore : name ≠ "_"
  not_keyword : name ∉ keywords ∧ name ∉ pathKeywords

/-- A capital, a digit or an underscore. -/
def isCapitalChar (c : Char) : Bool :=
  c.isUpper || c.isDigit || c = '_'

/-- A name in capitals that begins with no digit and is more than underscores. -/
structure IsCapital (name : String) : Prop where
  chars : ∀ c ∈ name.toList, isCapitalChar c = true
  first : ∀ c ∈ name.toList.head?, c.isDigit = false
  visible : ∃ c ∈ name.toList, c ≠ '_'

theorem IsCapital.append {name suffix : String} (h : IsCapital name)
    (hsuffix : ∀ c ∈ suffix.toList, isCapitalChar c = true) : IsCapital (name ++ suffix) := by
  obtain ⟨c, hc, hvisible⟩ := h.visible
  refine ⟨fun d hd => ?_, ?_, c, ?_, hvisible⟩
  · rw [String.toList_append, List.mem_append] at hd
    exact hd.elim (h.chars d) (hsuffix d)
  · obtain ⟨first, rest, hname⟩ := List.exists_cons_of_ne_nil (List.ne_nil_of_mem hc)
    have hfirst := h.first
    rw [String.toList_append, hname]
    rwa [hname] at hfirst
  · rw [String.toList_append]
    exact List.mem_append_left _ hc

/-- Keywords have small letters. -/
theorem IsCapital.isIdentifier {name : String} (h : IsCapital name) : IsIdentifier name := by
  have halphanum : ∀ c, isCapitalChar c = true → c.isAlphanum = true ∨ c = '_' := by
    intro c hc
    simp only [isCapitalChar, Bool.or_eq_true, decide_eq_true_eq] at hc
    rcases hc with (hc | hc) | hc
    · simp [Char.isAlphanum, Naming.isAlpha_of_isUpper hc]
    · simp [Char.isAlphanum, hc]
    · exact .inr hc
  have hkeyword : ∀ word ∈ keywords ++ pathKeywords,
      word.toList.any (!isCapitalChar ·) = true := by
    decide
  have hnot : name ∉ keywords ++ pathKeywords := by
    intro hmem
    obtain ⟨c, hc, hsmall⟩ := List.any_eq_true.1 (hkeyword name hmem)
    rw [h.chars c hc] at hsmall
    cases hsmall
  obtain ⟨c, hc, hvisible⟩ := h.visible
  refine ⟨?_, fun d hd => halphanum d (h.chars d hd), ?_, not_or.1 (mt List.mem_append.2 hnot)⟩
  · obtain ⟨first, rest, hname⟩ := List.exists_cons_of_ne_nil (List.ne_nil_of_mem hc)
    have hdigit := h.first first (by rw [hname]; rfl)
    have hchar := h.chars first (by rw [hname]; exact List.mem_cons_self)
    refine ⟨first, by rw [hname]; rfl, ?_⟩
    simp only [isCapitalChar, hdigit, Bool.or_false, Bool.or_eq_true, decide_eq_true_eq] at hchar
    exact hchar.imp_left Naming.isAlpha_of_isUpper
  · rintro rfl
    exact hvisible (List.mem_singleton.1 hc)

end Naming

namespace Generate
open Naming (IsCapital constantCase isCapitalChar)
open Plan (Constant)

theorem isCapitalChar_of_mem_constantCase (value : String) :
    ∀ c ∈ (constantCase value).toList.map fun c => if c = ' ' then '_' else c,
      isCapitalChar c = true := by
  intro c hc
  obtain ⟨d, hd, rfl⟩ := List.mem_map.1 hc
  rw [constantCase, String.toList_ofList] at hd
  split_ifs with hspace
  · rfl
  · rcases Naming.isConstantChar_of_mem_collapseRuns hd with hkept | rfl
    · have hkept : d.isUpper = true ∨ d.isDigit = true := by
        simpa [Naming.isConstantChar, hspace] using hkept
      simpa [isCapitalChar] using Or.inl hkept
    · rfl

/-- The base of a constant's name is in capitals, whatever the value is. -/
theorem isCapital_constantBase (value : String) :
    IsCapital (constantBase (constantCase value)) := by
  have hguarded := Naming.forall_mem_guardDigit (p := (isCapitalChar · = true)) rfl
    (isCapitalChar_of_mem_constantCase value)
  have hhead := Naming.isDigit_head_guardDigit
    ((constantCase value).toList.map fun c => if c = ' ' then '_' else c)
  unfold constantBase
  dsimp only
  generalize Naming.guardDigit _ = chars at hguarded hhead ⊢
  split_ifs with hall
  · have hvalue := List.all_eq_true.1 (by decide : "VALUE".toList.all isCapitalChar = true)
    have hchars : ∀ c ∈ "VALUE".toList ++ chars, isCapitalChar c = true :=
      List.forall_mem_append.2 ⟨hvalue, hguarded⟩
    refine ⟨by simpa using hchars, ?_, 'V', ?_, by decide⟩
    · rw [String.toList_ofList]
      rintro c ⟨⟩
      rfl
    · rw [String.toList_ofList]
      exact List.mem_append_left _ (by decide)
  · refine ⟨by simpa using hguarded, ?_, ?_⟩
    · rw [String.toList_ofList]
      exact hhead
    · simpa using hall

/-- The names that the search for a free one tries: the base by itself, and then with an underscore
and numbers from two on. -/
def constantCandidate (base : String) : Nat → String
  | 0 => base
  | k + 1 => base ++ "_" ++ Text.natural (k + 2)

/-- The search stops at a candidate, which is free, while all candidates before it are taken. -/
structure StopsAt (taken : List String) (base : String) (k : Nat) : Prop where
  free : constantCandidate base k ∉ taken
  before : ∀ j < k, constantCandidate base j ∈ taken

theorem constantCandidate_injective (base : String) :
    Function.Injective (constantCandidate base) := by
  have hlonger (k : Nat) : constantCandidate base (k + 1) ≠ base := by
    intro heq
    have hlength := congrArg String.length heq
    simp only [constantCandidate, String.length_append] at hlength
    have hone : "_".length = 1 := rfl
    omega
  intro j k h
  cases j with
  | zero =>
    cases k with
    | zero => rfl
    | succ k => exact absurd h.symm (hlonger k)
  | succ j =>
    cases k with
    | zero => exact absurd h (hlonger j)
    | succ k =>
      have hnumber := Text.natural_injective ((String.append_right_inj _).1 h)
      omega

theorem isCapital_constantCandidate {base : String} (h : IsCapital base) (k : Nat) :
    IsCapital (constantCandidate base k) := by
  cases k with
  | zero => exact h
  | succ k =>
    have hunderscore : "_".toList.all isCapitalChar = true := by decide
    refine (h.append (List.all_eq_true.1 hunderscore)).append fun c hc => ?_
    rw [Text.natural, String.toList_ofList] at hc
    simp [isCapitalChar, Text.isDigit_of_mem_digits hc]

/-- One of the candidates is not among the taken names, which are fewer. -/
theorem exists_candidate_notMem (taken : List String) (base : String) :
    ∃ k ≤ taken.length, constantCandidate base k ∉ taken := by
  by_contra hnone
  have hall : ∀ k ≤ taken.length, constantCandidate base k ∈ taken := by
    intro k hk
    by_contra hfree
    exact hnone ⟨k, hk, hfree⟩
  have hsubset : (List.range (taken.length + 1)).map (constantCandidate base) ⊆ taken := by
    intro name hmem
    obtain ⟨k, hk, rfl⟩ := List.mem_map.1 hmem
    exact hall k (Nat.lt_succ_iff.1 (List.mem_range.1 hk))
  have hnodup : ((List.range (taken.length + 1)).map (constantCandidate base)).Nodup :=
    List.nodup_range.map (constantCandidate_injective base)
  have hlength := (hnodup.subperm hsubset).length_le
  simp at hlength

/-- The free name is the candidate at which the search stops, and there it does stop. -/
theorem exists_stopsAt (taken : List String) (base : String) :
    ∃ k ≤ taken.length, StopsAt taken base k ∧
      freeConstant taken base = constantCandidate base k := by
  have hcandidates : constantCandidates base (taken.length + 1) =
      (List.range (taken.length + 2)).map (constantCandidate base) := by
    rw [List.range_succ_eq_map, List.map_cons, List.map_map]
    rfl
  obtain ⟨free, hfree, hnotMem⟩ := exists_candidate_notMem taken base
  rw [freeConstant, hcandidates, List.find?_map]
  cases hfound : (List.range (taken.length + 2)).find?
      ((fun name => decide (name ∉ taken)) ∘ constantCandidate base) with
  | none =>
    have hmem : free ∈ List.range (taken.length + 2) := List.mem_range.2 (by omega)
    simpa [hnotMem] using List.find?_eq_none.1 hfound free hmem
  | some k =>
    obtain ⟨hk, -, hbefore⟩ := List.find?_range_eq_some.1 hfound
    have hle : k ≤ free := by
      by_contra hlater
      simpa [hnotMem] using hbefore free (by omega)
    exact ⟨k, by omega, ⟨by simpa using hk, fun j hj => by simpa using hbefore j hj⟩, rfl⟩

theorem StopsAt.congr {taken others : List String} {base : String} {k : Nat}
    (h : StopsAt taken base k) (hsame : ∀ name, name ∈ taken ↔ name ∈ others) :
    StopsAt others base k :=
  ⟨mt (hsame _).2 h.free, fun j hj => (hsame _).1 (h.before j hj)⟩

variable {taken : List String} {constants : List Constant}

theorem length_constantNames (taken : List String) (constants : List Constant) :
    (constantNames taken constants).length = constants.length := by
  induction constants generalizing taken with
  | nil => rfl
  | cons constant rest ih =>
    rw [constantNames, List.length_cons, List.length_cons, ih]

/-- In turn, each constant gets the name at which the search for a free one stops. -/
theorem constantNames_stop (taken : List String) {i : Nat} {constant : Constant}
    (h : constants[i]? = some constant) :
    ∃ k ≤ taken.length + i,
      (constantNames taken constants)[i]? =
        some (constantCandidate (constantBase constant.name) k) ∧
      StopsAt (taken ++ (constantNames taken constants).take i) (constantBase constant.name) k := by
  induction constants generalizing taken i with
  | nil => cases h
  | cons first rest ih =>
    cases i with
    | zero =>
      obtain rfl : first = constant := by simpa using h
      obtain ⟨k, hk, hstops, hname⟩ := exists_stopsAt taken (constantBase first.name)
      exact ⟨k, hk, by simp [constantNames, hname], by simpa using hstops⟩
    | succ i =>
      obtain ⟨k, hk, hname, hstops⟩ :=
        ih (freeConstant taken (constantBase first.name) :: taken) (List.getElem?_cons_succ ▸ h)
      refine ⟨k, ?_, by simpa [constantNames] using hname, hstops.congr fun name => ?_⟩
      · rw [List.length_cons] at hk
        omega
      · simp only [constantNames, List.take_succ_cons, List.mem_append, List.mem_cons]
        tauto

theorem nodup_constantNames (taken : List String) (constants : List Constant) :
    (constantNames taken constants).Nodup ∧
      ∀ name ∈ constantNames taken constants, name ∉ taken := by
  induction constants generalizing taken with
  | nil => exact ⟨List.nodup_nil, by simp [constantNames]⟩
  | cons constant rest ih =>
    obtain ⟨k, -, hstops, hname⟩ := exists_stopsAt taken (constantBase constant.name)
    have hfree : freeConstant taken (constantBase constant.name) ∉ taken := hname ▸ hstops.free
    obtain ⟨hnodup, hnew⟩ := ih (freeConstant taken (constantBase constant.name) :: taken)
    refine ⟨List.nodup_cons.2 ⟨fun hmem => hnew _ hmem List.mem_cons_self, hnodup⟩, ?_⟩
    intro name hmem
    rcases List.mem_cons.1 hmem with rfl | hmem
    · exact hfree
    · exact fun htaken => hnew name hmem (List.mem_cons_of_mem _ htaken)

/-- Names of constants whose own names are derived from values are in capitals. -/
theorem isCapital_of_mem_constantNames
    (h : ∀ constant ∈ constants, constant.name = constantCase constant.value) {name : String}
    (hmem : name ∈ constantNames taken constants) : IsCapital name := by
  obtain ⟨i, hi⟩ := List.getElem?_of_mem hmem
  have hlt : i < constants.length :=
    length_constantNames taken constants ▸ (List.getElem?_eq_some_iff.1 hi).1
  obtain ⟨k, -, hname, -⟩ := constantNames_stop taken (List.getElem?_eq_getElem hlt)
  obtain rfl := Option.some.inj (hi.symm.trans hname)
  have hcase := h constants[i] (List.getElem_mem hlt)
  rw [hcase]
  exact isCapital_constantCandidate (isCapital_constantBase _) k

end Generate
end ServiceBindings
