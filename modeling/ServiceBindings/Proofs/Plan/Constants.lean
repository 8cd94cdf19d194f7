import Mathlib.Data.List.Induction
import Mathlib.Data.List.Nodup
import ServiceBindings.Plan.Enumeration
import ServiceBindings.Proofs.Steps

/-! The constants of the values of an enumeration: in the order of their names, one for each name,
and with the value of that name that is declared last. -/
namespace ServiceBindings.Plan
open Naming (constantCase)

/-- Constants in the order of their names, of which no two are the same. -/
def InOrder (constants : List Constant) : Prop :=
  constants.Pairwise fun a b => a.name < b.name

/-- No two of the values share a constant. -/
def ConstantsApart (values : List String) : Prop :=
  (values.map constantCase).Nodup

/-- The last of the values with its constant. -/
def IsKept (values : List String) (value : String) : Prop :=
  ∃ before later, values = before ++ value :: later ∧
    ∀ other ∈ later, constantCase other ≠ constantCase value

section
variable {policy : CollisionPolicy} {shape name value : String} {constants next : List Constant}
  {values : List String} {e : ModelError}

theorem lt_of_not_lt_of_ne {a b : String} (hlt : ¬a < b) (hne : a ≠ b) : b < a := by
  by_contra hnot
  have hle : b ≤ a := String.not_lt.1 hlt
  have hge : a ≤ b := String.not_lt.1 hnot
  exact hne (String.le_antisymm hge hle)

theorem ne_of_lt {a b : String} (h : a < b) : b ≠ a := by
  rintro rfl
  exact String.lt_irrefl b h

/-- A value that is entered takes the place of the one with its name. -/
theorem enterConstant_ok (hordered : InOrder constants)
    (h : enterConstant policy shape name value constants = .ok next) :
    InOrder next ∧
      ∀ constant, constant ∈ next ↔
        constant = ⟨name, value⟩ ∨ constant ∈ constants ∧ constant.name ≠ name := by
  induction constants generalizing next with
  | nil =>
    obtain rfl : [⟨name, value⟩] = next := Except.ok.inj h
    exact ⟨List.pairwise_singleton _ _, by simp⟩
  | cons first rest ih =>
    obtain ⟨hfirst, hrest⟩ := List.pairwise_cons.1 hordered
    unfold enterConstant at h
    split_ifs at h with hname hbefore
    · subst hname
      cases policy with
      | reject => cases h
      | overwrite =>
        obtain rfl : ⟨first.name, value⟩ :: rest = next := Except.ok.inj h
        have hlater : ∀ constant ∈ rest, constant.name ≠ first.name :=
          fun constant hmem => ne_of_lt (hfirst constant hmem)
        refine ⟨List.pairwise_cons.2 ⟨hfirst, hrest⟩, fun constant => ?_⟩
        rw [List.mem_cons, List.mem_cons]
        constructor
        · rintro (rfl | hmem)
          · exact .inl rfl
          · exact .inr ⟨.inr hmem, hlater constant hmem⟩
        · rintro (rfl | ⟨rfl | hmem, hne⟩)
          · exact .inl rfl
          · exact absurd rfl hne
          · exact .inr hmem
    · obtain rfl : ⟨name, value⟩ :: first :: rest = next := Except.ok.inj h
      have hlater : ∀ constant ∈ first :: rest, name < constant.name :=
        List.forall_mem_cons.2
          ⟨hbefore, fun constant hmem => String.lt_trans hbefore (hfirst constant hmem)⟩
      refine ⟨List.pairwise_cons.2 ⟨hlater, hordered⟩, fun constant => ?_⟩
      rw [List.mem_cons (a := constant) (b := ⟨name, value⟩)]
      have hne : constant ∈ first :: rest → constant.name ≠ name :=
        fun hmem => ne_of_lt (hlater constant hmem)
      tauto
    · obtain ⟨entered, hentered, rfl⟩ := map_eq_ok.1 h
      obtain ⟨horder, hmem⟩ := ih hrest hentered
      have hlt : first.name < name := lt_of_not_lt_of_ne hbefore hname
      have hlater : ∀ constant ∈ entered, first.name < constant.name := by
        intro constant hconstant
        rcases (hmem constant).1 hconstant with rfl | ⟨hconstant, -⟩
        · exact hlt
        · exact hfirst constant hconstant
      refine ⟨List.pairwise_cons.2 ⟨hlater, horder⟩, fun constant => ?_⟩
      rw [List.mem_cons, List.mem_cons, hmem constant]
      have hother : constant = first → constant.name ≠ name := by
        rintro rfl
        exact (ne_of_lt hlt).symm
      tauto

/-- A value is refused for the one that has its name already. -/
theorem enterConstant_reject_eq_error (hordered : InOrder constants) :
    enterConstant .reject shape name value constants = .error e ↔
      ∃ first, ⟨name, first⟩ ∈ constants ∧ e = .enumCollision shape name first value := by
  induction constants with
  | nil => simp [enterConstant]
  | cons constant rest ih =>
    obtain ⟨hfirst, hrest⟩ := List.pairwise_cons.1 hordered
    unfold enterConstant
    split_ifs with hname hbefore
    · subst hname
      constructor
      · intro h
        exact ⟨constant.value, List.mem_cons_self, (Except.error.inj h).symm⟩
      · rintro ⟨first, hmem, rfl⟩
        rcases List.mem_cons.1 hmem with hsame | hmem
        · rw [← hsame]
        · exact absurd (hfirst _ hmem) (String.lt_irrefl constant.name)
    · constructor
      · intro h
        cases h
      · rintro ⟨first, hmem, -⟩
        rcases List.mem_cons.1 hmem with hsame | hmem
        · rw [← hsame] at hname
          exact absurd rfl hname
        · exact absurd (String.lt_trans hbefore (hfirst _ hmem)) (String.lt_irrefl name)
    · rw [map_eq_error, ih hrest]
      have hother : ∀ first, (⟨name, first⟩ : Constant) ≠ constant := by
        rintro first rfl
        exact hname rfl
      simp [hother]

theorem exists_enterConstant_overwrite (shape name value : String) (constants : List Constant) :
    ∃ next, enterConstant .overwrite shape name value constants = .ok next := by
  induction constants with
  | nil => exact ⟨_, rfl⟩
  | cons first rest ih =>
    unfold enterConstant
    split_ifs
    · exact ⟨_, rfl⟩
    · exact ⟨_, rfl⟩
    · obtain ⟨next, hnext⟩ := ih
      exact ⟨first :: next, by rw [hnext]; rfl⟩

theorem isKept_concat {other : String} :
    IsKept (values ++ [value]) other ↔
      other = value ∨ IsKept values other ∧ constantCase value ≠ constantCase other := by
  constructor
  · rintro ⟨before, later, heq, hlater⟩
    rcases List.eq_nil_or_concat later with rfl | ⟨others, last, rfl⟩
    · obtain ⟨-, hsame⟩ := List.append_inj' heq rfl
      exact .inl (List.singleton_inj.1 hsame).symm
    · rw [List.concat_eq_append, ← List.cons_append, ← List.append_assoc] at heq
      obtain ⟨hvalues, hlast⟩ := List.append_inj' heq rfl
      obtain rfl := List.singleton_inj.1 hlast
      rw [List.concat_eq_append] at hlater
      refine .inr ⟨⟨before, others, hvalues, fun found hmem => ?_⟩, ?_⟩
      · exact hlater found (List.mem_append_left _ hmem)
      · exact hlater value (List.mem_append_right _ (List.mem_singleton.2 rfl))
  · rintro (rfl | ⟨⟨before, later, rfl, hlater⟩, hne⟩)
    · exact ⟨values, [], rfl, by simp⟩
    · refine ⟨before, later ++ [value], by simp, fun found hmem => ?_⟩
      rcases List.mem_append.1 hmem with hmem | hmem
      · exact hlater found hmem
      · obtain rfl := List.mem_singleton.1 hmem
        exact hne

theorem IsKept.mem (h : IsKept values value) : value ∈ values := by
  obtain ⟨before, later, rfl, -⟩ := h
  exact List.mem_append_right _ List.mem_cons_self

/-- There is a last value for each constant. -/
theorem exists_isKept (h : value ∈ values) :
    ∃ kept, IsKept values kept ∧ constantCase kept = constantCase value := by
  induction values using List.reverseRecOn with
  | nil => cases h
  | append_singleton values last ih =>
    by_cases hsame : constantCase last = constantCase value
    · exact ⟨last, isKept_concat.2 (.inl rfl), hsame⟩
    · rcases List.mem_append.1 h with hmem | hmem
      · obtain ⟨kept, hkept, hname⟩ := ih hmem
        exact ⟨kept, isKept_concat.2 (.inr ⟨hkept, hname ▸ hsame⟩), hname⟩
      · obtain rfl := List.mem_singleton.1 hmem
        exact absurd rfl hsame

theorem constantsApart_concat :
    ConstantsApart (values ++ [value]) ↔
      ConstantsApart values ∧ ∀ other ∈ values, constantCase other ≠ constantCase value := by
  rw [ConstantsApart, List.map_append, List.nodup_append]
  simp [ConstantsApart]

theorem ConstantsApart.isKept_iff (h : ConstantsApart values) :
    IsKept values value ↔ value ∈ values := by
  refine ⟨IsKept.mem, fun hmem => ?_⟩
  obtain ⟨before, later, rfl⟩ := List.append_of_mem hmem
  refine ⟨before, later, rfl, fun other hother => ?_⟩
  rw [ConstantsApart, List.map_append, List.map_cons] at h
  have hlater := (List.nodup_cons.1 h.of_append_right).1
  intro hsame
  exact hlater (hsame ▸ List.mem_map_of_mem hother)

/-- The constants of some values are those of the values that are kept. -/
structure Kept (values : List String) (constants : List Constant) : Prop where
  ordered : InOrder constants
  mem_iff : ∀ constant, constant ∈ constants ↔
    IsKept values constant.value ∧ constant.name = constantCase constant.value

theorem Kept.enter (h : Kept values constants)
    (henter : enterConstant policy shape (constantCase value) value constants = .ok next) :
    Kept (values ++ [value]) next := by
  obtain ⟨hordered, hmem⟩ := enterConstant_ok h.ordered henter
  refine ⟨hordered, fun constant => ?_⟩
  rw [hmem, h.mem_iff, isKept_concat]
  obtain ⟨name, found⟩ := constant
  simp only [Constant.mk.injEq]
  constructor
  · rintro (⟨rfl, rfl⟩ | ⟨⟨hkept, rfl⟩, hne⟩)
    · exact ⟨.inl rfl, rfl⟩
    · exact ⟨.inr ⟨hkept, hne.symm⟩, rfl⟩
  · rintro ⟨rfl | ⟨hkept, hne⟩, rfl⟩
    · exact .inl ⟨rfl, rfl⟩
    · exact .inr ⟨⟨hkept, rfl⟩, hne.symm⟩

/-- There is a constant for each value, and for nothing else. -/
theorem Kept.exists_name_iff (h : Kept values constants) :
    (∃ constant ∈ constants, constant.name = name) ↔
      ∃ value ∈ values, constantCase value = name := by
  constructor
  · rintro ⟨constant, hmem, rfl⟩
    obtain ⟨hkept, hname⟩ := (h.mem_iff constant).1 hmem
    exact ⟨constant.value, hkept.mem, hname.symm⟩
  · rintro ⟨value, hmem, rfl⟩
    obtain ⟨kept, hkept, hname⟩ := exists_isKept hmem
    exact ⟨⟨constantCase kept, kept⟩, (h.mem_iff _).2 ⟨hkept, rfl⟩, hname⟩

theorem Kept.contains_iff {enumeration : Enumeration} (h : Kept values enumeration.constants) :
    enumeration.contains value = true ↔ IsKept values value := by
  simp only [Enumeration.contains, List.any_eq_true, decide_eq_true_eq]
  constructor
  · rintro ⟨constant, hmem, rfl⟩
    exact ((h.mem_iff constant).1 hmem).1
  · intro hkept
    exact ⟨⟨constantCase value, value⟩, (h.mem_iff _).2 ⟨hkept, rfl⟩, rfl⟩

theorem constantsOf_concat (policy : CollisionPolicy) (shape : String) (values : List String)
    (value : String) :
    constantsOf policy shape (values ++ [value]) =
      constantsOf policy shape values >>=
        enterConstant policy shape (constantCase value) value := by
  simp [constantsOf]

theorem kept_of_constantsOf (h : constantsOf policy shape values = .ok constants) :
    Kept values constants := by
  induction values using List.reverseRecOn generalizing constants with
  | nil =>
    obtain rfl : [] = constants := Except.ok.inj h
    refine ⟨.nil, fun constant => ?_⟩
    have hnone : ¬IsKept [] constant.value := fun hkept => by simpa using hkept.mem
    simp [hnone]
  | append_singleton values value ih =>
    rw [constantsOf_concat] at h
    obtain ⟨entered, hentered, henter⟩ := bind_eq_ok.1 h
    exact (ih hentered).enter henter

theorem exists_constantsOf_overwrite (shape : String) (values : List String) :
    ∃ constants, constantsOf .overwrite shape values = .ok constants := by
  induction values using List.reverseRecOn with
  | nil => exact ⟨[], rfl⟩
  | append_singleton values value ih =>
    obtain ⟨constants, hconstants⟩ := ih
    rw [constantsOf_concat, hconstants, ok_bind]
    exact exists_enterConstant_overwrite shape (constantCase value) value constants

/-- Values whose constants are refused to be changed have constants that are apart. -/
theorem constantsApart_of_constantsOf (h : constantsOf .reject shape values = .ok constants) :
    ConstantsApart values := by
  induction values using List.reverseRecOn generalizing constants with
  | nil => exact .nil
  | append_singleton values value ih =>
    rw [constantsOf_concat] at h
    obtain ⟨entered, hentered, henter⟩ := bind_eq_ok.1 h
    have hkept := kept_of_constantsOf hentered
    have hapart := ih hentered
    refine constantsApart_concat.2 ⟨hapart, fun other hmem hsame => ?_⟩
    have hother : ⟨constantCase value, other⟩ ∈ entered :=
      (hkept.mem_iff _).2 ⟨hapart.isKept_iff.2 hmem, hsame.symm⟩
    have herror : enterConstant .reject shape (constantCase value) value entered =
        .error (.enumCollision shape (constantCase value) other value) :=
      (enterConstant_reject_eq_error hkept.ordered).2 ⟨other, hother, rfl⟩
    cases herror.symm.trans henter

/-- The values are refused for the first of them whose constant is that of an earlier one, and only
where constants are refused to be changed. -/
theorem collision_of_constantsOf (h : constantsOf policy shape values = .error e) :
    policy = .reject ∧ ∃ before second later first, values = before ++ second :: later ∧
      ConstantsApart before ∧ first ∈ before ∧ constantCase first = constantCase second ∧
      e = .enumCollision shape (constantCase second) first second := by
  cases policy with
  | overwrite =>
    obtain ⟨constants, hok⟩ := exists_constantsOf_overwrite shape values
    cases hok.symm.trans h
  | reject =>
    refine ⟨rfl, ?_⟩
    induction values using List.reverseRecOn with
    | nil => cases h
    | append_singleton values value ih =>
      rw [constantsOf_concat] at h
      rcases bind_eq_error.1 h with herror | ⟨entered, hentered, henter⟩
      · obtain ⟨before, second, later, first, rfl, hcollision⟩ := ih herror
        exact ⟨before, second, later ++ [value], first, by simp, hcollision⟩
      · have hkept := kept_of_constantsOf hentered
        obtain ⟨first, hmem, rfl⟩ := (enterConstant_reject_eq_error hkept.ordered).1 henter
        obtain ⟨hfirst, hname⟩ := (hkept.mem_iff _).1 hmem
        exact ⟨values, value, [], first, rfl, constantsApart_of_constantsOf hentered, hfirst.mem,
          hname.symm, rfl⟩

/-- The values have constants unless these are refused to be changed and two values share one. -/
theorem exists_constantsOf_iff :
    (∃ constants, constantsOf policy shape values = .ok constants) ↔
      (policy = .reject → ConstantsApart values) := by
  constructor
  · rintro ⟨constants, hok⟩ rfl
    exact constantsApart_of_constantsOf hok
  · intro happart
    cases hconstants : constantsOf policy shape values with
    | ok constants => exact ⟨constants, rfl⟩
    | error fault =>
      obtain ⟨hpolicy, before, second, later, first, rfl, -, hfirst, hsame, -⟩ :=
        collision_of_constantsOf hconstants
      have hnodup := happart hpolicy
      rw [ConstantsApart, List.map_append, List.map_cons, List.nodup_append] at hnodup
      have hne := hnodup.2.2 _ (List.mem_map_of_mem hfirst) _ List.mem_cons_self
      exact absurd hsame hne

end
end ServiceBindings.Plan
