import ServiceBindings.Proofs.Generate.Compiled
import ServiceBindings.Proofs.Generate.Paths
import ServiceBindings.Proofs.Text.Literal

/-! Generated source line by line. Neither the names of items nor texts in quotes break a line. -/
namespace ServiceBindings.Plan
open Naming (Identifier IsSpelled)

/-- Related targets name related items. -/
theorem Target.Related.exists_of_mem_mentions {r : Identifier → Identifier → Prop} {a b : Target}
    (h : a.Related r b) {ident : Identifier} (hmem : ident ∈ b.mentions) :
    ∃ plain ∈ a.mentions, r plain ident := by
  cases a with
  | scalar =>
    cases b <;> try exact h.elim
    cases hmem
  | enumeration =>
    cases b <;> try exact h.elim
    cases hmem
  | list =>
    cases b <;> try exact h.elim
    obtain ⟨-, hitem, -⟩ := h
    exact Target.Related.exists_of_mem_mentions hitem hmem
  | map =>
    cases b <;> try exact h.elim
    obtain ⟨-, -, hvalue, -⟩ := h
    exact Target.Related.exists_of_mem_mentions hvalue hmem
  | «structure» =>
    cases b <;> try exact h.elim
    obtain rfl := List.mem_singleton.1 hmem
    exact ⟨_, List.mem_cons_self, h.1.ident⟩

theorem RelatedMembers.exists_of_mem {r : Identifier → Identifier → Prop}
    {a b : List (Binding × Target)} (h : RelatedMembers r a b) {member : Binding × Target}
    (hmem : member ∈ b) : ∃ plain ∈ a, plain.1 = member.1 ∧ plain.2.Related r member.2 := by
  induction a generalizing b with
  | nil =>
    cases b with
    | nil => cases hmem
    | cons => exact h.elim
  | cons first rest ih =>
    cases b with
    | nil => exact h.elim
    | cons second others =>
      obtain ⟨hbinding, htarget, hrest⟩ := h
      rcases List.mem_cons.1 hmem with rfl | hmem
      · exact ⟨first, List.mem_cons_self, hbinding, htarget⟩
      · obtain ⟨plain, hplain, hsame⟩ := ih hrest hmem
        exact ⟨plain, List.mem_cons_of_mem _ hplain, hsame⟩

end ServiceBindings.Plan

namespace ServiceBindings.Generate
open Naming (Identifier IsSpelled)
open Plan (Binding Enumeration Layout Target)
open Text (quoted)

section Spelled
variable {job : Job}

theorem isSpelled_plainIdent (shape : Shape) : IsSpelled (job.plainIdent shape).name :=
  Naming.isSpelled_typeName shape.name

/-- A type of a plain plan names items by names of types. -/
theorem isSpelled_of_plainTarget (fuel : Nat) {visiting : List String} {shape : Shape}
    {format : Option Time.Format} {flattened : Bool} {target : Target}
    (h : plainTarget job fuel visiting shape format flattened = .ok target) {ident : Identifier}
    (hmem : ident ∈ target.mentions) : IsSpelled ident.name := by
  have hall : ∀ ident ∈ target.mentions, IsSpelled ident.name := by
    refine forall_plainTarget (P := fun target => ∀ ident ∈ target.mentions, IsSpelled ident.name)
      (fun _ _ _ _ hmem => by cases hmem) (fun _ _ hmem => by cases hmem)
      (fun _ _ _ _ hitem => hitem) (fun _ _ _ _ _ _ hvalue => hvalue)
      (fun _ _ _ layout hlayout _ ident hmem => ?_) h
    obtain ⟨found, -, members, -, -, -, -, rfl⟩ := plainStructureWith_eq_ok.1 hlayout
    obtain rfl := List.mem_singleton.1 hmem
    exact isSpelled_plainIdent found
  exact hall ident hmem

theorem exists_of_mem_plainMembers
    {step : Shape → Option Time.Format → Bool → Except ModelError Target} {members : List Member}
    {result : List (Binding × Target)} (h : plainMembers job step members = .ok result)
    {entry : Binding × Target} (hmem : entry ∈ result) :
    ∃ member ∈ members, entry.1 = bindingOf member entry.2 ∧
      ∃ shape, step shape member.timestampFormat member.flattened = .ok entry.2 := by
  obtain ⟨member, hmember, hbinding, shape, -, htarget⟩ :=
    exists_of_mem_forall₂_right (plainMembers_eq_ok.1 h) hmem
  exact ⟨member, hmember, hbinding, shape, htarget⟩

end Spelled

/-- A text that stands on one line. -/
def Unbroken (text : String) : Prop :=
  '\n' ∉ text.toList

instance (text : String) : Decidable (Unbroken text) :=
  inferInstanceAs (Decidable (_ ∉ _))

theorem Unbroken.append {a b : String} (ha : Unbroken a) (hb : Unbroken b) : Unbroken (a ++ b) := by
  rw [Unbroken, String.toList_append, List.mem_append, not_or]
  exact ⟨ha, hb⟩

theorem unbroken_of_isSpelled {name : String} (h : IsSpelled name) : Unbroken name :=
  fun hmem => absurd (h '\n' hmem) (by decide)

theorem unbroken_quoted (s : String) : Unbroken (quoted s) := by
  have hchar (c : Char) : '\n' ∉ Text.quotedChar c := by
    unfold Text.quotedChar
    split_ifs with _ _ _ hbreak
    iterate 6 decide
    · simpa using Ne.symm hbreak
    · simp [Text.notMem_hexDigits (show ∀ d < 16, Text.hexDigit d ≠ '\n' by decide)]
  rw [Unbroken, quoted, String.toList_ofList]
  simp [hchar]

def linesOf (source : String) : List (List Char) :=
  source.toList.splitOn '\n'

theorem linesOf_joinLines_append {lines : List String} (h : ∀ line ∈ lines, Unbroken line)
    (more : List String) :
    linesOf (joinLines (lines ++ more)) = lines.map String.toList ++ linesOf (joinLines more) := by
  induction lines with
  | nil => rfl
  | cons line others ih =>
    have hothers := ih fun other hmem => h other (List.mem_cons_of_mem _ hmem)
    have hline : '\n' ∉ line.toList := h line List.mem_cons_self
    rw [List.cons_append, joinLines, List.map_cons, String.join_cons, linesOf]
    simp only [String.toList_append, List.append_assoc]
    show (line.toList ++ '\n' :: (joinLines (others ++ more)).toList).splitOn '\n' = _
    rw [List.splitOn_append_cons_self_of_not_mem hline, List.map_cons, List.cons_append, ← hothers,
      linesOf]

end ServiceBindings.Generate
