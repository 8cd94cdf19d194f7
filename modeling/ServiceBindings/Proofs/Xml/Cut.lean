import Mathlib.Data.List.Infix
import ServiceBindings.Proofs.Xml.Chars
import ServiceBindings.Proofs.Xml.Local

/-! White space that comes between the tags of a text changes nothing in its tokens but the
character data there. -/
namespace ServiceBindings.Xml
open Token (EndsTag GoesOn IsClosed IsWhole Place Step Stops need? runOf? scanFrom step? upTo?)

/-- A place inside of an element or of its tag. -/
def Inside : Place → Prop
  | .content _ | .tag _ => True
  | _ => False

/-- A text up to the end of a tag, a comment or the like is cut into tokens. -/
inductive Cut : Place → List Char → List Token → Place → Prop where
  | last {place : Place} {chars : List Char} {step : Step} : Inside place →
    step? place chars = some step → step.rest = [] → IsClosed step →
      Cut place chars step.token.toList step.place
  | step {place next : Place} {chars : List Char} {step : Step} {tokens : List Token} :
    step? place chars = some step → step.rest ≠ [] → Cut step.place step.rest tokens next →
      Cut place chars (step.token.toList ++ tokens) next

theorem Inside.stops {place : Place} (h : Inside place) : Stops IsWhole (step? place) := by
  cases place with
  | content depth => exact Token.stops_contentStep? depth
  | tag depth => exact Token.stops_tagStep? depth
  | declaration | prolog | doctype | beforeRoot | afterRoot => exact h.elim

section
variable {place next : Place} {chars : List Char} {tokens : List Token}

theorem scanFrom_of_step? {step : Step} (h : step? place chars = some step) (hne : chars ≠ [])
    (fuel : Nat) : scanFrom (fuel + 1) place chars =
      (step.token.toList ++ (scanFrom fuel step.place step.rest).1,
        (scanFrom fuel step.place step.rest).2) := by
  obtain ⟨c, others, rfl⟩ := List.exists_cons_of_ne_nil hne
  rw [scanFrom, h]

/-- Too few steps do not come to the end. -/
theorem scanFrom_zero (place : Place) (hne : chars ≠ []) : (scanFrom 0 place chars).2 = false := by
  obtain ⟨c, others, rfl⟩ := List.exists_cons_of_ne_nil hne
  rfl

theorem scanFrom_more {ends : Step → Prop} (hstops : Stops ends (step? place))
    (hchars : EndsTag chars) {step : Step} (hstep : step? place chars = some step)
    (hends : ends step) (text : List Char) (fuel : Nat) :
    scanFrom (fuel + 1) place (chars ++ text) =
      (step.token.toList ++ (scanFrom fuel step.place (step.rest ++ text)).1,
        (scanFrom fuel step.place (step.rest ++ text)).2) :=
  scanFrom_of_step? (hstops.more hchars hstep hends text)
    (fun hnil => hchars.ne_nil (List.append_eq_nil_iff.1 hnil).1) fuel

/-- What a text is cut into comes first in any text that begins with it, after so many steps. -/
theorem Cut.exists_steps (h : Cut place chars tokens next) (hchars : EndsTag chars) :
    ∃ steps, ∀ text,
      (∀ fuel, scanFrom (steps + fuel) place (chars ++ text) =
        (tokens ++ (scanFrom fuel next text).1, (scanFrom fuel next text).2)) ∧
      ∀ fuel < steps, (scanFrom fuel place (chars ++ text)).2 = false := by
  have hzero {place : Place} {chars : List Char} (h : EndsTag chars) (text : List Char) :
      (scanFrom 0 place (chars ++ text)).2 = false :=
    scanFrom_zero place fun hnil => h.ne_nil (List.append_eq_nil_iff.1 hnil).1
  induction h with
  | @last place chars step hplace hstep hrest hclosed =>
    refine ⟨1, fun text => ⟨fun fuel => ?_, fun fuel hfuel => ?_⟩⟩
    · have hscan := scanFrom_more hplace.stops hchars hstep (.inr hclosed) text fuel
      rwa [hrest, List.nil_append, Nat.add_comm] at hscan
    · obtain rfl : fuel = 0 := by omega
      exact hzero hchars text
  | @step place next chars step tokens hstep hrest hcut ih =>
    have hstops := Token.stops_step? place
    obtain ⟨steps, hsteps⟩ := ih (hchars.of_suffix (hstops.suffix hstep) hrest)
    refine ⟨steps + 1, fun text => ⟨fun fuel => ?_, fun fuel hfuel => ?_⟩⟩
    · have hscan := scanFrom_more hstops hchars hstep hrest text (steps + fuel)
      rwa [(hsteps text).1 fuel, ← List.append_assoc, Nat.add_right_comm] at hscan
    · cases fuel with
      | zero => exact hzero hchars text
      | succ fuel =>
        rw [scanFrom_more hstops hchars hstep hrest text fuel]
        exact (hsteps text).2 fuel (by omega)

/-- More steps than needed change nothing. -/
theorem scanFrom_succ {fuel : Nat} (h : scanFrom fuel place chars = (tokens, true)) :
    scanFrom (fuel + 1) place chars = (tokens, true) := by
  induction fuel generalizing place chars tokens with
  | zero =>
    cases chars with
    | nil => exact h
    | cons c others => cases h
  | succ fuel ih =>
    cases chars with
    | nil => exact h
    | cons c others =>
      rw [scanFrom] at h ⊢
      cases hstep : step? place (c :: others) with
      | none =>
        rw [hstep] at h
        cases h
      | some step =>
        rw [hstep] at h
        obtain ⟨rfl, hwhole⟩ := Prod.mk.inj h
        have hmore := ih (Prod.ext rfl hwhole : scanFrom fuel step.place step.rest = (_, true))
        dsimp only
        rw [hmore]

theorem scanFrom_le {fuel more : Nat} (h : scanFrom fuel place chars = (tokens, true))
    (hle : fuel ≤ more) : scanFrom more place chars = (tokens, true) := by
  induction hle with
  | refl => exact h
  | step _ ih => exact scanFrom_succ ih

/-- A run of permitted characters ends where the first one does not pass. -/
theorem runOf?_of_isChar {passes : Char → Bool} (h : ∀ c ∈ chars, isChar c = true) :
    runOf? passes chars = some (chars.takeWhile passes, chars.dropWhile passes) := by
  induction chars with
  | nil => rfl
  | cons c others ih =>
    obtain ⟨hc, hothers⟩ := List.forall_mem_cons.1 h
    rw [runOf?, if_pos hc, List.takeWhile_cons, List.dropWhile_cons]
    split_ifs
    · rw [ih hothers]
      rfl
    · rfl

/-- Among permitted characters, a closing text is found just where there is one. -/
theorem isSome_upTo? {close : String} (h : ∀ c ∈ chars, isChar c = true) :
    (upTo? close chars).isSome = true ↔ close.toList <:+: chars := by
  have hneed (chars : List Char) : (need? close chars).isSome = true ↔ close.toList <+: chars := by
    rw [← not_iff_not, ← Text.expect?_eq_none_iff, Bool.not_eq_true, Option.isSome_eq_false_iff,
      Option.isNone_iff_eq_none]
    rfl
  induction chars with
  | nil =>
    rw [upTo?, Option.isSome_map, hneed, List.prefix_nil, List.infix_nil]
  | cons c others ih =>
    obtain ⟨hc, hothers⟩ := List.forall_mem_cons.1 h
    have hfound : (upTo? close (c :: others)).isSome = true ↔
        (need? close (c :: others)).isSome = true ∨ (upTo? close others).isSome = true := by
      rw [upTo?, if_pos hc]
      cases need? close (c :: others) <;> simp
    exact hfound.trans ((or_congr (hneed _) (ih hothers)).trans List.infix_cons_iff.symm)

/-- Nothing that lies across a character which it does not hold. -/
theorem infix_of_infix_append {p front back : List Char} {c : Char} (hc : c ∉ p)
    (h : p <:+: front ++ c :: back) : p <:+: front ∨ p <:+: back := by
  induction front with
  | nil =>
    rcases List.infix_cons_iff.1 h with hfront | hinfix
    · cases p with
      | nil => exact .inr (List.nil_infix)
      | cons d others =>
        rw [List.cons_prefix_cons] at hfront
        exact absurd (hfront.1 ▸ List.mem_cons_self) hc
    · exact .inr hinfix
  | cons d others ih =>
    rcases List.infix_cons_iff.1 h with hfront | hinfix
    · rcases List.prefix_or_prefix_of_prefix hfront (List.prefix_append (d :: others) (c :: back))
        with hp | hp
      · exact .inl hp.isInfix
      · obtain ⟨more, rfl⟩ := hp
        have hmore : more <+: c :: back := (List.prefix_append_right_inj (d :: others)).1 hfront
        cases more with
        | nil => exact .inl (by simp)
        | cons e more =>
          obtain rfl := (List.cons_prefix_cons.1 hmore).1
          exact absurd (List.mem_append_right _ List.mem_cons_self) hc
    · exact (ih hinfix).imp_left fun hp => List.infix_cons hp

theorem infix_of_infix_append_append {p front space back : List Char} (hp : p ≠ [])
    (hspace : ∀ c ∈ space, c ∉ p) (hne : space ≠ []) (h : p <:+: front ++ (space ++ back)) :
    p <:+: front ∨ p <:+: back := by
  induction space generalizing front with
  | nil => exact absurd rfl hne
  | cons c others ih =>
    obtain ⟨hc, hothers⟩ := List.forall_mem_cons.1 hspace
    refine (infix_of_infix_append hc h).imp_right fun hback => ?_
    by_cases hnil : others = []
    · rwa [hnil] at hback
    · have hnone : p <:+: [] ∨ p <:+: back := ih hothers hnil hback
      exact hnone.resolve_left fun h => hp (List.infix_nil.1 h)

/-- The data in front of the next tag is taken in one step. -/
theorem step?_content (h : ∀ c ∈ chars, isChar c = true) (hne : chars.takeWhile (· ≠ '<') ≠ [])
    (depth : Nat) : step? (.content depth) chars =
      if (upTo? "]]>" (chars.takeWhile (· ≠ '<'))).isSome then none
      else some ⟨some (.text (String.ofList (chars.takeWhile (· ≠ '<')))), .content depth,
        chars.dropWhile (· ≠ '<')⟩ := by
  have hhead : chars.head? ≠ some '<' := by
    rintro hhead
    obtain ⟨others, rfl⟩ := List.head?_eq_some_iff.1 hhead
    exact hne rfl
  show Token.contentStep? depth chars = _
  rw [Token.contentStep?_of_head?_ne hhead, Token.text?, runOf?_of_isChar h]
  rfl

theorem isChar_of_mem_takeWhile {passes : Char → Bool} (h : ∀ c ∈ chars, isChar c = true) :
    ∀ c ∈ chars.takeWhile passes, isChar c = true :=
  fun c hc => h c (List.takeWhile_subset _ hc)

theorem scanFrom_data (h : ∀ c ∈ chars, isChar c = true) (hne : chars.takeWhile (· ≠ '<') ≠ [])
    (hend : ¬"]]>".toList <:+: chars.takeWhile (· ≠ '<')) (fuel depth : Nat) :
    scanFrom (fuel + 1) (.content depth) chars =
      (.text (String.ofList (chars.takeWhile (· ≠ '<'))) ::
        (scanFrom fuel (.content depth) (chars.dropWhile (· ≠ '<'))).1,
        (scanFrom fuel (.content depth) (chars.dropWhile (· ≠ '<'))).2) := by
  have hstep := step?_content h hne depth
  rw [if_neg (mt (isSome_upTo? (isChar_of_mem_takeWhile h)).1 hend)] at hstep
  exact scanFrom_of_step? hstep (fun hnil => hne (by rw [hnil]; rfl)) fuel

theorem exists_of_scanFrom_data {fuel depth : Nat} (hne : chars.takeWhile (· ≠ '<') ≠ [])
    (h : scanFrom fuel (.content depth) chars = (tokens, true)) :
    ∃ left more, fuel = left + 1 ∧ ¬"]]>".toList <:+: chars.takeWhile (· ≠ '<') ∧
      tokens = .text (String.ofList (chars.takeWhile (· ≠ '<'))) :: more ∧
      scanFrom left (.content depth) (chars.dropWhile (· ≠ '<')) = (more, true) := by
  have hchars : ∀ c ∈ chars, isChar c = true :=
    isChar_of_scanFrom (by trivial) (congrArg Prod.snd h)
  have hnil : chars ≠ [] := fun hnil => hne (by rw [hnil]; rfl)
  have hstep := step?_content hchars hne depth
  cases fuel with
  | zero =>
    have hzero := scanFrom_zero (.content depth) hnil
    rw [h] at hzero
    cases hzero
  | succ left =>
    have hend : ¬"]]>".toList <:+: chars.takeWhile (· ≠ '<') := fun hend => by
      rw [if_pos ((isSome_upTo? (isChar_of_mem_takeWhile hchars)).2 hend)] at hstep
      obtain ⟨c, others, rfl⟩ := List.exists_cons_of_ne_nil hnil
      rw [scanFrom, hstep] at h
      cases h
    rw [scanFrom_data hchars hne hend] at h
    obtain ⟨htokens, hwhole⟩ := Prod.mk.inj h
    exact ⟨left, _, rfl, hend, htokens.symm, Prod.ext rfl hwhole⟩

/-- Character data makes one token, unless there is none. -/
def dataTokens (chars : List Char) : List Token :=
  if chars = [] then [] else [.text (String.ofList chars)]

/-- White space that a document may hold. -/
def IsSpacing (space : List Char) : Prop :=
  space ≠ [] ∧ ∀ c ∈ space, Text.isBlank c = true ∧ isChar c = true

theorem ne_of_isBlank {c d : Char} (h : Text.isBlank c = true) (hd : Text.isBlank d = false) :
    c ≠ d := by
  rintro rfl
  rw [h] at hd
  cases hd

/-- Character data goes on in front of the next tag. -/
theorem takeWhile_data {data : List Char} (h : '<' ∉ data) (others : List Char) :
    (data ++ others).takeWhile (· ≠ '<') = data ++ others.takeWhile (· ≠ '<') ∧
      (data ++ others).dropWhile (· ≠ '<') = others.dropWhile (· ≠ '<') := by
  have hpasses : ∀ c ∈ data, decide (c ≠ '<') = true := fun c hc => by
    rw [decide_eq_true_eq]
    rintro rfl
    exact h hc
  exact ⟨List.takeWhile_append_of_pos hpasses, List.dropWhile_append_of_pos hpasses⟩

theorem IsSpacing.notMem_of_not_blank {space : List Char} (h : IsSpacing space) {p : List Char}
    (hp : ∀ d ∈ p, Text.isBlank d = false) : ∀ c ∈ space, c ∉ p :=
  fun c hc hmem => ne_of_isBlank (h.2 c hc).1 (hp c hmem) rfl

theorem IsSpacing.notMem_lt {space : List Char} (h : IsSpacing space) : '<' ∉ space :=
  fun hmem => h.notMem_of_not_blank (List.forall_mem_singleton.2 (by decide)) _ hmem
    List.mem_cons_self

/-- White space does not put the end of a section of character data into a text. -/
theorem IsSpacing.not_infix {space : List Char} (h : IsSpacing space) {front back : List Char}
    (hend : ¬"]]>".toList <:+: front ++ back) : ¬"]]>".toList <:+: front ++ (space ++ back) := by
  refine fun hinfix => hend ?_
  have hplain := h.notMem_of_not_blank (p := "]]>".toList) (List.all_iff_forall_prop.1 (by decide))
  rcases infix_of_infix_append_append (by decide) hplain h.1 hinfix with hfront | hback
  · exact hfront.trans (List.prefix_append _ _).isInfix
  · exact hback.trans (List.suffix_append _ _).isInfix

/-- Character data is scanned with white space in it where it may stand without. -/
theorem scanFrom_data_spaced {run back space : List Char} (hrun : '<' ∉ run)
    (hspace : IsSpacing space) (hchars : ∀ c ∈ run ++ back, isChar c = true)
    (hend : ¬"]]>".toList <:+: run ++ back.takeWhile (· ≠ '<')) (fuel depth : Nat) :
    scanFrom (fuel + 1) (.content depth) (run ++ (space ++ back)) =
      (.text (String.ofList (run ++ (space ++ back.takeWhile (· ≠ '<')))) ::
        (scanFrom fuel (.content depth) (back.dropWhile (· ≠ '<'))).1,
        (scanFrom fuel (.content depth) (back.dropWhile (· ≠ '<'))).2) := by
  obtain ⟨hrunchars, hbackchars⟩ := List.forall_mem_append.1 hchars
  have hall : ∀ c ∈ run ++ (space ++ back), isChar c = true :=
    List.forall_mem_append.2 ⟨hrunchars, List.forall_mem_append.2
      ⟨fun c hc => (hspace.2 c hc).2, hbackchars⟩⟩
  obtain ⟨htake, hdrop⟩ := takeWhile_data hrun (space ++ back)
  rw [(takeWhile_data hspace.notMem_lt back).1] at htake
  rw [(takeWhile_data hspace.notMem_lt back).2] at hdrop
  have hne : run ++ (space ++ back.takeWhile (· ≠ '<')) ≠ [] := fun hnil =>
    hspace.1 (List.append_eq_nil_iff.1 (List.append_eq_nil_iff.1 hnil).2).1
  have hscan := scanFrom_data hall (by rwa [htake]) (by rw [htake]; exact hspace.not_infix hend)
    fuel depth
  rwa [htake, hdrop] at hscan

/-- White space that comes into character data changes nothing else. -/
theorem scanFrom_spaced {fuel depth : Nat} {run back space : List Char} (hrun : '<' ∉ run)
    (hspace : IsSpacing space) (h : scanFrom fuel (.content depth) (run ++ back) = (tokens, true)) :
    ∃ after more, tokens = dataTokens (run ++ after) ++ more ∧
      scanFrom (fuel + 1) (.content depth) (run ++ (space ++ back)) =
        (dataTokens (run ++ (space ++ after)) ++ more, true) := by
  have hchars : ∀ c ∈ run ++ back, isChar c = true :=
    isChar_of_scanFrom (by trivial) (congrArg Prod.snd h)
  have hnew := scanFrom_data_spaced hrun hspace hchars
  obtain ⟨htake, hdrop⟩ := takeWhile_data hrun back
  generalize hafter : back.takeWhile (· ≠ '<') = after at htake hnew
  have hne : run ++ (space ++ after) ≠ [] := fun hnil =>
    hspace.1 (List.append_eq_nil_iff.1 (List.append_eq_nil_iff.1 hnil).2).1
  refine ⟨after, ?_⟩
  rw [dataTokens, dataTokens, if_neg hne]
  by_cases hnil : run ++ after = []
  · -- Without character data before, there is one more token and one more step.
    obtain ⟨rfl, rfl⟩ := List.append_eq_nil_iff.1 hnil
    refine ⟨tokens, by rw [if_pos hnil]; rfl, ?_⟩
    have hback : back.dropWhile (· ≠ '<') = back := by
      have hboth := List.takeWhile_append_dropWhile (p := (· ≠ '<')) (l := back)
      rwa [hafter] at hboth
    rw [hnew (by rw [hnil]; decide), hback]
    rw [List.nil_append] at h
    rw [h]
    rfl
  · have hold := exists_of_scanFrom_data (by rwa [htake]) h
    rw [htake, hdrop] at hold
    obtain ⟨left, more, rfl, hend, rfl, hmore⟩ := hold
    refine ⟨more, by rw [if_neg hnil]; rfl, ?_⟩
    rw [hnew hend, scanFrom_succ hmore]
    rfl

/-- A text without a mark of byte order before it. -/
def unmarked : List Char → List Char
  | [] => []
  | c :: rest => if c = '\uFEFF' then rest else c :: rest

theorem scan_eq (s : String) : Token.scan s =
    scanFrom ((unmarked s.toList).length + 2) .declaration (unmarked s.toList) := by
  rw [Token.scan]
  cases s.toList <;> rfl

theorem unmarked_append {front : List Char} (h : unmarked front ≠ []) (others : List Char) :
    unmarked (front ++ others) = unmarked front ++ others := by
  cases front with
  | nil => exact absurd rfl h
  | cons c rest =>
    rw [List.cons_append, unmarked, unmarked]
    split_ifs <;> rfl

/-- White space that comes into the content of an element, in front of a tag or into the character
data there, changes nothing else in the tokens of a text. -/
theorem scan_spaced {front run back space : List Char} {depth : Nat}
    {all : List Token} (hcut : Cut .declaration (unmarked front) tokens (.content depth))
    (htag : EndsTag (unmarked front)) (hrun : '<' ∉ run) (hspace : IsSpacing space)
    (hscan : Token.scan (String.ofList (front ++ (run ++ back))) = (all, true)) :
    ∃ after more, all = tokens ++ (dataTokens (run ++ after) ++ more) ∧
      Token.scan (String.ofList (front ++ (run ++ (space ++ back)))) =
        (tokens ++ (dataTokens (run ++ (space ++ after)) ++ more), true) := by
  obtain ⟨steps, hsteps⟩ := hcut.exists_steps htag
  have hmark (others : List Char) : unmarked (String.ofList (front ++ others)).toList =
      unmarked front ++ others := by
    rw [String.toList_ofList, unmarked_append htag.ne_nil]
  rw [scan_eq, hmark] at hscan ⊢
  obtain ⟨hgo, hstay⟩ := hsteps (run ++ back)
  have hle : steps ≤ (unmarked front ++ (run ++ back)).length + 2 := by
    by_contra hlt
    have hnot := hstay _ (Nat.lt_of_not_le hlt)
    rw [hscan] at hnot
    cases hnot
  obtain ⟨fuel, hfuel⟩ := Nat.exists_eq_add_of_le hle
  rw [hfuel, hgo] at hscan
  obtain ⟨rfl, hwhole⟩ := Prod.mk.inj hscan
  obtain ⟨after, more, htokens, hmore⟩ := scanFrom_spaced hrun hspace
    (Prod.ext rfl hwhole : scanFrom fuel (.content depth) (run ++ back) = (_, true))
  refine ⟨after, more, congrArg _ htokens, ?_⟩
  have hlength : steps + (fuel + 1) ≤ (unmarked front ++ (run ++ (space ++ back))).length + 2 := by
    have hspaces := List.length_pos_iff.2 hspace.1
    simp only [List.length_append] at hfuel ⊢
    omega
  refine scanFrom_le ?_ hlength
  rw [(hsteps (run ++ (space ++ back))).1, hmore]

end

end ServiceBindings.Xml
