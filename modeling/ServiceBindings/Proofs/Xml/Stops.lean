import Mathlib.Data.List.TakeWhile
import Mathlib.Tactic.Common
import ServiceBindings.Proofs.Text.Expect
import ServiceBindings.Xml.Token

/-! The scanner looks no further than to the end of a tag: what it takes from a text that ends with
one does not depend on what follows. -/
namespace ServiceBindings.Xml.Token

/-- A text ends with the sign that ends tags. -/
def EndsTag (chars : List Char) : Prop :=
  chars.getLast? = some '>'

namespace EndsTag
variable {chars rest : List Char}

theorem ne_nil (h : EndsTag chars) : chars ≠ [] := by
  rintro rfl
  cases h

theorem of_suffix (h : EndsTag chars) (hrest : rest <:+ chars) (hne : rest ≠ []) :
    EndsTag rest := by
  obtain ⟨taken, rfl⟩ := hrest
  rw [EndsTag, List.getLast?_append] at h
  cases hlast : rest.getLast? with
  | none => exact absurd (List.getLast?_eq_none_iff.1 hlast) hne
  | some c => simpa [EndsTag, hlast] using h

end EndsTag

/-- What a part of the scanner leaves of a text, and the same with more text behind. -/
class Leaves (α : Type) where
  rest : α → List Char
  more : α → List Char → α

open Leaves (rest more)

instance : Leaves (List Char) where
  rest := id
  more := (· ++ ·)

instance {α : Type} : Leaves (α × List Char) where
  rest := Prod.snd
  more found text := (found.1, found.2 ++ text)

instance : Leaves Step where
  rest := Step.rest
  more step text := { step with rest := step.rest ++ text }

/-- Something is left. -/
def GoesOn {α : Type} [Leaves α] (a : α) : Prop :=
  rest a ≠ []

/-- A part of the scanner takes something from the front of a text. From a text that ends with a tag
it takes the same with more text behind, where it has come to such an end. -/
structure Stops {α β : Type} [Leaves α] [Leaves β] (ends : β → Prop) (f : α → Option β) : Prop where
  suffix : ∀ {a b}, f a = some b → rest b <:+ rest a
  more : ∀ {a b}, EndsTag (rest a) → f a = some b → ends b →
    ∀ text, f (more a text) = some (more b text)

/-- A part of the scanner that does not look at the text. -/
structure Passes {α β : Type} [Leaves α] [Leaves β] (f : α → Option β) : Prop where
  suffix : ∀ {a b}, f a = some b → rest b <:+ rest a
  more : ∀ a text, f (Leaves.more a text) = (f a).map (Leaves.more · text)

/-- A part of the scanner that does not look behind what it takes. -/
abbrev Closes {α β : Type} [Leaves α] [Leaves β] (f : α → Option β) : Prop :=
  Stops (fun _ => True) f

section
variable {α β γ : Type} [Leaves α] [Leaves β] [Leaves γ] {f : α → Option β}

theorem Stops.mono {ends ends' : β → Prop} (h : Stops ends f)
    (himp : ∀ {a b}, f a = some b → ends' b → ends b) : Stops ends' f where
  suffix := h.suffix
  more ha hb hends := h.more ha hb (himp hb hends)

theorem Stops.congr {ends : β → Prop} {g : α → Option β} (hf : Stops ends f)
    (h : ∀ a, g a = f a) : Stops ends g :=
  (funext h : g = f) ▸ hf

theorem Closes.stops (h : Closes f) {ends : β → Prop} : Stops ends f :=
  h.mono fun _ _ => trivial

theorem Passes.closes (h : Passes f) : Closes f where
  suffix := h.suffix
  more _ hb _ text := by rw [h.more, hb]; rfl

/-- One part behind the other, of which the second comes to no end where nothing is left. -/
theorem Stops.bind {ends : γ → Prop} {g : β → Option γ} (hf : Stops GoesOn f)
    (hg : Stops ends g) (hnil : ∀ b c, rest b = [] → g b = some c → ¬ends c) :
    Stops ends fun a => (f a).bind g where
  suffix h := by
    obtain ⟨b, hb, hc⟩ := Option.bind_eq_some_iff.1 h
    exact (hg.suffix hc).trans (hf.suffix hb)
  more {a c} ha h hends text := by
    obtain ⟨b, hb, hc⟩ := Option.bind_eq_some_iff.1 h
    have hrest : rest b ≠ [] := fun hrest => hnil b c hrest hc hends
    rw [hf.more ha hb hrest text, Option.bind_some]
    exact hg.more (ha.of_suffix (hf.suffix hb) hrest) hc hends text

/-- Nothing comes of nothing. -/
theorem Stops.not_goesOn {ends : β → Prop} (h : Stops ends f) (a : α) (b : β) (ha : rest a = [])
    (hb : f a = some b) : ¬GoesOn b :=
  fun hgoes => hgoes (List.suffix_nil.1 (ha ▸ h.suffix hb))

theorem Stops.comp {g : β → Option γ} (hf : Stops GoesOn f) (hg : Stops GoesOn g) :
    Stops GoesOn fun a => (f a).bind g :=
  hf.bind hg hg.not_goesOn

theorem Stops.closes {g : β → Option γ} (hf : Stops GoesOn f) (hg : Closes g)
    (hnil : ∀ b, rest b = [] → g b = none) : Closes fun a => (f a).bind g :=
  hf.bind hg fun b _ hrest hc _ => by rw [hnil b hrest] at hc; cases hc

theorem Closes.andThen {g : β → Option γ} (hf : Closes f) (hg : Passes g) :
    Closes fun a => (f a).bind g where
  suffix h := by
    obtain ⟨b, hb, hc⟩ := Option.bind_eq_some_iff.1 h
    exact (hg.suffix hc).trans (hf.suffix hb)
  more {a c} ha h _ text := by
    obtain ⟨b, hb, hc⟩ := Option.bind_eq_some_iff.1 h
    rw [hf.more ha hb trivial text, Option.bind_some, hg.more, hc]
    rfl

/-- What was found may decide how to go on. -/
theorem Stops.uncurry {δ : Type} {ends : γ → Prop} {g : δ → List Char → Option γ}
    (h : ∀ found, Stops ends (g found)) :
    Stops ends fun found : δ × List Char => g found.1 found.2 where
  suffix {a _} hb := (h a.1).suffix hb
  more {a _} ha hb := (h a.1).more ha hb

theorem Stops.ite {ends : β → Prop} {g : α → Option β} {c : α → Prop} [DecidablePred c]
    (hf : Stops ends f) (hg : Stops ends g)
    (hc : ∀ a text, EndsTag (rest a) → (c (Leaves.more a text) ↔ c a)) :
    Stops ends fun a => if c a then f a else g a where
  suffix h := by
    split_ifs at h
    · exact hf.suffix h
    · exact hg.suffix h
  more {a b} ha h hends text := by
    rw [if_congr (hc a text ha) rfl rfl]
    split_ifs at h ⊢
    · exact hf.more ha h hends text
    · exact hg.more ha h hends text

theorem Stops.fails {ends : β → Prop} : Stops ends fun _ : α => (none : Option β) where
  suffix h := by cases h
  more _ h := by cases h

/-- Nothing more is taken. -/
theorem Passes.leaves {g : α → β} (hrest : ∀ a, rest (g a) = rest a)
    (hmore : ∀ a text, g (Leaves.more a text) = Leaves.more (g a) text) :
    Passes fun a => some (g a) where
  suffix {a _} h := by
    obtain rfl := Option.some.inj h
    exact ⟨[], hrest a⟩
  more a text := congrArg _ (hmore a text)

end

section
variable {chars left : List Char}

theorem expect?_append {expected : List Char} (h : Text.expect? expected chars = some left)
    (text : List Char) : Text.expect? expected (chars ++ text) = some (left ++ text) := by
  rw [Text.expect?_eq_some_iff] at h ⊢
  rw [h, List.append_assoc]

/-- A beginning that is not there does not come up with more text behind, unless it holds the sign
that ends tags before its own end. -/
theorem expect?_append_eq_none {expected : List Char} (hexpected : '>' ∉ expected.dropLast)
    (hchars : EndsTag chars) (h : Text.expect? expected chars = none) (text : List Char) :
    Text.expect? expected (chars ++ text) = none := by
  rw [Text.expect?_eq_none_iff] at h ⊢
  intro hfront
  rcases List.prefix_or_prefix_of_prefix hfront (List.prefix_append chars text) with hp | hp
  · exact h hp
  · obtain ⟨others, rfl⟩ := hp
    refine hexpected ?_
    have hne : others ≠ [] := by
      rintro rfl
      exact h (by simp)
    rw [List.dropLast_append_of_ne_nil hne]
    exact List.mem_append_left _ (List.mem_of_getLast? hchars)

theorem isSome_expect?_append {expected : List Char} (hexpected : '>' ∉ expected.dropLast)
    (hchars : EndsTag chars) (text : List Char) :
    (Text.expect? expected (chars ++ text)).isSome = (Text.expect? expected chars).isSome := by
  cases h : Text.expect? expected chars with
  | none => rw [expect?_append_eq_none hexpected hchars h]
  | some left => rw [expect?_append h]; rfl

theorem startsWith_append {expected : String} (hexpected : '>' ∉ expected.toList.dropLast)
    (hchars : EndsTag chars) (text : List Char) :
    Text.startsWith expected (chars ++ text) = Text.startsWith expected chars :=
  isSome_expect?_append hexpected hchars text

theorem closes_need? (expected : String) : Closes (need? expected) where
  suffix h := ⟨_, (Text.expect?_eq_some_iff.1 h).symm⟩
  more _ h _ text := expect?_append h text

theorem stops_need? (expected : String) : Stops GoesOn (need? expected) :=
  (closes_need? expected).stops

theorem stops_dropWhile (passes : Char → Bool) :
    Stops GoesOn fun chars : List Char => some (chars.dropWhile passes) where
  suffix h := by
    obtain rfl := Option.some.inj h
    exact List.dropWhile_suffix _
  more {a _} _ h hne text := by
    obtain rfl := Option.some.inj h
    have happend : (a ++ text).dropWhile passes = a.dropWhile passes ++ text := by
      have hleft : a.dropWhile passes ≠ [] := hne
      rw [List.dropWhile_append, if_neg (by rwa [List.isEmpty_iff])]
    exact congrArg some happend

theorem stops_skipSpace : Stops GoesOn fun chars => some (skipSpace chars) :=
  stops_dropWhile isSpace

theorem stops_tail : Stops GoesOn fun chars : List Char => some chars.tail where
  suffix h := by
    obtain rfl := Option.some.inj h
    exact List.tail_suffix _
  more {a _} ha h _ text := by
    cases a with
    | nil => cases ha
    | cons c others =>
      obtain rfl := Option.some.inj h
      rfl

theorem stops_quote? : Stops GoesOn quote? where
  suffix h := by
    unfold quote? at h
    split at h
    · obtain rfl := Option.some.inj h
      exact List.suffix_cons _ _
    · obtain rfl := Option.some.inj h
      exact List.suffix_cons _ _
    · cases h
  more _ h _ text := by
    unfold quote? at h
    split at h
    · obtain rfl := Option.some.inj h
      rfl
    · obtain rfl := Option.some.inj h
      rfl
    · cases h

theorem stops_equals? : Stops GoesOn equals? :=
  ((stops_skipSpace.comp (stops_need? "=")).comp stops_skipSpace).congr fun _ =>
    Option.map_eq_bind ..

theorem stops_needSpace? : Stops GoesOn needSpace? where
  suffix {a _} h := by
    cases a with
    | nil => cases h
    | cons c others =>
      rw [needSpace?] at h
      split_ifs at h
      exact (stops_skipSpace.suffix h).trans (List.suffix_cons c others)
  more {a _} _ h hne text := by
    cases a with
    | nil => cases h
    | cons c others =>
      rw [needSpace?] at h
      split_ifs at h with hc
      obtain rfl := Option.some.inj h
      show needSpace? (c :: (others ++ text)) = _
      have hleft : others.dropWhile isSpace ≠ [] := hne
      rw [needSpace?, if_pos hc, skipSpace, List.dropWhile_append,
        if_neg (by rwa [List.isEmpty_iff])]
      rfl

/-- A closing text that is found in front of the end is found at the same place with more text
behind. -/
theorem upTo?_append {close : String} (hclose : '>' ∉ close.toList.dropLast)
    (hne : close.toList ≠ []) {chars found left : List Char} (hchars : EndsTag chars)
    (h : upTo? close chars = some (found, left)) (text : List Char) :
    upTo? close (chars ++ text) = some (found, left ++ text) := by
  have hnil : need? close [] = none := by
    rw [need?, Text.expect?_eq_none_iff, List.prefix_nil]
    exact hne
  induction chars generalizing found with
  | nil => exact absurd rfl hchars.ne_nil
  | cons c others ih =>
    rw [List.cons_append, upTo?]
    rw [upTo?] at h
    cases hneed : need? close (c :: others) with
    | some rest =>
      rw [hneed] at h
      obtain ⟨rfl, rfl⟩ := Prod.mk.inj (Option.some.inj h)
      have hmore := expect?_append hneed text
      rw [List.cons_append] at hmore
      rw [need?, hmore]
    | none =>
      rw [hneed] at h
      dsimp only at h
      split_ifs at h with hc
      obtain ⟨⟨inner, rest⟩, hinner, heq⟩ := Option.map_eq_some_iff.1 h
      obtain ⟨rfl, rfl⟩ := Prod.mk.inj heq
      have hothers : EndsTag others := by
        refine hchars.of_suffix (List.suffix_cons c others) ?_
        rintro rfl
        rw [upTo?, hnil] at hinner
        cases hinner
      have hmore := expect?_append_eq_none hclose hchars hneed text
      rw [List.cons_append] at hmore
      rw [need?, hmore]
      dsimp only
      rw [if_pos hc, ih hothers hinner]
      rfl

theorem suffix_of_upTo? {close : String} {chars found left : List Char}
    (h : upTo? close chars = some (found, left)) : left <:+ chars := by
  induction chars generalizing found with
  | nil =>
    obtain ⟨rest, hrest, heq⟩ := Option.map_eq_some_iff.1 h
    obtain ⟨-, rfl⟩ := Prod.mk.inj heq
    exact (stops_need? close).suffix hrest
  | cons c others ih =>
    rw [upTo?] at h
    split at h
    · next rest hrest =>
      obtain ⟨-, rfl⟩ := Prod.mk.inj (Option.some.inj h)
      exact (stops_need? close).suffix hrest
    · split_ifs at h
      obtain ⟨⟨inner, rest⟩, hinner, heq⟩ := Option.map_eq_some_iff.1 h
      obtain ⟨-, rfl⟩ := Prod.mk.inj heq
      exact (ih hinner).trans (List.suffix_cons c others)

theorem closes_upTo? {close : String} (hclose : '>' ∉ close.toList.dropLast)
    (hne : close.toList ≠ []) : Closes (upTo? close) where
  suffix h := suffix_of_upTo? h
  more ha h _ text := upTo?_append hclose hne ha h text

theorem stops_runOf? (passes : Char → Bool) : Stops GoesOn (runOf? passes) where
  suffix {a b} h := by
    induction a generalizing b with
    | nil =>
      obtain rfl := Option.some.inj h
      exact List.suffix_refl _
    | cons c others ih =>
      rw [runOf?] at h
      split_ifs at h
      · obtain ⟨inner, hinner, rfl⟩ := Option.map_eq_some_iff.1 h
        exact (ih hinner).trans (List.suffix_cons c others)
      · obtain rfl := Option.some.inj h
        exact List.suffix_refl _
  more {a b} ha h hne text := by
    clear ha
    induction a generalizing b with
    | nil =>
      obtain rfl := Option.some.inj h
      exact absurd rfl hne
    | cons c others ih =>
      show runOf? passes (c :: (others ++ text)) = _
      rw [runOf?] at h ⊢
      split_ifs at h ⊢ with hchar hpasses
      · obtain ⟨inner, hinner, rfl⟩ := Option.map_eq_some_iff.1 h
        have hmore : runOf? passes (others ++ text) = _ := ih hinner hne
        rw [hmore]
        rfl
      · obtain rfl := Option.some.inj h
        rfl

theorem takeWhile_append {passes : Char → Bool} {chars : List Char}
    (h : chars.dropWhile passes ≠ []) (text : List Char) :
    (chars ++ text).takeWhile passes = chars.takeWhile passes := by
  rw [List.takeWhile_append, if_neg]
  intro hlength
  refine h (List.eq_nil_of_length_eq_zero ?_)
  have hall := congrArg List.length (List.takeWhile_append_dropWhile (p := passes) (l := chars))
  rw [List.length_append] at hall
  omega

theorem dropWhile_append {passes : Char → Bool} {chars : List Char}
    (h : chars.dropWhile passes ≠ []) (text : List Char) :
    (chars ++ text).dropWhile passes = chars.dropWhile passes ++ text := by
  rw [List.dropWhile_append, if_neg (by rwa [List.isEmpty_iff])]

theorem EndsTag.dropWhile_isSpace_ne_nil {chars : List Char} (h : EndsTag chars) :
    chars.dropWhile isSpace ≠ [] := fun hnil => by
  have hspace := List.dropWhile_eq_nil_iff.1 hnil '>' (List.mem_of_getLast? h)
  cases hspace

theorem EndsTag.skipSpace {chars : List Char} (h : EndsTag chars) : EndsTag (skipSpace chars) :=
  h.of_suffix (List.dropWhile_suffix _) h.dropWhile_isSpace_ne_nil

/-- The white space at the front of a text does not reach the end of its last tag. -/
theorem EndsTag.skipSpace_append {chars : List Char} (h : EndsTag chars) (text : List Char) :
    Token.skipSpace (chars ++ text) = Token.skipSpace chars ++ text :=
  dropWhile_append h.dropWhile_isSpace_ne_nil text

theorem stops_anyName? : Stops GoesOn anyName? where
  suffix {a _} h := by
    cases a with
    | nil => cases h
    | cons c others =>
      rw [anyName?] at h
      split_ifs at h
      obtain rfl := Option.some.inj h
      exact (List.dropWhile_suffix _).trans (List.suffix_cons c others)
  more {a _} _ h hne text := by
    cases a with
    | nil => cases h
    | cons c others =>
      show anyName? (c :: (others ++ text)) = _
      rw [anyName?] at h ⊢
      split_ifs at h ⊢
      obtain rfl := Option.some.inj h
      rw [takeWhile_append hne, dropWhile_append hne]
      rfl

theorem stops_read? : Stops GoesOn Name.read? where
  suffix {a _} h := by
    unfold Name.read? at h
    dsimp only at h
    split_ifs at h
    obtain rfl := Option.some.inj h
    exact List.dropWhile_suffix _
  more {a _} _ h hne text := by
    show Name.read? (a ++ text) = _
    have hleft : a.dropWhile isNameChar ≠ [] := by
      unfold Name.read? at h
      dsimp only at h
      split_ifs at h
      obtain rfl := Option.some.inj h
      exact hne
    unfold Name.read? at h ⊢
    rw [takeWhile_append hleft, dropWhile_append hleft]
    dsimp only at h ⊢
    split_ifs at h ⊢
    obtain rfl := Option.some.inj h
    rfl

theorem stops_literal? : Stops GoesOn literal? :=
  stops_quote?.comp (Stops.uncurry fun q =>
    (stops_dropWhile (· ≠ q)).comp (stops_need? (String.singleton q)))

/-- What stands between quotes decides whether it is taken. -/
theorem stops_value? (q : Char) (valid : List Char → Bool) : Stops GoesOn fun chars : List Char =>
    (need? (String.singleton q) (chars.dropWhile (· ≠ q))).bind fun left =>
      if valid (chars.takeWhile (· ≠ q)) then some left else none where
  suffix h := by
    obtain ⟨left, hleft, h⟩ := Option.bind_eq_some_iff.1 h
    split_ifs at h
    obtain rfl := Option.some.inj h
    exact ((stops_need? _).suffix hleft).trans (List.dropWhile_suffix _)
  more {a b} _ h _ text := by
    obtain ⟨left, hleft, h⟩ := Option.bind_eq_some_iff.1 h
    have hne : a.dropWhile (· ≠ q) ≠ [] := fun hnil => by
      rw [hnil, need?, String.toList_singleton] at hleft
      cases hleft
    have hmore : need? (String.singleton q) (a.dropWhile (· ≠ q) ++ text) = some (left ++ text) :=
      expect?_append hleft text
    show (need? _ ((a ++ text).dropWhile _)).bind (fun left =>
      if valid ((a ++ text).takeWhile _) then some left else none) = _
    rw [dropWhile_append hne, takeWhile_append hne, hmore, Option.bind_some]
    split_ifs at h ⊢
    obtain rfl := Option.some.inj h
    rfl

/-- What was found decides whether it is taken. -/
theorem passes_check {α β : Type} [Leaves β] (wrong : α → Prop) [DecidablePred wrong]
    {f : α × List Char → Option β} (hf : Passes f) :
    Passes fun found => if wrong found.1 then none else f found where
  suffix h := by
    split_ifs at h
    exact hf.suffix h
  more a text := by
    show (if wrong a.1 then none else f (Leaves.more a text)) = _
    rw [hf.more]
    split_ifs <;> rfl

theorem passes_second {α : Type} : Passes fun found : α × List Char => some found.2 where
  suffix h := by
    obtain rfl := Option.some.inj h
    exact List.suffix_refl _
  more _ _ := rfl

/-- Behind nothing there is no end to look for. -/
theorem eq_none_of_rest_eq_nil {α : Type} {f : List Char → Option α} (h : f [] = none)
    (chars : List Char) (hchars : rest chars = []) : f chars = none := by
  obtain rfl : chars = [] := hchars
  exact h

theorem eq_none_of_rest_eq_nil_found {α β : Type} {f : α × List Char → Option β}
    (h : ∀ found, f (found, []) = none) (found : α × List Char) (hfound : rest found = []) :
    f found = none := by
  obtain ⟨found, chars⟩ := found
  obtain rfl : chars = [] := hfound
  exact h found

/-- A text begins as before, whatever follows the sign at its end. -/
theorem startsWith_more {expected : String} (h : '>' ∉ expected.toList.dropLast)
    (chars text : List Char) (hchars : EndsTag (rest chars)) :
    Text.startsWith expected (Leaves.more chars text) = true ↔
      Text.startsWith expected chars = true := by
  have hsame : Text.startsWith expected (chars ++ text) = Text.startsWith expected chars :=
    startsWith_append h hchars text
  exact hsame ▸ .rfl

theorem startsWith_skipSpace_more {expected : String} (h : '>' ∉ expected.toList.dropLast)
    (chars text : List Char) (hchars : EndsTag (rest chars)) :
    Text.startsWith expected (skipSpace (Leaves.more chars text)) = true ↔
      Text.startsWith expected (skipSpace chars) = true := by
  have hsame := startsWith_append h hchars.skipSpace text
  have hskip := hchars.skipSpace_append text
  rw [← hskip] at hsame
  exact hsame ▸ .rfl

/-- An expected text decides how to go on. -/
theorem Stops.expected {β : Type} [Leaves β] {ends : β → Prop} {f g : List Char → Option β}
    (hf : Stops ends f) (hg : Stops ends g) (expected : String)
    (hexpected : '>' ∉ expected.toList.dropLast)
    (hnil : ∀ b c, rest b = [] → f b = some c → ¬ends c) :
    Stops ends fun chars => match need? expected chars with
      | some left => f left
      | none => g chars :=
  ((Stops.ite (c := fun chars => Text.startsWith expected chars = true)
    ((stops_need? expected).bind hf hnil) hg (startsWith_more hexpected))).congr fun chars => by
      unfold Text.startsWith need?
      cases Text.expect? expected.toList chars <;> rfl

theorem head?_more {chars : List Char} (hchars : EndsTag (rest chars)) (text : List Char) :
    (Leaves.more chars text).head? = chars.head? := by
  cases chars with
  | nil => cases hchars
  | cons c others => rfl

/-- A part that may be missing is passed over. -/
theorem Stops.passOver {β : Type} [Leaves β] {part : List Char → Option (Option (List Char))}
    {f : List Char → Option β} (h : Stops GoesOn fun chars => (part chars).bind fun
      | some left => f left
      | none => f chars) :
    Stops GoesOn fun chars => (part chars).bind fun found => f (found.getD chars) :=
  h.congr fun _ => congrArg _ (funext fun found => by cases found <;> rfl)

end
end ServiceBindings.Xml.Token
