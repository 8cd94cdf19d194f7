import Mathlib.Tactic.Common
import ServiceBindings.Xml.Name

/-! Names of XML, alone or behind the short name of a namespace. -/
namespace ServiceBindings.Xml

/-- A name without a colon. -/
structure IsPart (part : List Char) : Prop where
  start : ∃ c rest, part = c :: rest ∧ isNameStart c = true
  chars : ∀ c ∈ part, isNameChar c = true ∧ c ≠ ':'

/-- A name with at most one prefix: it has no colon, or one between two names without any. -/
def IsName (s : String) : Prop :=
  IsPart s.toList ∨ ∃ space base, s.toList = space ++ ':' :: base ∧ IsPart space ∧ IsPart base

/-- The name of an attribute that declares a namespace, be it the default one. -/
def declares (s : String) : Bool :=
  s.toList.takeWhile (· ≠ ':') = "xmlns".toList

def Name.ofText (s : String) : Name :=
  ((Name.read? s.toList).map Prod.fst).getD ⟨"", s⟩

/-- A text does not go on with a character of a name. -/
def EndsName (rest : List Char) : Prop :=
  rest.head?.all (fun c => !isNameChar c) = true

theorem isPart_iff {part : List Char} : IsPart part ↔
    part.head?.any isNameStart = true ∧ part.all (fun c => isNameChar c && c ≠ ':') = true := by
  have hchars : part.all (fun c => isNameChar c && c ≠ ':') = true ↔
      ∀ c ∈ part, isNameChar c = true ∧ c ≠ ':' := by simp
  rw [hchars]
  constructor
  · rintro ⟨⟨c, rest, rfl, hc⟩, hall⟩
    exact ⟨by simpa using hc, hall⟩
  · rintro ⟨hstart, hall⟩
    cases part with
    | nil => cases hstart
    | cons c rest => exact ⟨⟨c, rest, rfl, by simpa using hstart⟩, hall⟩

instance : DecidablePred IsPart := fun _ => decidable_of_iff _ isPart_iff.symm

theorem IsPart.ne_nil {part : List Char} (h : IsPart part) : part ≠ [] := by
  obtain ⟨c, rest, rfl, -⟩ := h.start
  exact List.cons_ne_nil c rest

theorem IsPart.starts {part : List Char} (h : IsPart part) :
    part.head?.all isNameStart = true := by
  obtain ⟨c, rest, rfl, hc⟩ := h.start
  simpa using hc

theorem IsPart.notMem {part : List Char} (h : IsPart part) : ':' ∉ part := fun hmem =>
  (h.chars ':' hmem).2 rfl

theorem IsPart.takeWhile {part : List Char} (h : IsPart part) (rest : List Char) :
    (part ++ rest).takeWhile (· ≠ ':') = part ++ rest.takeWhile (· ≠ ':') :=
  List.takeWhile_append_of_pos fun c hc => by simpa using (h.chars c hc).2

theorem IsPart.dropWhile {part : List Char} (h : IsPart part) (rest : List Char) :
    (part ++ rest).dropWhile (· ≠ ':') = rest.dropWhile (· ≠ ':') :=
  List.dropWhile_append_of_pos fun c hc => by simpa using (h.chars c hc).2

theorem isName_iff {s : String} : IsName s ↔ IsPart s.toList ∨
    (s.toList.dropWhile (· ≠ ':')).head? = some ':' ∧ IsPart (s.toList.takeWhile (· ≠ ':')) ∧
      IsPart (s.toList.dropWhile (· ≠ ':')).tail := by
  constructor
  · rintro (hpart | ⟨space, base, hs, hspace, hbase⟩)
    · exact .inl hpart
    · have hcolon : (':' :: base).takeWhile (· ≠ ':') = [] := rfl
      have hcolon' : (':' :: base).dropWhile (· ≠ ':') = ':' :: base := rfl
      rw [hs, hspace.takeWhile, hspace.dropWhile, hcolon, hcolon', List.append_nil]
      exact .inr ⟨rfl, hspace, hbase⟩
  · rintro (hpart | ⟨hhead, hspace, hbase⟩)
    · exact .inl hpart
    · obtain ⟨base, hdrop⟩ := List.head?_eq_some_iff.1 hhead
      have hs := s.toList.takeWhile_append_dropWhile (p := (· ≠ ':'))
      rw [hdrop] at hs hbase
      exact .inr ⟨_, base, hs.symm, hspace, hbase⟩

instance : DecidablePred IsName := fun _ => decidable_of_iff _ isName_iff.symm

theorem takeWhile_isNameChar {chars rest : List Char} (h : ∀ c ∈ chars, isNameChar c = true)
    (hrest : EndsName rest) : (chars ++ rest).takeWhile isNameChar = chars ∧
      (chars ++ rest).dropWhile isNameChar = rest := by
  rw [List.takeWhile_append_of_pos h, List.dropWhile_append_of_pos h]
  cases rest with
  | nil => simp
  | cons c rest =>
    have hc : ¬isNameChar c = true := by simpa [EndsName] using hrest
    rw [List.takeWhile_cons_of_neg hc, List.dropWhile_cons_of_neg hc, List.append_nil]
    exact ⟨rfl, rfl⟩

theorem read?_of_part {part rest : List Char} (h : IsPart part) (hrest : EndsName rest) :
    Name.read? (part ++ rest) = some (⟨"", String.ofList part⟩, rest) := by
  obtain ⟨htake, hdrop⟩ := takeWhile_isNameChar (fun c hc => (h.chars c hc).1) hrest
  have hcolon : part.dropWhile (· ≠ ':') = [] := by simpa using h.dropWhile []
  have hempty : (([] : List Char).head?.all isNameStart) = true := rfl
  unfold Name.read?
  simp only [htake, hdrop, hcolon]
  rw [if_pos ⟨h.notMem, h.ne_nil, hempty, h.starts⟩]

theorem read?_of_parts {space base rest : List Char} (hspace : IsPart space) (hbase : IsPart base)
    (hrest : EndsName rest) :
    Name.read? (space ++ ':' :: base ++ rest) =
      some (⟨String.ofList space, String.ofList base⟩, rest) := by
  have hchars : ∀ c ∈ space ++ ':' :: base, isNameChar c = true := by
    intro c hc
    rcases List.mem_append.1 hc with hc | hc
    · exact (hspace.chars c hc).1
    · rcases List.mem_cons.1 hc with rfl | hc
      · decide
      · exact (hbase.chars c hc).1
  obtain ⟨htake, hdrop⟩ := takeWhile_isNameChar hchars hrest
  have hcolon : (':' :: base).takeWhile (· ≠ ':') = [] := rfl
  have hcolon' : (':' :: base).dropWhile (· ≠ ':') = ':' :: base := rfl
  unfold Name.read?
  simp only [htake, hdrop, hspace.takeWhile, hspace.dropWhile, hcolon, hcolon', List.append_nil]
  rw [if_pos ⟨hbase.notMem, hbase.ne_nil, hspace.starts, hbase.starts⟩]

theorem IsPart.ofList_ne_empty {part : List Char} (h : IsPart part) : String.ofList part ≠ "" := by
  intro heq
  have := congrArg String.toList heq
  rw [String.toList_ofList] at this
  exact h.ne_nil this

/-- A name is read from a text that begins with it and does not go on with characters of names. -/
theorem IsName.read? {s : String} (h : IsName s) {rest : List Char} (hrest : EndsName rest) :
    Name.read? (s.toList ++ rest) = some (Name.ofText s, rest) := by
  have hnil : EndsName [] := rfl
  unfold Name.ofText
  rcases h with hpart | ⟨space, base, hs, hspace, hbase⟩
  · have hwhole := read?_of_part hpart hnil
    rw [List.append_nil] at hwhole
    rw [hwhole, read?_of_part hpart hrest]
    rfl
  · have hwhole := read?_of_parts hspace hbase hnil
    rw [List.append_nil] at hwhole
    rw [hs, hwhole, read?_of_parts hspace hbase hrest]
    rfl

theorem IsName.ofText_cases {s : String} (h : IsName s) :
    (Name.ofText s = ⟨"", s⟩ ∧ IsPart s.toList) ∨
    ∃ space base, s.toList = space ++ ':' :: base ∧ IsPart space ∧ IsPart base ∧
      Name.ofText s = ⟨String.ofList space, String.ofList base⟩ := by
  have hnil : EndsName [] := rfl
  unfold Name.ofText
  rcases h with hpart | ⟨space, base, hs, hspace, hbase⟩
  · have hwhole := read?_of_part hpart hnil
    rw [List.append_nil, String.ofList_toList] at hwhole
    exact .inl ⟨by rw [hwhole]; rfl, hpart⟩
  · have hwhole := read?_of_parts hspace hbase hnil
    rw [List.append_nil] at hwhole
    exact .inr ⟨space, base, hs, hspace, hbase, by rw [hs, hwhole]; rfl⟩

/-- The parts of a name make it up. -/
theorem IsName.text_ofText {s : String} (h : IsName s) : (Name.ofText s).text = s := by
  rcases h.ofText_cases with ⟨hname, -⟩ | ⟨space, base, hs, hspace, -, hname⟩
  · rw [hname, Name.text, if_pos rfl]
  · rw [hname, Name.text, if_neg hspace.ofList_ne_empty]
    refine String.toList_injective ?_
    rw [hs]
    simp

theorem IsName.declaresNamespace {s : String} (h : IsName s) :
    (Name.ofText s).declaresNamespace = declares s := by
  have hstring (chars : List Char) :
      (String.ofList chars = "xmlns") = (chars = "xmlns".toList) := by
    rw [eq_iff_iff]
    exact ⟨fun h => by rw [← h, String.toList_ofList], fun h => by rw [h]; rfl⟩
  rcases h.ofText_cases with ⟨hname, hpart⟩ | ⟨space, base, hs, hspace, -, hname⟩
  · have htake : s.toList.takeWhile (· ≠ ':') = s.toList := by simpa using hpart.takeWhile []
    have hs : (s = "xmlns") = (s.toList = "xmlns".toList) := by
      rw [← hstring, String.ofList_toList]
    rw [hname, Name.declaresNamespace, declares, htake]
    simp [hs]
  · have htake : s.toList.takeWhile (· ≠ ':') = space := by
      rw [hs, hspace.takeWhile]
      exact List.append_nil _
    rw [hname, Name.declaresNamespace, declares, htake]
    simp [hspace.ofList_ne_empty, hstring]

theorem IsName.exists_cons {s : String} (h : IsName s) :
    ∃ c rest, s.toList = c :: rest ∧ isNameStart c = true := by
  rcases h with hpart | ⟨space, base, hs, hspace, -⟩
  · exact hpart.start
  · obtain ⟨c, rest, rfl, hc⟩ := hspace.start
    exact ⟨c, rest ++ ':' :: base, hs, hc⟩

end ServiceBindings.Xml
