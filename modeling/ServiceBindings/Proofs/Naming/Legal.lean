import Mathlib.Data.Bool.AllAny
import ServiceBindings.Proofs.Naming.Answers
import ServiceBindings.Proofs.Naming.Words

/-! Names that generated source may declare. Whatever names are asked for, and in which order, the
answers are legal as long as the asked names hold a letter or digit of ASCII. -/
namespace ServiceBindings.Naming

/-- The words that the language of generated source keeps for itself: those in use, in small letters
and one with a capital, and those that it keeps for later. -/
def languageWords : List String :=
  ["as", "async", "await", "break", "const", "continue", "crate", "dyn", "else", "enum", "extern",
    "false", "fn", "for", "if", "impl", "in", "let", "loop", "match", "mod", "move", "mut", "pub",
    "ref", "return", "self", "static", "struct", "super", "trait", "true", "type", "unsafe", "use",
    "where", "while"] ++
  ["Self"] ++
  ["abstract", "become", "box", "do", "final", "macro", "override", "priv", "try", "typeof",
    "unsized", "virtual", "yield"]

/-- Letters, digits and underscores of ASCII. There is a first one, which is no digit, and an
underscore does not stand alone. -/
structure IsWord (word : String) : Prop where
  chars : ∀ c ∈ word.toList, c.isAlphanum = true ∨ c = '_'
  first : ∃ c ∈ word.toList.head?, c.isDigit = false
  ne_underscore : word ≠ "_"

/-- A name that source text may declare: a word that the language does not keep for itself, or any
but four of the words behind a raw mark. -/
def IsLegal (name : String) : Prop :=
  (IsWord name ∧ name ∉ languageWords) ∨
    ∃ word, name = "r#" ++ word ∧ IsWord word ∧ word ∉ ["crate", "self", "super", "Self"]

/-- A name has a letter or digit of ASCII, whatever else it is made of. -/
def HasAlphanum (name : String) : Prop :=
  ∃ c ∈ name.toList, c.isAlphanum = true

section Words

theorem IsWord.append {word suffix : String} (h : IsWord word)
    (hsuffix : ∀ c ∈ suffix.toList, c.isAlphanum = true ∨ c = '_') (hne : word ++ suffix ≠ "_") :
    IsWord (word ++ suffix) := by
  refine ⟨fun c hc => ?_, ?_, hne⟩
  · rw [String.toList_append, List.mem_append] at hc
    exact hc.elim (h.chars c) (hsuffix c)
  · obtain ⟨c, hc, hdigit⟩ := h.first
    obtain ⟨rest, hrest⟩ := List.head?_eq_some_iff.1 hc
    refine ⟨c, ?_, hdigit⟩
    rw [String.toList_append, hrest]
    rfl

theorem exists_isDigit_natural (k : Nat) : ∃ c ∈ (Text.natural k).toList, c.isDigit = true := by
  obtain ⟨c, rest, hdigits, hc⟩ := Text.exists_digits_eq_cons k
  refine ⟨c, ?_, hc⟩
  rw [Text.natural, String.toList_ofList, hdigits]
  exact List.mem_cons_self

theorem IsWord.append_natural {word : String} (h : IsWord word) (k : Nat) :
    IsWord (word ++ Text.natural k) := by
  refine h.append (fun c hc => ?_) fun heq => ?_
  · rw [Text.natural, String.toList_ofList] at hc
    simp [Char.isAlphanum, Text.isDigit_of_mem_digits hc]
  · obtain ⟨c, hc, hdigit⟩ := exists_isDigit_natural k
    have hmem : c ∈ (word ++ Text.natural k).toList := by
      rw [String.toList_append]
      exact List.mem_append_right _ hc
    rw [heq] at hmem
    obtain rfl := List.mem_singleton.1 hmem
    cases hdigit

/-- Words without digits are not numbered. -/
theorem append_natural_notMem {words : List String}
    (h : ∀ word ∈ words, word.toList.all (!·.isDigit) = true) (base : String) (k : Nat) :
    base ++ Text.natural k ∉ words := by
  intro hmem
  obtain ⟨c, hc, hdigit⟩ := exists_isDigit_natural k
  have hnone := List.all_eq_true.1 (h _ hmem) c (by
    rw [String.toList_append]
    exact List.mem_append_right _ hc)
  rw [hdigit] at hnone
  cases hnone

/-- A number behind a legal name makes another one. -/
theorem IsLegal.append_natural {name : String} (h : IsLegal name) (k : Nat) :
    IsLegal (name ++ Text.natural k) := by
  rcases h with ⟨hword, -⟩ | ⟨word, rfl, hword, -⟩
  · exact .inl ⟨hword.append_natural k, append_natural_notMem (by decide) _ _⟩
  · exact .inr ⟨word ++ Text.natural k, String.append_assoc, hword.append_natural k,
      append_natural_notMem (by decide) _ _⟩

/-- With a guard before a digit, letters, digits and underscores make a word, unless they are
underscores alone. -/
theorem isWord_guardDigit {chars : List Char}
    (hchars : ∀ c ∈ chars, c.isAlphanum = true ∨ c = '_')
    (hvisible : ∃ c ∈ chars, c.isAlphanum = true) : IsWord (String.ofList (guardDigit chars)) := by
  obtain ⟨c, hc, halpha⟩ := hvisible
  have hmem : c ∈ guardDigit chars := by
    unfold guardDigit
    split_ifs
    · exact List.mem_cons_of_mem _ hc
    · exact hc
  obtain ⟨first, rest, hfirst⟩ := List.exists_cons_of_ne_nil (List.ne_nil_of_mem hmem)
  refine ⟨?_, ⟨first, ?_, ?_⟩, fun heq => ?_⟩
  · rw [String.toList_ofList]
    exact forall_mem_guardDigit (.inr rfl) hchars
  · rw [String.toList_ofList, hfirst]
    rfl
  · exact isDigit_head_guardDigit chars first (by rw [hfirst]; rfl)
  · have hunderscore : guardDigit chars = ['_'] := String.ofList_injective heq
    rw [hunderscore, List.mem_singleton] at hmem
    subst hmem
    cases halpha

end Words

section Types

/-- The first word begins with a capital or a digit. -/
theorem exists_head?_pascalChars {chars : List Char} (h : ∃ c ∈ chars, c.isAlphanum = true) :
    ∃ c ∈ (pascalChars true chars).head?, c.isUpper = true ∨ c.isDigit = true := by
  induction chars with
  | nil =>
    obtain ⟨c, hc, -⟩ := h
    cases hc
  | cons d rest ih =>
    by_cases halpha : d.isAlphanum = true
    · rw [pascalChars, if_pos halpha, if_pos rfl]
      exact ⟨d.toUpper, rfl, isUpper_or_isDigit_toUpper halpha⟩
    · rw [pascalChars, if_neg halpha]
      exact ih ((List.or_exists_of_exists_mem_cons h).resolve_left halpha)

theorem isWord_pascalCase {name : String} (h : HasAlphanum name) : IsWord (pascalCase name) := by
  obtain ⟨c, hc, -⟩ := exists_head?_pascalChars h
  have hmem : c ∈ pascalChars true name.toList := List.mem_of_mem_head? hc
  exact isWord_guardDigit (fun _ hd => .inl (isAlphanum_of_mem_pascalChars hd))
    ⟨c, hmem, isAlphanum_of_mem_pascalChars hmem⟩

theorem isLower_head_pascalCase {name : String} (h : HasAlphanum name) :
    ∀ c ∈ (pascalCase name).toList.head?, c.isLower = false := by
  obtain ⟨first, hfirst, hcapital⟩ := exists_head?_pascalChars h
  have hlower : first.isLower = false := by
    rcases hcapital with hupper | hdigit
    · exact isLower_of_isUpper hupper
    · exact isLower_of_isDigit hdigit
  intro c hc
  rw [pascalCase, String.toList_ofList, guardDigit] at hc
  split_ifs at hc
  · obtain rfl := Option.some.inj hc
    rfl
  · obtain rfl := Option.some.inj (hfirst.symm.trans hc)
    exact hlower

/-- One word of the language alone begins with a capital, and it is reserved. -/
theorem pascalCase_notMem {name : String} (h : HasAlphanum name)
    (hreserved : pascalCase name ∉ reservedTypes) : pascalCase name ∉ languageWords := by
  have hsmall : ∀ word ∈ languageWords,
      word ∈ reservedTypes ∨ word.toList.head?.any Char.isLower = true := by
    decide
  intro hmem
  rcases hsmall _ hmem with hword | hlower
  · exact hreserved hword
  · obtain ⟨c, hc, hlower⟩ := (Option.any_eq_true _ _).1 hlower
    rw [isLower_head_pascalCase h c hc] at hlower
    cases hlower

theorem isLegal_typeName {name : String} (h : HasAlphanum name) : IsLegal (typeName name) := by
  have hword := isWord_pascalCase h
  unfold typeName
  dsimp only
  split_ifs with hreserved
  · have hlead : IsWord "Aws" :=
      ⟨List.all_iff_forall_prop.1 (by decide), ⟨'A', rfl, rfl⟩, by decide⟩
    have hnew : ∀ word ∈ reservedTypes, "Aws" ++ word ≠ "_" ∧ "Aws" ++ word ∉ languageWords := by
      decide
    obtain ⟨hne, hfree⟩ := hnew _ hreserved
    exact .inl ⟨hlead.append hword.chars hne, hfree⟩
  · exact .inl ⟨hword, pascalCase_notMem h hreserved⟩

/-- No type is called like one that every module sees. -/
theorem typeName_notMem (name : String) : typeName name ∉ reservedTypes := by
  have hnew : ∀ word ∈ reservedTypes, "Aws" ++ word ∉ reservedTypes := by decide
  unfold typeName
  dsimp only
  split_ifs with hreserved
  · exact hnew _ hreserved
  · exact hreserved

end Types

section Members

theorem words_cons_of_not_isAlphanum {c : Char} (h : ¬c.isAlphanum = true) (rest : List Char) :
    words (c :: rest) = words rest := by
  cases rest <;> simp [words, h]

theorem words_ne_nil_of_mem {chars : List Char} (h : ∃ c ∈ chars, c.isAlphanum = true) :
    words chars ≠ [] := by
  induction chars with
  | nil =>
    obtain ⟨c, hc, -⟩ := h
    cases hc
  | cons d rest ih =>
    by_cases halpha : d.isAlphanum = true
    · exact words_ne_nil halpha rest
    · rw [words_cons_of_not_isAlphanum halpha]
      exact ih ((List.or_exists_of_exists_mem_cons h).resolve_left halpha)

theorem isWord_snakeCase {name : String} (h : HasAlphanum name) : IsWord (snakeCase name) := by
  rw [← String.ofList_toList (s := snakeCase name), toList_snakeCase]
  obtain ⟨word, others, hwords⟩ := List.exists_cons_of_ne_nil (words_ne_nil_of_mem h)
  obtain ⟨hne, hchars⟩ := isAlphanum_of_mem_words (hwords ▸ List.mem_cons_self)
  obtain ⟨c, rest, rfl⟩ := List.exists_cons_of_ne_nil hne
  have hhead := head_of_intercalate others hne
  rw [← hwords] at hhead
  exact isWord_guardDigit (fun _ => isAlphanum_of_mem_joined)
    ⟨c, List.mem_of_mem_head? hhead, hchars c List.mem_cons_self⟩

theorem isLegal_memberName {name : String} (h : HasAlphanum name) : IsLegal (memberName name) := by
  have hword := isWord_snakeCase h
  have hall : ∀ word ∈ languageWords, word ∈ pathKeywords ∨ word ∈ keywords := by decide
  unfold memberName
  dsimp only
  split_ifs with hpath hkeyword
  · have hnew : ∀ word ∈ pathKeywords, word ++ "_" ≠ "_" ∧ word ++ "_" ∉ languageWords := by
      decide
    obtain ⟨hne, hfree⟩ := hnew _ hpath
    exact .inl ⟨hword.append (List.all_iff_forall_prop.1 (by decide)) hne, hfree⟩
  · exact .inr ⟨snakeCase name, rfl, hword, hpath⟩
  · exact .inl ⟨hword, fun hmem => (hall _ hmem).elim hpath hkeyword⟩

end Members

section Answers

def Owner.name : Owner → String
  | shape name => name
  | operation name => name

/-- The name with which the search for an owner's name begins. -/
def Owner.base : Owner → String
  | shape name => typeName name
  | operation name => memberName name

theorem Query.base_eq (query : Query) : query.base = query.owner.base := by
  cases query <;> rfl

/-- An owner has one of the candidates for its name. -/
def IsCandidate (owner : Owner) (ident : Identifier) : Prop :=
  ∃ k, ident.name = candidate owner.base k

namespace Names

/-- An answer adds the name that is given to the names that are there, or nothing. -/
theorem mem_given_answer {names : Names} {query : Query} {entry : Owner × Identifier}
    (h : entry ∈ (names.answer query).2.given) :
    entry = (query.owner, (names.answer query).1) ∨ entry ∈ names.given := by
  cases query with
  | shape s =>
    rcases names.shape_cases s with ⟨-, hsame⟩ | ⟨-, -, hnames⟩
    · exact .inr (hsame ▸ h)
    · have hgiven : (names.shape s).2.given.Perm
          ((.shape s.name, (names.shape s).1) :: names.given) :=
        perm_given_of_shapes (by rw [hnames]) (by rw [hnames]; rfl)
      exact List.mem_cons.1 (hgiven.mem_iff.1 h)
  | operation name =>
    rcases names.operation_cases name with ⟨-, hsame⟩ | ⟨-, -, hnames⟩
    · exact .inr (hsame ▸ h)
    · have hgiven : (names.operation name).2.given.Perm
          ((.operation name, (names.operation name).1) :: names.given) :=
        perm_given_of_operations (by rw [hnames]; rfl) (by rw [hnames])
      exact List.mem_cons.1 (hgiven.mem_iff.1 h)

theorem isCandidate_answer {names : Names}
    (h : ∀ entry ∈ names.given, IsCandidate entry.1 entry.2) (query : Query) :
    IsCandidate query.owner (names.answer query).1 := by
  rcases names.answer_cases query with hknown | ⟨k, -, -, hname⟩
  · exact h _ (mem_given_of_known? hknown)
  · exact ⟨k, by rw [hname, query.base_eq]⟩

/-- If all names given so far are candidates for their owners, so are those that are given next. -/
theorem isCandidate_answers {names : Names}
    (h : ∀ entry ∈ names.given, IsCandidate entry.1 entry.2) (queries : List Query) :
    ∀ a ∈ (names.answers queries).1, IsCandidate a.1.owner a.2 := by
  induction queries generalizing names with
  | nil => simp [answers]
  | cons query rest ih =>
    have hfirst := isCandidate_answer h query
    rw [answers_cons]
    refine List.forall_mem_cons.2 ⟨hfirst, ih fun entry hmem => ?_⟩
    rcases mem_given_answer hmem with rfl | hmem
    · exact hfirst
    · exact h entry hmem

end Names

theorem isLegal_candidate {owner : Owner} (h : HasAlphanum owner.name) (k : Nat) :
    IsLegal (candidate owner.base k) := by
  have hbase : IsLegal owner.base := by
    cases owner with
    | shape name => exact isLegal_typeName h
    | operation name => exact isLegal_memberName h
  cases k with
  | zero => exact hbase
  | succ k => exact hbase.append_natural (k + 2)

theorem candidate_typeName_notMem (name : String) (k : Nat) :
    candidate (typeName name) k ∉ reservedTypes := by
  cases k with
  | zero => exact typeName_notMem name
  | succ k => exact append_natural_notMem (by decide) _ _

end Answers

namespace Names

/-- Whatever names are asked for, in any order, each answer is a candidate for what was asked: those
for names with a letter or digit are legal, and none for a shape is the name of a type that every
module sees. The fields of members with such names are legal too. -/
theorem legal_after_any_queries (model : ServiceModel) (queries : List Query) :
    let answers := ((ofModel model).answers queries).1
    answers.map Prod.fst = queries ∧
    (∀ a ∈ answers, ∃ k, a.2.name = candidate a.1.base k) ∧
    (∀ a ∈ answers, HasAlphanum a.1.owner.name → IsLegal a.2.name) ∧
    (∀ a ∈ answers, ∀ s, a.1 = .shape s → a.2.name ∉ reservedTypes) ∧
    ∀ member, HasAlphanum member → IsLegal (memberName member) := by
  have hnone : ∀ entry ∈ (ofModel model).given, IsCandidate entry.1 entry.2 := by
    intro entry hmem
    simp [given, ofModel] at hmem
  have hcandidates := isCandidate_answers hnone queries
  refine ⟨map_fst_answers _ queries, fun a ha => ?_, fun a ha hname => ?_, fun a ha s hshape => ?_,
    fun _ => isLegal_memberName⟩
  · rw [a.1.base_eq]
    exact hcandidates a ha
  · obtain ⟨k, hk⟩ := hcandidates a ha
    rw [hk]
    exact isLegal_candidate hname k
  · obtain ⟨k, hk⟩ := hcandidates a ha
    rw [hk, hshape]
    exact candidate_typeName_notMem s.name k

/-- A model whose names are words of the language, or become such words, or begin with a digit. -/
def awkwardModel : ServiceModel where
  service := ⟨"Service", "1", .json, none, none, none⟩
  shapes := ["self", "Self!", "self?", "§vec", "1st Größe"].map fun name =>
    (name, ServiceModel.emptyStructure name)
  operations := ["type", "Type", "crate", "2nd"].map fun name =>
    (name, ⟨name, "self", some "§vec", "POST", "/", none, none⟩)

def awkwardQueries : List Query :=
  awkwardModel.shapes.map (fun entry => .shape entry.2) ++
    awkwardModel.operations.map fun entry => .operation entry.1

theorem legal_of_awkward_names :
    let answers := ((ofModel awkwardModel).answers awkwardQueries).1
    answers.map (·.2.text) = ["input::AwsSelf", "types::AwsSelf", "types::AwsSelf2",
      "output::AwsVec", "types::_1stGrE", "client::r#type", "client::r#type2", "client::crate_",
      "client::_2nd"] ∧
    (∀ a ∈ answers, IsLegal a.2.name) ∧ IsLegal (memberName "Self") := by
  obtain ⟨hqueries, -, hlegal, -, hmembers⟩ := legal_after_any_queries awkwardModel awkwardQueries
  have hnames : ∀ query ∈ awkwardQueries, query.owner.name.toList.any Char.isAlphanum = true := by
    decide
  refine ⟨by decide +kernel, fun a ha => hlegal a ha ?_, hmembers "Self" ⟨'S', by decide, rfl⟩⟩
  have hmem : a.1 ∈ awkwardQueries := hqueries ▸ List.mem_map_of_mem ha
  exact List.any_eq_true.1 (hnames a.1 hmem)

end Names
end ServiceBindings.Naming
