import Mathlib.Tactic.Common
import ServiceBindings.Json.Reading
import ServiceBindings.Proofs.Fields
import ServiceBindings.Proofs.Json.Integers
import ServiceBindings.Proofs.Json.Quoted
import ServiceBindings.Proofs.Text.Utf8

/-! Documents without floats are read back from their JSON texts. -/
namespace ServiceBindings

/-- An integer of 64 bits, a signed one if it is negative. -/
def Number.IsInteger : Number → Prop
  | .unsigned n => n < 18446744073709551616
  | .signed i => -Text.int64Bound ≤ i ∧ i < 0
  | .float _ => False

namespace Document

mutual

/-- The numbers of a document are integers of 64 bits, and no object has two members of one name. -/
def IsPlain : Document → Prop
  | .object members => (Fields.names members).Nodup ∧ ArePlainMembers members
  | .array items => ArePlainItems items
  | .number n => n.IsInteger
  | _ => True

def ArePlainItems : List Document → Prop
  | [] => True
  | item :: rest => item.IsPlain ∧ ArePlainItems rest

def ArePlainMembers : List (String × Document) → Prop
  | [] => True
  | (_, value) :: rest => value.IsPlain ∧ ArePlainMembers rest

end

instance (n : Number) : Decidable n.IsInteger :=
  match n with
  | .unsigned n => inferInstanceAs (Decidable (n < _))
  | .signed i => inferInstanceAs (Decidable (-Text.int64Bound ≤ i ∧ i < 0))
  | .float _ => inferInstanceAs (Decidable False)

mutual

def decideIsPlain : (doc : Document) → Decidable doc.IsPlain
  | .object members =>
    @instDecidableAnd _ _ inferInstance (decideArePlainMembers members)
  | .array items => decideArePlainItems items
  | .number n => inferInstanceAs (Decidable n.IsInteger)
  | .string _ | .bool _ | .null => inferInstanceAs (Decidable True)

def decideArePlainItems : (items : List Document) → Decidable (ArePlainItems items)
  | [] => inferInstanceAs (Decidable True)
  | item :: rest => @instDecidableAnd _ _ (decideIsPlain item) (decideArePlainItems rest)

def decideArePlainMembers :
    (members : List (String × Document)) → Decidable (ArePlainMembers members)
  | [] => inferInstanceAs (Decidable True)
  | (_, value) :: rest => @instDecidableAnd _ _ (decideIsPlain value) (decideArePlainMembers rest)

end

instance : DecidablePred IsPlain := decideIsPlain

mutual

def depth : Document → Nat
  | .array items => depthOfItems items + 1
  | .object members => depthOfMembers members + 1
  | _ => 0

def depthOfItems : List Document → Nat
  | [] => 0
  | item :: rest => max item.depth (depthOfItems rest)

def depthOfMembers : List (String × Document) → Nat
  | [] => 0
  | (_, value) :: rest => max value.depth (depthOfMembers rest)

end

end Document

namespace Json

abbrev charsOf (doc : Document) : List Char :=
  (Node.ofDocument doc).chars

theorem skipSpace_cons {c : Char} (h : isSpace c = false) (rest : List Char) :
    skipSpace (c :: rest) = c :: rest := by
  rw [skipSpace, List.dropWhile_cons_of_neg (by simp [h])]

/-- The integer of a number that is no float. -/
def integerOf : Number → Int
  | .unsigned n => n
  | .signed i => i
  | .float _ => 0

mutual

def treeOf : Document → Tree
  | .null => .null
  | .bool b => .bool b
  | .number n => .numeral (.ofInt (integerOf n))
  | .string s => .string (some s)
  | .array items => .array (treesOf items)
  | .object members => .object (memberTreesOf members)

def treesOf : List Document → List Tree
  | [] => []
  | item :: rest => treeOf item :: treesOf rest

def memberTreesOf : List (String × Document) → List (Option String × Tree)
  | [] => []
  | (key, value) :: rest => (some key, treeOf value) :: memberTreesOf rest

end

/-- The number of a plain document is written as the numeral of an integer of 64 bits. -/
theorem integerOf_of_isInteger {n : Number} (h : n.IsInteger) :
    Node.ofNumber n = .bare (Text.integer (integerOf n)) ∧ Number.ofInt (integerOf n) = n ∧
      -Text.int64Bound ≤ integerOf n ∧ integerOf n < 18446744073709551616 := by
  have hbound : Text.int64Bound = 9223372036854775808 := rfl
  cases n with
  | unsigned n =>
    have hn : n < 18446744073709551616 := h
    have hi : integerOf (.unsigned n) = n := rfl
    refine ⟨rfl, ?_, by omega, by omega⟩
    rw [hi, Number.ofInt, if_neg (by omega), Int.toNat_natCast]
  | signed i =>
    obtain ⟨hlow, hneg⟩ : -Text.int64Bound ≤ i ∧ i < 0 := h
    have hi : integerOf (.signed i) = i := rfl
    exact ⟨rfl, by rw [hi, Number.ofInt, if_pos hneg], hlow, by omega⟩
  | float x => exact h.elim

theorem exists_integer_eq_cons (i : Int) :
    ∃ c rest, (Text.integer i).toList = c :: rest ∧ (c = '-' ∨ c.isDigit = true) := by
  rw [Text.integer_toList]
  split_ifs
  · exact ⟨'-', _, rfl, .inl rfl⟩
  · obtain ⟨c, rest, hc, hd⟩ := Text.exists_digits_eq_cons i.natAbs
    exact ⟨c, rest, hc, .inr hd⟩

theorem isSpace_of_lt {c : Char} (h : 32 < c.toNat) : isSpace c = false := by
  have hne : ∀ d : Char, d.toNat ≤ 32 → c ≠ d := by
    rintro d hd rfl
    omega
  simp [isSpace, hne ' ' (by decide), hne '\t' (by decide), hne '\n' (by decide),
    hne '\r' (by decide)]

theorem lt_toNat_of_isDigit {c : Char} (h : c.isDigit = true) : 32 < c.toNat ∧ c.toNat < 128 := by
  have hbounds : '0'.toNat ≤ c.toNat ∧ c.toNat ≤ '9'.toNat := Char.isDigit_iff_toNat.1 h
  have hzero : '0'.toNat = 48 := rfl
  have hnine : '9'.toNat = 57 := rfl
  omega

/-- What begins with a visible character of ASCII that is no closing bracket, as every written value
does. -/
def Opens (chars : List Char) : Prop :=
  ∃ c rest, chars = c :: rest ∧ (32 < c.toNat ∧ c.toNat < 128) ∧ c ≠ ']'

theorem Opens.append {chars : List Char} (h : Opens chars) (others : List Char) :
    Opens (chars ++ others) := by
  obtain ⟨c, rest, rfl, hc⟩ := h
  exact ⟨c, rest ++ others, rfl, hc⟩

theorem opens_charsOf {doc : Document} (h : doc.IsPlain) : Opens (charsOf doc) := by
  unfold charsOf
  cases doc with
  | null => exact ⟨'n', _, rfl, by decide, by decide⟩
  | bool b => cases b <;> exact ⟨_, _, rfl, by decide, by decide⟩
  | string s => exact ⟨'"', _, rfl, by decide, by decide⟩
  | array items => cases items <;> exact ⟨'[', _, rfl, by decide, by decide⟩
  | object members => rcases members with _ | ⟨⟨key, value⟩, rest⟩ <;>
      exact ⟨'\x7b', _, rfl, by decide, by decide⟩
  | number n =>
    obtain ⟨hi, -⟩ := integerOf_of_isInteger h
    obtain ⟨c, rest, hc, hd⟩ := exists_integer_eq_cons (integerOf n)
    refine ⟨c, rest, ?_, ?_⟩
    · rw [Node.ofDocument, hi, Node.chars, hc]
    · rcases hd with rfl | hd
      · exact ⟨by decide, by decide⟩
      · refine ⟨lt_toNat_of_isDigit hd, ?_⟩
        rintro rfl
        exact absurd hd (by decide)

theorem tree?_integer (fuel : Nat) (i : Int) {rest : List Char} (h : Closes rest) :
    tree? (fuel + 1) ((Text.integer i).toList ++ rest) = some (.numeral (.ofInt i), rest) := by
  have hread := Numeral.read?_integer i h
  obtain ⟨c, tail, hc, hd⟩ := exists_integer_eq_cons i
  rw [hc, List.cons_append] at hread ⊢
  have hne : ∀ d : Char, d.isDigit = false → d ≠ '-' → c ≠ d := by
    rintro d hd' hminus rfl
    simp_all
  have hspace : isSpace c = false := by
    rcases hd with rfl | hd
    · decide
    · exact isSpace_of_lt (lt_toNat_of_isDigit hd).1
  rw [tree?, skipSpace_cons hspace]
  split
  case h_7 => rw [hread]; rfl
  all_goals
    next heq => exact absurd (List.cons.inj heq).1 (hne _ (by decide) (by decide))

theorem tree?_quoted (fuel : Nat) (s : String) (rest : List Char) :
    tree? (fuel + 1) (quotedChars s ++ rest) = some (.string (some s), rest) := by
  rw [quotedChars, List.cons_append, List.append_assoc, tree?, skipSpace_cons (by decide)]
  simp [quoted?_flatMap]

/-- A tree that is read from the text of a document whatever follows it, and that stands for the
document. -/
structure Stands (doc : Document) (tree : Tree) : Prop where
  value : document? tree = some doc
  depth : tree.depth = doc.depth
  read : ∀ fuel rest, 2 * (charsOf doc).length ≤ fuel + 1 → Closes rest →
    tree? fuel (charsOf doc ++ rest) = some (tree, rest)

theorem items?_single {fuel : Nat} {chars rest : List Char} {tree : Tree}
    (h : tree? fuel chars = some (tree, ']' :: rest)) :
    items? (fuel + 1) chars = some ([tree], rest) := by
  simp only [items?, h, skipSpace_cons (show isSpace ']' = false by decide)]

theorem items?_cons {fuel : Nat} {chars others rest : List Char} {tree : Tree} {trees : List Tree}
    (h : tree? fuel chars = some (tree, ',' :: others))
    (hothers : items? fuel others = some (trees, rest)) :
    items? (fuel + 1) chars = some (tree :: trees, rest) := by
  simp only [items?, h, skipSpace_cons (show isSpace ',' = false by decide), hothers,
    Option.map_some]

theorem members?_single {fuel : Nat} (key : String) {chars rest : List Char} {tree : Tree}
    (h : tree? fuel chars = some (tree, '\x7d' :: rest)) :
    members? (fuel + 1) (quotedChars key ++ ':' :: chars) = some ([(some key, tree)], rest) := by
  rw [quotedChars, List.cons_append, List.append_assoc, members?, skipSpace_cons (by decide)]
  simp [quoted?_flatMap, skipSpace_cons (show isSpace ':' = false by decide), h,
    skipSpace_cons (show isSpace '\x7d' = false by decide)]

theorem members?_cons {fuel : Nat} (key : String) {chars others rest : List Char} {tree : Tree}
    {members : List (Option String × Tree)} (h : tree? fuel chars = some (tree, ',' :: others))
    (hothers : members? fuel others = some (members, rest)) :
    members? (fuel + 1) (quotedChars key ++ ':' :: chars) =
      some ((some key, tree) :: members, rest) := by
  rw [quotedChars, List.cons_append, List.append_assoc, members?, skipSpace_cons (by decide)]
  simp [quoted?_flatMap, skipSpace_cons (show isSpace ':' = false by decide), h,
    skipSpace_cons (show isSpace ',' = false by decide), hothers]

theorem tree?_array {fuel : Nat} {chars rest : List Char} {trees : List Tree} (hopens : Opens chars)
    (h : items? fuel chars = some (trees, rest)) :
    tree? (fuel + 1) ('[' :: chars) = some (.array trees, rest) := by
  obtain ⟨c, tail, rfl, hspace, hclose⟩ := hopens
  rw [tree?, skipSpace_cons (by decide)]
  simp [skipSpace_cons (isSpace_of_lt hspace.1), hclose, h]

theorem tree?_object {fuel : Nat} {chars rest : List Char}
    {members : List (Option String × Tree)}
    (h : members? fuel ('"' :: chars) = some (members, rest)) :
    tree? (fuel + 1) ('\x7b' :: '"' :: chars) = some (.object members, rest) := by
  rw [tree?, skipSpace_cons (by decide)]
  simp [skipSpace_cons (show isSpace '"' = false by decide), h]

def itemChars : List Document → List Char
  | [] => []
  | item :: rest => charsOf item ++ moreItems (nodesOfItems rest)

def memberChars : List (String × Document) → List Char
  | [] => []
  | (key, value) :: rest =>
    quotedChars key ++ ':' :: (charsOf value ++ moreMembers (nodesOfMembers rest))

theorem opens_itemChars {docs : List Document} (h : Document.ArePlainItems docs) (hne : docs ≠ []) :
    Opens (itemChars docs) := by
  cases docs with
  | nil => exact absurd rfl hne
  | cons item rest => exact (opens_charsOf h.1).append _

theorem stands_word {doc : Document} {tree : Tree} (hvalue : document? tree = some doc)
    (hdepth : tree.depth = doc.depth) (hne : charsOf doc ≠ [])
    (hread : ∀ fuel rest, Closes rest →
      tree? (fuel + 1) (charsOf doc ++ rest) = some (tree, rest)) : Stands doc tree := by
  refine ⟨hvalue, hdepth, fun fuel rest hfuel hrest => ?_⟩
  have := List.length_pos_iff.2 hne
  obtain ⟨fuel, rfl⟩ := Nat.exists_eq_add_one.2 (show 0 < fuel by omega)
  exact hread fuel rest hrest

theorem stands_null : Stands .null .null := by
  refine stands_word rfl rfl (by decide) fun fuel rest _ => ?_
  simp only [charsOf, Node.ofDocument, Node.chars]
  rw [tree?]
  rfl

theorem stands_bool (b : Bool) : Stands (.bool b) (.bool b) := by
  refine stands_word rfl rfl (by cases b <;> decide) fun fuel rest _ => ?_
  cases b <;>
  · simp only [charsOf, Node.ofDocument, Node.chars]
    rw [tree?]
    rfl

theorem stands_string (s : String) : Stands (.string s) (.string (some s)) :=
  stands_word rfl rfl (List.cons_ne_nil _ _) fun fuel rest _ => tree?_quoted fuel s rest

theorem stands_number {n : Number} (h : n.IsInteger) :
    Stands (.number n) (.numeral (.ofInt (integerOf n))) := by
  obtain ⟨hnode, hn, hrange⟩ := integerOf_of_isInteger h
  obtain ⟨c, tail, hc, -⟩ := exists_integer_eq_cons (integerOf n)
  have hchars : charsOf (.number n) = (Text.integer (integerOf n)).toList := by
    rw [charsOf, Node.ofDocument, hnode, Node.chars]
  refine stands_word ?_ rfl ?_ fun fuel rest hrest => ?_
  · rw [document?, Numeral.number?_ofInt hrange, Option.map_some, hn]
  · rw [hchars, hc]
    exact List.cons_ne_nil _ _
  · rw [hchars, tree?_integer fuel _ hrest]

theorem stands_emptyArray : Stands (.array []) (.array []) := by
  refine stands_word rfl rfl (by decide) fun fuel rest _ => ?_
  simp only [charsOf, Node.ofDocument, nodesOfItems, Node.chars]
  rw [tree?]
  rfl

theorem stands_emptyObject : Stands (.object []) (.object []) := by
  refine stands_word rfl rfl (by decide) fun fuel rest _ => ?_
  simp only [charsOf, Node.ofDocument, nodesOfMembers, Node.chars]
  rw [tree?]
  rfl

mutual

/-- The text of a plain document is read as a tree that stands for the document. -/
theorem stands_treeOf (doc : Document) (h : doc.IsPlain) : Stands doc (treeOf doc) := by
  cases doc with
  | null => exact stands_null
  | bool b => exact stands_bool b
  | number n => exact stands_number h
  | string s => exact stands_string s
  | array items =>
    match items with
    | [] => exact stands_emptyArray
    | item :: rest =>
      obtain ⟨hvalues, hdepths, hreads⟩ := stands_treesOf (item :: rest) h (by simp)
      refine ⟨?_, ?_, fun fuel tail hfuel _ => ?_⟩
      · rw [treeOf, document?, hvalues, Option.map_some]
      · rw [treeOf, Tree.depth, Document.depth, hdepths]
      · have hchars : charsOf (.array (item :: rest)) = '[' :: itemChars (item :: rest) := by
          simp [charsOf, Node.ofDocument, nodesOfItems, Node.chars, itemChars]
        rw [hchars, List.length_cons] at hfuel
        obtain ⟨fuel, rfl⟩ := Nat.exists_eq_add_one.2 (show 0 < fuel by omega)
        rw [hchars, List.cons_append]
        exact tree?_array ((opens_itemChars h (by simp)).append tail)
          (hreads fuel tail (by omega))
  | object members =>
    match members with
    | [] => exact stands_emptyObject
    | (key, value) :: rest =>
      obtain ⟨hnodup, hplain⟩ := h
      obtain ⟨hvalues, hdepths, hreads⟩ :=
        stands_memberTreesOf ((key, value) :: rest) hplain (by simp)
      refine ⟨?_, ?_, fun fuel tail hfuel _ => ?_⟩
      · rw [treeOf, document?, hvalues, Option.map_some, Fields.ofList_of_nodup hnodup]
      · rw [treeOf, Tree.depth, Document.depth, hdepths]
      · have hchars : charsOf (.object ((key, value) :: rest)) =
            '\x7b' :: memberChars ((key, value) :: rest) := by
          simp [charsOf, Node.ofDocument, nodesOfMembers, Node.chars, memberChars]
        rw [hchars, List.length_cons] at hfuel
        obtain ⟨fuel, rfl⟩ := Nat.exists_eq_add_one.2 (show 0 < fuel by omega)
        rw [hchars, List.cons_append]
        exact tree?_object (hreads fuel tail (by omega))

theorem stands_treesOf (docs : List Document) (h : Document.ArePlainItems docs) (hne : docs ≠ []) :
    documents? (treesOf docs) = some docs ∧
      depthOfItems (treesOf docs) = Document.depthOfItems docs ∧
      ∀ fuel rest, 2 * (itemChars docs).length ≤ fuel →
        items? fuel (itemChars docs ++ rest) = some (treesOf docs, rest) := by
  match docs with
  | [] => exact absurd rfl hne
  | [item] =>
    obtain ⟨hvalue, hdepth, hread⟩ := stands_treeOf item h.1
    refine ⟨?_, ?_, fun fuel rest hfuel => ?_⟩
    · rw [treesOf, documents?, hvalue]
      rfl
    · simp [treesOf, depthOfItems, Document.depthOfItems, hdepth]
    · have hchars : itemChars [item] ++ rest = charsOf item ++ ']' :: rest := by
        simp [itemChars, nodesOfItems, moreItems]
      have hlength : (itemChars [item]).length = (charsOf item).length + 1 := by
        simp [itemChars, nodesOfItems, moreItems]
      obtain ⟨fuel, rfl⟩ := Nat.exists_eq_add_one.2 (show 0 < fuel by omega)
      rw [hchars]
      exact items?_single (hread fuel _ (by omega) (closes_cons (by simp) rest))
  | item :: next :: rest =>
    obtain ⟨hvalue, hdepth, hread⟩ := stands_treeOf item h.1
    obtain ⟨hvalues, hdepths, hreads⟩ := stands_treesOf (next :: rest) h.2 (by simp)
    refine ⟨?_, ?_, fun fuel tail hfuel => ?_⟩
    · rw [treesOf, documents?, hvalue, hvalues]
      rfl
    · rw [treesOf, depthOfItems, Document.depthOfItems, hdepth, hdepths]
    · have hchars : itemChars (item :: next :: rest) =
          charsOf item ++ ',' :: itemChars (next :: rest) := by
        simp [itemChars, nodesOfItems, moreItems]
      rw [hchars, List.length_append, List.length_cons] at hfuel
      obtain ⟨fuel, rfl⟩ := Nat.exists_eq_add_one.2 (show 0 < fuel by omega)
      rw [hchars, List.append_assoc, List.cons_append]
      exact items?_cons (hread fuel _ (by omega) (closes_cons (by simp) _))
        (hreads fuel tail (by omega))

theorem stands_memberTreesOf (docs : List (String × Document))
    (h : Document.ArePlainMembers docs) (hne : docs ≠ []) :
    documentMembers? (memberTreesOf docs) = some docs ∧
      depthOfMembers (memberTreesOf docs) = Document.depthOfMembers docs ∧
      ∀ fuel rest, 2 * (memberChars docs).length ≤ fuel →
        members? fuel (memberChars docs ++ rest) = some (memberTreesOf docs, rest) := by
  match docs with
  | [] => exact absurd rfl hne
  | [(key, value)] =>
    obtain ⟨hvalue, hdepth, hread⟩ := stands_treeOf value h.1
    refine ⟨?_, ?_, fun fuel rest hfuel => ?_⟩
    · rw [memberTreesOf, documentMembers?, hvalue]
      rfl
    · simp [memberTreesOf, depthOfMembers, Document.depthOfMembers, hdepth]
    · have hchars : memberChars [(key, value)] =
          quotedChars key ++ ':' :: (charsOf value ++ ['\x7d']) := by
        simp [memberChars, nodesOfMembers, moreMembers]
      simp only [hchars, List.length_append, List.length_cons] at hfuel
      obtain ⟨fuel, rfl⟩ := Nat.exists_eq_add_one.2 (show 0 < fuel by omega)
      rw [hchars, List.append_assoc, List.cons_append, List.append_assoc]
      exact members?_single key (hread fuel _ (by omega) (closes_cons (by simp) rest))
  | (key, value) :: next :: rest =>
    obtain ⟨hvalue, hdepth, hread⟩ := stands_treeOf value h.1
    obtain ⟨hvalues, hdepths, hreads⟩ := stands_memberTreesOf (next :: rest) h.2 (by simp)
    refine ⟨?_, ?_, fun fuel tail hfuel => ?_⟩
    · rw [memberTreesOf, documentMembers?, hvalue, hvalues]
      rfl
    · rw [memberTreesOf, depthOfMembers, Document.depthOfMembers, hdepth, hdepths]
    · have hchars : memberChars ((key, value) :: next :: rest) =
          quotedChars key ++ ':' :: (charsOf value ++ ',' :: memberChars (next :: rest)) := by
        simp [memberChars, nodesOfMembers, moreMembers]
      simp only [hchars, List.length_append, List.length_cons] at hfuel
      obtain ⟨fuel, rfl⟩ := Nat.exists_eq_add_one.2 (show 0 < fuel by omega)
      rw [hchars, List.append_assoc, List.cons_append, List.append_assoc, List.cons_append]
      exact members?_cons key (hread fuel _ (by omega) (closes_cons (by simp) _))
        (hreads fuel tail (by omega))

end

theorem not_all_isPayloadSpace {chars : List Char} (h : Opens chars) :
    (Text.utf8 (String.ofList chars)).all isPayloadSpace = false := by
  obtain ⟨c, rest, rfl, ⟨hlow, hhigh⟩, -⟩ := h
  have hbyte : isPayloadSpace (UInt8.ofNat c.toNat) = false := by
    have hne : ∀ b : UInt8, b.toNat ≤ 32 → UInt8.ofNat c.toNat ≠ b := by
      rintro b hb rfl
      rw [UInt8.toNat_ofNat_of_lt' (by simpa using (by omega : c.toNat < 256))] at hb
      omega
    simp [isPayloadSpace, hne 9 (by decide), hne 10 (by decide), hne 12 (by decide),
      hne 13 (by decide), hne 32 (by decide)]
  simp [Text.utf8, Text.utf8EncodeChar_of_lt hhigh, hbyte]

/-- The tree of a plain document is read from its text. -/
theorem ofChars?_text {doc : Document} (h : doc.IsPlain) :
    Tree.ofChars? (Node.ofDocument doc).text.toList = some (treeOf doc) := by
  have hread := (stands_treeOf doc h).read (2 * (charsOf doc).length + 2) [] (by omega) closes_nil
  rw [List.append_nil] at hread
  rw [Node.text, String.toList_ofList, Tree.ofChars?, hread]
  rfl

/-- A plain document is read back from its text unless it is nested too deeply. -/
theorem read_text_eq {doc : Document} (h : doc.IsPlain) :
    read (Text.utf8 (Node.ofDocument doc).text) =
      if doc.depth ≤ maxDepth then .ok doc else .error ⟨⟩ := by
  obtain ⟨hvalue, htree, -⟩ := stands_treeOf doc h
  have hblank := not_all_isPayloadSpace (opens_charsOf h)
  have htext : (Node.ofDocument doc).text = String.ofList (charsOf doc) := rfl
  rw [read, htext, hblank, Text.ofUtf8?_utf8, ← htext, Option.bind_some, ofChars?_text h]
  simp [htree, hvalue]

theorem read_text {doc : Document} (h : doc.IsPlain) (hdepth : doc.depth ≤ maxDepth) :
    read (Text.utf8 (Node.ofDocument doc).text) = .ok doc := by
  rw [read_text_eq h, if_pos hdepth]

theorem eq_of_text_eq {doc other : Document} (h : doc.IsPlain) (hother : other.IsPlain)
    (heq : (Node.ofDocument doc).text = (Node.ofDocument other).text) : doc = other := by
  have htree : some (treeOf doc) = some (treeOf other) := by
    rw [← ofChars?_text h, ← ofChars?_text hother, heq]
  have hvalue := (stands_treeOf doc h).value
  rw [Option.some.inj htree, (stands_treeOf other hother).value] at hvalue
  exact (Option.some.inj hvalue).symm

/-- The text of a plain document tells it apart from all others. Up to a depth of 127 it is read
back, members in the order in which they were written, and below that depth nothing is read. -/
theorem documents_survive {doc : Document} (h : doc.IsPlain) :
    (doc.depth ≤ 127 → read (Text.utf8 (Node.ofDocument doc).text) = .ok doc) ∧
    (127 < doc.depth → read (Text.utf8 (Node.ofDocument doc).text) = .error ⟨⟩) ∧
    ∀ other : Document, other.IsPlain →
      (Node.ofDocument other).text = (Node.ofDocument doc).text → other = doc := by
  refine ⟨read_text h, fun hdepth => ?_, fun other hother heq => eq_of_text_eq hother h heq⟩
  exact (read_text_eq h).trans (if_neg (Nat.not_le.2 hdepth))

/-- Greatest and least integers, texts that need escapes, and names out of order, one of them empty.
-/
def escapedDocument : Document :=
  .object [
    ("z\"\\/\x00\n",
      .array [.number (.unsigned 18446744073709551615), .object [], .array []]),
    ("", .object [("\t\x1f\x7f", .number (.signed (-9223372036854775808))), ("é😀", .string "")]),
    ("a", .array [.null, .bool true, .string "\\u0041\x08\x0c\r€"])]

theorem escapedDocument_survives :
    escapedDocument.IsPlain ∧ escapedDocument.depth ≤ 127 ∧
      read (Text.utf8 (Node.ofDocument escapedDocument).text) = .ok escapedDocument :=
  ⟨by decide, by decide, (documents_survive (by decide)).1 (by decide)⟩

end Json
end ServiceBindings
