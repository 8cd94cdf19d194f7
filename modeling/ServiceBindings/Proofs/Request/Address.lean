import Mathlib.Data.List.TakeWhile
import ServiceBindings.Proofs.Plan.Template
import ServiceBindings.Proofs.Text.Percent
import ServiceBindings.Request.Address

/-! Addresses are what their templates say, and no value reaches beyond its place in them. -/
namespace ServiceBindings.Request
open Plan (Call Layout MakeUp Segment)
open Text.Percent (Spells isUnreserved spells_label spells_query)

/-- What a piece of a template becomes: a literal stays, and a label gives way to the text of its
member. -/
inductive Fills (layout : Layout) (record : Record) : Segment → String → Prop
  | literal (s : String) : Fills layout record (.literal s) s
  | label {member name text written : String} {greedy : Bool} {binding : Plan.Binding}
    {target : Plan.Target} {value : Value}
    (hmember : layout.member? member = some (binding, target))
    (hvalue : record.get? member = some value)
    (htext : scalarText .dateTime member target value = .ok text)
    (hwritten : Spells greedy written text) :
    Fills layout record (.label member name greedy) written

/-- The key and the value of a pair as they are written. -/
def Writes (pair written : String × String) : Prop :=
  Spells false written.1 pair.1 ∧ Spells false written.2 pair.2

def parameter (written : String × String) : List Char :=
  written.1.toList ++ '=' :: written.2.toList

/-- Written pairs, each behind a sign. -/
def moreParameters (written : List (String × String)) : List Char :=
  written.flatMap fun pair => '&' :: parameter pair

/-- What follows a path: the query that is always sent, if there is one, and the written pairs. -/
def queryChars : Option String → List (String × String) → List Char
  | some fixed, written => '?' :: (fixed.toList ++ moreParameters written)
  | none, [] => []
  | none, first :: rest => '?' :: (parameter first ++ moreParameters rest)

/-- What an address is put together of. -/
structure Composes (call : Call) (record : Record) (pieces : List String)
    (pairs written : List (String × String)) (address : List Char) : Prop where
  fills : List.Forall₂ (Fills call.input record) call.template.path pieces
  asked : queryPairs call.input record = .ok pairs
  writes : List.Forall₂ Writes pairs written
  path : address.takeWhile (· ≠ '?') = pieces.flatMap String.toList
  query : address.dropWhile (· ≠ '?') = queryChars call.template.fixedQuery written

/-- The parts of the query that is always sent. -/
def sentParts : Option String → List (List Char)
  | some fixed => fixed.toList.splitOn '&'
  | none => []

/-- Whether a reserved character may come with a piece. -/
def mayHold (c : Char) : Segment → Bool
  | .literal _ => true
  | .label _ _ greedy => greedy && c == '/'

section
variable {layout : Layout} {record : Record}

theorem fills_of_segmentText {segment : Segment} {piece : String}
    (h : segmentText layout record segment = .ok piece) : Fills layout record segment piece := by
  cases segment with
  | literal s =>
    obtain rfl := Except.ok.inj h
    exact .literal s
  | label member name greedy =>
    rw [segmentText] at h
    split at h
    · next binding target value hmember hvalue =>
      obtain ⟨text, htext, rfl⟩ := map_eq_ok.1 h
      exact .label hmember hvalue htext (spells_label greedy text)
    · cases h

theorem Fills.notMem {segment : Segment} {piece : String} (h : Fills layout record segment piece)
    {c : Char} (hc : isUnreserved c = false) (hpercent : c ≠ '%')
    (hhold : mayHold c segment = false) : c ∉ piece.toList := by
  cases h with
  | literal s => cases hhold
  | label _ _ _ hwritten =>
    refine hwritten.notMem hc hpercent fun hslash => ?_
    simpa [mayHold, hslash] using hhold

theorem count_pieces {path : List Segment} {pieces : List String}
    (h : List.Forall₂ (Fills layout record) path pieces) {c : Char} (hc : isUnreserved c = false)
    (hpercent : c ≠ '%') :
    (pieces.flatMap String.toList).count c =
      (((path.zip pieces).filter fun piece => mayHold c piece.1).flatMap
        fun piece => piece.2.toList).count c := by
  induction h with
  | nil => rfl
  | @cons segment piece path pieces hpiece _ ih =>
    rw [List.flatMap_cons, List.count_append, ih, List.zip_cons_cons, List.filter_cons]
    by_cases hhold : mayHold c segment = true
    · rw [if_pos hhold, List.flatMap_cons, List.count_append]
    · rw [if_neg hhold, List.count_eq_zero.2 (hpiece.notMem hc hpercent (by simpa using hhold)),
        Nat.zero_add]

end

theorem toList_query (fixed : Option String) (path : String) :
    (match fixed with
      | some fixed => path ++ "?" ++ fixed
      | none => path).toList = path.toList ++ queryChars fixed [] := by
  cases fixed with
  | none => exact (List.append_nil _).symm
  | some fixed => simp [queryChars, moreParameters]

theorem intercalate_parameters (first : String × String) (rest : List (String × String)) :
    ['&'].intercalate ((first :: rest).map parameter) = parameter first ++ moreParameters rest := by
  induction rest generalizing first with
  | nil => simp [moreParameters]
  | cons next rest ih =>
    have hnext := ih next
    rw [List.map_cons] at hnext
    rw [List.map_cons, List.map_cons, List.intercalate_cons_cons, hnext]
    simp [moreParameters]

/-- The pairs stand behind a path and the query that is always sent. -/
theorem toList_withQuery {path : String} (hpath : '?' ∉ path.toList) (fixed : Option String)
    (pairs : List (String × String)) :
    (Http.withQuery
      (match fixed with
        | some fixed => path ++ "?" ++ fixed
        | none => path) pairs).toList =
      path.toList ++ queryChars fixed
        (pairs.map fun pair => (Text.Percent.query pair.1, Text.Percent.query pair.2)) := by
  cases pairs with
  | nil => exact toList_query fixed path
  | cons first rest =>
    have hchars : ("&".intercalate ((first :: rest).map fun pair =>
        Text.Percent.query pair.1 ++ "=" ++ Text.Percent.query pair.2)).toList =
        ['&'].intercalate (((first :: rest).map fun pair =>
          (Text.Percent.query pair.1, Text.Percent.query pair.2)).map parameter) := by
      rw [String.toList_intercalate, List.map_map, List.map_map]
      refine congrArg (List.intercalate ['&']) (List.map_congr_left fun pair _ => ?_)
      simp [parameter]
    unfold Http.withQuery
    dsimp only
    rw [if_neg (by simp), String.toList_append, String.toList_append, hchars, List.map_cons,
      intercalate_parameters]
    cases fixed with
    | none => simp [hpath, queryChars]
    | some fixed => simp [queryChars, moreParameters]

/-- The first question mark behind a path opens the query. -/
theorem takeWhile_queryChars (fixed : Option String) (written : List (String × String)) :
    (queryChars fixed written).takeWhile (· ≠ '?') = [] ∧
      (queryChars fixed written).dropWhile (· ≠ '?') = queryChars fixed written := by
  cases fixed with
  | some fixed => simp [queryChars]
  | none => cases written <;> simp [queryChars]

theorem mem_queryChars {fixed : Option String} {written : List (String × String)} {c : Char}
    (h : c ∈ queryChars fixed written) :
    c = '?' ∨ (∃ s, fixed = some s ∧ c ∈ s.toList) ∨ c ∈ moreParameters written := by
  cases fixed with
  | some s => simpa [queryChars] using h
  | none =>
    cases written with
    | nil => cases h
    | cons first rest =>
      rcases List.mem_cons.1 h with heq | h
      · exact .inl heq
      · exact .inr (.inr (List.mem_cons_of_mem '&' h))

theorem Writes.notMem {pair written : String × String} (h : Writes pair written) {c : Char}
    (hc : isUnreserved c = false) (hpercent : c ≠ '%') (hsign : c ≠ '=') :
    c ∉ parameter written := by
  intro hmem
  rcases List.mem_append.1 hmem with hmem | hmem
  · exact h.1.notMem hc hpercent (fun _ => rfl) hmem
  · rcases List.mem_cons.1 hmem with heq | hmem
    · exact hsign heq
    · exact h.2.notMem hc hpercent (fun _ => rfl) hmem

section
variable {pairs written : List (String × String)} (h : List.Forall₂ Writes pairs written)
include h

theorem notMem_parameter {c : Char} (hc : isUnreserved c = false) (hpercent : c ≠ '%')
    (hsign : c ≠ '=') : ∀ pair ∈ written, c ∉ parameter pair := by
  intro pair hmem
  obtain ⟨_, -, hwrites⟩ := exists_of_mem_forall₂_right h hmem
  exact hwrites.notMem hc hpercent hsign

theorem splitOn_moreParameters (start : List Char) :
    (start ++ moreParameters written).splitOn '&' =
      start.splitOn '&' ++ written.map parameter := by
  induction h generalizing start with
  | nil => simp [moreParameters]
  | @cons pair first pairs rest hfirst _ ih =>
    have hnotMem := hfirst.notMem (c := '&') (by decide) (by decide) (by decide)
    have hcons : start ++ moreParameters (first :: rest) =
        start ++ '&' :: (parameter first ++ moreParameters rest) := rfl
    rw [hcons, List.splitOn_append_cons_self, ih, List.splitOn_eq_singleton hnotMem, List.map_cons,
      List.singleton_append]

/-- Taken apart at its signs, a query has the parts of the one that is always sent and one for each
pair. -/
theorem splitOn_query {fixed : Option String} {query : List Char}
    (hquery : queryChars fixed written = '?' :: query) :
    query.splitOn '&' = sentParts fixed ++ written.map parameter := by
  cases fixed with
  | some fixed =>
    obtain rfl := (List.cons.inj hquery).2
    exact splitOn_moreParameters h fixed.toList
  | none =>
    cases h with
    | nil => cases hquery
    | @cons pair first pairs rest hfirst hrest =>
      obtain rfl := (List.cons.inj hquery).2
      have hnotMem := hfirst.notMem (c := '&') (by decide) (by decide) (by decide)
      rw [splitOn_moreParameters hrest, List.splitOn_eq_singleton hnotMem]
      rfl

/-- Reserved characters behind a path are those of the query that is always sent, and its signs. -/
theorem exists_of_mem_queryChars {fixed : Option String} {c : Char} (hc : isUnreserved c = false)
    (hpercent : c ≠ '%') (hsigns : c ∉ ['?', '&', '=']) (hmem : c ∈ queryChars fixed written) :
    ∃ s, fixed = some s ∧ c ∈ s.toList := by
  simp only [List.mem_cons, List.not_mem_nil, or_false, not_or] at hsigns
  obtain ⟨hmark, hand, hsign⟩ := hsigns
  rcases mem_queryChars hmem with heq | hfixed | hmem
  · exact absurd heq hmark
  · exact hfixed
  · obtain ⟨pair, hpair, hmem⟩ := List.mem_flatMap.1 hmem
    rcases List.mem_cons.1 hmem with heq | hmem
    · exact absurd heq hand
    · exact absurd hmem (notMem_parameter h hc hpercent hsign pair hpair)

end

/-- Reserved characters of a path are those of its literals, but for slashes. -/
theorem exists_of_mem_pieces {layout : Layout} {record : Record} {path : List Segment}
    {pieces : List String} (h : List.Forall₂ (Fills layout record) path pieces) {c : Char}
    (hc : isUnreserved c = false) (hpercent : c ≠ '%') (hslash : c ≠ '/')
    (hmem : c ∈ pieces.flatMap String.toList) : ∃ s, .literal s ∈ path ∧ c ∈ s.toList := by
  obtain ⟨piece, hpiece, hmem⟩ := List.mem_flatMap.1 hmem
  obtain ⟨segment, hsegment, hfills⟩ := exists_of_mem_forall₂_right h hpiece
  cases segment with
  | literal s =>
    cases hfills with
    | literal => exact ⟨_, hsegment, hmem⟩
  | label => exact absurd hmem (hfills.notMem hc hpercent (by simp [mayHold, hslash]))

section
variable {call : Call} {record : Record} {u : String}

theorem exists_composes
    (htemplate : Plan.templateOf call.operation call.input = .ok call.template)
    (h : address call record = .ok u) :
    ∃ pieces pairs written, Composes call record pieces pairs written u.toList := by
  obtain ⟨hmake, -⟩ := Plan.makeUp_of_templateOf htemplate
  obtain ⟨pieces, hpieces, h⟩ := bind_eq_ok.1 h
  obtain ⟨pairs, hpairs, h⟩ := bind_eq_ok.1 h
  have hu := Except.ok.inj h
  have hfills := (forall₂_of_mapM_eq_ok hpieces).imp fun _ _ => fills_of_segmentText
  have hmark : '?' ∉ pieces.flatMap String.toList := by
    intro hmem
    obtain ⟨s, hs, hmem⟩ :=
      exists_of_mem_pieces hfills (by decide) (by decide) (by decide) hmem
    -- A literal is a part of the text before the first question mark.
    have hsource : '?' ∈ call.template.path.flatMap Segment.source :=
      List.mem_flatMap.2 ⟨_, hs, hmem⟩
    rw [hmake.source] at hsource
    simpa using List.mem_takeWhile_imp hsource
  have hkept : ∀ c ∈ pieces.flatMap String.toList, decide (c ≠ '?') = true := by
    intro c hc
    apply decide_eq_true
    rintro rfl
    exact hmark hc
  let written := pairs.map fun pair => (Text.Percent.query pair.1, Text.Percent.query pair.2)
  have hpath : (String.join pieces).toList = pieces.flatMap String.toList := String.toList_join
  have hchars : u.toList =
      pieces.flatMap String.toList ++ queryChars call.template.fixedQuery written := by
    rw [← hu, ← hpath]
    exact toList_withQuery (hpath ▸ hmark) call.template.fixedQuery pairs
  obtain ⟨htake, hdrop⟩ := takeWhile_queryChars call.template.fixedQuery written
  refine ⟨pieces, pairs, written, hfills, hpairs, ?_, ?_, ?_⟩
  · refine List.forall₂_map_right_iff.2 (List.forall₂_same.2 fun pair _ => ?_)
    exact ⟨spells_query pair.1, spells_query pair.2⟩
  · rw [hchars, List.takeWhile_append_of_pos hkept, htake, List.append_nil]
  · rw [hchars, List.dropWhile_append_of_pos hkept, hdrop]

/-- An address is its template with each label replaced by the text of a member, followed by the
query that is always sent and the pairs of the query. So no value adds a segment to the path, unless
through a greedy label, and none adds a parameter or a fragment. -/
theorem address_exact
    (htemplate : Plan.templateOf call.operation call.input = .ok call.template)
    (h : address call record = .ok u) :
    MakeUp call.input call.template.path
        (call.operation.requestUri.toList.takeWhile (· ≠ '?')) ∧
      call.operation.requestUri.toList.dropWhile (· ≠ '?') = call.template.suffix ∧
      ∃ pieces pairs written, Composes call record pieces pairs written u.toList ∧
        (call.template.fixedQuery = none → pairs = [] → '?' ∉ u.toList) ∧
        (∀ c, isUnreserved c = false → c ≠ '%' →
          (u.toList.takeWhile (· ≠ '?')).count c =
            (((call.template.path.zip pieces).filter fun piece => mayHold c piece.1).flatMap
              fun piece => piece.2.toList).count c) ∧
        (∀ query, u.toList.dropWhile (· ≠ '?') = '?' :: query →
          query.splitOn '&' = sentParts call.template.fixedQuery ++ written.map parameter) ∧
        ('#' ∈ u.toList →
          (∃ s, .literal s ∈ call.template.path ∧ '#' ∈ s.toList) ∨
            '#' ∈ call.template.suffix) := by
  obtain ⟨hmake, hsuffix⟩ := Plan.makeUp_of_templateOf htemplate
  obtain ⟨pieces, pairs, written, hcomposes⟩ := exists_composes htemplate h
  refine ⟨hmake, hsuffix, pieces, pairs, written, hcomposes, ?_, fun c hc hpercent => ?_,
    fun query hquery => ?_, fun hmem => ?_⟩
  · rintro hfixed rfl
    have hwrites := hcomposes.writes
    have hquery := hcomposes.query
    obtain rfl := List.forall₂_nil_left_iff.1 hwrites
    rw [hfixed, queryChars, List.dropWhile_eq_nil_iff] at hquery
    exact fun hmem => absurd (hquery '?' hmem) (by decide)
  · rw [hcomposes.path]
    exact count_pieces hcomposes.fills hc hpercent
  · rw [hcomposes.query] at hquery
    exact splitOn_query hcomposes.writes hquery
  · rw [← List.takeWhile_append_dropWhile (p := (· ≠ '?')) (l := u.toList), hcomposes.path,
      hcomposes.query] at hmem
    rcases List.mem_append.1 hmem with hmem | hmem
    · exact .inl (exists_of_mem_pieces hcomposes.fills (by decide) (by decide) (by decide) hmem)
    · obtain ⟨s, hs, hmem⟩ := exists_of_mem_queryChars hcomposes.writes (by decide) (by decide)
        (by decide) hmem
      rw [Plan.Template.suffix, hs]
      exact .inr (List.mem_cons_of_mem _ hmem)

end

/-- An operation on objects in buckets, with a label of each kind and a query of each kind. -/
def objectCall : Call where
  service := ⟨"Objects", "1", .xml, none, none, none⟩
  operation := ⟨"Find", "In", none, "GET", "/\x7bBucket\x7d/\x7bKey+\x7d?acl", none, none⟩
  ident := ⟨.client, "find"⟩
  input := {
    heading := ⟨"In", ⟨.input, "In"⟩, none, none⟩
    members := [
      (⟨"bucket", "bucket", "Bucket", false, .uri, false, none⟩, .scalar .string none false),
      (⟨"key", "key", "Key", false, .uri, false, none⟩, .scalar .string none false),
      (⟨"tags", "tags", "tag", false, .queryString, false, none⟩,
        .list "L" (.scalar .string none false) none false),
      (⟨"meta", "meta", "meta", false, .queryString, false, none⟩,
        .map "M" (.scalar .string none false) (.scalar .integer none false) none none false)] }
  output := none
  template := ⟨[.literal "/", .label "bucket" "Bucket" false, .literal "/",
    .label "key" "Key" true], some "acl"⟩

def objectRecord : Record where
  shape := "In"
  fields := [("key", .string "x/ y?"), ("meta", .map [("k#", .integer (-1))]),
    ("tags", .list [.string "&e=f", .string "ü"]), ("bucket", .string "a/b?c#d")]

def objectAddress : String :=
  "/a%2Fb%3Fc%23d/x/%20y%3F?acl&tag=%26e%3Df&tag=%C3%BC&k%23=-1"

theorem address_exact_of_object :
    address objectCall objectRecord = .ok objectAddress ∧
      ∃ pieces pairs written,
        Composes objectCall objectRecord pieces pairs written objectAddress.toList := by
  have htemplate :
      Plan.templateOf objectCall.operation objectCall.input = .ok objectCall.template := rfl
  have haddress : address objectCall objectRecord = .ok objectAddress := by decide +kernel
  obtain ⟨-, -, pieces, pairs, written, hcomposes, -⟩ := address_exact htemplate haddress
  exact ⟨haddress, pieces, pairs, written, hcomposes⟩

end ServiceBindings.Request
