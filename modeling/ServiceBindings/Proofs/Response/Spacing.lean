import ServiceBindings.Proofs.Response.Members
import ServiceBindings.Proofs.Response.Unknown
import ServiceBindings.Proofs.Xml.Spacing

/-! White space between the tags of an answer changes nothing in what an operation reads from it. -/
namespace ServiceBindings
open Document (RespacedAt Step)
open Generate (Memory Run)
open Plan (Binding Call Heading Layout Target)
open Xml (SpacedAt Unfolds)
namespace Response

/-- An operation reads the text of an element, to which a path of names leads from the root. What is
neither a structure nor made up of members is read as one text. -/
inductive ReadsText (call : Call) (path : List String) : Prop where
  | document {layout : Layout} {steps : List Step} {look : Look} : call.output = some layout →
    layout.payload? = none → Looks call steps look → steps.filterMap Step.name? = path →
      look.IsText → ReadsText call path
  | payload {layout : Layout} {binding : Binding} {heading : Heading}
    {members : List (Binding × Target)} {steps : List Step} {look : Look} :
    call.output = some layout → layout.payload? = some (binding, .structure heading members) →
      (Target.structure heading members).Looks .xml steps look →
        steps.filterMap Step.name? = path → look.IsText → ReadsText call path
  | raw {layout : Layout} {binding : Binding} {target : Target} : call.output = some layout →
    layout.payload? = some (binding, target) →
      (∀ heading members, target ≠ .structure heading members) → ReadsText call path

section
variable {call : Call} {payload later : Bytes} {root root' : Xml.Root}

/-- Status and headers are read without the body. -/
theorem addMembers_of_body (status : Nat) (headers : Http.Headers) (body body' : Bytes)
    (record : Record) (members : List (Binding × Target)) :
    addMembers ⟨status, headers, body⟩ record members =
      addMembers ⟨status, headers, body'⟩ record members := by
  induction members generalizing record with
  | nil => rfl
  | cons member rest ih =>
    rw [addMembers_cons, addMembers_cons]
    exact congrArg _ (funext fun value => ih _)

theorem decodeBody_of_read {response : Http.Response}
    (h : Xml.read response.body = .ok (some root)) :
    decodeBody .xml response = .ok root.value := by
  rw [decodeBody, decode, h]
  rfl

theorem ne_nil_of_read (h : Xml.read payload = .ok (some root)) : payload ≠ [] := by
  rintro rfl
  have hempty : Text.ofUtf8? [] = some "" := Text.ofUtf8?_utf8 ""
  rw [Xml.read, hempty] at h
  cases h

/-- Documents of which one is edited where no text is read are read as the same record. -/
theorem ofDocument_of_respaced {path : List String} {doc doc' : Document}
    (hpath : ∀ steps look, Looks call steps look → steps.filterMap Step.name? = path → ¬look.IsText)
    (h : RespacedAt path doc doc') : ofDocument call doc = ofDocument call doc' := by
  obtain rfl | ⟨steps, hsteps, hedited⟩ := h
  · rfl
  · exact ofDocument_of_editedAt hedited fun look hlook => hpath steps look hlook hsteps

/-- The same for the document of a structure that makes up the body. -/
theorem readRecord_of_respaced {path : List String} {layout : Layout} {doc doc' : Document}
    (hpath : ∀ steps look, layout.toTarget.Looks .xml steps look →
      steps.filterMap Step.name? = path → ¬look.IsText)
    (h : RespacedAt path doc doc') (position : String) :
    readRecord .xml position layout doc = readRecord .xml position layout doc' := by
  obtain rfl | ⟨steps, hsteps, hedited⟩ := h
  · rfl
  · exact (hedited.sameReading layout.toTarget fun look hlook =>
      hpath steps look hlook hsteps).readRecord_eq hedited.isNull.1 hedited.isNull.2 position

/-- The same for the member that takes up the whole payload, if it is a structure. -/
theorem payloadValue_of_respaced {path : List String} {binding : Binding} {heading : Heading}
    {members : List (Binding × Target)}
    (hpath : ∀ steps look, (Layout.toTarget ⟨heading, members⟩).Looks .xml steps look →
      steps.filterMap Step.name? = path → ¬look.IsText)
    (hroot : Xml.read payload = .ok (some root)) (hroot' : Xml.read later = .ok (some root'))
    (h : RespacedAt path root.value root'.value) (status : Nat) (headers : Http.Headers) :
    payloadValue .xml binding (.structure heading members) ⟨status, headers, payload⟩ =
      payloadValue .xml binding (.structure heading members) ⟨status, headers, later⟩ := by
  unfold payloadValue
  dsimp only
  rw [if_neg (ne_nil_of_read hroot), if_neg (ne_nil_of_read hroot'), decodeBody_of_read hroot,
    decodeBody_of_read hroot', ok_bind, ok_bind, readRecord_of_respaced hpath h binding.name]

/-- Payloads whose documents are the same, or edited where no text is read, make the same record. -/
theorem bodyRecord_of_respaced {path : List String} {layout : Layout}
    (horigin : originOf call.service.protocol = .xml) (houtput : call.output = some layout)
    (hpath : ¬ReadsText call path) (hroot : Xml.read payload = .ok (some root))
    (hroot' : Xml.read later = .ok (some root'))
    (h : RespacedAt path root.value root'.value) (status : Nat) (headers : Http.Headers) :
    bodyRecord call layout ⟨status, headers, payload⟩ =
      bodyRecord call layout ⟨status, headers, later⟩ := by
  unfold bodyRecord
  rw [horigin]
  cases hpayload : layout.payload? with
  | none =>
    dsimp only
    rw [decodeBody_of_read hroot, decodeBody_of_read hroot', ok_bind, ok_bind,
      ofDocument_of_respaced (fun steps look hlook hsteps htext =>
        hpath (.document houtput hpayload hlook hsteps htext)) h]
  | some found =>
    obtain ⟨binding, target⟩ := found
    have hvalue : payloadValue .xml binding target ⟨status, headers, payload⟩ =
        payloadValue .xml binding target ⟨status, headers, later⟩ := by
      cases target with
      | «structure» heading members =>
        exact payloadValue_of_respaced (fun steps look hlook hsteps htext =>
          hpath (.payload houtput hpayload hlook hsteps htext)) hroot hroot' h status headers
      | scalar | enumeration | list | map =>
        exact absurd (.raw houtput hpayload fun _ _ heq => by cases heq) hpath
    dsimp only
    rw [hvalue]

/-- Such payloads are read alike. -/
theorem read_of_respaced {path : List String} (horigin : originOf call.service.protocol = .xml)
    (hpath : ¬ReadsText call path) (hroot : Xml.read payload = .ok (some root))
    (hroot' : Xml.read later = .ok (some root'))
    (h : RespacedAt path root.value root'.value) (status : Nat) (headers : Http.Headers) :
    read call ⟨status, headers, payload⟩ = read call ⟨status, headers, later⟩ := by
  cases houtput : call.output with
  | none => rw [read, read, houtput]
  | some layout =>
    rw [read_eq_bind houtput, read_eq_bind houtput,
      bodyRecord_of_respaced horigin houtput hpath hroot hroot' h]
    exact congrArg _ (funext fun record => addMembers_of_body status headers payload later _ _)

/-- White space comes into an element whose text an operation does not read, or the tag of such an
element, which is empty, is written as two. -/
def GainsSpace (call : Call) (payload later : Bytes) : Prop :=
  ∃ path, ¬ReadsText call path ∧ (SpacedAt path payload later ∨ Unfolds path payload later)

theorem GainsSpace.read (h : GainsSpace call payload later)
    (horigin : originOf call.service.protocol = .xml) (hroot : Xml.read payload = .ok (some root)) :
    (∃ root', Xml.read later = .ok (some root')) ∧ ∀ status headers,
      read call ⟨status, headers, payload⟩ = read call ⟨status, headers, later⟩ := by
  obtain ⟨path, hpath, hspaced | hunfolds⟩ := h
  · obtain ⟨root', hroot', hrespaced⟩ := hspaced.read hroot
    exact ⟨⟨root', hroot'⟩, read_of_respaced horigin hpath hroot hroot' hrespaced⟩
  · have hroot' := hunfolds.read hroot
    exact ⟨⟨root, hroot'⟩, read_of_respaced horigin hpath hroot hroot' (.inl rfl)⟩

/-- However much white space comes between the tags of a well-formed answer, an operation reads the
same record or meets the same fault. -/
theorem spacing_ignored (horigin : originOf call.service.protocol = .xml)
    (hroot : Xml.read payload = .ok (some root))
    (h : Relation.ReflTransGen (GainsSpace call) payload later) (status : Nat)
    (headers : Http.Headers) :
    read call ⟨status, headers, payload⟩ = read call ⟨status, headers, later⟩ := by
  suffices (∃ root', Xml.read later = .ok (some root')) ∧ ∀ status headers,
      read call ⟨status, headers, payload⟩ = read call ⟨status, headers, later⟩ from
    this.2 status headers
  induction h with
  | refl => exact ⟨⟨root, hroot⟩, fun _ _ => rfl⟩
  | tail _ hlast ih =>
    obtain ⟨⟨root', hroot'⟩, hsame⟩ := ih
    obtain ⟨hread, hstep⟩ := hlast.read horigin hroot'
    exact ⟨hread, fun status headers => (hsame status headers).trans (hstep status headers)⟩

end

/-- An element inside the root, without content. -/
def foldedText : String := "<R><x/></R>"

/-- The same, with two tags. -/
def emptyText : String := "<R><x></x></R>"

/-- The same, with white space between them. -/
def blankText : String := "<R><x> </x></R>"

theorem unfolds_x : Unfolds ["x"] (Text.utf8 foldedText) (Text.utf8 emptyText) := by
  have hfolded : String.ofList (['<', 'R', '>', '<', 'x'] ++ '/' :: '>' :: ['<', '/', 'R', '>']) =
      foldedText := by decide +kernel
  have hempty : String.ofList (['<', 'R', '>', '<', 'x'] ++ '>' :: '<' :: '/' ::
      ((⟨"", "x"⟩ : Xml.Name).text.toList ++ '>' :: ['<', '/', 'R', '>'])) = emptyText := by
    decide +kernel
  have hscan : Xml.Token.scan foldedText = ([.elementStart ⟨"", "R"⟩, .tagEnd,
      .elementStart ⟨"", "x"⟩] ++ .emptyEnd :: [.elementEnd ⟨"", "R"⟩], true) := by
    decide +kernel
  have hscan' : Xml.Token.scan emptyText = ([.elementStart ⟨"", "R"⟩, .tagEnd,
      .elementStart ⟨"", "x"⟩] ++ .tagEnd :: .elementEnd ⟨"", "x"⟩ :: [.elementEnd ⟨"", "R"⟩],
      true) := by
    decide +kernel
  rw [← hfolded] at hscan ⊢
  rw [← hempty] at hscan' ⊢
  exact .intro hscan hscan' rfl rfl

theorem spacedAt_x : SpacedAt ["x"] (Text.utf8 emptyText) (Text.utf8 blankText) := by
  have hstep : Xml.Token.step? (.tag 1) ['>'] = some ⟨some .tagEnd, .content 2, []⟩ := rfl
  have hplace : Xml.Inside (.tag 1) := trivial
  have hlast : Xml.Cut (.tag 1) ['>'] [.tagEnd] (.content 2) := .last hplace hstep rfl trivial
  have htag : Xml.Cut (.content 1) ['<', 'x', '>'] _ (.content 2) :=
    .step rfl (by decide) hlast
  have hend : Xml.Cut (.tag 0) ['>', '<', 'x', '>'] _ (.content 2) := .step rfl (by decide) htag
  have hroot : Xml.Cut .beforeRoot ['<', 'R', '>', '<', 'x', '>'] _ (.content 2) :=
    .step rfl (by decide) hend
  have hprolog : Xml.Cut .prolog ['<', 'R', '>', '<', 'x', '>'] _ (.content 2) :=
    .step rfl (by decide) hroot
  have hcut : Xml.Cut .declaration ['<', 'R', '>', '<', 'x', '>'] _ (.content 2) :=
    .step rfl (by decide) hprolog
  have hempty : String.ofList (['<', 'R', '>', '<', 'x', '>'] ++
      ([] ++ ['<', '/', 'x', '>', '<', '/', 'R', '>'])) = emptyText := by decide +kernel
  have hblank : String.ofList (['<', 'R', '>', '<', 'x', '>'] ++
      ([] ++ ([' '] ++ ['<', '/', 'x', '>', '<', '/', 'R', '>']))) = blankText := by decide +kernel
  rw [← hempty, ← hblank]
  exact .intro hcut rfl rfl List.not_mem_nil rfl
    ⟨by decide, List.forall_mem_singleton.2 (by decide)⟩

/-- Both members of a twin are made up of members, so that no text of theirs is read. -/
theorem not_readsText_twin : ¬ReadsText (parcelsCall "Twin" twinLayout) ["x"] := by
  rintro (⟨houtput, -, hlook, hsteps, htext⟩ | ⟨houtput, hpayload, -⟩ | ⟨houtput, hpayload, -⟩)
  · cases hlook with
    | output houtput _ hlook =>
      obtain rfl := Option.some.inj houtput
      cases hlook with
      | «structure» => cases htext
      | member hmem hname hlook =>
        have hrest := (List.cons.inj hsteps).2
        simp only [twinLayout, List.mem_cons, List.not_mem_nil, or_false] at hmem
        obtain rfl | rfl := hmem
        · cases hlook with
          | «structure» => cases htext
          | member => cases hrest
        · cases hlook with
          | items | itemElements => cases htext
          | item horigin => exact horigin rfl
          | itemElement _ hway => cases hway <;> cases hrest
    | wrapper _ hwrapper => cases hwrapper
    | result _ hwrapper => cases hwrapper
  · obtain rfl := Option.some.inj houtput
    cases hpayload
  · obtain rfl := Option.some.inj houtput
    cases hpayload

theorem read_foldedText : Xml.read (Text.utf8 foldedText) =
    .ok (some ⟨"R", .object [("x", .string "")]⟩) := by
  have hscan : Xml.Token.scan foldedText = ([.elementStart ⟨"", "R"⟩, .tagEnd,
      .elementStart ⟨"", "x"⟩, .emptyEnd, .elementEnd ⟨"", "R"⟩], true) := by decide +kernel
  exact Xml.read_utf8_eq_some.2 ⟨by decide +kernel, _, hscan, _, rfl, rfl⟩

/-- A twin is read as before when its tag is written as two, with white space between them. -/
theorem twin_read_with_spacing :
    let call := parcelsCall "Twin" twinLayout
    originOf call.service.protocol = .xml ∧
    Xml.read (Text.utf8 foldedText) = .ok (some ⟨"R", .object [("x", .string "")]⟩) ∧
    Relation.ReflTransGen (GainsSpace call) (Text.utf8 foldedText) (Text.utf8 blankText) ∧
    read call ⟨200, [], Text.utf8 foldedText⟩ = read call ⟨200, [], Text.utf8 blankText⟩ := by
  intro call
  have hempty : GainsSpace call (Text.utf8 foldedText) (Text.utf8 emptyText) :=
    ⟨["x"], not_readsText_twin, .inr unfolds_x⟩
  have hblank : GainsSpace call (Text.utf8 emptyText) (Text.utf8 blankText) :=
    ⟨["x"], not_readsText_twin, .inl spacedAt_x⟩
  have hall := (Relation.ReflTransGen.single hempty).tail hblank
  exact ⟨rfl, read_foldedText, hall, spacing_ignored rfl read_foldedText hall 200 []⟩

/-- A structure of which two members stand under one name, a structure and a text. -/
def pairLayout : Layout where
  heading := ⟨"Pair", ⟨.output, "Pair"⟩, none, none⟩
  members := [
    (⟨"owner", "owner", "x", false, .body, false, none⟩, ownerLayout.toTarget),
    (⟨"text", "text", "x", false, .body, false, none⟩, .scalar .string none false)]

theorem read_blankText : Xml.read (Text.utf8 blankText) =
    .ok (some ⟨"R", .object [("x", .string " ")]⟩) := by
  have hscan : Xml.Token.scan blankText = ([.elementStart ⟨"", "R"⟩, .tagEnd,
      .elementStart ⟨"", "x"⟩, .tagEnd, .text " ", .elementEnd ⟨"", "x"⟩,
      .elementEnd ⟨"", "R"⟩], true) := by decide +kernel
  exact Xml.read_utf8_eq_some.2 ⟨by decide +kernel, _, hscan, _, rfl, rfl⟩

/-- White space comes into the empty content of an element that is read as an owner, but also as a
text. -/
theorem spacing_of_pair_is_read :
    let call := parcelsCall "Pair" pairLayout
    call.Compiled ∧
    Xml.read (Text.utf8 emptyText) = .ok (some ⟨"R", .object [("x", .string "")]⟩) ∧
    SpacedAt ["x"] (Text.utf8 emptyText) (Text.utf8 blankText) ∧
    Looks call [.member "x"] (.structure ownerLayout.members) ∧
    read call ⟨200, [], Text.utf8 emptyText⟩ ≠ read call ⟨200, [], Text.utf8 blankText⟩ := by
  intro call
  have hempty : Xml.read (Text.utf8 emptyText) = _ := unfolds_x.read read_foldedText
  have hread {payload : Bytes} {root : Xml.Root} (h : Xml.read payload = .ok (some root)) :
      read call ⟨200, [], payload⟩ = ofDocument call root.value := by
    rw [read_eq_bind rfl]
    show (decodeBody .xml ⟨200, [], payload⟩ >>= _) >>= _ = _
    rw [decodeBody_of_read h, ok_bind]
    cases ofDocument call root.value <;> rfl
  refine ⟨⟨Memory, inferInstance, Run.start ⟨parcelsModel, {}⟩ {}, "Pair",
    ⟨_, _, [], .load load_parcelsDocument, rfl⟩, rfl⟩, hempty, spacedAt_x,
    .output rfl rfl (.member List.mem_cons_self rfl .structure), ?_⟩
  rw [hread hempty, hread read_blankText]
  have hdoc : ofDocument call (.object [("x", .string "")]) = .ok ⟨"Pair",
      [("owner", .structure "Owner" []), ("text", .string "")]⟩ := rfl
  have hlater : ofDocument call (.object [("x", .string " ")]) = .ok ⟨"Pair",
      [("owner", .structure "Owner" []), ("text", .string " ")]⟩ := rfl
  rw [hdoc, hlater]
  simp

end Response
end ServiceBindings
