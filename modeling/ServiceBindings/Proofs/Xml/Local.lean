import ServiceBindings.Proofs.Xml.Stops

/-! Every step over a text looks no further than to the end of a tag. Where it comes to such an end,
it does not depend on what follows. -/
namespace ServiceBindings.Xml.Token
open Leaves (rest)

theorem closes_comment? : Closes comment? :=
  (stops_need? _).closes ((closes_upTo? (by decide) (by decide)).andThen (passes_check (fun body =>
    body.getLast? = some '-' ∨ (List.zip body body.tail).any (· = ('-', '-')) = true)
    passes_second)) (eq_none_of_rest_eq_nil rfl)

theorem closes_instruction? : Closes instruction? :=
  .ite .fails ((stops_need? _).closes (stops_anyName?.closes (.uncurry fun _ =>
    stops_skipSpace.closes ((closes_upTo? (by decide) (by decide)).andThen passes_second)
      (eq_none_of_rest_eq_nil rfl)) (eq_none_of_rest_eq_nil_found fun _ => rfl))
    (eq_none_of_rest_eq_nil rfl))
    (startsWith_more (by decide))

theorem stops_declarationSpace? : Stops GoesOn declarationSpace? :=
  .ite stops_skipSpace .fails fun chars text hchars => by
    rw [head?_more hchars, startsWith_more (by decide) chars text hchars]

/-- A named value that may be missing. -/
theorem stops_declarationPart? (name : String) (hname : '>' ∉ name.toList.dropLast)
    (valid : List Char → Bool) {f g : List Char → Option (List Char)} (hf : Stops GoesOn f)
    (hg : Stops GoesOn g) :
    Stops GoesOn fun chars => (declarationPart? name valid chars).bind fun
      | some left => f left
      | none => g chars := by
  have hpart : Stops GoesOn _ :=
    stops_equals?.comp (stops_quote?.comp (.uncurry fun q => (stops_value? q valid).comp hf))
  refine (hpart.expected hg name hname hpart.not_goesOn).congr fun chars => ?_
  unfold declarationPart?
  cases need? name chars with
  | none => rfl
  | some left =>
    simp only [Option.bind_eq_bind, Option.bind_assoc]
    refine congrArg _ (funext fun left => congrArg _ (funext fun found => congrArg _ (funext
      fun left => ?_)))
    split_ifs <;> rfl

theorem stops_declaration? : Stops GoesOn declaration? := by
  have hlast := stops_skipSpace.comp (stops_need? "?>")
  have hend := (stops_declarationPart? "standalone" (by decide)
    (fun value => value = "yes".toList || value = "no".toList) hlast hlast).passOver
  have hencoding := stops_declarationPart? "encoding" (by decide)
    (·.all fun c => c.isAlphanum || c == '.' || c == '-' || c == '_')
    (stops_declarationSpace?.comp hend) hend
  have hversion := stops_declarationPart? "version" (by decide) isVersion
    (stops_declarationSpace?.comp hencoding) .fails
  refine ((stops_need? "<?xml ").comp (stops_skipSpace.comp hversion)).congr fun chars => ?_
  unfold declaration?
  refine congrArg _ (funext fun left => congrArg _ (funext fun found => ?_))
  cases found <;> rfl

/-- The address of an external part, which may be missing. -/
theorem stops_externalId? {β : Type} [Leaves β] {f g : List Char → Option β}
    (hf : Stops GoesOn f) (hg : Stops GoesOn g) :
    Stops GoesOn fun chars => (externalId? chars).bind fun
      | some left => f left
      | none => g chars := by
  have hsystem := stops_needSpace?.comp (stops_literal?.comp hf)
  have hpublic := stops_needSpace?.comp (stops_literal?.comp hsystem)
  refine (hsystem.expected (hpublic.expected hg "PUBLIC" (by decide)
    hpublic.not_goesOn) "SYSTEM" (by decide) hsystem.not_goesOn).congr fun chars => ?_
  unfold externalId?
  cases need? "SYSTEM" chars with
  | some left =>
    simp only [Option.bind_eq_bind, Option.bind_assoc]
    rfl
  | none =>
    cases need? "PUBLIC" chars with
    | some left =>
      simp only [Option.bind_eq_bind, Option.bind_assoc]
      rfl
    | none => rfl

/-- The sign behind the head of a document type tells whether declarations come next. -/
theorem stops_doctypeEnd? : Stops GoesOn fun chars : List Char => match chars with
    | '[' :: left => some (true, left)
    | '>' :: left => some (false, left)
    | _ => none where
  suffix h := by
    split at h
    · obtain rfl := Option.some.inj h
      exact List.suffix_cons _ _
    · obtain rfl := Option.some.inj h
      exact List.suffix_cons _ _
    · cases h
  more _ h _ text := by
    split at h
    · obtain rfl := Option.some.inj h
      rfl
    · obtain rfl := Option.some.inj h
      rfl
    · cases h

theorem stops_doctype? : Stops GoesOn doctype? := by
  have hend := stops_skipSpace.comp stops_doctypeEnd?
  exact (stops_need? "<!DOCTYPE").comp (stops_needSpace?.comp (stops_anyName?.comp (.uncurry
    fun _ => stops_skipSpace.comp (stops_externalId? hend hend).passOver)))

theorem stops_notation? : Stops GoesOn notation? := by
  have hname := stops_anyName?.comp passes_second.closes.stops
  have hnothing : Passes fun chars : List Char => some chars :=
    .leaves (fun _ => rfl) fun _ _ => rfl
  refine stops_needSpace?.comp ((Stops.ite (c := fun chars : List Char => chars = [])
    hnothing.closes.stops hname fun chars text hchars => ?_).congr fun chars => ?_)
  · refine iff_of_false ?_ hchars.ne_nil
    exact fun h => hchars.ne_nil (List.append_eq_nil_iff.1 h).1
  · cases chars with
    | nil => rfl
    | cons c others => exact Option.map_eq_bind ..

/-- The name of a notation behind the address of an external part. -/
theorem stops_notationPart? (general : Bool) : Stops GoesOn fun chars : List Char =>
    match if general then need? "NDATA" (skipSpace chars) else none with
    | some left => notation? left
    | none => some chars := by
  have hnothing : Passes fun chars : List Char => some chars :=
    .leaves (fun _ => rfl) fun _ _ => rfl
  cases general with
  | false => exact hnothing.closes.stops
  | true =>
    refine (Stops.ite (c := fun chars => Text.startsWith "NDATA" (skipSpace chars) = true)
      (stops_skipSpace.comp ((stops_need? "NDATA").comp stops_notation?)) hnothing.closes.stops
      (startsWith_skipSpace_more (by decide))).congr fun chars => ?_
    rw [if_pos rfl]
    unfold Text.startsWith need?
    dsimp only [Option.bind_some]
    cases Text.expect? "NDATA".toList (skipSpace chars) <;> rfl

theorem isSome_quote?_cons (c : Char) (chars others : List Char) :
    (quote? (c :: chars)).isSome = (quote? (c :: others)).isSome := by
  unfold quote?
  split <;> split <;> simp_all

theorem stops_entityMeaning? (general : Bool) : Stops GoesOn (entityMeaning? general) := by
  have hexternal := stops_externalId? (stops_notationPart? general) .fails
  refine (Stops.ite (c := fun chars => (quote? chars).isSome = true) stops_literal? hexternal
    fun chars text hchars => ?_).congr fun chars => ?_
  · cases chars with
    | nil => cases hchars
    | cons c others =>
      have hsame := isSome_quote?_cons c (others ++ text) others
      exact hsame ▸ .rfl
  · unfold entityMeaning?
    cases quote? chars with
    | some found => rfl
    | none =>
      refine congrArg (Option.bind (externalId? chars)) (funext fun found => ?_)
      cases found <;> rfl

theorem match_percent {α : Type} (f g : List Char → α) (chars : List Char) :
    (match chars with
      | '%' :: left => f left
      | chars => g chars) = match need? "%" chars with
      | some left => f left
      | none => g chars := by
  cases chars with
  | nil => rfl
  | cons c others =>
    by_cases hc : c = '%'
    · subst hc
      rfl
    · have hneed : need? "%" (c :: others) = none := by simp [need?, Text.expect?, Ne.symm hc]
      rw [hneed]
      split
      · next heq => exact absurd (List.cons.inj heq).1 hc
      · rfl

theorem stops_entity? : Stops GoesOn entity? := by
  have hrest (general : Bool) := stops_anyName?.comp (.uncurry fun _ => stops_needSpace?.comp
    ((stops_entityMeaning? general).comp (stops_skipSpace.comp (stops_need? ">"))))
  have hpercent := (stops_needSpace?.comp (hrest false)).expected (hrest true) "%"
    (by decide) (stops_needSpace?.comp (hrest false)).not_goesOn
  refine ((stops_need? "<!ENTITY").comp (stops_needSpace?.comp hpercent)).congr fun chars => ?_
  unfold entity?
  refine congrArg _ (funext fun left => congrArg _ (funext fun chars => ?_))
  refine (match_percent _ _ chars).trans ?_
  cases need? "%" chars with
  | none => rfl
  | some left => exact Option.bind_map ..

theorem passes_passing (place : Place) :
    Passes fun left : List Char => some (⟨none, place, left⟩ : Step) :=
  .leaves (fun _ => rfl) fun _ _ => rfl

theorem Stops.passing {f : List Char → Option (List Char)} (h : Stops GoesOn f) (place : Place) :
    Stops GoesOn fun chars => passing place (f chars) :=
  (h.comp (passes_passing place).closes.stops).congr fun _ => Option.map_eq_bind ..

theorem Closes.passing {f : List Char → Option (List Char)} (h : Closes f) (place : Place) :
    Closes fun chars => Token.passing place (f chars) :=
  (h.andThen (passes_passing place)).congr fun _ => Option.map_eq_bind ..

/-- Comments, instructions and white space are passed over first. -/
theorem stops_misc? (place : Place) {f : List Char → Option Step} (hf : Stops GoesOn f) :
    Stops GoesOn fun chars => (misc? place chars).getD (f chars) := by
  have hspace : Stops GoesOn fun chars =>
      if chars.head?.any isSpace then passing place (some (skipSpace chars)) else f chars :=
    .ite (stops_skipSpace.passing place) hf fun chars text hchars => by rw [head?_more hchars]
  have hinstruction : Stops GoesOn fun chars => if Text.startsWith "<?" chars then
      passing place (instruction? chars) else _ :=
    .ite (closes_instruction?.stops.passing place) hspace (startsWith_more (by decide))
  have hcomment : Stops GoesOn fun chars => if Text.startsWith "<!--" chars then
      passing place (comment? chars) else _ :=
    .ite (closes_comment?.stops.passing place) hinstruction (startsWith_more (by decide))
  refine hcomment.congr fun chars => ?_
  unfold misc?
  split_ifs <;> rfl

theorem stops_prologStep? : Stops GoesOn prologStep? := by
  have hdoctype : Stops GoesOn fun chars => (doctype? chars).map fun found =>
      (⟨none, if found.1 then .doctype else .beforeRoot, found.2⟩ : Step) :=
    (stops_doctype?.comp (.uncurry fun opened =>
      (passes_passing (if opened then .doctype else .beforeRoot)).closes.stops)).congr fun _ =>
        Option.map_eq_bind ..
  exact .ite hdoctype (stops_misc? _ (passes_passing _).closes.stops) (startsWith_more (by decide))

theorem stops_elementStart? (depth : Nat) : Stops GoesOn (elementStart? depth) := by
  have hstep (name : Name) : Passes fun left : List Char =>
      some (⟨some (.elementStart name), .tag depth, left⟩ : Step) :=
    .leaves (fun _ => rfl) fun _ _ => rfl
  exact (stops_need? _).comp (stops_read?.comp (.uncurry fun name => (hstep name).closes.stops))

theorem stops_doctypeStep? : Stops GoesOn doctypeStep? := by
  have hdeclaration : Stops GoesOn fun chars : List Char =>
      if Text.startsWith "<!ELEMENT" chars || Text.startsWith "<!ATTLIST" chars ||
          Text.startsWith "<!NOTATION" chars then
        passing .doctype (need? ">" (chars.dropWhile (· ≠ '>')))
      else none :=
    .ite (((stops_dropWhile _).comp (stops_need? ">")).passing .doctype) .fails
      fun chars text hchars => by
        have hsame {expected : String} (h : '>' ∉ expected.toList.dropLast) :=
          startsWith_more h chars text hchars
        rw [Bool.or_eq_true, Bool.or_eq_true, Bool.or_eq_true, Bool.or_eq_true,
          hsame (by decide), hsame (by decide), hsame (by decide)]
  have hend : Stops GoesOn fun chars : List Char => if Text.startsWith "]" chars then
      passing .beforeRoot (need? ">" (skipSpace chars.tail)) else _ :=
    .ite ((stops_tail.comp (stops_skipSpace.comp (stops_need? ">"))).passing .beforeRoot)
      hdeclaration (startsWith_more (by decide))
  have hentity : Stops GoesOn fun chars => if Text.startsWith "<!ENTITY" chars then
      passing .doctype (entity? chars) else _ :=
    .ite (stops_entity?.passing .doctype) hend (startsWith_more (by decide))
  refine (stops_misc? .doctype hentity).congr fun chars => ?_
  unfold doctypeStep?
  cases misc? .doctype chars <;> rfl

theorem stops_beforeRootStep? : Stops GoesOn beforeRootStep? :=
  stops_misc? _ (stops_elementStart? 0)

theorem closes_elementEnd? (depth : Nat) : Closes (elementEnd? depth) := by
  have hstep (name : Name) : Passes fun left : List Char =>
      some (⟨some (.elementEnd name), placeWithin (depth - 1), left⟩ : Step) :=
    .leaves (fun _ => rfl) fun _ _ => rfl
  exact (stops_need? _).closes (stops_read?.closes (.uncurry fun name => stops_skipSpace.closes
    ((closes_need? ">").andThen (hstep name)) (eq_none_of_rest_eq_nil rfl))
    (eq_none_of_rest_eq_nil_found fun _ => rfl)) (eq_none_of_rest_eq_nil rfl)

theorem stops_text? (depth : Nat) : Stops GoesOn (text? depth) := by
  have hstep : Passes fun found : List Char × List Char =>
      some (⟨some (.text (String.ofList found.1)), .content depth, found.2⟩ : Step) :=
    .leaves (fun _ => rfl) fun _ _ => rfl
  exact (stops_runOf? _).comp
    (passes_check (fun run => (upTo? "]]>" run).isSome = true) hstep).closes.stops

theorem closes_cdata? (depth : Nat) : Closes (cdata? depth) := by
  have hstep : Passes fun found : List Char × List Char =>
      some (⟨some (.cdata (String.ofList found.1)), .content depth, found.2⟩ : Step) :=
    .leaves (fun _ => rfl) fun _ _ => rfl
  exact (stops_need? _).closes ((closes_upTo? (by decide) (by decide)).andThen hstep)
    (eq_none_of_rest_eq_nil rfl)

theorem stops_attribute? (depth : Nat) : Stops GoesOn (attribute? depth) := by
  have hstep (name : Name) (value : List Char) : Passes fun left : List Char =>
      some (⟨some (.attribute name (String.ofList value)), .tag depth, left⟩ : Step) :=
    .leaves (fun _ => rfl) fun _ _ => rfl
  exact stops_read?.comp (.uncurry fun name => stops_equals?.comp (stops_quote?.comp (.uncurry
    fun q => (stops_runOf? fun c => c ≠ q && c ≠ '<').comp (.uncurry fun value =>
      (stops_need? (String.singleton q)).comp (hstep name value).closes.stops))))

/-- A step that ends where it is seen to end: it takes no name, attribute or text. -/
def IsClosed (step : Step) : Prop :=
  match step.token with
  | some (.elementStart _) | some (.attribute _ _) | some (.text _) => False
  | _ => True

/-- Something is left, or what was taken is complete by itself. -/
def IsWhole (step : Step) : Prop :=
  GoesOn step ∨ IsClosed step

theorem Stops.whole {f : List Char → Option Step} (h : Stops GoesOn f)
    (hf : ∀ {a b}, f a = some b → ¬IsClosed b) : Stops IsWhole f :=
  h.mono fun hb hends => hends.resolve_right (hf hb)

theorem contentStep?_of_head?_ne {chars : List Char} (h : chars.head? ≠ some '<') (depth : Nat) :
    contentStep? depth chars = text? depth chars := by
  refine contentStep?.eq_5 depth chars ?_ ?_ ?_ ?_
  all_goals
    rintro others rfl
    exact h rfl

theorem contentStep?_eq (depth : Nat) (chars : List Char) : contentStep? depth chars =
    if Text.startsWith "<!" chars then
      if Text.startsWith "<!--" chars then passing (.content depth) (comment? chars)
      else cdata? depth chars
    else if Text.startsWith "<?" chars then passing (.content depth) (instruction? chars)
    else if Text.startsWith "</" chars then elementEnd? depth chars
    else if Text.startsWith "<" chars then elementStart? depth chars
    else text? depth chars := by
  rcases chars with _ | ⟨c, others⟩
  · rfl
  by_cases hc : c = '<'
  · subst hc
    rcases others with _ | ⟨d, others⟩
    · rfl
    by_cases hbang : d = '!'
    · subst hbang
      rfl
    by_cases hask : d = '?'
    · subst hask
      rfl
    by_cases hslash : d = '/'
    · subst hslash
      rfl
    rw [contentStep?.eq_4 depth (d :: others) (fun _ h => hbang (List.cons.inj h).1)
      (fun _ h => hask (List.cons.inj h).1) fun _ h => hslash (List.cons.inj h).1]
    simp [Text.startsWith, Text.expect?, Ne.symm hbang, Ne.symm hask, Ne.symm hslash]
  · rw [contentStep?_of_head?_ne (by simpa using hc)]
    simp [Text.startsWith, Text.expect?, Ne.symm hc]

theorem stops_contentStep? (depth : Nat) : Stops IsWhole (contentStep? depth) := by
  have hstart : Stops IsWhole (elementStart? depth) := (stops_elementStart? depth).whole fun h => by
    unfold elementStart? at h
    simp only [Option.bind_eq_bind, Option.bind_eq_some_iff, Option.some.injEq] at h
    obtain ⟨_, -, _, -, rfl⟩ := h
    exact not_false
  have htext : Stops IsWhole (text? depth) := (stops_text? depth).whole fun h => by
    unfold text? at h
    simp only [Option.bind_eq_bind, Option.bind_eq_some_iff] at h
    obtain ⟨_, -, h⟩ := h
    split_ifs at h
    obtain rfl := Option.some.inj h
    exact not_false
  refine Stops.congr (.ite (.ite ((closes_comment?.passing _).stops) (closes_cdata? depth).stops
    (startsWith_more ?_)) (.ite (closes_instruction?.passing _).stops (.ite
      (closes_elementEnd? depth).stops (.ite hstart htext (startsWith_more ?_))
        (startsWith_more ?_)) (startsWith_more ?_)) (startsWith_more ?_)) (contentStep?_eq depth)
  all_goals decide

theorem tagStep?_eq (depth : Nat) (chars : List Char) : tagStep? depth chars =
    if Text.startsWith "/" (skipSpace chars) then
      (need? "/" (skipSpace chars)).bind fun left => (need? ">" left).bind fun left =>
        some ⟨some .emptyEnd, placeWithin depth, left⟩
    else if Text.startsWith ">" (skipSpace chars) then
      (need? ">" (skipSpace chars)).bind fun left =>
        some ⟨some .tagEnd, .content (depth + 1), left⟩
    else if chars.head?.any isSpace then attribute? depth (skipSpace chars)
    else none := by
  unfold tagStep?
  generalize skipSpace chars = skipped
  split
  · exact Option.map_eq_bind ..
  · rfl
  · next hslash hend =>
    have hnone {d : Char} (h : ∀ left, skipped = d :: left → False) :
        Text.expect? [d] skipped = none := by
      rw [Text.expect?_eq_none_iff]
      rintro ⟨left, rfl⟩
      exact h left rfl
    simp [Text.startsWith, hnone hslash, hnone hend]

theorem stops_tagStep? (depth : Nat) : Stops IsWhole (tagStep? depth) := by
  have hempty : Passes fun left : List Char =>
      some (⟨some .emptyEnd, placeWithin depth, left⟩ : Step) :=
    .leaves (fun _ => rfl) fun _ _ => rfl
  have hend : Passes fun left : List Char =>
      some (⟨some .tagEnd, .content (depth + 1), left⟩ : Step) :=
    .leaves (fun _ => rfl) fun _ _ => rfl
  have hclose := stops_skipSpace.closes ((stops_need? "/").closes
    ((closes_need? ">").andThen hempty) (eq_none_of_rest_eq_nil rfl)) (eq_none_of_rest_eq_nil rfl)
  have hopen := stops_skipSpace.closes ((closes_need? ">").andThen hend)
    (eq_none_of_rest_eq_nil rfl)
  have hattribute := (stops_skipSpace.comp (stops_attribute? depth)).whole fun h => by
    unfold attribute? at h
    simp only [Option.bind_eq_bind, Option.bind_eq_some_iff, Option.some.injEq] at h
    obtain ⟨_, -, _, -, _, -, _, -, _, -, _, -, rfl⟩ := h
    exact not_false
  refine Stops.congr (.ite hclose.stops (.ite hopen.stops (.ite hattribute .fails
    fun chars text hchars => ?_) (startsWith_skipSpace_more (by decide)))
      (startsWith_skipSpace_more (by decide))) (tagStep?_eq depth)
  rw [head?_more hchars]

theorem stops_step? (place : Place) : Stops GoesOn (step? place) := by
  have hwhole {f : List Char → Option Step} (h : Stops IsWhole f) : Stops GoesOn f :=
    h.mono fun _ => .inl
  cases place with
  | declaration =>
    exact .ite (stops_declaration?.passing .prolog) (passes_passing .prolog).closes.stops
      (startsWith_more (by decide))
  | prolog => exact stops_prologStep?
  | doctype => exact stops_doctypeStep?
  | beforeRoot => exact stops_beforeRootStep?
  | content depth => exact hwhole (stops_contentStep? depth)
  | tag depth => exact hwhole (stops_tagStep? depth)
  | afterRoot => exact stops_misc? .afterRoot .fails

end ServiceBindings.Xml.Token
