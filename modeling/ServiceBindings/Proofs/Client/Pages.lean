import Mathlib.Data.List.Chain
import Mathlib.Data.List.Perm.Subperm
import ServiceBindings.Proofs.Client.Session

/-! What sessions come to: one request at a time, no token twice, and an end that is final. -/
namespace ServiceBindings
open Plan (Call)

namespace Pages
variable {first : Pages} {earlier : List Http.Request} {session : Session}

theorem Turn.Follows.sent {turn : Turn} {before : List Turn} (h : turn.Follows first before) :
    turn.sent.length ≤ 1 ∧
      ∀ request ∈ turn.sent, Request.build first.call first.endpoint turn.input = .ok request := by
  unfold Turn.Follows at h
  split at h
  · simp [h.2]
  · rw [h.2.2, Pages.requestsOf]
    cases Request.build first.call first.endpoint turn.input <;> simp [Except.toOption]

theorem exists_of_upcoming?_concat {turns : List Turn} {turn : Turn} {input : Record}
    (h : upcoming? first (turns ++ [turn]) = some input) :
    ∃ page value text, turn.result = some (.ok page) ∧
      page.get? first.pagination.outputToken = some value ∧ tokenText? value = some text ∧
      input = turn.input.set first.pagination.inputToken value := by
  cases hresult : turn.result with
  | none => cases (upcoming?_concat_of_none turns hresult).symm.trans h
  | some result =>
    cases result with
    | error error => cases (upcoming?_concat_of_error turns hresult).symm.trans h
    | ok page =>
      have hsome : upcoming? first (turns ++ [turn]) ≠ none := by simp [h]
      rw [ne_eq, upcoming?_concat_eq_none hresult] at hsome
      push Not at hsome
      obtain ⟨value, text, hvalue, htext, hnew⟩ := hsome
      rw [upcoming?_concat_of_new hresult hvalue htext hnew] at h
      exact ⟨page, value, text, rfl, hvalue, htext, (Option.some.inj h).symm⟩

/-- A turn with a request behind another turn asks with the token of that turn's page. -/
theorem Turn.Follows.exists_token {turn previous : Turn} {before : List Turn}
    (h : turn.Follows first (before ++ [previous])) (hsent : turn.sent ≠ []) :
    ∃ page value text, previous.result = some (.ok page) ∧
      page.get? first.pagination.outputToken = some value ∧ tokenText? value = some text ∧
      turn.input = first.pagination.resized
        (previous.input.set first.pagination.inputToken value) turn.sizes := by
  unfold Turn.Follows at h
  cases hupcoming : upcoming? first (before ++ [previous]) with
  | none =>
    rw [hupcoming] at h
    exact absurd h.2 hsent
  | some input =>
    rw [hupcoming] at h
    obtain ⟨page, value, text, hresult, hvalue, htext, rfl⟩ := exists_of_upcoming?_concat hupcoming
    exact ⟨page, value, text, hresult, hvalue, htext, h.1⟩

theorem Session.Sound.nothing_later (h : session.Sound first earlier) {before : List Turn}
    {turn : Turn} {later : List Turn} (hsplit : session.turns = before ++ turn :: later)
    (hlast : upcoming? first (before ++ [turn]) = none) :
    ∀ other ∈ later, other.result = none ∧ other.sent = [] := by
  induction later generalizing before turn with
  | nil => simp
  | cons next rest ih =>
    have hsplit' : session.turns = (before ++ [turn]) ++ next :: rest := by simp [hsplit]
    have hnext := h.follows _ _ _ hsplit'
    rw [Turn.Follows, hlast] at hnext
    have hrest := ih hsplit' (upcoming?_concat_of_none _ hnext.1)
    intro other hmem
    rcases List.mem_cons.1 hmem with rfl | hmem
    · exact hnext
    · exact hrest other hmem

theorem length_flatMap_sent_le {pagination : Pagination} {turns : List Turn}
    (h : ∀ turn ∈ turns, turn.sent.length ≤ 1 ∧
      (turn.sent ≠ [] → (turn.input.tokenText? pagination.inputToken).isSome)) :
    (turns.flatMap (·.sent)).length ≤ (used pagination turns).length := by
  induction turns with
  | nil => exact Nat.le_refl 0
  | cons turn rest ih =>
    have hrest := ih fun other hmem => h other (List.mem_cons_of_mem _ hmem)
    obtain ⟨hlength, htoken⟩ := h turn List.mem_cons_self
    have hturn : turn.sent.length ≤ (used pagination [turn]).length := by
      by_cases hsent : turn.sent = []
      · simp [hsent]
      · obtain ⟨text, htext⟩ := Option.isSome_iff_exists.1 (htoken hsent)
        simpa [used, hsent, htext] using hlength
    rw [← List.singleton_append, used_append, List.flatMap_append, List.length_append,
      List.length_append, List.flatMap_singleton]
    omega

/-- Every request but the first carries a token that came with a page. -/
theorem Session.Sound.exists_token (h : session.Sound first earlier)
    (hsize : first.pagination.pageSize ≠ some first.pagination.inputToken) {turn : Turn}
    {rest : List Turn} (hturns : session.turns = turn :: rest) {other : Turn} (hmem : other ∈ rest)
    (hsent : other.sent ≠ []) :
    ∃ previous ∈ session.turns, ∃ page value text, previous.result = some (.ok page) ∧
      page.get? first.pagination.outputToken = some value ∧ tokenText? value = some text ∧
      other.input.tokenText? first.pagination.inputToken = some text := by
  obtain ⟨between, later, rfl⟩ := List.append_of_mem hmem
  -- The turn before the other one is the first or stands between the two.
  obtain ⟨front, previous, hfront⟩ :=
    (List.eq_nil_or_concat (turn :: between)).resolve_left (List.cons_ne_nil _ _)
  have hsplit : session.turns = (front ++ [previous]) ++ other :: later := by
    rw [← List.concat_eq_append, ← hfront, hturns, List.cons_append]
  obtain ⟨page, value, text, hresult, hvalue, htext, hinput⟩ :=
    (h.follows _ _ _ hsplit).exists_token hsent
  refine ⟨previous, by simp [hsplit], page, value, text, hresult, hvalue, htext, ?_⟩
  rw [hinput, tokenText?_resized hsize, tokenText?_set, htext]

theorem Session.Sound.length_sent_le (h : session.Sound first earlier)
    (hsize : first.pagination.pageSize ≠ some first.pagination.inputToken) {tokens : List Value}
    (htokens : ∀ turn ∈ session.turns, ∀ page value, turn.result = some (.ok page) →
      page.get? first.pagination.outputToken = some value → (tokenText? value).isSome →
      value ∈ tokens) :
    (session.turns.flatMap (·.sent)).length ≤ tokens.length + 1 := by
  cases hturns : session.turns with
  | nil => simp
  | cons turn rest =>
    have hmost (other : Turn) (hmem : other ∈ turn :: rest) : other.sent.length ≤ 1 := by
      obtain ⟨before, later, hsplit⟩ := List.append_of_mem hmem
      exact (h.follows _ _ _ (hturns.trans hsplit)).sent.1
    have hrest : (rest.flatMap (·.sent)).length ≤ (used first.pagination rest).length := by
      refine length_flatMap_sent_le fun other hmem => ⟨?_, fun hsent => ?_⟩
      · exact hmost other (List.mem_cons_of_mem turn hmem)
      · obtain ⟨-, -, -, -, text, -, -, -, htext⟩ := h.exists_token hsize hturns hmem hsent
        simp [htext]
    -- Behind the first turn every token came with a page, so the service chose it.
    have hsubset : used first.pagination rest ⊆ tokens.filterMap tokenText? := by
      intro text hmem
      obtain ⟨other, hother, htext⟩ := List.mem_flatMap.1 hmem
      split_ifs at htext with hsent
      · simp at htext
      · obtain ⟨previous, hprevious, page, value, text', hresult, hvalue, hvalueText, htext'⟩ :=
          h.exists_token hsize hturns hother hsent
        obtain rfl : text = text' := by simpa [htext'] using htext
        exact List.mem_filterMap.2 ⟨value,
          htokens previous hprevious page value hresult hvalue (by simp [hvalueText]), hvalueText⟩
    have hnodup : (used first.pagination rest).Nodup := by
      have hall := h.nodup
      rw [hturns, ← List.singleton_append, used_append] at hall
      exact (List.nodup_append.1 hall).2.1
    have hcount : (used first.pagination rest).length ≤ tokens.length :=
      (hnodup.subperm hsubset).length_le.trans (List.length_filterMap_le _ _)
    have hturn := hmost turn List.mem_cons_self
    rw [List.flatMap_cons, List.length_append]
    omega

theorem sound_of_paginate {client : Client} {name : String} {input : Input} {pages : Pages}
    (h : client.paginate name input = .ok pages) (transport : Replay) :
    (Session.ofPages pages transport).Sound pages transport.requests := by
  unfold Client.paginate at h
  obtain ⟨call, -, h⟩ := bind_eq_ok.1 h
  cases hpagination : call.operation.pagination with
  | none =>
    rw [hpagination] at h
    cases h
  | some pagination =>
    rw [hpagination] at h
    obtain ⟨record, -, h⟩ := bind_eq_ok.1 h
    obtain rfl := Except.ok.inj h
    exact Session.sound_start call pagination client.endpoint record transport

/-- Whatever the service answers and in whatever order pages are asked for and resized: every turn
sends at most one request, and nothing else is sent; the input of every request but the first is
that of the one before it with the token of its page; no two requests carry tokens of one text, so
their number is bounded by that of the tokens; and nothing comes after an error or a last page. -/
theorem sequence_of_paginate {client : Client} {name : String} {input : Input} {pages : Pages}
    (h : client.paginate name input = .ok pages)
    (hsize : pages.pagination.pageSize ≠ some pages.pagination.inputToken) (transport : Replay)
    (steps : List Step) :
    let pagination := pages.pagination
    let session := (Session.ofPages pages transport).after steps
    session.transport.requests = transport.requests ++ session.turns.flatMap (·.sent) ∧
    (∀ turn ∈ session.turns, turn.sent.length ≤ 1 ∧
      ∀ request ∈ turn.sent, Request.build pages.call pages.endpoint turn.input = .ok request) ∧
    (∀ turn ∈ session.turns.head?, turn.input = pagination.resized pages.input turn.sizes) ∧
    session.turns.IsChain (fun previous turn => turn.sent ≠ [] →
      ∃ page value, previous.result = some (.ok page) ∧
        page.get? pagination.outputToken = some value ∧
        turn.input =
          pagination.resized (previous.input.set pagination.inputToken value) turn.sizes) ∧
    (used pagination session.turns).Nodup ∧
    (∀ tokens : List Value,
      (∀ turn ∈ session.turns, ∀ page value, turn.result = some (.ok page) →
        page.get? pagination.outputToken = some value → (tokenText? value).isSome →
        value ∈ tokens) →
      (session.turns.flatMap (·.sent)).length ≤ tokens.length + 1) ∧
    ∀ before turn later, session.turns = before ++ turn :: later →
      ((∃ error, turn.result = some (.error error)) ∨
        ∃ page, turn.result = some (.ok page) ∧
          ∀ value text, page.get? pagination.outputToken = some value →
            tokenText? value = some text → text ∈ used pagination (before ++ [turn])) →
      ∀ other ∈ later, other.result = none ∧ other.sent = [] := by
  intro pagination session
  have hsound : session.Sound pages transport.requests :=
    (sound_of_paginate h transport).after steps fun _ _ => .inr hsize
  refine ⟨hsound.requests, fun turn hmem => ?_, fun turn hhead => ?_, ?_, hsound.nodup,
    fun tokens htokens => hsound.length_sent_le hsize htokens, ?_⟩
  · obtain ⟨before, later, hsplit⟩ := List.append_of_mem hmem
    exact (hsound.follows _ _ _ hsplit).sent
  · obtain ⟨later, hturns⟩ := List.head?_eq_some_iff.1 hhead
    exact (hsound.follows [] turn later hturns).1
  · rw [List.isChain_iff_forall_rel_of_append_cons_cons]
    intro previous turn before later hsplit hsent
    rw [← List.singleton_append, ← List.append_assoc] at hsplit
    obtain ⟨page, value, -, hresult, hvalue, -, hinput⟩ :=
      (hsound.follows _ _ _ hsplit).exists_token hsent
    exact ⟨page, value, hresult, hvalue, hinput⟩
  · rintro before turn later hsplit hended
    refine hsound.nothing_later hsplit ?_
    rcases hended with ⟨error, herror⟩ | ⟨page, hpage, hused⟩
    · exact upcoming?_concat_of_error before herror
    · exact (upcoming?_concat_eq_none hpage).2 hused

def tablesCall : Call where
  service := ⟨"Tables", "1", .json, none, none, none⟩
  operation := ⟨"ListTables", "In", some "Out", "POST", "/", none,
    some ⟨"Start", "Last", some "Limit"⟩⟩
  ident := ⟨.client, "list_tables"⟩
  input := {
    heading := ⟨"In", ⟨.input, "In"⟩, none, none⟩
    members := [
      (⟨"Start", "start", "Start", false, .body, false, none⟩, .scalar .string none false),
      (⟨"Limit", "limit", "Limit", false, .body, false, none⟩, .scalar .integer none false)] }
  output := some {
    heading := ⟨"Out", ⟨.output, "Out"⟩, none, none⟩
    members := [
      (⟨"Last", "last", "Last", false, .body, false, none⟩, .scalar .string none false)] }
  template := ⟨[.literal "/"], none⟩

def tablesClient : Client where
  calls := [("ListTables", tablesCall)]
  endpoint := "https://tables"

def tablesPages : Pages :=
  start tablesCall ⟨"Start", "Last", some "Limit"⟩ "https://tables" ⟨"In", []⟩

def answer (body : String) : Except Response.TransportError Http.Response :=
  .ok { status := 200, headers := [], body := Text.utf8 body }

/-- Answers with a token twice. -/
def tablesTransport : Replay where
  answers := [answer "\x7b\"Last\":\"t1\"\x7d", answer "\x7b\"Last\":\"t2\"\x7d",
    answer "\x7b\"Last\":\"t1\"\x7d", answer "\x7b\x7d"]

theorem sequence_of_tables :
    tablesClient.paginate "ListTables" (.typed ⟨"In", []⟩) = .ok tablesPages ∧
    tablesPages.pagination.pageSize ≠ some tablesPages.pagination.inputToken ∧
    let session := (Session.ofPages tablesPages tablesTransport).after
      [.pageSize 5, .next, .next, .pageSize 1, .next, .next]
    session.turns.map (·.sent.length) = [1, 1, 1, 0] ∧
      used tablesPages.pagination session.turns = ["t1", "t2"] ∧
      (used tablesPages.pagination session.turns).Nodup ∧
      session.transport.requests = tablesTransport.requests ++ session.turns.flatMap (·.sent) := by
  have hpages : tablesClient.paginate "ListTables" (.typed ⟨"In", []⟩) = .ok tablesPages := rfl
  have hsize : tablesPages.pagination.pageSize ≠ some tablesPages.pagination.inputToken := by decide
  obtain ⟨hrequests, -, -, -, hnodup, -⟩ := sequence_of_paginate hpages hsize tablesTransport
    [.pageSize 5, .next, .next, .pageSize 1, .next, .next]
  exact ⟨hpages, hsize, by decide +kernel, by decide +kernel, hnodup, hrequests⟩

/-- Behind a page, pages end exactly when its token is no integer and no text but the empty one, or
was used before. With any other token the next page is asked for, with this token and nothing else
changed. -/
theorem next_turn_of_page {client : Client} {name : String} {input : Input} {pages : Pages}
    (h : client.paginate name input = .ok pages) (transport : Replay) {steps : List Step}
    (hsteps : ∀ step ∈ steps, step = .next ∨
      pages.pagination.pageSize ≠ some pages.pagination.inputToken)
    {before : List Turn} {turn next : Turn} {later : List Turn} {page : Record}
    (hturns : ((Session.ofPages pages transport).after steps).turns =
      before ++ turn :: next :: later)
    (hpage : turn.result = some (.ok page)) :
    (next.result = none ↔
      ∀ value text, page.get? pages.pagination.outputToken = some value →
        tokenText? value = some text → text ∈ used pages.pagination (before ++ [turn])) ∧
    ∀ value text, page.get? pages.pagination.outputToken = some value →
      tokenText? value = some text → text ∉ used pages.pagination (before ++ [turn]) →
      next.input =
          pages.pagination.resized (turn.input.set pages.pagination.inputToken value) next.sizes ∧
        next.sent = pages.requestsOf next.input := by
  have hsound := (sound_of_paginate h transport).after steps hsteps
  rw [← List.singleton_append, ← List.append_assoc] at hturns
  have hfollows := hsound.follows _ _ _ hturns
  have hlast := @upcoming?_concat_eq_none pages before turn page hpage
  unfold Turn.Follows at hfollows
  refine ⟨?_, fun value text hvalue htext hnew => ?_⟩
  · rw [← hlast]
    split at hfollows
    · next hupcoming => exact iff_of_true hfollows.1 hupcoming
    · next record hupcoming =>
      refine iff_of_false ?_ (by simp [hupcoming])
      have hsome := hfollows.2.1
      simpa [Option.isSome_iff_ne_none] using hsome
  · rw [upcoming?_concat_of_new hpage hvalue htext hnew] at hfollows
    exact ⟨hfollows.1, hfollows.2.2⟩

def Turn.page? (turn : Turn) : Option Record :=
  turn.result.bind Except.toOption

theorem Turn.page?_eq_some {turn : Turn} {page : Record} (h : turn.page? = some page) :
    turn.result = some (.ok page) := by
  obtain ⟨result, hresult, hpage⟩ := Option.bind_eq_some_iff.1 h
  cases result with
  | ok found => rw [hresult, Option.some.inj hpage]
  | error error => cases hpage

theorem next_turn_of_tables :
    ∃ turn next page, ((Session.ofPages tablesPages tablesTransport).after
      [.next, .pageSize 5, .next]).turns = [turn, next] ∧ turn.result = some (.ok page) ∧
      (next.result = none ↔
        ∀ value text, page.get? tablesPages.pagination.outputToken = some value →
          tokenText? value = some text → text ∈ used tablesPages.pagination [turn]) := by
  have hpages : tablesClient.paginate "ListTables" (.typed ⟨"In", []⟩) = .ok tablesPages := rfl
  have hsize : tablesPages.pagination.pageSize ≠ some tablesPages.pagination.inputToken := by decide
  have hshown : ((Session.ofPages tablesPages tablesTransport).after
      [.next, .pageSize 5, .next]).turns.map (·.page?.isSome) = [true, true] := by decide +kernel
  have hlength := congrArg List.length hshown
  rw [List.length_map] at hlength
  obtain ⟨turn, next, hturns⟩ := List.length_eq_two.1 hlength
  rw [hturns] at hshown
  obtain ⟨page, hpage⟩ := Option.isSome_iff_exists.1 (List.cons.inj hshown).1
  have hresult := Turn.page?_eq_some hpage
  have hsplit := hturns.trans (List.nil_append [turn, next]).symm
  have h := next_turn_of_page hpages tablesTransport (fun _ _ => .inr hsize) hsplit hresult
  exact ⟨turn, next, page, hturns, hresult, h.1⟩

def keyTarget : Plan.Target :=
  .map "Key" (.scalar .string none false) (.scalar .string none false) none none false

/-- A service whose pages follow one another by the last key of each. -/
def scanCall : Call where
  service := ⟨"Tables", "1", .json, none, none, none⟩
  operation := ⟨"Scan", "In", some "Out", "POST", "/", none,
    some ⟨"ExclusiveStartKey", "LastEvaluatedKey", none⟩⟩
  ident := ⟨.client, "scan"⟩
  input := {
    heading := ⟨"In", ⟨.input, "In"⟩, none, none⟩
    members := [(⟨"ExclusiveStartKey", "exclusive_start_key", "ExclusiveStartKey", false, .body,
      false, none⟩, keyTarget)] }
  output := some {
    heading := ⟨"Out", ⟨.output, "Out"⟩, none, none⟩
    members := [(⟨"LastEvaluatedKey", "last_evaluated_key", "LastEvaluatedKey", false, .body,
      false, none⟩, keyTarget)] }
  template := ⟨[.literal "/"], none⟩

def scanPages : Pages :=
  start scanCall ⟨"ExclusiveStartKey", "LastEvaluatedKey", none⟩ "https://tables" ⟨"In", []⟩

/-- A page with a last key, and an answer that is never asked for. -/
def scanTransport : Replay where
  answers := [answer "\x7b\"LastEvaluatedKey\":\x7b\"id\":\"7\"\x7d\x7d", answer "\x7b\x7d"]

/-- The rules of pages are accepted, and the page has a token, but it is the last one. -/
theorem scan_ends_at_map_token :
    Plan.checkPagination scanCall.operation scanCall.input scanCall.output = .ok () ∧
    Client.paginate ⟨[("Scan", scanCall)], "https://tables"⟩ "Scan" (.typed ⟨"In", []⟩) =
      .ok scanPages ∧
    let session := (Session.ofPages scanPages scanTransport).after [.next, .next]
    session.turns.map (fun turn => (turn.page?.bind (·.get? "LastEvaluatedKey")).map (·.kind)) =
      [some "map", none] ∧
    session.turns.map (·.result.isSome) = [true, false] ∧
    session.turns.map (·.sent.length) = [1, 0] ∧ session.transport.answers.length = 1 :=
  ⟨rfl, rfl, by decide +kernel, by decide +kernel, by decide +kernel, by decide +kernel⟩

end Pages
end ServiceBindings
