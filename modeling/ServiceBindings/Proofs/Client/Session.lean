import ServiceBindings.Client.Pages
import ServiceBindings.Proofs.Fields
import ServiceBindings.Proofs.Steps

/-! Pages follow one another in sequence: each is asked for with the token of the page before it, no
token is used twice, and nothing comes behind the last page. -/
namespace ServiceBindings

/-- The text of the token in a member. -/
def Record.tokenText? (record : Record) (member : String) : Option String :=
  (record.get? member).bind ServiceBindings.tokenText?

/-- An input with page sizes set one after another. -/
def Pagination.resized (pagination : Pagination) (input : Record) (sizes : List Int) : Record :=
  match pagination.pageSize with
  | some member => sizes.foldl (fun input size => input.set member (.integer size)) input
  | none => input

namespace Pages

inductive Step where
  | next
  | pageSize (size : Int)

/-- One time that the next page was asked for: the page sizes that were set since the time before,
the input then, the requests that were sent, and what came, unless there were no more pages. -/
structure Turn where
  sizes : List Int
  input : Record
  sent : List Http.Request
  result : Option (Except PageError Record)

/-- Pages, the transport that they share with nobody else, and what has come of them so far. -/
structure Session where
  pages : Pages
  transport : Replay
  sizes : List Int := []
  turns : List Turn := []

namespace Session

def step (session : Session) : Step → Session
  | .pageSize size =>
    { session with
      pages := session.pages.withPageSize size
      sizes := session.sizes ++ [size] }
  | .next =>
    let (result, pages, transport) := session.pages.next session.transport
    { pages
      transport
      turns := session.turns ++ [{
        sizes := session.sizes
        input := session.pages.input
        sent := transport.requests.drop session.transport.requests.length
        result }] }

def after (session : Session) (steps : List Step) : Session :=
  steps.foldl step session

end Session

/-- The texts of the tokens that requests carried. -/
def used (pagination : Pagination) (turns : List Turn) : List String :=
  turns.flatMap fun turn =>
    if turn.sent = [] then [] else (turn.input.tokenText? pagination.inputToken).toList

/-- The input with which the next page is asked for after some turns, before its size is set. -/
def upcoming? (first : Pages) (turns : List Turn) : Option Record :=
  match turns.getLast? with
  | none => some first.input
  | some turn =>
    match turn.result with
    | some (.ok page) => do
      let value ← page.get? first.pagination.outputToken
      let text ← tokenText? value
      if text ∈ used first.pagination turns then none
      else some (turn.input.set first.pagination.inputToken value)
    | _ => none

/-- The requests that an input leads to: one, or none if it cannot be written. -/
def requestsOf (pages : Pages) (input : Record) : List Http.Request :=
  (Request.build pages.call pages.endpoint input).toOption.toList

/-- A turn goes as the turns before it demand. -/
def Turn.Follows (first : Pages) (before : List Turn) (turn : Turn) : Prop :=
  match upcoming? first before with
  | none => turn.result = none ∧ turn.sent = []
  | some input =>
    turn.input = first.pagination.resized input turn.sizes ∧ turn.result.isSome ∧
      turn.sent = first.requestsOf turn.input

theorem used_append (pagination : Pagination) (turns others : List Turn) :
    used pagination (turns ++ others) = used pagination turns ++ used pagination others :=
  List.flatMap_append

theorem mem_used_singleton {pagination : Pagination} {turn : Turn} {text : String} :
    text ∈ used pagination [turn] ↔
      turn.sent ≠ [] ∧ turn.input.tokenText? pagination.inputToken = some text := by
  by_cases h : turn.sent = [] <;> simp [used, h]

theorem nodup_used_singleton (pagination : Pagination) (turn : Turn) :
    (used pagination [turn]).Nodup := by
  unfold used
  by_cases h : turn.sent = []
  · simp [h]
  · cases htoken : turn.input.tokenText? pagination.inputToken <;> simp [h, htoken]

end Pages

section
variable {pagination : Pagination}

@[simp] theorem resized_nil (input : Record) : pagination.resized input [] = input := by
  unfold Pagination.resized
  cases pagination.pageSize <;> rfl

theorem resized_append (input : Record) (sizes others : List Int) :
    pagination.resized (pagination.resized input sizes) others =
      pagination.resized input (sizes ++ others) := by
  unfold Pagination.resized
  cases pagination.pageSize with
  | none => rfl
  | some member => exact List.foldl_append.symm

theorem get?_resized {member : String} (h : pagination.pageSize ≠ some member) (input : Record)
    (sizes : List Int) : (pagination.resized input sizes).get? member = input.get? member := by
  unfold Pagination.resized
  cases hsize : pagination.pageSize with
  | none => rfl
  | some other =>
    have hne : member ≠ other := by
      rintro rfl
      exact h hsize
    dsimp only
    induction sizes generalizing input with
    | nil => rfl
    | cons size rest ih =>
      rw [List.foldl_cons, ih]
      exact (Fields.get?_set input.fields other member _).trans (if_neg hne)

theorem tokenText?_resized {member : String} (h : pagination.pageSize ≠ some member)
    (input : Record) (sizes : List Int) :
    (pagination.resized input sizes).tokenText? member = input.tokenText? member := by
  rw [Record.tokenText?, Record.tokenText?, get?_resized h]

theorem tokenText?_set (input : Record) (member : String) (value : Value) :
    (input.set member value).tokenText? member = tokenText? value := by
  have hget : (input.set member value).get? member = some value :=
    (Fields.get?_set input.fields member member value).trans (if_pos rfl)
  rw [Record.tokenText?, hget, Option.bind_some]

end

namespace Pages

theorem withPageSize_eq (pages : Pages) (size : Int) :
    pages.withPageSize size =
      { pages with input := pages.pagination.resized pages.input [size] } := by
  unfold withPageSize Pagination.resized
  cases pages.pagination.pageSize <;> rfl

/-- What may be behind a page: nothing, or what its token leads to. -/
theorem after_cases (pages : Pages) (page : Record) :
    ((∀ value text, page.get? pages.pagination.outputToken = some value →
        tokenText? value = some text → text ∈ pages.seen) ∧
      pages.after page = { pages with done := true }) ∨
    ∃ value text, page.get? pages.pagination.outputToken = some value ∧
      tokenText? value = some text ∧ text ∉ pages.seen ∧
      pages.after page = { pages with
        seen := text :: pages.seen
        input := pages.input.set pages.pagination.inputToken value } := by
  unfold after
  cases hvalue : page.get? pages.pagination.outputToken with
  | none => exact .inl ⟨by simp, rfl⟩
  | some value =>
    cases htext : tokenText? value with
    | none =>
      refine .inl ⟨fun other text hother hsome => ?_, by simp [htext]⟩
      obtain rfl := Option.some.inj hother
      cases htext.symm.trans hsome
    | some text =>
      by_cases hmem : text ∈ pages.seen
      · refine .inl ⟨fun other text' hother hsome => ?_, by simp [htext, hmem]⟩
        obtain rfl := Option.some.inj hother
        obtain rfl := Option.some.inj (htext.symm.trans hsome)
        exact hmem
      · exact .inr ⟨value, text, rfl, htext, hmem, by simp [htext, hmem]⟩

theorem requests_fetch (pages : Pages) (transport : Replay) :
    (pages.fetch transport).2.requests =
      transport.requests ++ pages.requestsOf pages.input := by
  unfold fetch Plan.Call.dispatch requestsOf
  cases Request.build pages.call pages.endpoint pages.input with
  | error cause => simp [Except.toOption]
  | ok request =>
    unfold Replay.send
    cases transport.answers <;> simp [Except.toOption]

theorem requestsOf_ne_nil {pages : Pages} {transport : Replay} {page : Record}
    (h : (pages.fetch transport).1 = .ok page) : pages.requestsOf pages.input ≠ [] := by
  unfold fetch Plan.Call.dispatch at h
  unfold requestsOf
  cases hbuild : Request.build pages.call pages.endpoint pages.input with
  | error cause => simp [hbuild] at h
  | ok request => simp [Except.toOption]

theorem next_cases (pages : Pages) (transport : Replay) :
    (pages.done = true ∧ pages.next transport = (none, pages, transport)) ∨
    (pages.done = false ∧ ∃ error answered, pages.next transport =
        (some (.error error), { pages with count := pages.count + 1, done := true }, answered) ∧
      answered.requests = transport.requests ++ pages.requestsOf pages.input) ∨
    (pages.done = false ∧ ∃ page answered, pages.next transport =
        (some (.ok page), { pages with count := pages.count + 1 }.after page, answered) ∧
      answered.requests = transport.requests ++ pages.requestsOf pages.input ∧
      pages.requestsOf pages.input ≠ []) := by
  let asked : Pages := { pages with count := pages.count + 1 }
  have hrequests : (asked.fetch transport).2.requests =
    transport.requests ++ pages.requestsOf pages.input := requests_fetch asked transport
  have hsent (page : Record) (h : (asked.fetch transport).1 = .ok page) :
    pages.requestsOf pages.input ≠ [] := requestsOf_ne_nil h
  by_cases hdone : pages.done = true
  · exact .inl ⟨hdone, if_pos hdone⟩
  · have hfalse := eq_false_of_ne_true hdone
    rw [next, if_neg hdone]
    rcases hfetch : asked.fetch transport with ⟨error | page, answered⟩
    · rw [hfetch] at hrequests
      exact .inr (.inl ⟨hfalse, error, answered, by simp only [asked, hfetch], hrequests⟩)
    · rw [hfetch] at hrequests hsent
      exact .inr (.inr ⟨hfalse, page, answered, by simp only [asked, hfetch], hrequests,
        hsent page rfl⟩)

/-- What has come of pages agrees with what was asked of them. -/
structure Session.Sound (first : Pages) (earlier : List Http.Request) (session : Session) :
    Prop where
  call : session.pages.call = first.call
  pagination : session.pages.pagination = first.pagination
  endpoint : session.pages.endpoint = first.endpoint
  requests : session.transport.requests = earlier ++ session.turns.flatMap (·.sent)
  follows : ∀ before turn later, session.turns = before ++ turn :: later →
    turn.Follows first before
  now : match upcoming? first session.turns with
    | none => session.pages.done = true
    | some input => session.pages.done = false ∧
      session.pages.input = first.pagination.resized input session.sizes
  seen : ∀ text, text ∈ session.pages.seen ↔ text ∈ used first.pagination session.turns ∨
    session.pages.input.tokenText? first.pagination.inputToken = some text
  fresh : session.pages.done = false → ∀ text,
    session.pages.input.tokenText? first.pagination.inputToken = some text →
    text ∉ used first.pagination session.turns
  nodup : (used first.pagination session.turns).Nodup

variable {first : Pages} {earlier : List Http.Request} {session : Session}

theorem Session.Sound.exists_upcoming (h : session.Sound first earlier)
    (hdone : session.pages.done = false) :
    ∃ input, upcoming? first session.turns = some input ∧
      session.pages.input = first.pagination.resized input session.sizes := by
  have hnow := h.now
  cases hupcoming : upcoming? first session.turns with
  | none =>
    rw [hupcoming] at hnow
    exact absurd (hdone.symm.trans hnow) (by decide)
  | some input =>
    rw [hupcoming] at hnow
    exact ⟨input, rfl, hnow.2⟩

theorem Session.Sound.upcoming_eq_none (h : session.Sound first earlier)
    (hdone : session.pages.done = true) : upcoming? first session.turns = none := by
  have hnow := h.now
  cases hupcoming : upcoming? first session.turns with
  | none => rfl
  | some input =>
    rw [hupcoming] at hnow
    exact absurd (hdone.symm.trans hnow.1) (by decide)

theorem Session.Sound.requestsOf (h : session.Sound first earlier) :
    session.pages.requestsOf session.pages.input = first.requestsOf session.pages.input := by
  unfold Pages.requestsOf
  rw [h.call, h.endpoint]

theorem upcoming?_concat_of_none (turns : List Turn) {turn : Turn} (h : turn.result = none) :
    upcoming? first (turns ++ [turn]) = none := by
  simp [upcoming?, h]

theorem upcoming?_concat_of_error (turns : List Turn) {turn : Turn} {error : PageError}
    (h : turn.result = some (.error error)) : upcoming? first (turns ++ [turn]) = none := by
  simp [upcoming?, h]

theorem upcoming?_concat_eq_none {turns : List Turn} {turn : Turn} {page : Record}
    (h : turn.result = some (.ok page)) :
    upcoming? first (turns ++ [turn]) = none ↔
      ∀ value text, page.get? first.pagination.outputToken = some value →
        tokenText? value = some text → text ∈ used first.pagination (turns ++ [turn]) := by
  cases hvalue : page.get? first.pagination.outputToken with
  | none => simp [upcoming?, h, hvalue]
  | some value =>
    cases htext : tokenText? value with
    | none =>
      refine iff_of_true (by simp [upcoming?, h, hvalue, htext]) ?_
      rintro _ text ⟨⟩ hsome
      cases htext.symm.trans hsome
    | some text =>
      by_cases hmem : text ∈ used first.pagination (turns ++ [turn])
      · refine iff_of_true (by simp [upcoming?, h, hvalue, htext, hmem]) ?_
        rintro _ other ⟨⟩ hsome
        obtain rfl := Option.some.inj (htext.symm.trans hsome)
        exact hmem
      · refine iff_of_false (by simp [upcoming?, h, hvalue, htext, hmem]) fun hall => ?_
        exact hmem (hall value text rfl htext)

theorem upcoming?_concat_of_new {turns : List Turn} {turn : Turn} {page : Record} {value : Value}
    {text : String} (h : turn.result = some (.ok page))
    (hvalue : page.get? first.pagination.outputToken = some value)
    (htext : tokenText? value = some text)
    (hnew : text ∉ used first.pagination (turns ++ [turn])) :
    upcoming? first (turns ++ [turn]) =
      some (turn.input.set first.pagination.inputToken value) := by
  simp [upcoming?, h, hvalue, htext, hnew]

theorem Session.step_next {result : Option (Except PageError Record)} {pages : Pages}
    {answered : Replay} {sent : List Http.Request}
    (hnext : session.pages.next session.transport = (result, pages, answered))
    (hsent : answered.requests = session.transport.requests ++ sent) :
    session.step .next = {
      pages
      transport := answered
      turns := session.turns ++ [⟨session.sizes, session.pages.input, sent, result⟩] } := by
  simp [step, hnext, hsent]

theorem Session.Sound.idle (h : session.Sound first earlier) (hdone : session.pages.done = true) :
    Session.Sound first earlier { session with
      sizes := []
      turns := session.turns ++ [⟨session.sizes, session.pages.input, [], none⟩] } := by
  have hupcoming := h.upcoming_eq_none hdone
  have hused : used first.pagination
      (session.turns ++ [⟨session.sizes, session.pages.input, [], none⟩]) =
      used first.pagination session.turns := by simp [used]
  refine ⟨h.call, h.pagination, h.endpoint, ?_, ?_, ?_, ?_, ?_, ?_⟩
  · simpa using h.requests
  · refine forall_split_concat h.follows ?_
    rw [Turn.Follows, hupcoming]
    exact ⟨rfl, rfl⟩
  · rw [upcoming?_concat_of_none _ rfl]
    exact hdone
  · rw [hused]
    exact h.seen
  · intro hfalse
    exact absurd (hdone.symm.trans hfalse) (by decide)
  · rw [hused]
    exact h.nodup

section
variable {result : Except PageError Record} {pages : Pages} {answered : Replay}

/-- A turn in which a page was asked for. -/
def Session.asked (session : Session) (first : Pages) (result : Except PageError Record) :
    Turn where
  sizes := session.sizes
  input := session.pages.input
  sent := first.requestsOf session.pages.input
  result := some result

theorem Session.Sound.nodup_asked (h : session.Sound first earlier)
    (hdone : session.pages.done = false) (result : Except PageError Record) :
    (used first.pagination (session.turns ++ [session.asked first result])).Nodup := by
  rw [used_append, List.nodup_append]
  refine ⟨h.nodup, nodup_used_singleton _ _, fun text hmem other hother heq => ?_⟩
  -- Until the pages are done, the token of their input was not used before.
  have htoken := (mem_used_singleton.1 hother).2
  exact h.fresh hdone other htoken (heq ▸ hmem)

theorem Session.Sound.follows_asked (h : session.Sound first earlier)
    (hdone : session.pages.done = false) (result : Except PageError Record) :
    ∀ before turn later, session.turns ++ [session.asked first result] = before ++ turn :: later →
      turn.Follows first before := by
  obtain ⟨input, hupcoming, hinput⟩ := h.exists_upcoming hdone
  refine forall_split_concat h.follows ?_
  rw [Turn.Follows, hupcoming]
  exact ⟨hinput, rfl, rfl⟩

/-- A page was asked for, and it is the last one. -/
theorem Session.Sound.last (h : session.Sound first earlier) (hdone : session.pages.done = false)
    (hcall : pages.call = session.pages.call)
    (hpagination : pages.pagination = session.pages.pagination)
    (hendpoint : pages.endpoint = session.pages.endpoint)
    (hinput : pages.input = session.pages.input) (hseen : pages.seen = session.pages.seen)
    (hlast : pages.done = true)
    (hrequests : answered.requests =
      session.transport.requests ++ first.requestsOf session.pages.input)
    (hupcoming : upcoming? first (session.turns ++ [session.asked first result]) = none) :
    Session.Sound first earlier {
      pages
      transport := answered
      turns := session.turns ++ [session.asked first result] } := by
  refine ⟨hcall.trans h.call, hpagination.trans h.pagination, hendpoint.trans h.endpoint, ?_,
    h.follows_asked hdone result, ?_, ?_, ?_, h.nodup_asked hdone result⟩
  · show answered.requests = _
    rw [hrequests, h.requests]
    simp [asked]
  · rw [hupcoming]
    exact hlast
  · intro text
    show text ∈ pages.seen ↔ _ ∨ pages.input.tokenText? _ = some text
    rw [hseen, hinput, h.seen text, used_append, List.mem_append, mem_used_singleton]
    show _ ↔ (_ ∨ _ ∧ session.pages.input.tokenText? _ = some text) ∨ _
    tauto
  · intro hfalse
    exact absurd (hlast.symm.trans hfalse) (by decide)

theorem Session.Sound.mem_seen (h : session.Sound first earlier)
    (hsent : first.requestsOf session.pages.input ≠ []) (result : Except PageError Record)
    (text : String) : text ∈ session.pages.seen ↔
      text ∈ used first.pagination (session.turns ++ [session.asked first result]) := by
  rw [h.seen text, used_append, List.mem_append, mem_used_singleton]
  exact or_congr_right ⟨fun htoken => ⟨hsent, htoken⟩, And.right⟩

/-- A page was asked for, and another one is to come. -/
theorem Session.Sound.going (h : session.Sound first earlier) (hdone : session.pages.done = false)
    {page : Record} {value : Value} {text : String}
    (hvalue : page.get? first.pagination.outputToken = some value)
    (htext : tokenText? value = some text) (hnew : text ∉ session.pages.seen)
    (hsent : first.requestsOf session.pages.input ≠ [])
    (hrequests : answered.requests =
      session.transport.requests ++ first.requestsOf session.pages.input) :
    Session.Sound first earlier {
      pages := { session.pages with
        count := session.pages.count + 1
        seen := text :: session.pages.seen
        input := session.pages.input.set session.pages.pagination.inputToken value }
      transport := answered
      turns := session.turns ++ [session.asked first (.ok page)] } := by
  have hunused : text ∉ used first.pagination
      (session.turns ++ [session.asked first (.ok page)]) := by
    rwa [← h.mem_seen hsent]
  have htoken : (session.pages.input.set session.pages.pagination.inputToken value).tokenText?
      first.pagination.inputToken = some text := by
    rw [h.pagination, tokenText?_set, htext]
  refine ⟨h.call, h.pagination, h.endpoint, ?_, h.follows_asked hdone _, ?_, ?_, ?_,
    h.nodup_asked hdone _⟩
  · show answered.requests = _
    rw [hrequests, h.requests]
    simp [asked]
  · rw [upcoming?_concat_of_new rfl hvalue htext hunused, ← h.pagination]
    exact ⟨hdone, (resized_nil _).symm⟩
  · intro other
    show other ∈ text :: session.pages.seen ↔ _ ∨ Record.tokenText? _ _ = some other
    rw [htoken, ← h.mem_seen hsent, List.mem_cons, Option.some_inj]
    tauto
  · intro _ other hother
    rw [htoken] at hother
    obtain rfl := Option.some.inj hother
    exact hunused

end

theorem Session.Sound.resize (h : session.Sound first earlier)
    (hsize : first.pagination.pageSize ≠ some first.pagination.inputToken) (size : Int) :
    (session.step (.pageSize size)).Sound first earlier := by
  have hpages : session.step (.pageSize size) = { session with
      pages := { session.pages with
        input := session.pages.pagination.resized session.pages.input [size] }
      sizes := session.sizes ++ [size] } := by
    rw [step, withPageSize_eq]
  have htoken := tokenText?_resized hsize session.pages.input [size]
  rw [← h.pagination] at htoken
  rw [hpages]
  refine ⟨h.call, h.pagination, h.endpoint, h.requests, h.follows, ?_, ?_, ?_, h.nodup⟩
  -- The size is not the token, so what is due and what was seen are as they were.
  · have hnow := h.now
    dsimp only
    cases hupcoming : upcoming? first session.turns with
    | none =>
      rw [hupcoming] at hnow
      exact hnow
    | some input =>
      rw [hupcoming] at hnow
      obtain ⟨hdone, hinput⟩ := hnow
      exact ⟨hdone, by rw [h.pagination, hinput, resized_append]⟩
  · intro text
    rw [h.seen text, ← h.pagination, ← htoken]
  · intro hdone text
    rw [← h.pagination, htoken, h.pagination]
    exact h.fresh hdone text

/-- Whatever is asked of pages, what comes of it agrees with what was asked before. -/
theorem Session.Sound.step (h : session.Sound first earlier) (step : Step)
    (hsize : step = .next ∨ first.pagination.pageSize ≠ some first.pagination.inputToken) :
    (session.step step).Sound first earlier := by
  cases step with
  | pageSize size => exact h.resize (hsize.resolve_left (by simp)) size
  | next =>
    rcases session.pages.next_cases session.transport with
      ⟨hdone, hnext⟩ | ⟨hdone, error, answered, hnext, hrequests⟩ |
      ⟨hdone, page, answered, hnext, hrequests, hsent⟩
    · rw [Session.step_next hnext (List.append_nil _).symm]
      exact h.idle hdone
    · rw [h.requestsOf] at hrequests
      rw [Session.step_next hnext hrequests]
      exact h.last hdone rfl rfl rfl rfl rfl rfl hrequests (upcoming?_concat_of_error _ rfl)
    · rw [h.requestsOf] at hrequests hsent
      rw [Session.step_next hnext hrequests]
      rcases after_cases { session.pages with count := session.pages.count + 1 } page with
        ⟨hseen, hafter⟩ | ⟨value, text, hvalue, htext, hnew, hafter⟩
      · rw [hafter]
        refine h.last hdone rfl rfl rfl rfl rfl rfl hrequests ?_
        -- A page came, so a request was sent: what was seen is now what was used.
        refine (upcoming?_concat_eq_none rfl).2 fun value text hvalue htext => ?_
        rw [← h.pagination] at hvalue
        exact (h.mem_seen hsent _ text).1 (hseen value text hvalue htext)
      · rw [h.pagination] at hvalue
        rw [hafter]
        exact h.going hdone hvalue htext hnew hsent hrequests

def Session.ofPages (pages : Pages) (transport : Replay) : Session where
  pages
  transport

theorem Session.sound_start (call : Plan.Call) (pagination : Pagination) (endpoint : String)
    (input : Record) (transport : Replay) :
    (Session.ofPages (start call pagination endpoint input) transport).Sound
      (start call pagination endpoint input) transport.requests := by
  refine ⟨rfl, rfl, rfl, (List.append_nil _).symm, by simp [ofPages], ?_, ?_, ?_,
    List.nodup_nil⟩
  · exact ⟨rfl, (resized_nil input).symm⟩
  · intro text
    show text ∈ ((input.get? pagination.inputToken).bind tokenText?).toList ↔
      text ∈ [] ∨ (input.get? pagination.inputToken).bind tokenText? = some text
    simp [eq_comm]
  · intro _ text _
    exact List.not_mem_nil

theorem Session.Sound.after (h : session.Sound first earlier) (steps : List Step)
    (hsize : ∀ step ∈ steps, step = .next ∨
      first.pagination.pageSize ≠ some first.pagination.inputToken) :
    (session.after steps).Sound first earlier := by
  induction steps generalizing session with
  | nil => exact h
  | cons step rest ih =>
    exact ih (h.step step (hsize step List.mem_cons_self)) fun other hmem =>
      hsize other (List.mem_cons_of_mem _ hmem)

end Pages
end ServiceBindings
