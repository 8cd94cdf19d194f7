import ServiceBindings.Client.Basic
import ServiceBindings.Proofs.Client.Pages

/-! Outputs of one client: each has the outcome of its own answer, whatever else is invoked or
asked for in between, and whenever it is asked for. -/
namespace ServiceBindings
open Http (Response)
open Plan (Call)
open Response (CallError TransportError)

namespace Outputs

inductive Step where
  | invoke (name : String) (input : Input)
  | resolve (position : Nat)
  | token (position : Nat)
  /-- Asks for the outcome and gives the output away. -/
  | take (position : Nat)

inductive Reply where
  | refused (error : InvocationError)
  | returned (position : Nat)
  | outcome (outcome : Except CallError Record)
  | token (token : Except CallError (Option Value))
  /-- There is no such output yet, or it was given away. -/
  | absent

/-- The transport of a client and the outputs that it returned, as far as they were not given away.
-/
structure Session where
  transport : Replay
  outputs : List (Option Output) := []

namespace Session

def ask (session : Session) (position : Nat) (answer : Output → Reply × Option Output) :
    Reply × Session :=
  match session.outputs[position]? with
  | some (some output) =>
    let (reply, left) := answer output
    (reply, { session with outputs := session.outputs.set position left })
  | _ => (.absent, session)

def step (client : Client) (session : Session) : Step → Reply × Session
  | .invoke name input =>
    match client.invoke name input session.transport with
    | (.error error, transport) => (.refused error, { session with transport })
    | (.ok output, transport) =>
      (.returned session.outputs.length,
        { session with transport, outputs := session.outputs ++ [some output] })
  | .resolve position =>
    session.ask position fun output => (.outcome output.outcome, some output.resolved)
  | .token position =>
    session.ask position fun output => (.token output.token?.1, some output.token?.2)
  | .take position => session.ask position fun output => (.outcome output.outcome, none)

def after (client : Client) (session : Session) (steps : List Step) : Session :=
  steps.foldl (fun session step => (session.step client step).2) session

end Session

/-- What becomes of a call with its answer, or without one. -/
def settled (call : Call) : Option (Except TransportError Response) → Except CallError Record
  | none => .error (.dispatch { message := "no more responses" })
  | some (.error cause) => .error (.dispatch cause)
  | some (.ok response) =>
    if 300 ≤ response.status then .error (.service response.status response.body)
    else
      match Response.read call response with
      | .ok record => .ok record
      | .error cause => .error (.unreadable response.status cause)

/-- The token of the next page under an outcome. Operations without pages have none. -/
def settledToken (call : Call) (outcome : Except CallError Record) :
    Except CallError (Option Value) :=
  match call.operation.pagination with
  | some pagination => outcome.map (·.get? pagination.outputToken)
  | none => .ok none

end Outputs

open Outputs (Step Reply Session settled settledToken)

namespace Client

def requestOf (client : Client) (name : String) (input : Input) :
    Except InvocationError (Call × Http.Request) := do
  let call ← client.call name
  return (call, ← call.request client.endpoint input)

def sent (client : Client) (steps : List Step) : List (Call × Http.Request) :=
  steps.filterMap fun
    | .invoke name input => (client.requestOf name input).toOption
    | _ => none

/-- An output was given away after it was returned. -/
def HasTaken (client : Client) (position : Nat) (steps : List Step) : Prop :=
  ∃ before later, steps = before ++ .take position :: later ∧ position < (client.sent before).length

variable (client : Client)

theorem sent_append (steps others : List Step) :
    client.sent (steps ++ others) = client.sent steps ++ client.sent others :=
  List.filterMap_append

theorem hasTaken_concat {position : Nat} {steps : List Step} {step : Step} :
    client.HasTaken position (steps ++ [step]) ↔
      client.HasTaken position steps ∨
        step = .take position ∧ position < (client.sent steps).length := by
  constructor
  · rintro ⟨before, later, heq, hlt⟩
    exact forall_split_concat
      (p := fun before x => x = .take position → position < (client.sent before).length → _ ∨ _)
      (fun before x later heq hx hlt => .inl ⟨before, later, hx ▸ heq, hlt⟩)
      (fun hx hlt => .inr ⟨hx, hlt⟩) before _ later heq rfl hlt
  · rintro (⟨before, later, rfl, hlt⟩ | ⟨rfl, hlt⟩)
    · exact ⟨before, later ++ [step], by simp, hlt⟩
    · exact ⟨steps, [], rfl, hlt⟩

theorem hasTaken_concat_of_ne {position : Nat} {steps : List Step} {step : Step}
    (h : step ≠ .take position) :
    client.HasTaken position (steps ++ [step]) ↔ client.HasTaken position steps := by
  rw [hasTaken_concat, or_iff_left fun ⟨heq, _⟩ => h heq]

theorem HasTaken.lt {client : Client} {position : Nat} {steps : List Step}
    (h : client.HasTaken position steps) : position < (client.sent steps).length := by
  obtain ⟨before, later, rfl, hlt⟩ := h
  rw [sent_append, List.length_append]
  exact Nat.lt_add_right _ hlt

end Client

namespace Outputs

/-- The error of a call has the status of the answer, if there was one. -/
theorem status?_of_settled {call : Call} {answer : Option (Except TransportError Response)}
    {error : CallError} (h : settled call answer = .error error) :
    error.status? = (answer.bind Except.toOption).map (·.status) := by
  match answer with
  | none | some (.error _) =>
    obtain rfl := Except.error.inj h
    rfl
  | some (.ok response) =>
    simp only [settled] at h
    split_ifs at h
    · obtain rfl := Except.error.inj h
      rfl
    · split at h
      · cases h
      · obtain rfl := Except.error.inj h
        rfl

theorem outcome_eq_settled (call : Call) (answer : Except TransportError Response) :
    Response.outcome call answer = settled call (some answer) := by
  cases answer with
  | error cause => rfl
  | ok response =>
    simp only [Response.outcome, settled]
    cases Response.read call response <;> rfl

def outputOf (call : Call) (answer : Option (Except TransportError Response)) : Output where
  result := .waiting 0 (settled call answer)
  tokenMember := call.operation.pagination.map (·.outputToken)

theorem dispatch_of_build {call : Call} {endpoint : String} {record : Record}
    {request : Http.Request} (h : Request.build call endpoint record = .ok request)
    (transport : Replay) :
    call.dispatch endpoint record transport =
      (.ok (outputOf call transport.answers.head?),
        { answers := transport.answers.tail, requests := transport.requests ++ [request] }) := by
  unfold Call.dispatch Replay.send
  rw [h]
  rcases transport with ⟨_ | ⟨answer, rest⟩, requests⟩
  · rfl
  · simp only [outcome_eq_settled]
    rfl

/-- An invocation sends nothing, or its request, and then takes one answer. -/
theorem invoke_eq (client : Client) (name : String) (input : Input) (transport : Replay) :
    client.invoke name input transport =
      match client.requestOf name input with
      | .error error => (.error error, transport)
      | .ok (call, request) =>
        (.ok (outputOf call transport.answers.head?),
          { answers := transport.answers.tail, requests := transport.requests ++ [request] }) := by
  unfold Client.invoke Client.requestOf Call.request
  cases client.call name with
  | error error => rfl
  | ok call =>
    simp only [ok_bind]
    cases prepareInput call.input input with
    | error fault => rfl
    | ok record =>
      cases hbuild : Request.build call client.endpoint record with
      | error cause =>
        have hdispatch : call.dispatch client.endpoint record transport =
            (.error (.request cause), transport) := by simp only [Call.dispatch, hbuild]
        exact hdispatch.trans (by simp [Except.mapError, hbuild])
      | ok request =>
        exact (dispatch_of_build hbuild transport).trans (by simp [Except.mapError, hbuild])

/-- An output has the outcome and the token that its call and the answer demand. -/
structure IsOf (call : Call) (answer : Option (Except TransportError Response))
    (output : Output) : Prop where
  outcome : output.outcome = settled call answer
  tokenMember : output.tokenMember = call.operation.pagination.map (·.outputToken)

section
variable {call : Call} {answer : Option (Except TransportError Response)} {output : Output}

theorem isOf_outputOf (call : Call) (answer : Option (Except TransportError Response)) :
    IsOf call answer (outputOf call answer) :=
  ⟨rfl, rfl⟩

theorem IsOf.resolved (h : IsOf call answer output) : IsOf call answer output.resolved :=
  ⟨h.outcome, h.tokenMember⟩

theorem IsOf.token (h : IsOf call answer output) :
    output.token?.1 = settledToken call (settled call answer) ∧
      IsOf call answer output.token?.2 := by
  unfold Output.token? settledToken
  rw [h.tokenMember]
  cases call.operation.pagination with
  | none => exact ⟨rfl, h⟩
  | some pagination => exact ⟨by rw [← h.outcome]; rfl, h.resolved⟩

end

/-- After some steps a session has sent what they invoked, and each output that was not given away
is the output of its own call and answer. -/
structure Session.Sound (client : Client) (transport : Replay) (steps : List Step)
    (session : Session) : Prop where
  requests : session.transport.requests = transport.requests ++ (client.sent steps).map (·.2)
  answers : session.transport.answers = transport.answers.drop (client.sent steps).length
  length : session.outputs.length = (client.sent steps).length
  outputs : ∀ position call request, (client.sent steps)[position]? = some (call, request) →
    (client.HasTaken position steps ∧ session.outputs[position]? = some none) ∨
    (¬client.HasTaken position steps ∧ ∃ output, session.outputs[position]? = some (some output) ∧
      IsOf call transport.answers[position]? output)

theorem Session.ask_cases (session : Session) (position : Nat)
    (answer : Output → Reply × Option Output) :
    (∃ output, session.outputs[position]? = some (some output) ∧
      session.ask position answer = ((answer output).1,
        { session with outputs := session.outputs.set position (answer output).2 })) ∨
    ((∀ output, session.outputs[position]? ≠ some (some output)) ∧
      session.ask position answer = (.absent, session)) := by
  unfold Session.ask
  rcases hfound : session.outputs[position]? with _ | _ | output
  · exact .inr ⟨by simp, rfl⟩
  · exact .inr ⟨by simp, rfl⟩
  · exact .inl ⟨output, rfl, rfl⟩

theorem Session.step_invoke (client : Client) (session : Session) (name : String)
    (input : Input) :
    session.step client (.invoke name input) =
      match client.requestOf name input with
      | .error error => (.refused error, session)
      | .ok (call, request) =>
        (.returned session.outputs.length, {
          transport := ⟨session.transport.answers.tail, session.transport.requests ++ [request]⟩
          outputs :=
            session.outputs ++ [some (outputOf call session.transport.answers.head?)] }) := by
  simp only [Session.step, invoke_eq]
  cases client.requestOf name input <;> rfl

variable {client : Client} {transport : Replay} {steps : List Step} {session : Session}

theorem Session.Sound.invoke (h : session.Sound client transport steps) (name : String)
    (input : Input) : (session.step client (.invoke name input)).2.Sound client transport
      (steps ++ [.invoke name input]) := by
  have htaken (position : Nat) : client.HasTaken position (steps ++ [.invoke name input]) ↔
      client.HasTaken position steps := client.hasTaken_concat_of_ne (by simp)
  rw [Session.step_invoke]
  cases hrequest : client.requestOf name input with
  | error error =>
    have hsent : client.sent (steps ++ [.invoke name input]) = client.sent steps := by
      simp [Client.sent, hrequest, Except.toOption]
    refine ⟨?_, ?_, ?_, ?_⟩ <;> simp only [hsent, htaken]
    exacts [h.requests, h.answers, h.length, h.outputs]
  | ok invoked =>
    obtain ⟨call, request⟩ := invoked
    have hsent : client.sent (steps ++ [.invoke name input]) =
        client.sent steps ++ [(call, request)] := by
      simp [Client.sent, hrequest, Except.toOption]
    refine ⟨?_, ?_, ?_, fun position other request' hposition => ?_⟩
    · simp [hsent, h.requests]
    · simp [hsent, h.answers]
    · simp [hsent, h.length]
    · rw [hsent] at hposition
      rw [htaken]
      rcases Nat.lt_or_ge position (client.sent steps).length with hlt | hge
      · rw [List.getElem?_append_left hlt] at hposition
        rw [List.getElem?_append_left (h.length ▸ hlt)]
        exact h.outputs position other request' hposition
      · -- The output is the new one, and its answer is the first that was left.
        obtain rfl : position = (client.sent steps).length := by
          have hlt := (List.getElem?_eq_some_iff.1 hposition).1
          rw [List.length_append, List.length_singleton] at hlt
          omega
        obtain ⟨rfl, rfl⟩ : call = other ∧ request = request' := by simpa using hposition
        refine .inr ⟨fun hgone => Nat.lt_irrefl _ hgone.lt, _, ?_, isOf_outputOf call _⟩
        rw [← h.length, List.getElem?_concat_length, h.length, h.answers, List.head?_drop]

/-- Asking for something of one output leaves the others, and that one unless it is given away. -/
theorem Session.Sound.ask (h : session.Sound client transport steps) {step : Step}
    {position : Nat} {answer : Output → Reply × Option Output}
    (hsent : client.sent [step] = []) (hother : ∀ other, other ≠ position → step ≠ .take other)
    (hanswer : ∀ call given output, IsOf call given output →
      (step = .take position ∧ (answer output).2 = none) ∨
      (step ≠ .take position ∧ ∃ left, (answer output).2 = some left ∧ IsOf call given left)) :
    (session.ask position answer).2.Sound client transport (steps ++ [step]) := by
  have hsent : client.sent (steps ++ [step]) = client.sent steps := by
    rw [Client.sent_append, hsent, List.append_nil]
  obtain ⟨output, hfound, hask⟩ | ⟨habsent, hask⟩ := session.ask_cases position answer <;> rw [hask]
  · refine ⟨hsent ▸ h.requests, hsent ▸ h.answers, ?_, fun other call request hrequest => ?_⟩
    · rw [hsent, List.length_set, h.length]
    · rw [hsent] at hrequest
      have hold := h.outputs other call request hrequest
      by_cases hne : other = position
      · subst hne
        obtain ⟨-, hnone⟩ | ⟨hkept, output', hfound', hof⟩ := hold
        · cases hnone.symm.trans hfound
        · obtain rfl : output = output' := by simpa using hfound.symm.trans hfound'
          have hlt := (List.getElem?_eq_some_iff.1 hfound).1
          rw [List.getElem?_set_self hlt]
          rcases hanswer call _ output hof with ⟨htake, hleft⟩ | ⟨hkeep, left, hleft, hof⟩
          · exact .inl ⟨client.hasTaken_concat.2 (.inr ⟨htake, h.length ▸ hlt⟩), by rw [hleft]⟩
          · rw [client.hasTaken_concat_of_ne hkeep]
            exact .inr ⟨hkept, left, by rw [hleft], hof⟩
      · rw [client.hasTaken_concat_of_ne (hother other hne), List.getElem?_set_ne (Ne.symm hne)]
        exact hold
  · refine ⟨hsent ▸ h.requests, hsent ▸ h.answers, hsent ▸ h.length,
      fun other call request hrequest => ?_⟩
    rw [hsent] at hrequest
    obtain ⟨hgone, hnone⟩ | ⟨hkept, output, hfound, hof⟩ := h.outputs other call request hrequest
    · exact .inl ⟨client.hasTaken_concat.2 (.inl hgone), hnone⟩
    · have hne : other ≠ position := by
        rintro rfl
        exact habsent output hfound
      rw [client.hasTaken_concat_of_ne (hother other hne)]
      exact .inr ⟨hkept, output, hfound, hof⟩

theorem Session.Sound.step (h : session.Sound client transport steps) (step : Step) :
    (session.step client step).2.Sound client transport (steps ++ [step]) := by
  cases step with
  | invoke name input => exact h.invoke name input
  | resolve position =>
    exact h.ask rfl (by simp) fun call given output hof => .inr ⟨by simp, _, rfl, hof.resolved⟩
  | token position =>
    exact h.ask rfl (by simp) fun call given output hof => .inr ⟨by simp, _, rfl, hof.token.2⟩
  | take position =>
    refine h.ask rfl ?_ fun call given output hof => .inl ⟨rfl, rfl⟩
    intro other hne heq
    exact hne (Step.take.inj heq).symm

def Session.start (transport : Replay) : Session where
  transport

theorem Session.sound_start (client : Client) (transport : Replay) :
    (Session.start transport).Sound client transport [] :=
  ⟨(List.append_nil _).symm, rfl, rfl, by simp [Client.sent]⟩

theorem Session.Sound.after (h : session.Sound client transport steps) (later : List Step) :
    (session.after client later).Sound client transport (steps ++ later) := by
  induction later generalizing session steps with
  | nil => rwa [List.append_nil]
  | cons step rest ih =>
    rw [List.append_cons]
    exact ih (h.step step)

theorem Session.Sound.replies (h : session.Sound client transport steps) {position : Nat}
    {call : Call} {request : Http.Request}
    (hcall : (client.sent steps)[position]? = some (call, request))
    (hkept : ¬client.HasTaken position steps) :
    let outcome := settled call transport.answers[position]?
    (session.step client (.resolve position)).1 = .outcome outcome ∧
      (session.step client (.take position)).1 = .outcome outcome ∧
      (session.step client (.token position)).1 = .token (settledToken call outcome) := by
  obtain ⟨hgone, -⟩ | ⟨-, output, hfound, hof⟩ := h.outputs position call request hcall
  · exact absurd hgone hkept
  · simp only [Session.step, Session.ask, hfound, hof.outcome, hof.token.1, and_self]

/-- Nothing is to be had of an output that there is not yet, or that was given away. -/
theorem Session.Sound.replies_absent (h : session.Sound client transport steps) {position : Nat}
    (hnone : (client.sent steps).length ≤ position ∨ client.HasTaken position steps) :
    ∀ step ∈ [Step.resolve position, .token position, .take position],
      session.step client step = (.absent, session) := by
  have habsent (output : Output) : session.outputs[position]? ≠ some (some output) := by
    intro hfound
    have hlt := (List.getElem?_eq_some_iff.1 hfound).1
    rw [h.length] at hlt
    rcases hnone with hle | hgone
    · exact Nat.not_lt.2 hle hlt
    · obtain ⟨-, hnone⟩ | ⟨hkept, -⟩ := h.outputs position _ _ (List.getElem?_eq_getElem hlt)
      · cases hnone.symm.trans hfound
      · exact hkept hgone
  have hask (answer : Output → Reply × Option Output) :
      session.ask position answer = (.absent, session) := by
    obtain ⟨output, hfound, -⟩ | ⟨-, hask⟩ := session.ask_cases position answer
    · exact absurd hfound (habsent output)
    · exact hask
  simp only [List.mem_cons, List.not_mem_nil, or_false, forall_eq_or_imp, forall_eq, Session.step,
    hask, and_self]

/-- A client sends the requests of the invocations that return an output, and nothing for the
others. Each output has the outcome of its own answer and keeps it, whatever is invoked or asked for
later, until it is given away. -/
theorem outputs_independent (client : Client) (transport : Replay) (steps : List Step) :
    let session := (Session.start transport).after client steps
    session.transport.requests = transport.requests ++ (client.sent steps).map (·.2) ∧
    session.transport.answers = transport.answers.drop (client.sent steps).length ∧
    (∀ name input,
      match client.requestOf name input with
      | .error error => session.step client (.invoke name input) = (.refused error, session)
      | .ok _ => (session.step client (.invoke name input)).1 =
        .returned (client.sent steps).length) ∧
    (∀ position call request, (client.sent steps)[position]? = some (call, request) →
      let outcome := settled call transport.answers[position]?
      ∀ later, ¬client.HasTaken position (steps ++ later) →
        let now := (Session.start transport).after client (steps ++ later)
        (now.step client (.resolve position)).1 = .outcome outcome ∧
          (now.step client (.take position)).1 = .outcome outcome ∧
          (now.step client (.token position)).1 = .token (settledToken call outcome)) ∧
    ∀ position, (client.sent steps).length ≤ position ∨ client.HasTaken position steps →
      ∀ step ∈ [Step.resolve position, .token position, .take position],
        session.step client step = (.absent, session) := by
  have hsound (steps : List Step) :
      ((Session.start transport).after client steps).Sound client transport steps :=
    (Session.sound_start client transport).after steps
  refine ⟨(hsound steps).requests, (hsound steps).answers, fun name input => ?_,
    fun position call request hcall later hkept => ?_,
    fun position hnone => (hsound steps).replies_absent hnone⟩
  · rw [Session.step_invoke]
    cases client.requestOf name input with
    | error error => rfl
    | ok invoked => exact congrArg Reply.returned (hsound steps).length
  · have hlt := (List.getElem?_eq_some_iff.1 hcall).1
    have hcall : (client.sent (steps ++ later))[position]? = some (call, request) := by
      rw [Client.sent_append, List.getElem?_append_left hlt, hcall]
    exact (hsound (steps ++ later)).replies hcall hkept

section
open Pages (answer tablesCall tablesClient)

/-- Answers once, and is then too busy. -/
def busyTransport : Replay where
  answers := [answer "\x7b\"Last\":\"t1\"\x7d",
    .ok { status := 503, headers := [], body := Text.utf8 "busy" }]

def tablesSteps : List Step :=
  [.invoke "ListTables" (.typed ⟨"In", []⟩), .invoke "ListTables" (.typed ⟨"Other", []⟩),
    .invoke "ListTables" (.typed ⟨"In", [("Limit", .integer 5)]⟩), .resolve 1]

theorem exists_requestOf_tables (input : Input)
    (h : (tablesCall.request tablesClient.endpoint input).toOption.isSome) :
    ∃ request, tablesClient.requestOf "ListTables" input = .ok (tablesCall, request) := by
  have hcall : tablesClient.call "ListTables" = .ok tablesCall := rfl
  cases hrequest : tablesCall.request tablesClient.endpoint input with
  | error error => simp [hrequest, Except.toOption] at h
  | ok request => exact ⟨request, by simp [Client.requestOf, hcall, hrequest]⟩

theorem outputs_of_tables :
    ∃ first second, tablesClient.sent tablesSteps = [(tablesCall, first), (tablesCall, second)] ∧
      ((Session.start busyTransport).after tablesClient tablesSteps).transport.requests =
        [first, second] ∧
      (((Session.start busyTransport).after tablesClient (tablesSteps ++ [.token 0])).step
        tablesClient (.take 1)).1 = .outcome (.error (.service 503 (Text.utf8 "busy"))) := by
  obtain ⟨first, hfirst⟩ := exists_requestOf_tables (.typed ⟨"In", []⟩) (by decide +kernel)
  obtain ⟨second, hsecond⟩ := exists_requestOf_tables
    (.typed ⟨"In", [("Limit", .integer 5)]⟩) (by decide +kernel)
  obtain ⟨error, hother⟩ : ∃ error,
      tablesClient.requestOf "ListTables" (.typed ⟨"Other", []⟩) = .error error := ⟨_, rfl⟩
  have hsent : tablesClient.sent tablesSteps = [(tablesCall, first), (tablesCall, second)] := by
    simp [Client.sent, tablesSteps, hfirst, hsecond, hother, Except.toOption]
  have hkept : ¬tablesClient.HasTaken 1 (tablesSteps ++ [.token 0]) := by
    rintro ⟨before, later, heq, -⟩
    have hmem : Step.take 1 ∈ tablesSteps ++ [.token 0] := by simp [heq]
    simp [tablesSteps] at hmem
  obtain ⟨hrequests, -, -, houtcomes, -⟩ :=
    outputs_independent tablesClient busyTransport tablesSteps
  rw [hsent] at hrequests houtcomes
  exact ⟨first, second, hsent, hrequests, (houtcomes 1 _ _ rfl [.token 0] hkept).2.1⟩

end

end Outputs
end ServiceBindings
