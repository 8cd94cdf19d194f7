import Mathlib.Data.List.Infix
import Mathlib.Tactic.Common
import ServiceBindings.Http.Source

/-! Content can be read in full at any time. All handles on it and all iterators over its chunks
move one cursor, and each full reading begins by setting it back. Only a reader whose chunks are
larger than any buffer can be spoils the content, and it does so for all others. -/
namespace ServiceBindings.Http

section
variable {chunks : Chunks} {cursor : Cursor}

theorem Source.length_run (source : Source) (cursor : Cursor) :
    source.length.run.run cursor =
      if cursor.poisoned then (.error .poisoned, cursor)
      else (.ok source.content.length, { cursor with position := 0 }) := by
  obtain ⟨position, poisoned⟩ := cursor
  cases poisoned <;> rfl

theorem Source.readAll_run (source : Source) (cursor : Cursor) :
    source.readAll.run.run cursor =
      if cursor.poisoned then (.error .poisoned, cursor)
      else (.ok source.content, { cursor with position := 0 + source.content.length }) := by
  obtain ⟨position, poisoned⟩ := cursor
  cases poisoned <;> rfl

theorem Source.chunks_run (source : Source) (cursor : Cursor) :
    source.chunks.run.run cursor =
      if cursor.poisoned then (.error .poisoned, cursor)
      else (.ok { content := source.content, chunkSize := source.chunkSize },
        { cursor with position := 0 }) := by
  obtain ⟨position, poisoned⟩ := cursor
  cases poisoned <;> rfl

namespace Chunks

/-- The bytes that follow the cursor, as many as a chunk can hold. -/
def following (chunks : Chunks) (position : Nat) : Bytes :=
  (chunks.content.drop position).take chunks.chunkSize

/-- Behind the bytes of a chunk lies what is left without them. -/
theorem drop_following (chunks : Chunks) (position : Nat) :
    chunks.content.drop (position + (chunks.following position).length) =
      (chunks.content.drop position).drop chunks.chunkSize := by
  unfold following
  rw [List.drop_drop, List.length_take]
  rcases Nat.le_total chunks.chunkSize (chunks.content.drop position).length with hle | hle
  · rw [Nat.min_eq_left hle]
  · rw [Nat.min_eq_right hle]
    rw [List.length_drop] at hle ⊢
    rw [List.drop_eq_nil_of_le (by omega), List.drop_eq_nil_of_le (by omega)]

theorem read_run (chunks : Chunks) (cursor : Cursor) :
    chunks.read.run.run cursor =
      if cursor.poisoned then (.error .poisoned, cursor)
      else if Access.maxCapacity < chunks.chunkSize then
        (.error .capacity, { cursor with poisoned := true })
      else
        (.ok (chunks.following cursor.position),
          { cursor with
            position := cursor.position + (chunks.following cursor.position).length }) := by
  obtain ⟨position, poisoned⟩ := cursor
  cases poisoned with
  | true => rfl
  | false =>
    show (Access.reserve chunks.chunkSize >>= fun _ =>
      Access.take chunks.content (some chunks.chunkSize)).run.run ⟨position, false⟩ = _
    unfold Access.reserve
    split_ifs <;> first | rfl | contradiction

theorem next_of_done (h : chunks.done = true) (cursor : Cursor) :
    chunks.next.run cursor = ((.ok none, chunks), cursor) := by
  unfold next
  rw [if_pos h]
  rfl

/-- An iterator that has not ended answers with what it reads. -/
theorem next_of_not_done (h : chunks.done = false) (cursor : Cursor) :
    chunks.next.run cursor =
      match chunks.read.run.run cursor with
      | (.ok [], cursor) => ((.ok none, { chunks with done := true }), cursor)
      | (.ok chunk, cursor) => ((.ok (some chunk), chunks), cursor)
      | (.error .capacity, cursor) => ((.error .capacity, chunks), cursor)
      | (.error .poisoned, cursor) =>
        ((.error .poisoned, { chunks with done := true }), cursor) := by
  have hdone : ¬chunks.done = true := by simp [h]
  unfold next
  rw [if_neg hdone]
  show (chunks.read.run >>= fun result => _).run cursor = _
  rw [StateT.run_bind]
  rcases chunks.read.run.run cursor with ⟨(_ | _) | (_ | _), _⟩ <;> rfl

/-- What an iterator answers at a cursor, what becomes of the iterator, and of the cursor. -/
inductive Turn (chunks : Chunks) (cursor : Cursor) :
    (Except ReadError (Option Bytes) × Chunks) × Cursor → Prop where
  | ended (hdone : chunks.done = true) : Turn chunks cursor ((.ok none, chunks), cursor)
  | locked (hdone : chunks.done = false) (hpoisoned : cursor.poisoned = true) :
    Turn chunks cursor ((.error .poisoned, { chunks with done := true }), cursor)
  | tooLarge (hdone : chunks.done = false) (hpoisoned : cursor.poisoned = false)
      (hsize : Access.maxCapacity < chunks.chunkSize) :
    Turn chunks cursor ((.error .capacity, chunks), { cursor with poisoned := true })
  | atEnd (hdone : chunks.done = false) (hpoisoned : cursor.poisoned = false)
      (hsize : chunks.chunkSize ≤ Access.maxCapacity)
      (hempty : chunks.following cursor.position = []) :
    Turn chunks cursor ((.ok none, { chunks with done := true }), cursor)
  | chunk (hdone : chunks.done = false) (hpoisoned : cursor.poisoned = false)
      (hsize : chunks.chunkSize ≤ Access.maxCapacity)
      (hfull : chunks.following cursor.position ≠ []) :
    Turn chunks cursor
      ((.ok (some (chunks.following cursor.position)), chunks),
        { cursor with
          position := cursor.position + (chunks.following cursor.position).length })

theorem turn_next (chunks : Chunks) (cursor : Cursor) :
    Turn chunks cursor (chunks.next.run cursor) := by
  have hread := read_run chunks cursor
  cases hdone : chunks.done with
  | true =>
    rw [next_of_done hdone]
    exact .ended hdone
  | false =>
    rw [next_of_not_done hdone, hread]
    split_ifs with hpoisoned hsize
    · exact .locked hdone hpoisoned
    · exact .tooLarge hdone (by simpa using hpoisoned) hsize
    · have hfree : cursor.poisoned = false := by simpa using hpoisoned
      have hfits : chunks.chunkSize ≤ Access.maxCapacity := by omega
      cases hchunk : chunks.following cursor.position with
      | nil => exact .atEnd hdone hfree hfits hchunk
      | cons byte rest =>
        have hfull : chunks.following cursor.position ≠ [] := by simp [hchunk]
        have hturn := Turn.chunk hdone hfree hfits hfull
        rwa [hchunk] at hturn

/-- An iterator keeps its content and the size of its chunks. -/
theorem next_keeps (chunks : Chunks) (cursor : Cursor) :
    (chunks.next.run cursor).1.2.content = chunks.content ∧
      (chunks.next.run cursor).1.2.chunkSize = chunks.chunkSize := by
  have hturn := turn_next chunks cursor
  generalize chunks.next.run cursor = answer at hturn ⊢
  cases hturn <;> exact ⟨rfl, rfl⟩

end Chunks
end

namespace Source

/-- What can be asked of the handles on some content and of the iterators over it, which are counted
in the order in which they were made. -/
inductive Step where
  | length (handle : Nat)
  | readAll (handle : Nat)
  | chunks (handle : Nat)
  | next (iterator : Nat)
  /-- A new handle, of which the chunks may have another size. -/
  | copy (handle : Nat) (size : Option Nat)
deriving DecidableEq

def Step.size? : Step → Option Nat
  | copy _ size => size
  | length _ | readAll _ | chunks _ | next _ => none

inductive Reply where
  | length (result : Except ReadError Nat)
  | content (result : Except ReadError Bytes)
  | chunk (result : Except ReadError (Option Bytes))
  | iterator (result : Except ReadError Nat)
  | handle (number : Nat)
  | missing

/-- The handles on some content, the iterators over it, and the place at which they all read it. -/
structure Session where
  cursor : Cursor := {}
  handles : List Source
  iterators : List Chunks := []

/-- The content cut into pieces of one size, of which only the last may be smaller. -/
structure Cut (size : Nat) (content : Bytes) (pieces : List Bytes) : Prop where
  flatten : pieces.flatten = content
  ne_nil : ∀ piece ∈ pieces, piece ≠ []
  length_le : ∀ piece ∈ pieces, piece.length ≤ size
  length_eq : ∀ piece ∈ pieces.dropLast, piece.length = size

theorem cut_nil (size : Nat) : Cut size [] [] where
  flatten := rfl
  ne_nil := by simp
  length_le := by simp
  length_eq := by simp

theorem Cut.cons {size : Nat} {content : Bytes} {pieces : List Bytes}
    (h : Cut size (content.drop size) pieces) (hsize : 1 ≤ size) (hcontent : content ≠ []) :
    Cut size content (content.take size :: pieces) where
  flatten := by rw [List.flatten_cons, h.flatten, List.take_append_drop]
  ne_nil := by
    have hfirst : content.take size ≠ [] := by
      rw [Ne, List.take_eq_nil_iff, not_or]
      exact ⟨by omega, hcontent⟩
    exact List.forall_mem_cons.2 ⟨hfirst, h.ne_nil⟩
  length_le := List.forall_mem_cons.2 ⟨List.length_take_le _ _, h.length_le⟩
  length_eq := by
    cases pieces with
    | nil => simp
    | cons second later =>
      -- Something is left for the second piece, so the first one is full.
      have hsecond : second ≠ [] := h.ne_nil second List.mem_cons_self
      have hleft : content.drop size ≠ [] := by
        rw [← h.flatten, List.flatten_cons]
        simp [hsecond]
      have hlong : size ≤ content.length := by
        rw [Ne, List.drop_eq_nil_iff] at hleft
        omega
      rw [List.dropLast_cons_of_ne_nil (List.cons_ne_nil _ _)]
      exact List.forall_mem_cons.2 ⟨List.length_take_of_le hlong, h.length_eq⟩

namespace Session

def start (content : Bytes) (size : Nat) : Session where
  handles := [({ id := 0, content } : Source).withChunkSize size]

/-- What is done with one of some handles or iterators, if there is one of this number. -/
def withItem {α : Type} (session : Session) (items : List α) (number : Nat)
    (act : α → Reply × Session) : Reply × Session :=
  items[number]?.elim (.missing, session) act

def step (session : Session) : Step → Reply × Session
  | .length handle => session.withItem session.handles handle fun source =>
    let (result, cursor) := source.length.run.run session.cursor
    (.length result, { session with cursor })
  | .readAll handle => session.withItem session.handles handle fun source =>
    let (result, cursor) := source.readAll.run.run session.cursor
    (.content result, { session with cursor })
  | .chunks handle => session.withItem session.handles handle fun source =>
    match source.chunks.run.run session.cursor with
    | (.error error, cursor) => (.iterator (.error error), { session with cursor })
    | (.ok chunks, cursor) =>
      (.iterator (.ok session.iterators.length),
        { session with cursor, iterators := session.iterators ++ [chunks] })
  | .next iterator => session.withItem session.iterators iterator fun chunks =>
    let ((result, chunks), cursor) := chunks.next.run session.cursor
    (.chunk result, { session with cursor, iterators := session.iterators.set iterator chunks })
  | .copy handle size => session.withItem session.handles handle fun source =>
    (.handle session.handles.length,
      { session with handles := session.handles ++ [size.elim source source.withChunkSize] })

def after (session : Session) (steps : List Step) : Session :=
  steps.foldl (fun session step => (session.step step).2) session

def replies : Session → List Step → List Reply
  | _, [] => []
  | session, step :: rest => (session.step step).1 :: (session.step step).2.replies rest

/-- All handles and iterators are on the same content, and the sizes of their chunks are allowed. -/
structure Sound (content : Bytes) (allowed : Nat → Prop) (session : Session) : Prop where
  handles : ∀ source ∈ session.handles, source.content = content ∧ allowed source.chunkSize
  iterators : ∀ chunks ∈ session.iterators, chunks.content = content ∧ allowed chunks.chunkSize

section
variable {content : Bytes} {allowed : Nat → Prop} {session : Session} {source : Source}
  {chunks : Chunks} {handle iterator size : Nat}

theorem sound_start (h : allowed (max size 1)) : Sound content allowed (start content size) where
  handles := by
    intro source hmem
    obtain rfl := List.mem_singleton.1 hmem
    exact ⟨rfl, h⟩
  iterators := by
    intro chunks hmem
    cases hmem

theorem step_length (h : session.handles[handle]? = some source) :
    session.step (.length handle) =
      if session.cursor.poisoned then (.length (.error .poisoned), session)
      else
        (.length (.ok source.content.length),
          { session with cursor.position := 0 }) := by
  simp only [step, withItem, h, Option.elim_some, length_run]
  split_ifs <;> rfl

theorem step_readAll (h : session.handles[handle]? = some source) :
    session.step (.readAll handle) =
      if session.cursor.poisoned then (.content (.error .poisoned), session)
      else
        (.content (.ok source.content),
          { session with cursor.position := 0 + source.content.length }) := by
  simp only [step, withItem, h, Option.elim_some, readAll_run]
  split_ifs <;> rfl

theorem step_chunks (h : session.handles[handle]? = some source) :
    session.step (.chunks handle) =
      if session.cursor.poisoned then (.iterator (.error .poisoned), session)
      else
        (.iterator (.ok session.iterators.length),
          { session with
            cursor.position := 0
            iterators := session.iterators ++
              [{ content := source.content, chunkSize := source.chunkSize }] }) := by
  simp only [step, withItem, h, Option.elim_some, chunks_run]
  split_ifs <;> rfl

theorem step_next (h : session.iterators[iterator]? = some chunks) :
    session.step (.next iterator) =
      (.chunk (chunks.next.run session.cursor).1.1,
        { session with
          cursor := (chunks.next.run session.cursor).2
          iterators := session.iterators.set iterator (chunks.next.run session.cursor).1.2 }) := by
  simp only [step, withItem, h, Option.elim_some]
  rfl

/-- What a step answers and what it does: at most, the cursor is moved, a handle or an iterator is
added, or an iterator takes its turn. -/
inductive Did (session : Session) : Step → Reply × Session → Prop where
  | missing (step : Step) : Did session step (.missing, session)
  | moved {step : Step} {reply : Reply} (position : Nat)
      (hreply : ∀ result, reply ≠ .chunk result) :
    Did session step (reply, { session with cursor.position := position })
  | opened {handle : Nat} {source : Source} (hsource : session.handles[handle]? = some source) :
    Did session (.chunks handle)
      (.iterator (.ok session.iterators.length),
        { session with
          cursor.position := 0
          iterators := session.iterators ++
            [{ content := source.content, chunkSize := source.chunkSize }] })
  | turned {iterator : Nat} {chunks : Chunks}
      (hchunks : session.iterators[iterator]? = some chunks) :
    Did session (.next iterator)
      (.chunk (chunks.next.run session.cursor).1.1,
        { session with
          cursor := (chunks.next.run session.cursor).2
          iterators := session.iterators.set iterator (chunks.next.run session.cursor).1.2 })
  | copied {handle : Nat} {source : Source} (hsource : session.handles[handle]? = some source)
      (size : Option Nat) :
    Did session (.copy handle size)
      (.handle session.handles.length,
        { session with
          handles := session.handles ++ [size.elim source source.withChunkSize] })

theorem did_withItem {α : Type} {items : List α} {number : Nat} {act : α → Reply × Session}
    {step : Step} (h : ∀ item, items[number]? = some item → Did session step (act item)) :
    Did session step (session.withItem items number act) := by
  unfold withItem
  cases hitem : items[number]? with
  | none => exact .missing step
  | some item => exact h item hitem

theorem did_step (session : Session) (step : Step) : Did session step (session.step step) := by
  cases step with
  | length handle =>
    refine did_withItem fun source hsource => ?_
    simp only [length_run]
    split_ifs
    · exact .moved session.cursor.position (by simp)
    · exact .moved 0 (by simp)
  | readAll handle =>
    refine did_withItem fun source hsource => ?_
    simp only [readAll_run]
    split_ifs
    · exact .moved session.cursor.position (by simp)
    · exact .moved (0 + source.content.length) (by simp)
  | chunks handle =>
    refine did_withItem fun source hsource => ?_
    simp only [chunks_run]
    split_ifs
    · exact .moved session.cursor.position (by simp)
    · exact .opened hsource
  | next iterator => exact did_withItem fun chunks hchunks => .turned hchunks
  | copy handle size => exact did_withItem fun source hsource => .copied hsource size

/-- Every step keeps to the content, and to sizes of chunks that are allowed as long as those are
that are asked for. -/
theorem Sound.step (h : Sound content allowed session) {step : Step}
    (hsize : ∀ size, step.size? = some size → allowed (max size 1)) :
    Sound content allowed (session.step step).2 := by
  have hdid := did_step session step
  generalize session.step step = answer at hdid ⊢
  cases hdid with
  | missing | moved => exact ⟨h.handles, h.iterators⟩
  | opened hsource =>
    refine ⟨h.handles, fun chunks hmem => ?_⟩
    rcases List.mem_append.1 hmem with hmem | hmem
    · exact h.iterators chunks hmem
    · obtain rfl := List.mem_singleton.1 hmem
      exact h.handles _ (List.mem_of_getElem? hsource)
  | @turned iterator chunks hchunks =>
    refine ⟨h.handles, fun others hmem => ?_⟩
    rcases List.mem_or_eq_of_mem_set hmem with hmem | rfl
    · exact h.iterators others hmem
    · obtain ⟨hcontent, hchunkSize⟩ := Chunks.next_keeps chunks session.cursor
      rw [hcontent, hchunkSize]
      exact h.iterators chunks (List.mem_of_getElem? hchunks)
  | @copied handle source hsource size =>
    refine ⟨fun others hmem => ?_, h.iterators⟩
    rcases List.mem_append.1 hmem with hmem | hmem
    · exact h.handles others hmem
    · obtain rfl := List.mem_singleton.1 hmem
      have hfirst := h.handles source (List.mem_of_getElem? hsource)
      cases size with
      | none => exact hfirst
      | some size => exact ⟨hfirst.1, hsize size rfl⟩

theorem Sound.after (h : Sound content allowed session) {steps : List Step}
    (hsize : ∀ size ∈ steps.filterMap Step.size?, allowed (max size 1)) :
    Sound content allowed (session.after steps) := by
  induction steps generalizing session with
  | nil => exact h
  | cons step rest ih =>
    have hstep : ∀ size, step.size? = some size → allowed (max size 1) := fun size hsome =>
      hsize size (List.mem_filterMap.2 ⟨step, List.mem_cons_self, hsome⟩)
    refine ih (h.step hstep) fun size hmem => ?_
    obtain ⟨other, hother, hsome⟩ := List.mem_filterMap.1 hmem
    exact hsize size (List.mem_filterMap.2 ⟨other, List.mem_cons_of_mem _ hother, hsome⟩)

/-- The content is spoilt by the iterator that breaks off, and by nothing else. -/
theorem poisoned_step {step : Step} :
    (session.step step).2.cursor.poisoned = true ↔
      session.cursor.poisoned = true ∨ (session.step step).1 = .chunk (.error .capacity) := by
  have hdid := did_step session step
  generalize session.step step = answer at hdid ⊢
  cases hdid with
  | missing | opened | copied => simp
  | moved position hreply => simp [hreply]
  | @turned iterator chunks hchunks =>
    have hturn := Chunks.turn_next chunks session.cursor
    generalize chunks.next.run session.cursor = turn at hturn ⊢
    cases hturn <;> simp_all

theorem poisoned_after (steps : List Step) :
    (session.after steps).cursor.poisoned = true ↔
      session.cursor.poisoned = true ∨ .chunk (.error .capacity) ∈ session.replies steps := by
  induction steps generalizing session with
  | nil => simp [Session.after, replies]
  | cons step rest ih =>
    have hafter : session.after (step :: rest) = (session.step step).2.after rest := rfl
    rw [hafter, ih, poisoned_step, replies, List.mem_cons, or_assoc,
      eq_comm (a := (session.step step).1)]

/-- An iterator breaks off where its chunks are larger than any buffer. -/
theorem reply_next_eq_capacity (h : session.iterators[iterator]? = some chunks) :
    (session.step (.next iterator)).1 = .chunk (.error .capacity) ↔
      chunks.done = false ∧ session.cursor.poisoned = false ∧
        Access.maxCapacity < chunks.chunkSize := by
  rw [step_next h]
  have hturn := Chunks.turn_next chunks session.cursor
  generalize chunks.next.run session.cursor = turn at hturn ⊢
  cases hturn with
  | ended hdone => simp [hdone]
  | locked hdone hpoisoned => simp [hpoisoned]
  | tooLarge hdone hpoisoned hsize => simp [hdone, hpoisoned, hsize]
  | atEnd hdone hpoisoned hsize | chunk hdone hpoisoned hsize =>
    have hfits : ¬Access.maxCapacity < chunks.chunkSize := by omega
    simp [hfits]

theorem exists_too_large_of_reply {step : Step}
    (h : (session.step step).1 = .chunk (.error .capacity)) :
    ∃ chunks ∈ session.iterators, Access.maxCapacity < chunks.chunkSize := by
  have hdid := did_step session step
  generalize hanswer : session.step step = answer at hdid h
  cases hdid with
  | missing | opened | copied => cases h
  | moved position hreply => exact absurd h (hreply _)
  | @turned iterator chunks hchunks =>
    rw [← hanswer] at h
    obtain ⟨-, -, hlarge⟩ := (reply_next_eq_capacity hchunks).1 h
    exact ⟨chunks, List.mem_of_getElem? hchunks, hlarge⟩

/-- What an iterator answers is a part of the content. -/
theorem chunk_of_reply {chunk : Bytes} (h : session.iterators[iterator]? = some chunks)
    (hreply : (session.step (.next iterator)).1 = .chunk (.ok (some chunk))) :
    chunk ≠ [] ∧ chunk <:+: chunks.content ∧ chunk.length ≤ chunks.chunkSize := by
  rw [step_next h] at hreply
  have hturn := Chunks.turn_next chunks session.cursor
  generalize chunks.next.run session.cursor = turn at hturn hreply
  cases hturn with
  | ended | locked | tooLarge | atEnd => cases hreply
  | chunk hdone hpoisoned hsize hfull =>
    obtain rfl : chunks.following session.cursor.position = chunk := by
      simpa using hreply
    refine ⟨hfull, ?_, List.length_take_le _ _⟩
    exact (List.take_prefix _ _).isInfix.trans (List.drop_suffix _ _).isInfix

/-- The iterator of this number has ended. -/
def Ended (session : Session) (iterator : Nat) : Prop :=
  ∃ chunks, session.iterators[iterator]? = some chunks ∧ chunks.done = true

theorem Ended.reply (h : session.Ended iterator) :
    (session.step (.next iterator)).1 = .chunk (.ok none) := by
  obtain ⟨chunks, hchunks, hdone⟩ := h
  rw [step_next hchunks, Chunks.next_of_done hdone]

/-- An iterator has ended once it answers that there are no further chunks, or that the content is
spoilt. -/
theorem ended_of_reply (h : session.iterators[iterator]? = some chunks)
    (hreply : (session.step (.next iterator)).1 = .chunk (.ok none) ∨
      (session.step (.next iterator)).1 = .chunk (.error .poisoned)) :
    (session.step (.next iterator)).2.Ended iterator := by
  have hlt : iterator < session.iterators.length := (List.getElem?_eq_some_iff.1 h).1
  rw [step_next h] at hreply ⊢
  refine ⟨(chunks.next.run session.cursor).1.2, List.getElem?_set_self hlt, ?_⟩
  have hturn := Chunks.turn_next chunks session.cursor
  generalize chunks.next.run session.cursor = turn at hturn hreply ⊢
  cases hturn with
  | ended hdone => exact hdone
  | locked | atEnd => rfl
  | tooLarge | chunk => simp at hreply

theorem Ended.step (h : session.Ended iterator) (step : Step) :
    (session.step step).2.Ended iterator := by
  obtain ⟨chunks, hchunks, hdone⟩ := h
  have hdid := did_step session step
  generalize session.step step = answer at hdid ⊢
  cases hdid with
  | missing | moved | copied => exact ⟨chunks, hchunks, hdone⟩
  | opened hsource =>
    have hlt : iterator < session.iterators.length := (List.getElem?_eq_some_iff.1 hchunks).1
    exact ⟨chunks, (List.getElem?_append_left hlt).trans hchunks, hdone⟩
  | @turned other others hothers =>
    by_cases heq : other = iterator
    · subst other
      obtain rfl : chunks = others := Option.some.inj (hchunks.symm.trans hothers)
      have hlt : iterator < session.iterators.length := (List.getElem?_eq_some_iff.1 hchunks).1
      rw [Chunks.next_of_done hdone]
      exact ⟨chunks, List.getElem?_set_self hlt, hdone⟩
    · exact ⟨chunks, (List.getElem?_set_ne heq).trans hchunks, hdone⟩

theorem Ended.after (h : session.Ended iterator) (steps : List Step) :
    (session.after steps).Ended iterator := by
  induction steps generalizing session with
  | nil => exact h
  | cons step rest ih => exact ih (h.step step)

/-- An iterator that nothing interferes with answers with the pieces of the content from the cursor
on, and then ends. -/
theorem exists_cut_of_replies (h : session.iterators[iterator]? = some chunks)
    (hdone : chunks.done = false) (hpoisoned : session.cursor.poisoned = false)
    (hpositive : 1 ≤ chunks.chunkSize) (hsize : chunks.chunkSize ≤ Access.maxCapacity) :
    ∃ pieces, Cut chunks.chunkSize (chunks.content.drop session.cursor.position) pieces ∧
      session.replies (List.replicate (pieces.length + 1) (.next iterator)) =
        pieces.map (fun piece => .chunk (.ok (some piece))) ++ [.chunk (.ok none)] := by
  induction hleft : (chunks.content.drop session.cursor.position).length
    using Nat.strong_induction_on generalizing session with
  | h left ih =>
    have hnext := Chunks.turn_next chunks session.cursor
    have hstep := step_next h
    generalize chunks.next.run session.cursor = turn at hnext hstep
    cases hnext with
    | ended hended => simp [hdone] at hended
    | locked _ hlocked => simp [hpoisoned] at hlocked
    | tooLarge _ _ hlarge => omega
    | atEnd _ _ _ hempty =>
      have hnil : chunks.content.drop session.cursor.position = [] := by
        rcases List.take_eq_nil_iff.1 hempty with hzero | hnil
        · omega
        · exact hnil
      refine ⟨[], hnil ▸ cut_nil chunks.chunkSize, ?_⟩
      simp [replies, hstep]
    | chunk _ _ _ hfull =>
      have hlt : iterator < session.iterators.length := (List.getElem?_eq_some_iff.1 h).1
      have hcontent : chunks.content.drop session.cursor.position ≠ [] := by
        intro hnil
        simp [Chunks.following, hnil] at hfull
      have hrest := Chunks.drop_following chunks session.cursor.position
      have hshorter : ((chunks.content.drop session.cursor.position).drop chunks.chunkSize).length <
          left := by
        have hpos := List.length_pos_of_ne_nil hcontent
        rw [List.length_drop]
        omega
      have hchunks : (session.step (.next iterator)).2.iterators[iterator]? = some chunks := by
        rw [hstep]
        exact List.getElem?_set_self hlt
      have hfree : (session.step (.next iterator)).2.cursor.poisoned = false := by
        rw [hstep]
        exact hpoisoned
      obtain ⟨pieces, hcut, hreplies⟩ := ih _ hshorter hchunks hfree
        (by rw [hstep]; exact congrArg List.length hrest)
      rw [hstep] at hcut
      refine ⟨chunks.following session.cursor.position :: pieces,
        (hrest ▸ hcut).cons hpositive hcontent, ?_⟩
      rw [List.length_cons, List.replicate_succ, replies, hreplies, hstep]
      rfl

/-- A new iterator that nothing interferes with answers with the pieces of the whole content. -/
theorem exists_cut_of_chunks (h : session.handles[handle]? = some source)
    (hpoisoned : session.cursor.poisoned = false) (hpositive : 1 ≤ source.chunkSize)
    (hsize : source.chunkSize ≤ Access.maxCapacity) :
    ∃ pieces, Cut source.chunkSize source.content pieces ∧
      session.replies (.chunks handle ::
          List.replicate (pieces.length + 1) (.next session.iterators.length)) =
        .iterator (.ok session.iterators.length) ::
          (pieces.map (fun piece => .chunk (.ok (some piece))) ++ [.chunk (.ok none)]) := by
  have hfree : ¬session.cursor.poisoned = true := by simp [hpoisoned]
  have hstep := step_chunks h
  rw [if_neg hfree] at hstep
  have hchunks : (session.step (.chunks handle)).2.iterators[session.iterators.length]? =
      some { content := source.content, chunkSize := source.chunkSize } := by
    rw [hstep]
    exact List.getElem?_concat_length
  have hstill : (session.step (.chunks handle)).2.cursor.poisoned = false := by
    rw [hstep]
    exact hpoisoned
  obtain ⟨pieces, hcut, hreplies⟩ := exists_cut_of_replies hchunks rfl hstill hpositive hsize
  rw [hstep] at hcut
  refine ⟨pieces, hcut, ?_⟩
  rw [replies, hreplies, hstep]

/-- Nothing breaks off where all sizes of chunks fit into a buffer. -/
theorem not_poisoned_after_of_fits (h : Sound content (· ≤ Access.maxCapacity) session)
    (hpoisoned : session.cursor.poisoned = false) {steps : List Step}
    (hsize : ∀ size ∈ steps.filterMap Step.size?, size ≤ Access.maxCapacity) :
    (session.after steps).cursor.poisoned = false := by
  induction steps generalizing session with
  | nil => exact hpoisoned
  | cons step rest ih =>
    have hsizeStep : ∀ size, step.size? = some size → max size 1 ≤ Access.maxCapacity := by
      intro size hsome
      have hle := hsize size (List.mem_filterMap.2 ⟨step, List.mem_cons_self, hsome⟩)
      have hone : 1 ≤ Access.maxCapacity := by decide
      omega
    refine ih (h.step hsizeStep) ?_ fun size hmem => ?_
    · by_contra hbroken
      rw [Bool.not_eq_false, poisoned_step] at hbroken
      rcases hbroken with hbroken | hbroken
      · simp [hpoisoned] at hbroken
      · obtain ⟨chunks, hmem, hlarge⟩ := exists_too_large_of_reply hbroken
        have hfits := (h.iterators chunks hmem).2
        omega
    · obtain ⟨other, hother, hsome⟩ := List.mem_filterMap.1 hmem
      exact hsize size (List.mem_filterMap.2 ⟨other, List.mem_cons_of_mem _ hother, hsome⟩)

/-- Handles give the length of the content and the whole of it, unless it is spoilt. -/
theorem reply_of_handle (h : session.handles[handle]? = some source) :
    (session.step (.length handle)).1 =
        .length (if session.cursor.poisoned then .error .poisoned else .ok source.content.length) ∧
      (session.step (.readAll handle)).1 =
        .content (if session.cursor.poisoned then .error .poisoned else .ok source.content) := by
  rw [step_length h, step_readAll h]
  split_ifs <;> exact ⟨rfl, rfl⟩

/-- An iterator that has ended stays so, whatever else is asked for. -/
theorem reply_after_end (h : session.iterators[iterator]? = some chunks)
    (hreply : (session.step (.next iterator)).1 = .chunk (.ok none) ∨
      (session.step (.next iterator)).1 = .chunk (.error .poisoned)) (more : List Step) :
    (((session.step (.next iterator)).2.after more).step (.next iterator)).1 =
      .chunk (.ok none) :=
  ((ended_of_reply h hreply).after more).reply

end

section Start
variable (content : Bytes) (size : Nat) (steps : List Step)

/-- All chunks have a size that was asked for, or of one byte in place of none. -/
theorem sound_start_after :
    ((start content size).after steps).Sound content
      (· ∈ (size :: steps.filterMap Step.size?).map (max · 1)) := by
  have hstart : Sound content (· ∈ (size :: steps.filterMap Step.size?).map (max · 1))
      (start content size) := sound_start (List.mem_map_of_mem List.mem_cons_self)
  exact hstart.after fun asked hasked => List.mem_map_of_mem (List.mem_cons_of_mem _ hasked)

theorem poisoned_start_after :
    ((start content size).after steps).cursor.poisoned = true ↔
      .chunk (.error .capacity) ∈ (start content size).replies steps := by
  have hpoisoned : ((start content size).after steps).cursor.poisoned = true ↔ _ ∨ _ :=
    poisoned_after steps
  have hstart : (start content size).cursor.poisoned = false := rfl
  rwa [hstart, Bool.false_eq_true, false_or] at hpoisoned

theorem not_poisoned_start_after
    (hfits : ∀ asked ∈ size :: steps.filterMap Step.size?, asked ≤ Access.maxCapacity) :
    ((start content size).after steps).cursor.poisoned = false := by
  have hone : 1 ≤ Access.maxCapacity := by decide
  have hfirst : max size 1 ≤ Access.maxCapacity :=
    Nat.max_le.2 ⟨hfits size List.mem_cons_self, hone⟩
  exact not_poisoned_after_of_fits (sound_start hfirst) rfl fun asked hasked =>
    hfits asked (List.mem_cons_of_mem _ hasked)

end Start

end Session

open Session (start)

/-- Handles on some content and iterators over it may be used in any order. Unless one of the
iterators broke off, every handle gives the length of the content and the whole of it, and a new
iterator that is used up at once gives all pieces of the content. Each chunk is a part of the
content that is not empty and not larger than the iterator's chunks, and an iterator that ended
stays so. An iterator breaks off where its chunks are larger than any buffer can be, which needs
such a size to be asked for, and from then on the content is not read any more. There is taken to be
memory for every buffer up to the largest size: what happens where it runs out is left open. -/
theorem read_in_full_after_any_steps (content : Bytes) (size : Nat) (steps : List Step) :
    let session := (start content size).after steps
    let sizes := size :: steps.filterMap Step.size?
    (session.cursor.poisoned = true ↔
        .chunk (.error .capacity) ∈ (start content size).replies steps) ∧
    ((∀ asked ∈ sizes, asked ≤ Access.maxCapacity) → session.cursor.poisoned = false) ∧
    (∀ handle source, session.handles[handle]? = some source →
      source.chunkSize ∈ sizes.map (max · 1) ∧
      (session.step (.length handle)).1 =
        .length (if session.cursor.poisoned then .error .poisoned else .ok content.length) ∧
      (session.step (.readAll handle)).1 =
        .content (if session.cursor.poisoned then .error .poisoned else .ok content) ∧
      (session.cursor.poisoned = false → source.chunkSize ≤ Access.maxCapacity →
        ∃ pieces, Cut source.chunkSize content pieces ∧
          session.replies (.chunks handle ::
              List.replicate (pieces.length + 1) (.next session.iterators.length)) =
            .iterator (.ok session.iterators.length) ::
              (pieces.map (fun piece => .chunk (.ok (some piece))) ++ [.chunk (.ok none)]))) ∧
    ∀ iterator chunks, session.iterators[iterator]? = some chunks →
      chunks.chunkSize ∈ sizes.map (max · 1) ∧
      ((session.step (.next iterator)).1 = .chunk (.error .capacity) ↔
        chunks.done = false ∧ session.cursor.poisoned = false ∧
          Access.maxCapacity < chunks.chunkSize) ∧
      (∀ chunk, (session.step (.next iterator)).1 = .chunk (.ok (some chunk)) →
        chunk ≠ [] ∧ chunk <:+: content ∧ chunk.length ≤ chunks.chunkSize) ∧
      ((session.step (.next iterator)).1 = .chunk (.ok none) ∨
          (session.step (.next iterator)).1 = .chunk (.error .poisoned) →
        ∀ more, (((session.step (.next iterator)).2.after more).step (.next iterator)).1 =
          .chunk (.ok none)) := by
  intro session sizes
  have hsound : session.Sound content (· ∈ sizes.map (max · 1)) :=
    Session.sound_start_after content size steps
  refine ⟨Session.poisoned_start_after content size steps,
    Session.not_poisoned_start_after content size steps, fun handle source hsource => ?_,
    fun iterator chunks hchunks => ?_⟩
  · obtain ⟨rfl, hasked⟩ := hsound.handles source (List.mem_of_getElem? hsource)
    obtain ⟨hlength, hall⟩ := Session.reply_of_handle hsource
    have hpositive : 1 ≤ source.chunkSize := by
      obtain ⟨asked, -, heq⟩ := List.mem_map.1 hasked
      exact heq ▸ Nat.le_max_right asked 1
    exact ⟨hasked, hlength, hall, fun hpoisoned hsize =>
      Session.exists_cut_of_chunks hsource hpoisoned hpositive hsize⟩
  · obtain ⟨rfl, hasked⟩ := hsound.iterators chunks (List.mem_of_getElem? hchunks)
    exact ⟨hasked, Session.reply_next_eq_capacity hchunks,
      fun chunk hreply => Session.chunk_of_reply hchunks hreply,
      fun hreply more => Session.reply_after_end hchunks hreply more⟩

/-- An iterator with chunks of three bytes has read the first of them when a handle with chunks of
one byte is made. It reads on, and all of the content is there for both handles. -/
theorem read_in_full_after_first_chunk :
    let content : Bytes := [97, 98, 99, 100, 101, 102, 103]
    let session := (start content 3).after [.chunks 0, .next 0, .copy 0 (some 0)]
    (session.step (.length 0)).1 = .length (.ok 7) ∧
      (session.step (.readAll 1)).1 = .content (.ok content) ∧
      (∃ pieces, Cut 3 content pieces ∧
        session.replies (.chunks 0 :: List.replicate (pieces.length + 1) (.next 1)) =
          .iterator (.ok 1) ::
            (pieces.map (fun piece => .chunk (.ok (some piece))) ++ [.chunk (.ok none)])) ∧
      (session.step (.next 0)).1 = .chunk (.ok (some [100, 101, 102])) ∧
      [100, 101, 102] <:+: content := by
  intro content session
  obtain ⟨-, hfits, hhandles, hiterators⟩ := read_in_full_after_any_steps content 3
    [.chunks 0, .next 0, .copy 0 (some 0)]
  have hfree : session.cursor.poisoned = false := hfits (by decide)
  obtain ⟨-, hlength, -, hpieces⟩ := hhandles 0 { id := 0, content, chunkSize := 3 } rfl
  obtain ⟨-, -, hall, -⟩ := hhandles 1 { id := 0, content, chunkSize := 1 } rfl
  obtain ⟨-, -, hchunk, -⟩ := hiterators 0 { content, chunkSize := 3 } rfl
  have hreply : (session.step (.next 0)).1 = .chunk (.ok (some [100, 101, 102])) := rfl
  obtain ⟨-, hpart, -⟩ := hchunk [100, 101, 102] hreply
  exact ⟨hlength, hall, hpieces hfree (by decide), hreply, hpart⟩

/-- An iterator with the largest size of chunks breaks off, and then the content is not read any
more. -/
theorem unreadable_after_largest_chunks :
    let session := (start [97, 98, 99] 0xFFFFFFFFFFFFFFFF).after [.chunks 0]
    (session.step (.next 0)).1 = .chunk (.error .capacity) ∧
      ((session.step (.next 0)).2.step (.length 0)).1 = .length (.error .poisoned) ∧
      ((session.step (.next 0)).2.step (.readAll 0)).1 = .content (.error .poisoned) ∧
      ((session.step (.next 0)).2.step (.chunks 0)).1 = .iterator (.error .poisoned) := by
  intro session
  exact ⟨rfl, rfl, rfl, rfl⟩

end Source
end ServiceBindings.Http
