import IrohExperiments.Lib.Buf
import IrohExperiments.Lib.Transition

/-!
# The send stream of the h3 binding

A `SendStream` takes buffers and writes them to a QUIC stream.  `send_data` stores a buffer, and
`poll_ready` writes it, a chunk at a time: it copies the chunk into a future that also takes the QUIC
stream along, polls the future, which may be pending any number of times, and advances the buffer by
the number of bytes that were accepted in the end.  So while a write is in flight, the stream is in
the future, together with a copy of bytes that the buffer still has.

`SendStream.Holds` is the invariant that ties the two together.  `pollReady_spec` says what a poll
does to the bytes: what the stream has accepted and what the buffer still has are, one after the
other, the same before and after.  Everything else follows from it.  Buffers that are sent one at a
time are delivered exactly once (`delivered_exactly_once`).  `send_data` does not check that it is
called so, and `poll_finish` does not either: `overlapping_calls_iff` says which of their calls keep
what was accepted before, and `overlapping_send_loses_data` shows one that does not.  A reset can come in
between: it closes the stream, and does nothing to the bytes.
-/

namespace IrohExperiments.H3

/-! ## Codes -/

/-- An integer of QUIC, of 62 bits. -/
structure VarInt where
  value : ℕ
  lt : value < 2 ^ 62

namespace VarInt

def MAX : VarInt := ⟨2 ^ 62 - 1, by decide⟩

/-- `from_u64`. -/
def fromU64 (value : UInt64) : Option VarInt :=
  if h : value.toNat < 2 ^ 62 then some ⟨value.toNat, h⟩ else none

theorem isSome_fromU64 (value : UInt64) : (fromU64 value).isSome ↔ value.toNat < 2 ^ 62 := by
  rw [fromU64]
  split_ifs with h
  · exact iff_of_true rfl h
  · exact iff_of_false (by simp) h

end VarInt

/-! ## The QUIC stream -/

inductive StreamError where
  | Write
  | ClosedStream
  deriving DecidableEq

inductive Poll (α : Type) where
  | Pending
  | Ready (a : α)
  deriving DecidableEq

/-- How a poll of a write turns out, if the stream is not closed: `Accept k` accepts `k + 1` bytes,
or all of them if there are fewer. -/
inductive WriteOutcome where
  | Pending
  | Accept (k : ℕ)
  | Error

/-- A stream of the QUIC library: the bytes it has accepted, and whether it is closed, by `finish`
or by `reset`. -/
structure QuicStream where
  accepted : List UInt8
  closed : Bool
  deriving DecidableEq

namespace QuicStream

def new : QuicStream := ⟨[], false⟩

/-- Poll a write of `chunk`. -/
def pollWrite (self : QuicStream) (chunk : List UInt8) :
    WriteOutcome → Poll (Except StreamError ℕ) × QuicStream
  | .Pending => (.Pending, self)
  | .Accept k =>
      if self.closed then (.Ready (.error .ClosedStream), self)
      else
        let cnt := min (k + 1) chunk.length
        (.Ready (.ok cnt), { self with accepted := self.accepted ++ chunk.take cnt })
  | .Error => (.Ready (.error .Write), self)

def finish (self : QuicStream) : Except StreamError QuicStream :=
  if self.closed then .error .ClosedStream else .ok { self with closed := true }

/-- A stream that is reset takes no more bytes. -/
def reset (self : QuicStream) (_code : VarInt) : Except StreamError QuicStream :=
  if self.closed then .error .ClosedStream else .ok { self with closed := true }

end QuicStream

/-! ## The send stream -/

/-- `WriteBuf`. -/
abbrev WriteBuf := Buf UInt8

/-- The stream, the buffer that is being written, and the write that is in flight: the stream that
the future has taken along, and its copy of the chunk. -/
structure SendStream where
  stream : Option QuicStream
  writing : Option WriteBuf
  writeFut : Option (QuicStream × List UInt8)
  deriving DecidableEq

namespace SendStream

def new (stream : QuicStream) : SendStream := ⟨some stream, none, none⟩

/-- `poll_ready`, with the outcomes of the polls of its writes; where they end the last write is
pending.  `none` is a panic. -/
def pollReady (self : SendStream) (outcomes : List WriteOutcome) :
    Option (Poll (Except StreamError Unit) × SendStream) :=
  match self.writing with
  | none => some (.Ready (.ok ()), self)
  | some data =>
      if data.hasRemaining then
        -- a stream that is at hand is taken into a new future, otherwise the future has it already
        let writeFut := match self.stream with
          | some stream => some (stream, data.chunk)
          | none => self.writeFut
        match writeFut, outcomes with
        | none, _ => none
        | some (stream, chunk), [] => some (.Pending, ⟨none, data, some (stream, chunk)⟩)
        | some (stream, chunk), outcome :: outcomes =>
            match stream.pollWrite chunk outcome with
            | (.Pending, stream) => some (.Pending, ⟨none, data, some (stream, chunk)⟩)
            | (.Ready (.ok cnt), stream) =>
                match data.advance cnt with
                | none => none
                | some data => pollReady ⟨some stream, some data, none⟩ outcomes
            | (.Ready (.error e), stream) =>
                some (.Ready (.error e), ⟨some stream, some data, none⟩)
      else some (.Ready (.ok ()), { self with writing := none })

/-- `poll_finish`.  `none` is the panic of its `unwrap`. -/
def pollFinish (self : SendStream) : Option (Poll (Except StreamError Unit) × SendStream) :=
  match self.stream with
  | none => none
  | some stream =>
      match stream.finish with
      | .ok stream => some (.Ready (.ok ()), { self with stream := some stream })
      | .error e => some (.Ready (.error e), self)

/-- `send_data`.  A buffer that is still being written is replaced. -/
def sendData (self : SendStream) (data : WriteBuf) : SendStream :=
  { self with writing := some data }

/-- `reset`.  Its result is not looked at, and `none` is the panic of its `unwrap`. -/
def reset (self : SendStream) (resetCode : UInt64) : Option SendStream := do
  let stream ← self.stream
  match stream.reset ((VarInt.fromU64 resetCode).getD VarInt.MAX) with
  | .ok stream => return { self with stream := some stream }
  | .error _ => return self

/-! ## Where the stream is -/

/-- The bytes that the QUIC stream has accepted, wherever it is. -/
def accepted (self : SendStream) : List UInt8 :=
  match self.stream, self.writeFut with
  | some stream, _ => stream.accepted
  | none, some (stream, _) => stream.accepted
  | none, none => []

/-- The bytes that are still to be written. -/
def remaining (self : SendStream) : List UInt8 :=
  match self.writing with
  | some data => data.bytes
  | none => []

/-- The send stream has the QUIC stream at hand, or it is in flight with a copy of the chunk that
the buffer shows. -/
inductive Holds : SendStream → QuicStream → Prop
  | idle (stream : QuicStream) (writing : Option WriteBuf) :
      Holds ⟨some stream, writing, none⟩ stream
  | inFlight (stream : QuicStream) (data : WriteBuf) (h : data.hasRemaining = true) :
      Holds ⟨none, some data, some (stream, data.chunk)⟩ stream

theorem Holds.accepted {self : SendStream} {stream : QuicStream} (h : Holds self stream) :
    self.accepted = stream.accepted := by
  cases h <;> rfl

/-- What a poll may leave behind, starting with `stream` and the bytes `todo` to be written. -/
structure PollSpec (stream : QuicStream) (todo : List UInt8)
    (poll : Poll (Except StreamError Unit)) (after : SendStream) (stream' : QuicStream) : Prop where
  holds : Holds after stream'
  bytes : stream'.accepted ++ after.remaining = stream.accepted ++ todo
  closed : stream'.closed = stream.closed
  kept : stream.closed = true → stream'.accepted = stream.accepted
  ready : poll = .Ready (.ok ()) → after.writing = none

theorem pollReady_of_no_data {self : SendStream} {stream : QuicStream} (h : Holds self stream)
    (hdata : ∀ data, self.writing = some data → data.hasRemaining = false)
    (outcomes : List WriteOutcome) :
    ∃ poll after stream', self.pollReady outcomes = some (poll, after) ∧
      PollSpec stream self.remaining poll after stream' := by
  cases h with
  | idle stream writing =>
      cases writing with
      | none =>
          refine ⟨_, _, stream, by rw [pollReady], .idle stream none, rfl, rfl, fun _ => rfl, ?_⟩
          exact fun _ => rfl
      | some data =>
          have hfalse := hdata data rfl
          have hnil : data.bytes = [] := by
            by_contra hne
            rw [data.hasRemaining_iff.mpr hne] at hfalse
            cases hfalse
          refine ⟨.Ready (.ok ()), ⟨some stream, none, none⟩, stream, ?_, .idle stream none, ?_, rfl,
            fun _ => rfl, fun _ => rfl⟩
          · rw [pollReady]
            simp only [hfalse, Bool.false_eq_true, if_false]
          · show stream.accepted ++ [] = stream.accepted ++ data.bytes
            rw [hnil]
  | inFlight stream data hrem =>
      rw [hdata data rfl] at hrem
      cases hrem

/-- A poll with something to write: the stream is put into the future if it is not there already, and
the future is polled. -/
theorem pollReady_of_data {self : SendStream} {stream : QuicStream} (h : Holds self stream)
    {data : WriteBuf} (hwriting : self.writing = some data) (hrem : data.hasRemaining = true) :
    self.pollReady [] = some (.Pending, ⟨none, some data, some (stream, data.chunk)⟩) ∧
      ∀ outcome outcomes, self.pollReady (outcome :: outcomes)
        = match stream.pollWrite data.chunk outcome with
          | (.Pending, stream) => some (.Pending, ⟨none, some data, some (stream, data.chunk)⟩)
          | (.Ready (.ok cnt), stream) =>
              match data.advance cnt with
              | none => none
              | some data => pollReady ⟨some stream, some data, none⟩ outcomes
          | (.Ready (.error e), stream) =>
              some (.Ready (.error e), ⟨some stream, some data, none⟩) := by
  cases h with
  | idle stream writing =>
      cases hwriting
      refine ⟨?_, fun outcome outcomes => ?_⟩
      · rw [pollReady]
        simp only [hrem, if_true]
      · rw [pollReady]
        simp only [hrem, if_true]
  | inFlight stream data' hrem' =>
      cases hwriting
      refine ⟨?_, fun outcome outcomes => ?_⟩
      · rw [pollReady]
        simp only [hrem, if_true]
      · rw [pollReady]
        simp only [hrem, if_true]

/-- **What a poll does.**  It does not panic, and it moves bytes from the buffer to the stream. -/
theorem pollReady_spec {self : SendStream} {stream : QuicStream} (h : Holds self stream)
    (outcomes : List WriteOutcome) :
    ∃ poll after stream', self.pollReady outcomes = some (poll, after) ∧
      PollSpec stream self.remaining poll after stream' := by
  induction outcomes generalizing self stream with
  | nil =>
      by_cases hdata : ∀ data, self.writing = some data → data.hasRemaining = false
      · exact pollReady_of_no_data h hdata []
      · simp only [not_forall, Bool.not_eq_false] at hdata
        obtain ⟨data, hwriting, hrem⟩ := hdata
        refine ⟨_, _, stream, (pollReady_of_data h hwriting hrem).1, .inFlight stream data hrem, ?_,
          rfl, fun _ => rfl, nofun⟩
        rw [remaining, remaining, hwriting]
  | cons outcome outcomes ih =>
      by_cases hdata : ∀ data, self.writing = some data → data.hasRemaining = false
      · exact pollReady_of_no_data h hdata _
      · simp only [not_forall, Bool.not_eq_false] at hdata
        obtain ⟨data, hwriting, hrem⟩ := hdata
        have hremaining : self.remaining = data.bytes := by rw [remaining, hwriting]
        rw [(pollReady_of_data h hwriting hrem).2 outcome outcomes, hremaining]
        -- a failed write leaves the buffer as it was, and the stream at hand
        have herror : ∀ e, PollSpec stream data.bytes (.Ready (.error e))
            ⟨some stream, some data, none⟩ stream := fun e =>
          ⟨.idle stream (some data), rfl, rfl, fun _ => rfl, nofun⟩
        cases outcome with
        | Pending =>
            exact ⟨_, _, stream, rfl, .inFlight stream data hrem, rfl, rfl, fun _ => rfl, nofun⟩
        | Error => exact ⟨_, _, stream, rfl, herror .Write⟩
        | Accept k =>
            cases hclosed : stream.closed with
            | true =>
                refine ⟨_, _, stream, ?_, herror .ClosedStream⟩
                simp only [QuicStream.pollWrite, hclosed, if_true]
            | false =>
                -- the count is at most the length of the chunk, so the buffer can be advanced
                obtain ⟨data', hadvance, hbytes⟩ :=
                  Buf.exists_advance_chunk (Nat.min_le_right (k + 1) data.chunk.length)
                obtain ⟨poll, after, stream', hpoll, hspec⟩ := ih
                  (.idle ⟨stream.accepted ++ data.chunk.take (min (k + 1) data.chunk.length),
                    stream.closed⟩ (some data'))
                refine ⟨poll, after, stream', ?_, hspec.holds, ?_, hspec.closed, ?_, hspec.ready⟩
                · simp only [QuicStream.pollWrite, hclosed, Bool.false_eq_true, if_false, hadvance]
                  rw [← hclosed]
                  exact hpoll
                · rw [hspec.bytes]
                  show (stream.accepted ++ _) ++ data'.bytes = _
                  rw [List.append_assoc, hbytes]
                · intro htrue
                  rw [hclosed] at htrue
                  cases htrue

/-- A reset closes a stream that is at hand, and does nothing to the bytes. -/
theorem reset_idle (stream : QuicStream) (writing : Option WriteBuf) (resetCode : UInt64) :
    reset ⟨some stream, writing, none⟩ resetCode
      = some ⟨some { stream with closed := true }, writing, none⟩ := by
  obtain ⟨accepted, closed⟩ := stream
  cases closed <;> rfl

end SendStream

/-! ## Sessions

A session is a send stream with a record of what its caller was told: the bytes of all buffers that
`send_data` has taken, and how many of them there were when the stream was finished. -/

inductive Call where
  | SendData (data : WriteBuf)
  | PollReady (outcomes : List WriteOutcome)
  | PollFinish
  | Reset (resetCode : UInt64)

structure Session where
  io : SendStream
  sent : List UInt8
  finishedAt : Option (List UInt8)
  deriving DecidableEq

namespace Session

def new : Session := ⟨SendStream.new QuicStream.new, [], none⟩

/-- Make a call.  `none` is a panic. -/
def call (self : Session) : Call → Option (Poll (Except StreamError Unit) × Session)
  | .SendData data =>
      some (.Ready (.ok ()),
        { self with io := self.io.sendData data, sent := self.sent ++ data.bytes })
  | .PollReady outcomes =>
      match self.io.pollReady outcomes with
      | none => none
      | some (poll, io) => some (poll, { self with io := io })
  | .PollFinish =>
      match self.io.pollFinish with
      | none => none
      | some (.Ready (.ok ()), io) =>
          some (.Ready (.ok ()), { self with io := io, finishedAt := some self.sent })
      | some (poll, io) => some (poll, { self with io := io })
  | .Reset resetCode =>
      match self.io.reset resetCode with
      | none => none
      | some io => some (.Ready (.ok ()), { self with io := io })

def step (self : Session) (c : Call) : Option Session := (self.call c).map Prod.snd

/-- **The law of a session**: what was written is followed by what is still to be written, and
together they are what was sent; the write that is in flight is one of bytes still to be written;
and a finished stream has written what was sent until then. -/
structure Law (session : Session) : Prop where
  bytes : session.io.accepted ++ session.io.remaining = session.sent
  inFlight : ∀ stream chunk, session.io.writeFut = some (stream, chunk) →
    chunk <+: session.io.remaining
  finished : ∀ total ∈ session.finishedAt, session.io.accepted = total

/-- The law, and where the stream is. -/
structure Inv (session : Session) (stream : QuicStream) : Prop where
  holds : session.io.Holds stream
  bytes : stream.accepted ++ session.io.remaining = session.sent
  finished : ∀ total ∈ session.finishedAt, stream.accepted = total
  closed : session.finishedAt.isSome = true → stream.closed = true

/-- If everything that was sent was written, nothing is left. -/
theorem Law.remaining_eq_nil {session : Session} (h : session.Law)
    (hall : session.io.accepted = session.sent) : session.io.remaining = [] := by
  have hbytes := h.bytes
  rw [hall] at hbytes
  exact List.append_right_eq_self.mp hbytes

theorem Inv.law {session : Session} {stream : QuicStream} (h : session.Inv stream) :
    session.Law := by
  obtain ⟨io, sent, finishedAt⟩ := session
  have hholds := h.holds
  refine ⟨?_, ?_, ?_⟩
  · rw [hholds.accepted]
    exact h.bytes
  · intro stream' chunk hfut
    cases hholds with
    | idle => cases hfut
    | inFlight stream data hrem =>
        cases hfut
        exact data.chunk_prefix
  · rw [hholds.accepted]
    exact h.finished

theorem inv_new : new.Inv QuicStream.new :=
  ⟨.idle _ none, rfl, nofun, nofun⟩

/-- A buffer that is sent while nothing is left of the ones before. -/
theorem Inv.sendData {session : Session} {stream : QuicStream} (h : session.Inv stream)
    (data : WriteBuf) (hrem : session.io.remaining = []) :
    Inv { session with io := session.io.sendData data, sent := session.sent ++ data.bytes }
      stream := by
  obtain ⟨io, sent, finishedAt⟩ := session
  have hbytes := h.bytes
  simp only at hrem hbytes
  rw [hrem, List.append_nil] at hbytes
  refine ⟨?_, ?_, h.finished, h.closed⟩
  · cases h.holds with
    | idle stream writing => exact .idle stream (some data)
    | inFlight stream data' hrem' =>
        -- a write in flight is one of bytes that are left
        exact absurd hrem (data'.hasRemaining_iff.mp hrem')
  · show stream.accepted ++ data.bytes = sent ++ data.bytes
    rw [hbytes]

/-- A poll keeps the invariant, and if it is ready then everything has been written. -/
theorem Inv.pollReady {session : Session} {stream : QuicStream} (h : session.Inv stream)
    (outcomes : List WriteOutcome) :
    ∃ poll io stream', session.io.pollReady outcomes = some (poll, io) ∧
      Inv { session with io := io } stream' ∧
      (poll = .Ready (.ok ()) → stream'.accepted = session.sent) := by
  obtain ⟨poll, io, stream', hpoll, hspec⟩ := SendStream.pollReady_spec h.holds outcomes
  have hbytes : stream'.accepted ++ io.remaining = session.sent := by
    rw [hspec.bytes, h.bytes]
  refine ⟨poll, io, stream', hpoll, ⟨hspec.holds, hbytes, ?_, ?_⟩, ?_⟩
  · intro total htotal
    rw [hspec.kept (h.closed (Option.isSome_of_mem htotal))]
    exact h.finished total htotal
  · intro hsome
    rw [hspec.closed]
    exact h.closed hsome
  · intro hready
    rw [SendStream.remaining, hspec.ready hready, List.append_nil] at hbytes
    exact hbytes

/-- Finishing a stream on which nothing is left to be written, or that is closed. -/
theorem Inv.pollFinish {session : Session} {stream : QuicStream} (h : session.Inv stream)
    (hok : session.io.remaining = [] ∨ ∃ stream ∈ session.io.stream, stream.closed = true) :
    ∃ poll session' stream', session.call .PollFinish = some (poll, session') ∧
      session'.Inv stream' := by
  obtain ⟨io, sent, finishedAt⟩ := session
  have hbytes := h.bytes
  have hfinished := h.finished
  have hclosed := h.closed
  cases h.holds with
  | inFlight stream data hrem =>
      rcases hok with hnil | ⟨stream', hstream, _⟩
      · exact absurd hnil (data.hasRemaining_iff.mp hrem)
      · cases hstream
  | idle stream writing =>
      cases hfin : stream.closed with
      | true =>
          -- the stream is closed, which is reported, and nothing changes
          refine ⟨.Ready (.error .ClosedStream), ⟨⟨some stream, writing, none⟩, sent, finishedAt⟩,
            stream, ?_, h⟩
          simp only [call, SendStream.pollFinish, QuicStream.finish, hfin, if_true]
      | false =>
          have hnil : SendStream.remaining ⟨some stream, writing, none⟩ = [] := by
            rcases hok with hnil | ⟨stream', hstream, htrue⟩
            · exact hnil
            · cases hstream
              rw [hfin] at htrue
              cases htrue
          simp only [hnil, List.append_nil] at hbytes
          refine ⟨.Ready (.ok ()),
            ⟨⟨some { stream with closed := true }, writing, none⟩, sent, some sent⟩,
            { stream with closed := true }, ?_, .idle _ writing, ?_, ?_, fun _ => rfl⟩
          · simp only [call, SendStream.pollFinish, QuicStream.finish, hfin, Bool.false_eq_true,
              if_false]
          · show stream.accepted ++ SendStream.remaining ⟨some stream, writing, none⟩ = sent
            rw [hnil, List.append_nil, hbytes]
          · intro total htotal
            rw [← Option.mem_some_iff.mp htotal]
            exact hbytes

/-- Resetting a stream that is at hand. -/
theorem Inv.reset {session : Session} {stream : QuicStream} (h : session.Inv stream)
    (hstream : session.io.stream.isSome = true) (resetCode : UInt64) :
    ∃ poll session' stream', session.call (.Reset resetCode) = some (poll, session') ∧
      session'.Inv stream' := by
  obtain ⟨io, sent, finishedAt⟩ := session
  have hbytes := h.bytes
  have hfinished := h.finished
  cases h.holds with
  | inFlight => cases hstream
  | idle stream writing =>
      refine ⟨.Ready (.ok ()),
        ⟨⟨some { stream with closed := true }, writing, none⟩, sent, finishedAt⟩,
        { stream with closed := true }, ?_, .idle _ writing, hbytes, hfinished, fun _ => rfl⟩
      rw [call, SendStream.reset_idle]

/-! ## Buffers that are sent one at a time -/

/-- The bytes of all buffers that a list of calls sends. -/
def sentBytes (calls : List Call) : List UInt8 :=
  calls.flatMap fun
    | .SendData data => data.bytes
    | _ => []

theorem sent_of_call {session session' : Session} {c : Call}
    {poll : Poll (Except StreamError Unit)} (h : session.call c = some (poll, session')) :
    session'.sent = session.sent ++ sentBytes [c] := by
  cases c with
  | SendData data =>
      cases h
      simp [sentBytes]
  | PollReady outcomes =>
      rw [call] at h
      split at h
      next => cases h
      next =>
        cases h
        simp [sentBytes]
  | PollFinish =>
      rw [call] at h
      split at h
      next => cases h
      next =>
        cases h
        simp [sentBytes]
      next =>
        cases h
        simp [sentBytes]
  | Reset resetCode =>
      rw [call] at h
      split at h
      next => cases h
      next =>
        cases h
        simp [sentBytes]

theorem sent_of_run {calls : List Call} {session : Session}
    (h : Transition.run step new calls = some session) : session.sent = sentBytes calls := by
  refine Transition.run_induction (P := fun calls session => session.sent = sentBytes calls) rfl ?_ h
  intro calls m c m' _ hm hstep
  obtain ⟨⟨poll, m''⟩, hcall, rfl⟩ := Option.map_eq_some_iff.mp hstep
  rw [sent_of_call hcall, hm, sentBytes, sentBytes, sentBytes, List.flatMap_append]

/-- Buffers are sent while no earlier one is pending, and the stream is not finished.  It can be reset
where that does not panic. -/
def Exclusive (session : Session) : Call → Prop
  | .SendData _ => session.io.writing = none
  | .PollReady _ => True
  | .PollFinish => False
  | .Reset _ => session.io.stream.isSome = true

/-- The calls that keep what was accepted before: nothing is left to be written, or the stream is at
hand and closed already, so that finishing it is an error.  A reset needs the stream at hand. -/
def Safe (session : Session) : Call → Prop
  | .SendData _ => session.io.remaining = []
  | .PollReady _ => True
  | .PollFinish => session.io.remaining = [] ∨ ∃ stream ∈ session.io.stream, stream.closed = true
  | .Reset _ => session.io.stream.isSome = true

instance (session : Session) : (c : Call) → Decidable (session.Exclusive c)
  | .SendData _ => inferInstanceAs (Decidable (session.io.writing = none))
  | .PollReady _ => .isTrue trivial
  | .PollFinish => .isFalse id
  | .Reset _ => inferInstanceAs (Decidable (session.io.stream.isSome = true))

instance (session : Session) : (c : Call) → Decidable (session.Safe c)
  | .SendData _ => inferInstanceAs (Decidable (session.io.remaining = []))
  | .PollReady _ => .isTrue trivial
  | .PollFinish => inferInstanceAs (Decidable (session.io.remaining = [] ∨ _))
  | .Reset _ => inferInstanceAs (Decidable (session.io.stream.isSome = true))

theorem Exclusive.safe {session : Session} {c : Call} (h : session.Exclusive c) :
    session.Safe c := by
  cases c with
  | SendData data =>
      show session.io.remaining = []
      rw [SendStream.remaining, show session.io.writing = none from h]
  | PollReady outcomes => trivial
  | PollFinish => exact h.elim
  | Reset resetCode => exact h

/-- **The step**: a safe call does not panic and keeps the invariant. -/
theorem Inv.call {session : Session} {stream : QuicStream} (h : session.Inv stream) {c : Call}
    (hsafe : session.Safe c) :
    ∃ poll session' stream', session.call c = some (poll, session') ∧ session'.Inv stream' := by
  cases c with
  | SendData data => exact ⟨_, _, stream, rfl, h.sendData data hsafe⟩
  | PollReady outcomes =>
      obtain ⟨poll, io, stream', hpoll, hinv, _⟩ := h.pollReady outcomes
      refine ⟨poll, _, stream', ?_, hinv⟩
      rw [Session.call, hpoll]
  | PollFinish => exact h.pollFinish hsafe
  | Reset resetCode => exact h.reset hsafe resetCode

theorem exists_inv {ok : Session → Call → Prop} (hok : ∀ session c, ok session c → session.Safe c)
    {calls : List Call} {session : Session} (hcalls : Transition.Conforms step ok new calls)
    (hrun : Transition.run step new calls = some session) : ∃ stream, session.Inv stream := by
  refine Transition.run_invariant_of_conforms (I := fun session : Session =>
    ∃ stream, session.Inv stream) ⟨_, inv_new⟩ ?_ hcalls hrun
  rintro m c m' ⟨stream, hinv⟩ hc hstep
  obtain ⟨poll, session', stream', hcall, hinv'⟩ := hinv.call (hok m c hc)
  rw [step, hcall] at hstep
  cases hstep
  exact ⟨stream', hinv'⟩

/-- **Exactly-once delivery.**  If every buffer is sent while none is pending, then at every moment
what the stream has accepted is an initial part of what was sent, and when a poll is ready it is all
of it.  No poll panics. -/
theorem delivered_exactly_once (calls : List Call) (session : Session)
    (hcalls : Transition.Conforms step Exclusive new calls)
    (hrun : Transition.run step new calls = some session) :
    session.io.accepted <+: sentBytes calls ∧
      ∀ outcomes, ∃ poll session', session.call (.PollReady outcomes) = some (poll, session') ∧
        session'.io.accepted <+: sentBytes calls ∧
        (poll = .Ready (.ok ()) → session'.io.accepted = sentBytes calls) := by
  obtain ⟨stream, hinv⟩ := exists_inv (fun _ _ h => Exclusive.safe h) hcalls hrun
  rw [← sent_of_run hrun]
  refine ⟨?_, fun outcomes => ?_⟩
  · rw [hinv.holds.accepted, ← hinv.bytes]
    exact List.prefix_append _ _
  · obtain ⟨poll, io, stream', hpoll, hinv', hready⟩ := hinv.pollReady outcomes
    refine ⟨poll, { session with io := io }, ?_, ?_, ?_⟩
    · rw [call, hpoll]
    · rw [hinv'.holds.accepted, ← hinv'.bytes]
      exact List.prefix_append _ _
    · intro hp
      rw [hinv'.holds.accepted]
      exact hready hp

/-- Two buffers, the first in two chunks, written with a write that is pending and one that accepts
a part of its chunk. -/
def oneAtATime : List Call :=
  [.SendData ⟨[[1, 2], [3]]⟩, .PollReady [.Accept 0, .Pending], .PollReady [.Accept 7, .Accept 0],
    .SendData ⟨[[4, 5]]⟩, .PollReady [.Accept 0]]

theorem delivered_exactly_once_oneAtATime :
    ∃ session, Transition.run step new oneAtATime = some session ∧
      session.io.accepted <+: sentBytes oneAtATime := by
  have hsome : (Transition.run step new oneAtATime).isSome = true := by decide +kernel
  obtain ⟨session, hrun⟩ := Option.isSome_iff_exists.mp hsome
  exact ⟨session, hrun, (delivered_exactly_once _ _ (by decide +kernel) hrun).1⟩

/-! ## Overlapping calls -/

/-- The call reports an error or keeps the law.  A panic does neither. -/
def KeepsLaw (session : Session) (c : Call) : Prop :=
  match session.call c with
  | none => False
  | some (.Ready (.error _), _) => True
  | some (_, session') => session'.Law

/-- **Which calls keep what was accepted.**  In every state that safe calls lead to, the law holds,
what is written when a poll is ready is all that was sent, and a call keeps the law or reports an
error exactly when it is safe. -/
theorem overlapping_calls_iff (calls : List Call) (session : Session)
    (hcalls : Transition.Conforms step Safe new calls)
    (hrun : Transition.run step new calls = some session) :
    session.Law ∧ (∀ c, session.KeepsLaw c ↔ session.Safe c) ∧
      ∀ outcomes session', session.call (.PollReady outcomes) = some (.Ready (.ok ()), session') →
        session'.io.accepted = sentBytes calls := by
  obtain ⟨stream, hinv⟩ := exists_inv (fun _ _ h => h) hcalls hrun
  have hlaw := hinv.law
  refine ⟨hlaw, fun c => ⟨fun hkeeps => ?_, fun hsafe => ?_⟩, fun outcomes session' hcall => ?_⟩
  · cases c with
    | SendData data =>
        -- the bytes of the new buffer follow all that was sent, so nothing was left
        have hafter : session.io.accepted ++ data.bytes = session.sent ++ data.bytes :=
          Law.bytes hkeeps
        exact hlaw.remaining_eq_nil (List.append_cancel_right hafter)
    | PollReady outcomes => trivial
    | PollFinish =>
        obtain ⟨io, sent, finishedAt⟩ := session
        cases hinv.holds with
        | inFlight stream data hrem => exact hkeeps.elim
        | idle stream writing =>
            cases hfin : stream.closed with
            | true => exact Or.inr ⟨stream, rfl, hfin⟩
            | false =>
                -- the stream is finished now, so everything that was sent must be written
                simp only [KeepsLaw, call, SendStream.pollFinish, QuicStream.finish, hfin,
                  Bool.false_eq_true, if_false] at hkeeps
                exact Or.inl (hlaw.remaining_eq_nil (hkeeps.finished sent rfl))
    | Reset resetCode =>
        obtain ⟨io, sent, finishedAt⟩ := session
        cases hinv.holds with
        | inFlight stream data hrem => exact hkeeps.elim
        | idle stream writing => rfl
  · obtain ⟨poll, session', stream', hcall, hinv'⟩ := hinv.call hsafe
    rw [KeepsLaw, hcall]
    cases poll with
    | Pending => exact hinv'.law
    | Ready r =>
        cases r with
        | error e => trivial
        | ok _ => exact hinv'.law
  · obtain ⟨poll, io, stream', hpoll, hinv', hready⟩ := hinv.pollReady outcomes
    rw [call, hpoll] at hcall
    cases hcall
    rw [← sent_of_run hrun, hinv'.holds.accepted]
    exact hready rfl

/-- The condition can be met: after the calls above, and with the stream finished at the end. -/
theorem overlapping_calls_finished :
    ∃ session, Transition.run step new (oneAtATime ++ [.PollReady [.Accept 0], .PollFinish])
        = some session ∧ session.Law := by
  have hsome : (Transition.run step new
      (oneAtATime ++ [.PollReady [.Accept 0], .PollFinish])).isSome = true := by
    decide +kernel
  obtain ⟨session, hrun⟩ := Option.isSome_iff_exists.mp hsome
  exact ⟨session, hrun, (overlapping_calls_iff _ _ (by decide +kernel) hrun).1⟩

/-- **Data that is lost.**  A second buffer is sent while a write of the first is in flight, and
`send_data` accepts it.  The byte that is accepted of the first buffer advances the second: of
`[1, 2, 3]` and `[9, 8]` the stream ends up with `[1, 8]`, and the last poll is ready. -/
theorem overlapping_send_loses_data :
    ∃ session session' session'',
      Transition.run step new [.SendData ⟨[[1, 2, 3]]⟩, .PollReady [.Pending]] = some session ∧
      session.io.remaining = [1, 2, 3] ∧
      session.call (.SendData ⟨[[9, 8]]⟩) = some (.Ready (.ok ()), session') ∧
      ¬ session.KeepsLaw (.SendData ⟨[[9, 8]]⟩) ∧
      session'.call (.PollReady [.Accept 0, .Accept 0]) = some (.Ready (.ok ()), session'') ∧
      session''.sent = [1, 2, 3, 9, 8] ∧ session''.io.accepted = [1, 8] := by
  refine ⟨⟨⟨none, some ⟨[[1, 2, 3]]⟩, some (QuicStream.new, [1, 2, 3])⟩, [1, 2, 3], none⟩,
    ⟨⟨none, some ⟨[[9, 8]]⟩, some (QuicStream.new, [1, 2, 3])⟩, [1, 2, 3, 9, 8], none⟩,
    ⟨⟨some ⟨[1, 8], false⟩, none, none⟩, [1, 2, 3, 9, 8], none⟩,
    by decide +kernel, rfl, rfl, fun hkeeps => ?_, by decide +kernel, rfl, rfl⟩
  have hbytes : ([9, 8] : List UInt8) = [1, 2, 3, 9, 8] := Law.bytes hkeeps
  exact absurd hbytes (by decide)

end Session

end IrohExperiments.H3
