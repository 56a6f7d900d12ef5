import IrohExperiments.H3.StreamId

/-!
# Calls that panic

A poll that writes or reads takes the QUIC stream along into a future, and puts it back when the future
is ready.  Until then the other calls do not find the stream, and all of them unwrap it: h3 cannot reset
or cancel a stream while a poll is pending.

`BidiStream` has both halves, and `Placed` says where their streams are: at hand, or in flight, and
never neither (`Placed.step`).  So `calls_complete_iff` says for every reachable state and every code
which calls panic.  `stop_sending` also panics on a code of more than 62 bits, where `reset` makes do with
the greatest code.
-/

namespace IrohExperiments.H3

/-! ## The other calls of a send stream -/

namespace SendStream

/-- `poll_send`, which writes a buffer of the caller.  It panics while there is one of its own. -/
def pollSend (self : SendStream) (buf : WriteBuf) (outcome : WriteOutcome) :
    Option (Poll (Except StreamError ℕ) × SendStream × WriteBuf) :=
  if self.writing.isSome then none
  else do
    let s ← self.stream
    match s.pollWrite buf.chunk outcome with
    | (.Pending, s) => return (.Pending, { self with stream := some s }, buf)
    | (.Ready (.ok written), s) =>
        let buf ← buf.advance written
        return (.Ready (.ok written), { self with stream := some s }, buf)
    | (.Ready (.error e), s) => return (.Ready (.error e), { self with stream := some s }, buf)

/-- The stream is at hand, or else it is in flight. -/
def Placed (self : SendStream) : Prop := self.stream.isSome ↔ self.writeFut = none

theorem placed_new (stream : QuicStream) : (new stream).Placed := iff_of_true rfl rfl

/-- Nothing to write. -/
theorem pollReady_of_empty {data : WriteBuf} (hrem : data.hasRemaining = false)
    (stream : Option QuicStream) (fut : Option (QuicStream × List UInt8))
    (outcomes : List WriteOutcome) :
    pollReady ⟨stream, some data, fut⟩ outcomes = some (.Ready (.ok ()), ⟨stream, none, fut⟩) := by
  rw [pollReady]
  simp only [hrem, Bool.false_eq_true, if_false]

/-- A stream that is at hand is taken first. -/
theorem pollReady_take {data : WriteBuf} (hrem : data.hasRemaining = true) (stream : QuicStream)
    (fut : Option (QuicStream × List UInt8)) (outcomes : List WriteOutcome) :
    pollReady ⟨some stream, some data, fut⟩ outcomes
      = pollReady ⟨none, some data, some (stream, data.chunk)⟩ outcomes := by
  rw [pollReady, pollReady]
  simp only [hrem, if_true]

/-- A write in flight is still in flight after a poll, or its stream is at hand again. -/
theorem placed_of_inFlight {data : WriteBuf} (hrem : data.hasRemaining = true) {stream : QuicStream}
    {chunk : List UInt8} {outcomes : List WriteOutcome} {poll : Poll (Except StreamError Unit)}
    {after : SendStream}
    (hpoll : pollReady ⟨none, some data, some (stream, chunk)⟩ outcomes = some (poll, after)) :
    after.Placed := by
  induction outcomes generalizing data stream chunk with
  | nil =>
      rw [pollReady] at hpoll
      simp only [hrem, if_true] at hpoll
      cases hpoll
      exact iff_of_false Bool.false_ne_true (Option.some_ne_none _)
  | cons outcome outcomes ih =>
      rw [pollReady] at hpoll
      simp only [hrem, if_true] at hpoll
      rcases hwrite : stream.pollWrite chunk outcome with ⟨_ | (e | cnt), stream'⟩
      · simp only [hwrite] at hpoll
        cases hpoll
        exact iff_of_false Bool.false_ne_true (Option.some_ne_none _)
      · simp only [hwrite] at hpoll
        cases hpoll
        exact iff_of_true rfl rfl
      · simp only [hwrite] at hpoll
        cases hadvance : data.advance cnt with
        | none =>
            rw [hadvance] at hpoll
            cases hpoll
        | some data' =>
            -- the loop goes on with what is left of the buffer
            simp only [hadvance] at hpoll
            cases hrem' : data'.hasRemaining with
            | true =>
                rw [pollReady_take hrem'] at hpoll
                exact ih hrem' hpoll
            | false =>
                rw [pollReady_of_empty hrem'] at hpoll
                cases hpoll
                exact iff_of_true rfl rfl

/-- **A poll of `poll_ready`** leaves the stream in its place. -/
theorem Placed.pollReady {self after : SendStream} (h : self.Placed) {outcomes : List WriteOutcome}
    {poll : Poll (Except StreamError Unit)} (hpoll : self.pollReady outcomes = some (poll, after)) :
    after.Placed := by
  obtain ⟨stream, _ | data, fut⟩ := self
  · rw [SendStream.pollReady] at hpoll
    cases hpoll
    exact h
  · cases hrem : data.hasRemaining with
    | false =>
        rw [pollReady_of_empty hrem] at hpoll
        cases hpoll
        exact h
    | true =>
        cases stream with
        | some stream =>
            rw [pollReady_take hrem] at hpoll
            exact placed_of_inFlight hrem hpoll
        | none =>
            obtain ⟨⟨stream, chunk⟩, rfl⟩ : ∃ f, fut = some f :=
              Option.ne_none_iff_exists'.mp fun hnone => absurd (h.mpr hnone) (by simp)
            exact placed_of_inFlight hrem hpoll

theorem Placed.pollFinish {self after : SendStream} (h : self.Placed)
    {poll : Poll (Except StreamError Unit)} (hpoll : self.pollFinish = some (poll, after)) :
    after.Placed := by
  rw [SendStream.pollFinish] at hpoll
  split at hpoll
  · cases hpoll
  · rename_i hstream
    have hfut : self.writeFut = none := h.mp (by rw [hstream]; rfl)
    split at hpoll
    · cases hpoll
      exact iff_of_true rfl hfut
    · cases hpoll
      exact h

/-- The calls that keep the stream at hand. -/
theorem Placed.reset {self after : SendStream} (h : self.Placed) {resetCode : UInt64}
    (hreset : self.reset resetCode = some after) : after.Placed := by
  obtain ⟨stream, hstream, hreset⟩ := Option.bind_eq_some_iff.mp hreset
  have hfut : self.writeFut = none := h.mp (by rw [hstream]; rfl)
  split at hreset
  · cases hreset
    exact iff_of_true rfl hfut
  · cases hreset
    exact h

theorem Placed.pollSend {self after : SendStream} (h : self.Placed) {buf buf' : WriteBuf}
    {outcome : WriteOutcome} {poll : Poll (Except StreamError ℕ)}
    (hpoll : self.pollSend buf outcome = some (poll, after, buf')) : after.Placed := by
  rw [SendStream.pollSend] at hpoll
  split_ifs at hpoll
  obtain ⟨s, hstream, hpoll⟩ := Option.bind_eq_some_iff.mp hpoll
  have hfut : self.writeFut = none := h.mp (by rw [hstream]; rfl)
  split at hpoll
  · cases hpoll
    exact iff_of_true rfl hfut
  · obtain ⟨_, _, hpoll⟩ := Option.bind_eq_some_iff.mp hpoll
    cases hpoll
    exact iff_of_true rfl hfut
  · cases hpoll
    exact iff_of_true rfl hfut

end SendStream

/-! ## The receive stream -/

/-- What h3 is told of an error. -/
inductive StreamErrorIncoming where
  | Unknown
  deriving DecidableEq

/-- How a poll of a read turns out. -/
inductive ReadOutcome where
  | Pending
  | Chunk (chunk : Option (List UInt8))
  | Error

namespace RecvStream

/-- `poll_data`.  `none` is the panic of the future that a new stream starts with. -/
def pollData (self : RecvStream) (outcome : ReadOutcome) :
    Option (Poll (Except StreamErrorIncoming (Option (List UInt8))) × RecvStream) := do
  let stream ← self.stream <|> self.readChunkFut
  match outcome with
  | .Pending => return (.Pending, ⟨none, some stream⟩)
  | .Chunk chunk => return (.Ready (.ok chunk), ⟨some stream, none⟩)
  | .Error => return (.Ready (.error .Unknown), ⟨some stream, none⟩)

/-- `stop_sending`.  `none` is the panic of its `unwrap`, or of its `expect`.  Whether the stream was
closed before is not looked at. -/
def stopSending (self : RecvStream) (errorCode : UInt64) : Option RecvStream := do
  let _stream ← self.stream
  let _code ← VarInt.fromU64 errorCode
  return self

/-- The stream is at hand, or else it is in flight. -/
def Placed (self : RecvStream) : Prop := self.stream.isSome ↔ self.readChunkFut = none

theorem placed_pollData {self after : RecvStream} {outcome : ReadOutcome}
    {poll : Poll (Except StreamErrorIncoming (Option (List UInt8)))}
    (hpoll : self.pollData outcome = some (poll, after)) : after.Placed := by
  obtain ⟨stream, _, hpoll⟩ := Option.bind_eq_some_iff.mp hpoll
  cases outcome with
  | Pending =>
      cases hpoll
      exact iff_of_false nofun nofun
  | Chunk | Error =>
      cases hpoll
      exact iff_of_true rfl rfl

end RecvStream

/-! ## Both halves -/

structure BidiStream where
  send : SendStream
  recv : RecvStream
  deriving DecidableEq

/-- A call of h3. -/
inductive StreamCall where
  | SendData (data : WriteBuf)
  | PollReady (outcomes : List WriteOutcome)
  | PollSend (buf : WriteBuf) (outcome : WriteOutcome)
  | PollFinish
  | Reset (resetCode : UInt64)
  | PollData (outcome : ReadOutcome)
  | StopSending (errorCode : UInt64)

namespace BidiStream

/-- A stream that was just opened or accepted. -/
def new (id : StreamId) : BidiStream := ⟨SendStream.new QuicStream.new, RecvStream.new id⟩

/-- Make a call.  `none` is a panic. -/
def step (self : BidiStream) : StreamCall → Option BidiStream
  | .SendData data => some { self with send := self.send.sendData data }
  | .PollReady outcomes => do
      let (_, send) ← self.send.pollReady outcomes
      return { self with send }
  | .PollSend buf outcome => do
      let (_, send, _) ← self.send.pollSend buf outcome
      return { self with send }
  | .PollFinish => do
      let (_, send) ← self.send.pollFinish
      return { self with send }
  | .Reset resetCode => do
      let send ← self.send.reset resetCode
      return { self with send }
  | .PollData outcome => do
      let (_, recv) ← self.recv.pollData outcome
      return { self with recv }
  | .StopSending errorCode => do
      let recv ← self.recv.stopSending errorCode
      return { self with recv }

/-- The streams of both halves are in their places. -/
structure Placed (stream : BidiStream) : Prop where
  send : stream.send.Placed
  recv : stream.recv.Placed

/-- **The step.** -/
theorem Placed.step {self after : BidiStream} (h : self.Placed) {c : StreamCall}
    (hstep : self.step c = some after) : after.Placed := by
  cases c with
  | SendData data =>
      cases hstep
      exact ⟨h.send, h.recv⟩
  | PollReady outcomes =>
      obtain ⟨⟨poll, send⟩, hpoll, hstep⟩ := Option.bind_eq_some_iff.mp hstep
      cases hstep
      exact ⟨h.send.pollReady hpoll, h.recv⟩
  | PollSend buf outcome =>
      obtain ⟨⟨poll, send, buf'⟩, hpoll, hstep⟩ := Option.bind_eq_some_iff.mp hstep
      cases hstep
      exact ⟨h.send.pollSend hpoll, h.recv⟩
  | PollFinish =>
      obtain ⟨⟨poll, send⟩, hpoll, hstep⟩ := Option.bind_eq_some_iff.mp hstep
      cases hstep
      exact ⟨h.send.pollFinish hpoll, h.recv⟩
  | Reset resetCode =>
      obtain ⟨send, hreset, hstep⟩ := Option.bind_eq_some_iff.mp hstep
      cases hstep
      exact ⟨h.send.reset hreset, h.recv⟩
  | PollData outcome =>
      obtain ⟨⟨poll, recv⟩, hpoll, hstep⟩ := Option.bind_eq_some_iff.mp hstep
      cases hstep
      exact ⟨h.send, RecvStream.placed_pollData hpoll⟩
  | StopSending errorCode =>
      obtain ⟨recv, hstop, hstep⟩ := Option.bind_eq_some_iff.mp hstep
      obtain ⟨_, _, hstop⟩ := Option.bind_eq_some_iff.mp hstop
      obtain ⟨_, _, hstop⟩ := Option.bind_eq_some_iff.mp hstop
      cases hstop
      cases hstep
      exact h

/-- The run. -/
theorem placed_of_run {id : StreamId} {calls : List StreamCall} {s : BidiStream}
    (hrun : Transition.run step (new id) calls = some s) : s.Placed :=
  Transition.run_invariant (I := Placed) ⟨SendStream.placed_new _, iff_of_true rfl rfl⟩
    (fun _ _ _ hm hstep => hm.step hstep) hrun

/-! ## Calls that complete -/

/-- An ordinal always fits into an id. -/
theorem isSome_streamId (stream : Option StreamId) : (streamId stream).isSome ↔ stream.isSome := by
  cases stream with
  | none => rfl
  | some id =>
      have hlt : id.index < 2 ^ 62 := Nat.lt_of_lt_of_le id.index_lt (by decide)
      have hid := (StreamId.tryFrom_index id).mpr (rfl : (⟨id.index, hlt⟩ : StreamId).value = id.index)
      refine iff_of_true ?_ rfl
      rw [streamId, Option.bind_eq_bind, Option.bind_some, hid]
      rfl

theorem isSome_sendId (self : SendStream) (id : StreamId) :
    (self.sendId id).isSome ↔ self.stream.isSome := by
  rw [SendStream.sendId, isSome_streamId, Option.isSome_map]

theorem isSome_pollFinish (self : BidiStream) :
    (self.step .PollFinish).isSome ↔ self.send.stream.isSome := by
  rw [step, SendStream.pollFinish]
  cases self.send.stream with
  | none => rfl
  | some stream => cases h : stream.finish <;> simp [h]

/-- `reset` makes do with any code. -/
theorem isSome_reset (self : BidiStream) (code : UInt64) :
    (self.step (.Reset code)).isSome ↔ self.send.stream.isSome := by
  rw [step, SendStream.reset]
  cases self.send.stream with
  | none => rfl
  | some stream =>
      cases h : stream.reset ((VarInt.fromU64 code).getD VarInt.MAX) <;> simp [h]

theorem isSome_stopSending (self : BidiStream) (code : UInt64) :
    (self.step (.StopSending code)).isSome ↔ self.recv.stream.isSome ∧ code.toNat < 2 ^ 62 := by
  rw [step, RecvStream.stopSending, ← VarInt.isSome_fromU64]
  cases self.recv.stream with
  | none => simp
  | some stream => cases VarInt.fromU64 code <;> simp

/-- **Which calls complete.**  In every reachable state and with every code, those of a half of which no
poll is pending, and of these `stop_sending` only with a code of 62 bits. -/
theorem calls_complete_iff {id : StreamId} {calls : List StreamCall} {s : BidiStream}
    (hrun : Transition.run step (new id) calls = some s) (code : UInt64) :
    ((s.send.sendId id).isSome ↔ s.send.writeFut = none) ∧
      ((s.step .PollFinish).isSome ↔ s.send.writeFut = none) ∧
      ((s.step (.Reset code)).isSome ↔ s.send.writeFut = none) ∧
      (s.recv.recvId.isSome ↔ s.recv.readChunkFut = none) ∧
      ((s.step (.StopSending code)).isSome ↔ s.recv.readChunkFut = none ∧ code.toNat < 2 ^ 62) := by
  obtain ⟨hsend, hrecv⟩ := placed_of_run hrun
  rw [isSome_sendId, isSome_pollFinish, isSome_reset, RecvStream.recvId, isSome_streamId,
    isSome_stopSending]
  exact ⟨hsend, hsend, hsend, hrecv, and_congr_left' hrecv⟩

/-- A request of a client, with a write and a read that are both over. -/
def exchanged : BidiStream :=
  ⟨⟨some ⟨[1, 2], false⟩, none, none⟩, RecvStream.new (.new .Client .Bi ⟨1, by decide⟩)⟩

/-- The condition can be met. -/
theorem calls_complete_exchanged :
    (exchanged.step (.Reset 0x101)).isSome ∧ (exchanged.step (.StopSending 0x101)).isSome := by
  have hrun : Transition.run step (new (StreamId.new .Client .Bi 1))
      [.SendData ⟨[[1, 2]]⟩, .PollReady [.Accept 7], .PollData (.Chunk (some [3]))]
        = some exchanged := by
    decide +kernel
  obtain ⟨_, _, hreset, _, hstop⟩ := calls_complete_iff hrun 0x101
  exact ⟨hreset.mpr rfl, hstop.mpr ⟨rfl, by decide⟩⟩

/-- The same with a write and a read that are pending. -/
def exchanging : BidiStream :=
  ⟨⟨none, some ⟨[[1, 2]]⟩, some (QuicStream.new, [1, 2])⟩,
    ⟨none, some (.new .Client .Bi ⟨1, by decide⟩)⟩⟩

/-- **Calls that panic.**  All of them while a write and a read are pending, and the cancelling of an idle
stream with a code of more than 62 bits. -/
theorem calls_panic :
    Transition.run step (new (StreamId.new .Client .Bi 1))
        [.SendData ⟨[[1, 2]]⟩, .PollReady [.Pending], .PollData .Pending] = some exchanging ∧
      exchanging.send.sendId (StreamId.new .Client .Bi 1) = none ∧
      exchanging.step .PollFinish = none ∧ exchanging.step (.Reset 0x101) = none ∧
      exchanging.recv.recvId = none ∧ exchanging.step (.StopSending 0x101) = none ∧
      (new (StreamId.new .Client .Bi 1)).step (.StopSending 0x4000000000000000) = none := by
  refine ⟨by decide +kernel, rfl, rfl, rfl, rfl, rfl, by decide +kernel⟩

end BidiStream

end IrohExperiments.H3
