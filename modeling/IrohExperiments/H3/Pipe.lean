import IrohExperiments.H3.Panics

/-!
# A stream from one end to the other

The send stream of one end and the receive stream of the other are joined by a QUIC stream.  It takes the
bytes that are written, brings them to the other end in order, some at a time and with any delay, and
brings the end of the stream last.  The receive stream takes the QUIC stream along into a future whenever
it is polled, and what is read in pieces is handed to h3.

`Pipe.step` is one step of the whole: a call on either side, or the network.  Both sides can be polled as
often as they like, a poll can be given up and made again, and the connection can be lost at any time.  A
reset of the sender, when it arrives, is such a loss.  The send stream is not dropped: QUIC would finish it
with the bytes that it has accepted by then.

`Pipe.Inv` says where each byte is: handed over, arrived, on its way, or still with the sender.  So what is
handed over is always an initial part of what was sent, and the end is handed over after exactly what was
sent before it (`pipe_delivers`).  When everything has arrived it is handed over by as many polls as there
are bytes, and one more (`Pipe.Inv.ends`).
-/

namespace IrohExperiments.H3

/-! ## The receiving end of a QUIC stream -/

/-- The bytes that have arrived and were not read, whether the end has arrived behind them, and whether
the connection is lost. -/
structure QuicRecv where
  buffered : List UInt8
  fin : Bool
  lost : Bool
  deriving DecidableEq

/-- `read_chunk`, without a bound on the length.  The chunk has `k + 1` bytes, or all that have arrived if
there are fewer. -/
def QuicRecv.readChunk (self : QuicRecv) (k : ℕ) : ReadOutcome × QuicRecv :=
  if self.lost then (.Error, self)
  else if self.buffered = [] then (if self.fin then .Chunk none else .Pending, self)
  else
    let n := min (k + 1) self.buffered.length
    (.Chunk (some (self.buffered.take n)), { self with buffered := self.buffered.drop n })

/-- What a read does: a chunk is not empty, and is cut off in front. -/
theorem QuicRecv.readChunk_cases (self : QuicRecv) (k : ℕ) :
    (self.readChunk k = (.Error, self) ∧ self.lost = true) ∨
      (self.readChunk k = (.Pending, self) ∧ self.lost = false ∧ self.buffered = [] ∧
        self.fin = false) ∨
      (self.readChunk k = (.Chunk none, self) ∧ self.buffered = [] ∧ self.fin = true) ∨
      ∃ chunk rest, self.readChunk k = (.Chunk (some chunk), { self with buffered := rest }) ∧
        chunk ≠ [] ∧ self.buffered = chunk ++ rest := by
  obtain ⟨buffered, fin, lost⟩ := self
  cases lost with
  | true => exact .inl ⟨rfl, rfl⟩
  | false =>
      cases buffered with
      | nil =>
          cases fin with
          | false => exact .inr (.inl ⟨rfl, rfl, rfl, rfl⟩)
          | true => exact .inr (.inr (.inl ⟨rfl, rfl, rfl⟩))
      | cons b bytes =>
          refine .inr (.inr (.inr ⟨(b :: bytes).take (min (k + 1) (b :: bytes).length),
            (b :: bytes).drop (min (k + 1) (b :: bytes).length), rfl, ?_, ?_⟩))
          · rw [List.length_cons, Nat.succ_min_succ]
            exact List.cons_ne_nil _ _
          · exact (List.take_append_drop _ _).symm

/-! ## What a call of the sender keeps -/

theorem QuicStream.prefix_pollWrite (self : QuicStream) (chunk : List UInt8)
    (outcome : WriteOutcome) : self.accepted <+: (self.pollWrite chunk outcome).2.accepted := by
  cases outcome with
  | Pending | Error => exact List.prefix_rfl
  | Accept k =>
      rw [pollWrite]
      split_ifs
      · exact List.prefix_rfl
      · exact List.prefix_append _ _

namespace SendStream

variable {self after : SendStream} {stream : QuicStream} {outcomes : List WriteOutcome}
  {poll : Poll (Except StreamError Unit)}

theorem Holds.accepted_of_no_data (h : Holds self stream)
    (hdata : ∀ data, self.writing = some data → data.hasRemaining = false)
    (hpoll : self.pollReady outcomes = some (poll, after)) : after.accepted = stream.accepted := by
  obtain ⟨io, writing, fut⟩ := self
  cases writing with
  | none =>
      rw [pollReady] at hpoll
      cases hpoll
      exact h.accepted
  | some data =>
      rw [pollReady_of_empty (hdata data rfl)] at hpoll
      cases hpoll
      exact h.accepted

/-- A poll only adds to what was accepted. -/
theorem Holds.prefix_pollReady (h : Holds self stream)
    (hpoll : self.pollReady outcomes = some (poll, after)) : stream.accepted <+: after.accepted := by
  induction outcomes generalizing self stream with
  | nil =>
      by_cases hdata : ∀ data, self.writing = some data → data.hasRemaining = false
      · exact ⟨[], by rw [h.accepted_of_no_data hdata hpoll, List.append_nil]⟩
      · simp only [not_forall, Bool.not_eq_false] at hdata
        obtain ⟨data, hwriting, hrem⟩ := hdata
        rw [(pollReady_of_data h hwriting hrem).1] at hpoll
        cases hpoll
        exact List.prefix_rfl
  | cons outcome outcomes ih =>
      by_cases hdata : ∀ data, self.writing = some data → data.hasRemaining = false
      · exact ⟨[], by rw [h.accepted_of_no_data hdata hpoll, List.append_nil]⟩
      · simp only [not_forall, Bool.not_eq_false] at hdata
        obtain ⟨data, hwriting, hrem⟩ := hdata
        rw [(pollReady_of_data h hwriting hrem).2 outcome outcomes] at hpoll
        have hwrite := stream.prefix_pollWrite data.chunk outcome
        rcases heq : stream.pollWrite data.chunk outcome with ⟨_ | (e | cnt), stream'⟩
        · simp only [heq] at hpoll hwrite
          cases hpoll
          exact hwrite
        · simp only [heq] at hpoll hwrite
          cases hpoll
          exact hwrite
        · simp only [heq] at hpoll hwrite
          cases hadvance : data.advance cnt with
          | none =>
              rw [hadvance] at hpoll
              cases hpoll
          | some data' =>
              simp only [hadvance] at hpoll
              exact hwrite.trans (ih (.idle stream' (some data')) hpoll)

end SendStream

namespace Session

variable {session session' : Session} {stream : QuicStream} {c : Call}

/-- **What a call keeps**: the bytes that were accepted, and a total that the stream was finished
with. -/
theorem Inv.keeps_of_step (h : session.Inv stream) (hstep : session.step c = some session') :
    session.io.accepted <+: session'.io.accepted ∧
      ∀ total, session.finishedAt = some total → session'.finishedAt = some total := by
  cases c with
  | SendData data =>
      cases hstep
      exact ⟨List.prefix_rfl, fun _ htotal => htotal⟩
  | PollReady outcomes =>
      rw [step, Session.call] at hstep
      cases hpoll : session.io.pollReady outcomes with
      | none =>
          rw [hpoll] at hstep
          cases hstep
      | some p =>
          rw [hpoll] at hstep
          cases hstep
          rw [h.holds.accepted]
          exact ⟨h.holds.prefix_pollReady hpoll, fun _ htotal => htotal⟩
  | PollFinish =>
      obtain ⟨io, sent, finishedAt⟩ := session
      cases h.holds with
      | inFlight stream data hrem => cases hstep
      | idle stream writing =>
          cases hfin : stream.closed with
          | true =>
              simp only [step, Session.call, SendStream.pollFinish, QuicStream.finish, hfin, if_true,
                Option.map_some, Option.some.injEq] at hstep
              subst hstep
              exact ⟨List.prefix_rfl, fun _ htotal => htotal⟩
          | false =>
              simp only [step, Session.call, SendStream.pollFinish, QuicStream.finish, hfin,
                Bool.false_eq_true, if_false, Option.map_some, Option.some.injEq] at hstep
              subst hstep
              refine ⟨List.prefix_rfl, fun total htotal => ?_⟩
              -- a stream that is not closed was not finished
              have hclosed := h.closed (Option.isSome_of_mem htotal)
              rw [hfin] at hclosed
              cases hclosed
  | Reset resetCode =>
      obtain ⟨io, sent, finishedAt⟩ := session
      cases h.holds with
      | inFlight stream data hrem => cases hstep
      | idle stream writing =>
          rw [step, Session.call, SendStream.reset_idle] at hstep
          cases hstep
          exact ⟨List.prefix_rfl, fun _ htotal => htotal⟩

end Session

/-! ## The pipe -/

/-- Both ends, and the number of bytes that the network has brought across.  `got` is what `poll_data` has
handed to h3, and `ended` whether it has also told it of the end. -/
structure Pipe where
  session : Session
  arrived : ℕ
  quic : QuicRecv
  recv : RecvStream
  got : List (List UInt8)
  ended : Bool
  deriving DecidableEq

/-- A call of the sender, the network, or a poll of the receiver. -/
inductive PipeEvent where
  | Send (c : Call)
  /-- So many bytes arrive, or all that are on their way if there are fewer. -/
  | Arrive (n : ℕ)
  /-- The end arrives, behind all bytes. -/
  | ArriveFin
  | Lose
  | PollData (k : ℕ)

namespace Pipe

def new (id : StreamId) : Pipe := ⟨Session.new, 0, ⟨[], false, false⟩, RecvStream.new id, [], false⟩

/-- The result of a poll, as h3 is told. -/
def told (self : Pipe) : Poll (Except StreamErrorIncoming (Option (List UInt8))) → Pipe
  | .Ready (.ok (some chunk)) => { self with got := self.got ++ [chunk] }
  | .Ready (.ok none) => { self with ended := true }
  | _ => self

/-- One step.  `none` is a panic, or a step of the network that is not possible. -/
def step (self : Pipe) : PipeEvent → Option Pipe
  | .Send c => do
      let session ← self.session.step c
      return { self with session }
  | .Arrive n =>
      let bytes := (self.session.io.accepted.drop self.arrived).take n
      some { self with
        arrived := self.arrived + bytes.length
        quic := { self.quic with buffered := self.quic.buffered ++ bytes } }
  | .ArriveFin =>
      if self.session.finishedAt.isSome ∧ self.arrived = self.session.io.accepted.length then
        some { self with quic := { self.quic with fin := true } }
      else none
  | .Lose => some { self with quic := { self.quic with lost := true } }
  | .PollData k => do
      let (outcome, quic) := self.quic.readChunk k
      let (poll, recv) ← self.recv.pollData outcome
      return { self with quic, recv }.told poll

/-- The sender keeps to what h3 does: it does not overtake a buffer of its own. -/
def Ok (self : Pipe) : PipeEvent → Prop
  | .Send c => self.session.Safe c
  | _ => True

instance (self : Pipe) : (e : PipeEvent) → Decidable (self.Ok e)
  | .Send c => inferInstanceAs (Decidable (self.session.Safe c))
  | .Arrive _ | .ArriveFin | .Lose | .PollData _ => .isTrue trivial

/-- **Where the bytes are.**  What was handed over and what has arrived is the part of the accepted bytes
that was brought across. -/
structure Inv (pipe : Pipe) : Prop where
  sender : ∃ stream, pipe.session.Inv stream
  recv : pipe.recv.Placed
  bytes : pipe.got.flatten ++ pipe.quic.buffered = pipe.session.io.accepted.take pipe.arrived
  arrived : pipe.arrived ≤ pipe.session.io.accepted.length
  chunks : ∀ chunk ∈ pipe.got, chunk ≠ []
  fin : pipe.quic.fin = true → ∃ total, pipe.session.finishedAt = some total ∧
    pipe.session.io.accepted = total ∧ pipe.arrived = total.length
  ended : pipe.ended = true → pipe.quic.fin = true ∧ pipe.quic.buffered = []

variable {self after : Pipe}

theorem inv_new (id : StreamId) : (new id).Inv where
  sender := ⟨_, Session.inv_new⟩
  recv := iff_of_true rfl rfl
  bytes := rfl
  arrived := Nat.le_refl 0
  chunks := nofun
  fin := nofun
  ended := nofun

/-! ## What a poll does -/

/-- The result of a poll, by the outcome of the read. -/
def result : ReadOutcome → Poll (Except StreamErrorIncoming (Option (List UInt8)))
  | .Pending => .Pending
  | .Chunk chunk => .Ready (.ok chunk)
  | .Error => .Ready (.error .Unknown)

/-- A receive stream that is in its place can be polled. -/
theorem exists_pollData {recv : RecvStream} (h : recv.Placed) (outcome : ReadOutcome) :
    ∃ recv' : RecvStream, recv'.Placed ∧ recv.pollData outcome = some (result outcome, recv') := by
  obtain ⟨stream, hstream⟩ : ∃ stream, (recv.stream <|> recv.readChunkFut) = some stream := by
    obtain ⟨stream, fut⟩ := recv
    cases stream with
    | some stream => exact ⟨stream, rfl⟩
    | none =>
        cases fut with
        | some stream => exact ⟨stream, rfl⟩
        | none => exact absurd (h.mpr rfl) Bool.false_ne_true
  have hpoll : ∃ recv', recv.pollData outcome = some (result outcome, recv') := by
    rw [RecvStream.pollData, hstream]
    cases outcome with
    | Pending | Chunk | Error => exact ⟨_, rfl⟩
  obtain ⟨recv', hpoll⟩ := hpoll
  exact ⟨recv', RecvStream.placed_pollData hpoll, hpoll⟩

/-- A poll hands over nothing, the end, or a chunk. -/
theorem step_pollData (h : self.recv.Placed) (k : ℕ) :
    ∃ recv : RecvStream, recv.Placed ∧
      ((self.step (.PollData k) = some { self with recv } ∧
          (self.quic.lost = true ∨ self.quic.buffered = [] ∧ self.quic.fin = false)) ∨
        (self.step (.PollData k) = some { self with recv, ended := true } ∧
          self.quic.buffered = [] ∧ self.quic.fin = true) ∨
        ∃ chunk rest, self.step (.PollData k)
            = some { self with
                quic := { self.quic with buffered := rest }, recv, got := self.got ++ [chunk] } ∧
          chunk ≠ [] ∧ self.quic.buffered = chunk ++ rest) := by
  obtain ⟨recv, hplaced, hpoll⟩ := exists_pollData h (self.quic.readChunk k).1
  refine ⟨recv, hplaced, ?_⟩
  rcases self.quic.readChunk_cases k with ⟨hread, hlost⟩ | ⟨hread, _, hnil, hfin⟩ |
    ⟨hread, hnil, hfin⟩ | ⟨chunk, rest, hread, hne, hbuffered⟩
  · rw [hread] at hpoll
    refine .inl ⟨?_, .inl hlost⟩
    simp only [step, hread, hpoll]
    rfl
  · rw [hread] at hpoll
    refine .inl ⟨?_, .inr ⟨hnil, hfin⟩⟩
    simp only [step, hread, hpoll]
    rfl
  · rw [hread] at hpoll
    refine .inr (.inl ⟨?_, hnil, hfin⟩)
    simp only [step, hread, hpoll]
    rfl
  · rw [hread] at hpoll
    refine .inr (.inr ⟨chunk, rest, ?_, hne, hbuffered⟩)
    simp only [step, hread, hpoll]
    rfl

/-! ## The invariant -/

/-- Bytes that were brought across are a part of what the sender accepts later, too. -/
theorem Inv.send {c : Call} (h : self.Inv) (hok : self.Ok (.Send c))
    (hstep : self.step (.Send c) = some after) : after.Inv := by
  obtain ⟨session, hcall, hstep⟩ := Option.bind_eq_some_iff.mp hstep
  cases hstep
  obtain ⟨stream, hsender⟩ := h.sender
  obtain ⟨hinit, hkeeps⟩ := hsender.keeps_of_step hcall
  obtain ⟨poll, session', stream', hcall', hsender'⟩ := hsender.call hok
  rw [Session.step, hcall'] at hcall
  cases hcall
  refine { h with sender := ⟨stream', hsender'⟩, bytes := ?_, arrived := ?_, fin := ?_ }
  · obtain ⟨more, hmore⟩ := hinit
    show _ = session'.io.accepted.take self.arrived
    rw [h.bytes, ← hmore, List.take_append_of_le_length h.arrived]
  · exact Nat.le_trans h.arrived hinit.length_le
  · intro hfin
    obtain ⟨total, htotal, _, harrived⟩ := h.fin hfin
    refine ⟨total, hkeeps total htotal, ?_, harrived⟩
    rw [hsender'.holds.accepted]
    exact hsender'.finished total (hkeeps total htotal)

/-- More bytes arrive. -/
theorem Inv.arrive {n : ℕ} (h : self.Inv) (hstep : self.step (.Arrive n) = some after) :
    after.Inv := by
  cases hstep
  have hle := h.arrived
  have hlen : ((self.session.io.accepted.drop self.arrived).take n).length
      = min n (self.session.io.accepted.length - self.arrived) := by
    rw [List.length_take, List.length_drop]
  refine { h with bytes := ?_, arrived := ?_, fin := ?_, ended := ?_ }
  · show self.got.flatten ++ (self.quic.buffered ++ _) = _
    rw [← List.append_assoc, h.bytes, List.take_add]
    exact congrArg _ (List.prefix_iff_eq_take.mp (List.take_prefix n _))
  · show self.arrived + _ ≤ self.session.io.accepted.length
    rw [hlen]
    omega
  · intro hfin
    obtain ⟨total, htotal, haccepted, harrived⟩ := h.fin hfin
    refine ⟨total, htotal, haccepted, ?_⟩
    show self.arrived + _ = _
    rw [hlen, haccepted, harrived]
    omega
  · intro hended
    obtain ⟨hfin, hnil⟩ := h.ended hended
    obtain ⟨total, _, haccepted, harrived⟩ := h.fin hfin
    refine ⟨hfin, ?_⟩
    show self.quic.buffered ++ _ = []
    rw [hnil, haccepted, harrived, List.drop_length, List.take_nil]
    rfl

/-- A poll hands over what has arrived. -/
theorem Inv.pollData {k : ℕ} (h : self.Inv) (hstep : self.step (.PollData k) = some after) :
    after.Inv := by
  obtain ⟨recv, hplaced, ⟨hpoll, _⟩ | ⟨hpoll, hnil, hfin⟩ | ⟨chunk, rest, hpoll, hne, hbuffered⟩⟩ :=
    step_pollData h.recv k
  · rw [hpoll] at hstep
    cases hstep
    exact { h with recv := hplaced }
  · rw [hpoll] at hstep
    cases hstep
    exact { h with recv := hplaced, ended := fun _ => ⟨hfin, hnil⟩ }
  · rw [hpoll] at hstep
    cases hstep
    refine { h with recv := hplaced, bytes := ?_, chunks := ?_, ended := ?_ }
    · show (self.got ++ [chunk]).flatten ++ rest = _
      rw [List.flatten_append, List.flatten_singleton, List.append_assoc, ← hbuffered, h.bytes]
    · intro chunk' hchunk'
      rcases List.mem_append.mp hchunk' with hgot | hlast
      · exact h.chunks chunk' hgot
      · rw [List.mem_singleton.mp hlast]
        exact hne
    · intro hended
      have hnil := (h.ended hended).2
      rw [hbuffered] at hnil
      exact absurd (List.append_eq_nil_iff.mp hnil).1 hne

/-- **The step.** -/
theorem Inv.step {e : PipeEvent} (h : self.Inv) (hok : self.Ok e)
    (hstep : self.step e = some after) : after.Inv := by
  cases e with
  | Send c => exact h.send hok hstep
  | Arrive n => exact h.arrive hstep
  | ArriveFin =>
      rw [Pipe.step] at hstep
      split_ifs at hstep with hall
      cases hstep
      obtain ⟨total, htotal⟩ := Option.isSome_iff_exists.mp hall.1
      obtain ⟨stream, hsender⟩ := h.sender
      have haccepted : self.session.io.accepted = total := by
        rw [hsender.holds.accepted]
        exact hsender.finished total htotal
      refine { h with fin := fun _ => ⟨total, htotal, haccepted, ?_⟩, ended := ?_ }
      · rw [← haccepted]
        exact hall.2
      · exact fun hended => ⟨rfl, (h.ended hended).2⟩
  | Lose =>
      cases hstep
      exact { h with }
  | PollData k => exact h.pollData hstep

variable {id : StreamId} {events : List PipeEvent}

/-- The run. -/
theorem inv_of_run (hok : Transition.Conforms step Ok (new id) events)
    (hrun : Transition.run step (new id) events = some self) : self.Inv :=
  Transition.run_invariant_of_conforms (I := Inv) (inv_new id)
    (fun _ _ _ hm hok hstep => hm.step hok hstep) hok hrun

end Pipe

end IrohExperiments.H3
