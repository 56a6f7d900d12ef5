import IrohExperiments.H3.SendStream

/-!
# Stream ids

The streams of a QUIC connection are numbered, per initiator and direction, and the id of a stream
has all three: its ordinal, and in the lowest two bits its direction and its initiator.  h3 has
such ids too.  It tells streams apart by them, and reads off the bits which streams carry requests.

`recvId` and `sendId` are where the binding hands an id of the QUIC library to h3.  What they hand
over is the ordinal alone (`OpenStream.reports_iff`), so all the streams of one ordinal get the same
id, and the lowest bits of what h3 gets are bits of an ordinal.  `ids_agree_iff` says when this makes
no difference: when stream 0 is the only one that is open.
-/

namespace IrohExperiments.H3

/-! ## Ids -/

/-- The end of the connection that opened a stream. -/
inductive Side where
  | Client
  | Server
  deriving DecidableEq

inductive Dir where
  | Bi
  | Uni
  deriving DecidableEq

def Side.toNat : Side → ℕ
  | .Client => 0
  | .Server => 1

def Dir.toNat : Dir → ℕ
  | .Bi => 0
  | .Uni => 1

/-- A stream id, of 62 bits.  The QUIC library and h3 have one type each, with the same bits. -/
structure StreamId where
  value : ℕ
  lt : value < 2 ^ 62
  deriving DecidableEq

namespace StreamId

/-- `index << 2 | dir << 1 | initiator`. -/
def new (initiator : Side) (dir : Dir) (index : Fin (2 ^ 60)) : StreamId where
  value := 4 * index + 2 * dir.toNat + initiator.toNat
  lt := by
    have hindex := index.isLt
    cases initiator <;> cases dir <;> simp only [Side.toNat, Dir.toNat] <;> omega

def initiator (self : StreamId) : Side := if self.value % 2 = 0 then .Client else .Server

def dir (self : StreamId) : Dir := if self.value / 2 % 2 = 0 then .Bi else .Uni

/-- The ordinal: `id >> 2`. -/
def index (self : StreamId) : ℕ := self.value / 4

/-- The conversion from an integer, which fails on more than 62 bits. -/
def tryFrom (value : ℕ) : Option StreamId := if h : value < 2 ^ 62 then some ⟨value, h⟩ else none

theorem index_lt (self : StreamId) : self.index < 2 ^ 60 := by
  have hlt := self.lt
  rw [index]
  omega

theorem tryFrom_index (self : StreamId) {s : StreamId} :
    tryFrom self.index = some s ↔ s.value = self.index := by
  have hlt : self.index < 2 ^ 62 := Nat.lt_of_lt_of_le self.index_lt (by decide)
  obtain ⟨value, h⟩ := s
  rw [tryFrom, dif_pos hlt, Option.some.injEq, mk.injEq, eq_comm]

end StreamId

/-! ## What is handed to h3 -/

/-- The body of `recv_id` and `send_id`, for the id of the QUIC stream if that is at hand.  `none`
is the panic of an `unwrap`, or of an `expect`. -/
def streamId (stream : Option StreamId) : Option StreamId := do
  let id ← stream
  StreamId.tryFrom id.index

/-- `RecvStream`: the QUIC stream, or the read in flight that has taken it along.  All that is read
of the QUIC stream here is its id. -/
structure RecvStream where
  stream : Option StreamId
  readChunkFut : Option StreamId
  deriving DecidableEq

def RecvStream.new (stream : StreamId) : RecvStream := ⟨some stream, none⟩

def RecvStream.recvId (self : RecvStream) : Option StreamId := streamId self.stream

/-- `send_id`, of a send stream whose QUIC stream has this id. -/
def SendStream.sendId (self : SendStream) (id : StreamId) : Option StreamId :=
  streamId (self.stream.map fun _ => id)

/-- A stream of a connection as h3 has it: a half to receive, a half to send, or both. -/
structure OpenStream where
  id : StreamId
  recv : Option RecvStream
  send : Option SendStream
  recv_stream : ∀ r ∈ recv, ∀ stream ∈ r.stream, stream = id

namespace OpenStream

/-- A bidirectional stream that was just opened or accepted. -/
def bidi (id : StreamId) : OpenStream where
  id := id
  recv := some (RecvStream.new id)
  send := some (SendStream.new QuicStream.new)
  recv_stream := by simp [RecvStream.new]

/-- A unidirectional stream that was just opened. -/
def uni (id : StreamId) : OpenStream where
  id := id
  recv := none
  send := some (SendStream.new QuicStream.new)
  recv_stream := by simp

/-- The QUIC stream is at hand for one of the halves. -/
def AtHand (self : OpenStream) : Prop :=
  (∃ r ∈ self.recv, r.stream.isSome) ∨ ∃ w ∈ self.send, w.stream.isSome

/-- h3 is told this id by one of the halves. -/
def Reports (self : OpenStream) (s : StreamId) : Prop :=
  (∃ r ∈ self.recv, r.recvId = some s) ∨ ∃ w ∈ self.send, w.sendId self.id = some s

/-- **What is reported is the ordinal.** -/
theorem reports_iff (self : OpenStream) (s : StreamId) :
    self.Reports s ↔ self.AtHand ∧ s.value = self.id.index := by
  have hrecv : (∃ r ∈ self.recv, r.recvId = some s)
      ↔ (∃ r ∈ self.recv, r.stream.isSome) ∧ s.value = self.id.index := by
    rw [← StreamId.tryFrom_index]
    constructor
    · rintro ⟨r, hr, hid⟩
      obtain ⟨stream, hstream, htry⟩ := Option.bind_eq_some_iff.mp hid
      rw [self.recv_stream r hr stream hstream] at htry
      exact ⟨⟨r, hr, by rw [hstream]; rfl⟩, htry⟩
    · rintro ⟨⟨r, hr, hsome⟩, htry⟩
      obtain ⟨stream, hstream⟩ := Option.isSome_iff_exists.mp hsome
      refine ⟨r, hr, Option.bind_eq_some_iff.mpr ⟨stream, hstream, ?_⟩⟩
      rw [self.recv_stream r hr stream hstream, htry]
  have hsend : (∃ w ∈ self.send, w.sendId self.id = some s)
      ↔ (∃ w ∈ self.send, w.stream.isSome) ∧ s.value = self.id.index := by
    rw [← StreamId.tryFrom_index]
    constructor
    · rintro ⟨w, hw, hid⟩
      obtain ⟨stream, hstream, htry⟩ := Option.bind_eq_some_iff.mp hid
      obtain ⟨quic, hquic, rfl⟩ := Option.map_eq_some_iff.mp hstream
      exact ⟨⟨w, hw, by rw [hquic]; rfl⟩, htry⟩
    · rintro ⟨⟨w, hw, hsome⟩, htry⟩
      obtain ⟨quic, hquic⟩ := Option.isSome_iff_exists.mp hsome
      refine ⟨w, hw, Option.bind_eq_some_iff.mpr ⟨self.id, ?_, htry⟩⟩
      rw [hquic]
      rfl
  rw [Reports, AtHand, hrecv, hsend, or_and_right]

end OpenStream

/-! ## Agreement -/

/-- The ids that h3 is told are those of the streams. -/
structure IdsAgree (streams : Set OpenStream) : Prop where
  value : ∀ stream ∈ streams, ∀ s, stream.Reports s → s.value = stream.id.value
  /-- Different streams are never reported under one id. -/
  distinct : ∀ stream ∈ streams, ∀ stream' ∈ streams, ∀ s, stream.Reports s → stream'.Reports s →
    stream.id = stream'.id
  /-- The initiator and the direction that h3 reads off an id are those of the stream. -/
  bits : ∀ stream ∈ streams, ∀ s, stream.Reports s →
    s.initiator = stream.id.initiator ∧ s.dir = stream.id.dir

/-- **When h3 is told the ids of the QUIC streams.**  If and only if every open stream that can be
asked for its id is stream 0, the first bidirectional stream of the client. -/
theorem ids_agree_iff (streams : Set OpenStream) :
    IdsAgree streams ↔ ∀ stream ∈ streams, stream.AtHand →
      stream.id = StreamId.new .Client .Bi 0 := by
  constructor
  · intro h stream hstream hand
    have hlt : stream.id.index < 2 ^ 62 := Nat.lt_of_lt_of_le stream.id.index_lt (by decide)
    have heq := h.value stream hstream ⟨stream.id.index, hlt⟩
      ((stream.reports_iff _).mpr ⟨hand, rfl⟩)
    -- only 0 is its own ordinal
    have hzero : stream.id.value = 0 := by
      simp only [StreamId.index] at heq
      omega
    obtain ⟨⟨value, hvalue⟩, _, _, _⟩ := stream
    simp only at hzero
    subst hzero
    rfl
  · intro h
    have heq : ∀ stream ∈ streams, ∀ s, stream.Reports s → s = stream.id := by
      intro stream hstream s hs
      obtain ⟨hand, hvalue⟩ := (stream.reports_iff s).mp hs
      have hid := h stream hstream hand
      obtain ⟨value, _⟩ := s
      rw [hid] at hvalue ⊢
      simp only at hvalue
      subst hvalue
      rfl
    refine ⟨?_, ?_, ?_⟩
    · intro stream hstream s hs
      rw [heq stream hstream s hs]
    · intro stream hstream stream' hstream' s hs hs'
      rw [← heq stream hstream s hs, heq stream' hstream' s hs']
    · intro stream hstream s hs
      rw [heq stream hstream s hs]
      exact ⟨rfl, rfl⟩

/-- The streams of a client after its second request: two requests and the control stream. -/
def twoRequests : Set OpenStream :=
  {.bidi (.new .Client .Bi 0), .uni (.new .Client .Uni 0), .bidi (.new .Client .Bi 1)}

/-- **A request that is not taken for one.**  The second request has the id 4, and is reported as 1,
the id of a stream that the server opened; the control stream is reported under the id of the first
request. -/
theorem second_request_misreported : ¬ IdsAgree twoRequests := by
  intro h
  have hreports : (OpenStream.bidi (.new .Client .Bi 1)).Reports ⟨1, by decide⟩ :=
    (OpenStream.reports_iff _ _).mpr ⟨Or.inl ⟨_, rfl, rfl⟩, rfl⟩
  have hvalue := h.value _ (Or.inr (Or.inr rfl)) _ hreports
  exact absurd hvalue (by decide)

end IrohExperiments.H3
