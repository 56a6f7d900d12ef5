import IrohExperiments.DagSync.Lockstep

/-!
# The framing of a response

A response is a sequence of frames: a header of 33 bytes, and for `Data` the size of the data and its
encoding.  Nothing says how many frames there are.  The receiver takes an end of the stream at a
header for the end of the response, also when a part of the header is there.

So what was written is read back as it was (`readFrames_framesBytes`), but a response that is cut short
is not always noticed.  `frame_cases` says what the receiver does with a frame, whatever comes after
it, and `framing_iff` where a valid response can be cut without an error: in a header.  What a sender
writes is a valid response, if the bao encodings can be decoded (`exists_frames_of_response`).
-/

namespace IrohExperiments.DagSync

/-! ## Frames -/

/-- A frame, with the size and the encoding that go with a `Data` header. -/
inductive Frame where
  | Hash (hash : Hash)
  | Data (hash : Hash) (size : UInt64) (encoding : List UInt8)
  deriving DecidableEq

namespace Frame

def header : Frame → SyncResponseHeader
  | .Hash hash => .Hash hash
  | .Data hash _ _ => .Data hash

/-- What comes after the header. -/
def body : Frame → List UInt8
  | .Hash _ => []
  | .Data _ size encoding => Bytes.leBytes 8 size.toNat ++ encoding

def bytes (self : Frame) : List UInt8 := self.header.asBytes ++ self.body

theorem bytes_length (self : Frame) : self.bytes.length = 33 + self.body.length := by
  rw [bytes, List.length_append, SyncResponseHeader.asBytes_length]

/-- The size is read back as it was written. -/
theorem readExact_size (size : UInt64) (rest : List UInt8) (reset : Bool) :
    RecvStream.readExact ⟨Bytes.leBytes 8 size.toNat ++ rest, reset⟩ 8
      = .ok (Bytes.leBytes 8 size.toNat, ⟨rest, reset⟩) := by
  have hread := RecvStream.readExact_append (Bytes.leBytes 8 size.toNat) rest reset
  rwa [Bytes.leBytes_length] at hread

theorem ofLeBytes_size (size : UInt64) :
    UInt64.ofNat (Bytes.ofLeBytes (Bytes.leBytes 8 size.toNat)) = size := by
  have hlt : size.toNat < 256 ^ 8 := size.toNat_lt.trans_eq (by norm_num)
  rw [Bytes.ofLeBytes_leBytes, Nat.mod_eq_of_lt hlt, UInt64.ofNat_toNat]

end Frame

def framesBytes (frames : List Frame) : List UInt8 := frames.flatMap Frame.bytes

section Framing

variable [Libraries]

/-- The encoding is one of data, as far as the decoder is concerned: it reads all of it and nothing
else, and fails on a part of it. -/
structure Encodes (hash : Hash) (size : UInt64) (encoding data : List UInt8) : Prop where
  decodes : ∀ rest, Libraries.decodeRanges hash size (encoding ++ rest) = some (data, encoding.length)
  truncated : ∀ k < encoding.length, Libraries.decodeRanges hash size (encoding.take k) = none

namespace Frame

/-- A `Data` frame has the encoding of some data. -/
def Valid : Frame → Prop
  | .Hash _ => True
  | .Data hash size encoding => ∃ data, Encodes hash size encoding data

/-- Read a frame. -/
def fromStream (stream : RecvStream) : Except SyncError (Option (Frame × RecvStream)) :=
  match SyncResponseHeader.fromStream stream with
  | .error e => .error e
  | .ok none => .ok none
  | .ok (some (.Hash hash, stream)) => .ok (some (.Hash hash, stream))
  | .ok (some (.Data hash, stream)) =>
      match stream.readExact 8 with
      | .error _ => .error .Read
      | .ok (size, stream) =>
          let size := UInt64.ofNat (Bytes.ofLeBytes size)
          match Libraries.decodeRanges hash size stream.data with
          | none => .error .Bao
          | some (_, n) =>
              .ok (some (.Data hash size (stream.data.take n),
                { stream with data := stream.data.drop n }))

/-- A frame has a header at least. -/
theorem length_lt_of_fromStream {stream stream' : RecvStream} {frame : Frame}
    (h : fromStream stream = .ok (some (frame, stream'))) :
    stream'.data.length < stream.data.length := by
  have hheader : ∀ header s, SyncResponseHeader.fromStream stream = .ok (some (header, s)) →
      s.data.length < stream.data.length := by
    intro header s hs
    rw [SyncResponseHeader.fromStream, RecvStream.readExact] at hs
    split_ifs at hs with hlen
    · simp only at hs
      split at hs
      · cases hs
        simp only [List.length_drop]
        omega
      · cases hs
    · cases hs
  rw [fromStream] at h
  split at h
  · cases h
  · cases h
  · rename_i hread
    cases h
    exact hheader _ _ hread
  · rename_i stream'' hread
    have hlt := hheader _ _ hread
    rw [RecvStream.readExact] at h
    split_ifs at h with hlen
    · simp only at h
      split at h
      · cases h
      · cases h
        simp only [List.length_drop]
        omega

/-- **A frame is read as it was written.** -/
theorem fromStream_bytes {self : Frame} (h : self.Valid) (rest : List UInt8) :
    fromStream ⟨self.bytes ++ rest, false⟩ = .ok (some (self, ⟨rest, false⟩)) := by
  rw [bytes, List.append_assoc, fromStream, SyncResponseHeader.fromStream_asBytes]
  cases self with
  | Hash hash => rfl
  | Data hash size encoding =>
      obtain ⟨data, hencodes⟩ := h
      simp only [header, body, List.append_assoc, readExact_size, ofLeBytes_size, hencodes.decodes,
        List.take_left, List.drop_left]

end Frame

/-- Read frames up to the end of the stream, or an error. -/
def readFrames (stream : RecvStream) : List Frame × Except SyncError Unit :=
  match _h : Frame.fromStream stream with
  | .error e => ([], .error e)
  | .ok none => ([], .ok ())
  | .ok (some (frame, stream)) =>
      let (frames, result) := readFrames stream
      (frame :: frames, result)
termination_by stream.data.length
decreasing_by exact Frame.length_lt_of_fromStream _h

/-- **What was written is read back**, and then the end of the stream. -/
theorem readFrames_framesBytes {frames : List Frame} (h : ∀ f ∈ frames, f.Valid) :
    readFrames ⟨framesBytes frames, false⟩ = (frames, .ok ()) := by
  induction frames with
  | nil =>
      rw [readFrames]
      rfl
  | cons f frames ih =>
      obtain ⟨hf, hframes⟩ := List.forall_mem_cons.mp h
      have hread : Frame.fromStream ⟨framesBytes (f :: frames), false⟩ = _ :=
        Frame.fromStream_bytes hf (framesBytes frames)
      rw [readFrames]
      split <;> rename_i hnext <;> rw [hread] at hnext <;> cases hnext
      rw [ih hframes]

/-! ## What the receiver does with a frame -/

namespace Receiver

/-- The receiver with another stream. -/
def withReader (self : Receiver) (data : List UInt8) : Receiver := { self with reader := ⟨data, false⟩ }

/-- The receiver returns, with this result and this much left of the stream. -/
def EndsWith (self : Receiver) (result : Except SyncError Unit) (data : List UInt8) : Prop :=
  ∃ s, self.Runs s ∧ s.pc = .Done result ∧ s.reader.data = data

theorem Runs.endsWith {self m : Receiver} {result : Except SyncError Unit} {data : List UInt8}
    (h : self.Runs m) (h' : m.EndsWith result data) : self.EndsWith result data := by
  obtain ⟨s, hs, hend⟩ := h'
  exact ⟨s, h.trans hs, hend⟩

/-- The receiver has the data of a frame, and does not look at the stream until the next one. -/
def HasData (self : Receiver) : Prop :=
  match self.pc with
  | .Verify .. | .Store .. | .InsertHash .. | .InsertData .. => True
  | _ => False

omit [Libraries] in
theorem HasData.pc_ne_done {self : Receiver} (h : self.HasData) (r : Except SyncError Unit) :
    self.pc ≠ .Done r := by
  intro hpc
  rw [HasData, hpc] at h
  exact h

theorem HasData.advance_withReader {self : Receiver} (h : self.HasData) (data : List UInt8) :
    (self.withReader data).advance = self.advance.withReader data := by
  obtain ⟨pc, traversal, tables, store, reader, yielded, frames⟩ := self
  cases pc with
  | Verify cid hash buffer =>
      simp only [withReader, Receiver.advance, verify]
      split
      · rfl
      · split_ifs <;> rfl
  | Store cid hash buffer =>
      by_cases htag : (store.addBytes buffer).2 = hash <;>
        simp [withReader, Receiver.advance, addBytes, htag]
  | InsertHash cid hash buffer =>
      simp only [withReader, Receiver.advance, insertHash]
      split <;> rfl
  | InsertData cid hash links =>
      simp only [withReader, Receiver.advance, insertData]
      split <;> rfl
  | _ => exact h.elim

theorem HasData.frames_advance {self : Receiver} (h : self.HasData) :
    self.advance.frames = self.frames := by
  obtain ⟨pc, traversal, tables, store, reader, yielded, frames⟩ := self
  cases pc with
  | Verify cid hash buffer =>
      simp only [Receiver.advance, verify]
      split
      · rfl
      · split_ifs <;> rfl
  | Store cid hash buffer =>
      simp only [Receiver.advance, addBytes]
      split_ifs <;> rfl
  | InsertHash cid hash buffer =>
      simp only [Receiver.advance, insertHash]
      split <;> rfl
  | InsertData cid hash links =>
      simp only [Receiver.advance, insertData]
      split <;> rfl
  | _ => exact h.elim

/-- The receiver gets to the next cid, or returns an error, and what the stream has does not matter. -/
def Settles (self : Receiver) : Prop :=
  (∃ m : Receiver, m.pc = .Next ∧ m.frames = self.frames ∧
      ∀ data, (self.withReader data).Runs (m.withReader data)) ∨
    ∃ e, ∀ data, (self.withReader data).EndsWith (.error e) data

theorem settles_of_next {self : Receiver} (hpc : self.pc = .Next) : self.Settles :=
  .inl ⟨self, hpc, rfl, fun _ => .refl _⟩

theorem settles_of_error {self : Receiver} {e : SyncError} (hpc : self.pc = .Done (.error e)) :
    self.Settles :=
  .inr ⟨e, fun data => ⟨self.withReader data, .refl _, hpc, rfl⟩⟩

/-- An operation that does not look at the stream. -/
theorem HasData.settles {self : Receiver} (h : self.HasData) (hadvance : self.advance.Settles) :
    self.Settles := by
  have hruns : ∀ data, (self.withReader data).Runs (self.advance.withReader data) := fun data =>
    .of_advance (h.advance_withReader data) fun r hpc => h.pc_ne_done r hpc
  rcases hadvance with ⟨m, hpc, hframes, hm⟩ | ⟨e, he⟩
  · exact .inl ⟨m, hpc, hframes.trans h.frames_advance, fun data => (hruns data).trans (hm data)⟩
  · exact .inr ⟨e, fun data => (hruns data).endsWith (he data)⟩

theorem settles_insertData {self : Receiver} {cid : Cid} {hash : Hash} {links : List Cid}
    (hpc : self.pc = .InsertData cid hash links) : self.Settles := by
  refine HasData.settles (by rw [HasData, hpc]; trivial) ?_
  rw [Receiver.advance, hpc]
  simp only [insertData]
  split
  · exact settles_of_error rfl
  · exact settles_of_next rfl

theorem settles_insertHash {self : Receiver} {cid : Cid} {hash : Hash} {data : List UInt8}
    (hpc : self.pc = .InsertHash cid hash data) : self.Settles := by
  refine HasData.settles (by rw [HasData, hpc]; trivial) ?_
  rw [Receiver.advance, hpc]
  simp only [insertHash]
  split
  · exact settles_of_error rfl
  · exact settles_insertData rfl

theorem settles_store {self : Receiver} {cid : Cid} {hash : Hash} {data : List UInt8}
    (hpc : self.pc = .Store cid hash data) : self.Settles := by
  refine HasData.settles (by rw [HasData, hpc]; trivial) ?_
  rw [Receiver.advance, hpc]
  simp only [addBytes]
  split_ifs
  · exact settles_of_error rfl
  · exact settles_insertHash rfl

/-- **From the check of the data on**, the stream does not matter. -/
theorem settles_verify {self : Receiver} {cid : Cid} {hash : Hash} {buffer : List UInt8}
    (hpc : self.pc = .Verify cid hash buffer) : self.Settles := by
  refine HasData.settles (by rw [HasData, hpc]; trivial) ?_
  rw [Receiver.advance, hpc]
  simp only [verify]
  split
  · exact settles_of_error rfl
  · split_ifs
    · exact settles_of_error rfl
    · exact settles_store rfl

/-- **The body of a frame**, whatever comes after it. -/
theorem body_cases {self : Receiver} {cid : Cid} {hash : Hash} (hpc : self.pc = .Body cid hash)
    {size : UInt64} {encoding data : List UInt8} (h : Encodes hash size encoding data) :
    (∃ m : Receiver, m.pc = .Next ∧ m.frames = self.frames ∧
        ∀ rest, (self.withReader (Bytes.leBytes 8 size.toNat ++ (encoding ++ rest))).Runs
          (m.withReader rest)) ∨
      ∃ e, ∀ rest, (self.withReader (Bytes.leBytes 8 size.toNat ++ (encoding ++ rest))).EndsWith
        (.error e) rest := by
  let v : Receiver := { self with pc := .Verify cid hash data }
  have hruns : ∀ rest, (self.withReader (Bytes.leBytes 8 size.toNat ++ (encoding ++ rest))).Runs
      (v.withReader rest) := by
    intro rest
    refine .of_advance ?_ (by rw [withReader, hpc]; nofun)
    rw [Receiver.advance, withReader, hpc]
    simp only [readBody, Frame.readExact_size, Frame.ofLeBytes_size, h.decodes, List.drop_left]
    rfl
  have hv : v.Settles := settles_verify rfl
  rcases hv with ⟨m, hm, hframes, hsettles⟩ | ⟨e, he⟩
  · exact .inl ⟨m, hm, hframes, fun rest => (hruns rest).trans (hsettles rest)⟩
  · exact .inr ⟨e, fun rest => (hruns rest).endsWith (he rest)⟩

/-- At an error of its traversal the receiver returns it. -/
theorem ends_at_error {self : Receiver} (hpc : self.pc = .Next) {e : SyncError}
    (hnext : self.traversal.next self.tables = .error e) :
    self.EndsWith (.error e) self.reader.data := by
  refine ⟨{ self with pc := .Done (.error e) }, .of_advance ?_ (by rw [hpc]; nofun), rfl, rfl⟩
  rw [Receiver.advance, hpc]
  simp only [Receiver.next, hnext]

theorem ends_at_error_withReader {self : Receiver} (hpc : self.pc = .Next) {e : SyncError}
    (hnext : self.traversal.next self.tables = .error e) (data : List UInt8) :
    (self.withReader data).EndsWith (.error e) data := by
  have hpc' : (self.withReader data).pc = .Next := hpc
  exact ends_at_error hpc' hnext

/-- **What the receiver does with a frame**, whatever comes after it.  It takes the frame to be for the
next cid of its traversal and goes on, or it returns: with an error, or at the end of the traversal,
before it looks at the frame. -/
theorem frame_cases {self : Receiver} (hpc : self.pc = .Next) {f : Frame} (hf : f.Valid) :
    (∃ cid t, self.traversal.next self.tables = .ok (some (cid, t)) ∧
      ∃ m : Receiver, m.pc = .Next ∧ m.frames = self.frames ++ [(cid, f.header)] ∧
        ∀ rest, (self.withReader (f.bytes ++ rest)).Runs (m.withReader rest)) ∨
    (∃ e, ∀ rest, ∃ left, (self.withReader (f.bytes ++ rest)).EndsWith (.error e) left) ∨
    ∀ rest, (self.withReader (f.bytes ++ rest)).EndsWith (.ok ()) (f.bytes ++ rest) := by
  rcases hnext : self.traversal.next self.tables with e | _ | ⟨cid, t⟩
  · exact .inr (.inl ⟨e, fun rest => ⟨_, ends_at_error_withReader hpc hnext _⟩⟩)
  · exact .inr (.inr fun rest => ⟨_, runs_end hpc hnext, rfl, rfl⟩)
  · cases f with
    | Hash hash =>
        refine .inl ⟨cid, t, rfl, { self with
          traversal := t
          yielded := self.yielded ++ [cid]
          frames := self.frames ++ [(cid, .Hash hash)] }, hpc, rfl, fun rest => ?_⟩
        have hpc' : (self.withReader ((Frame.Hash hash).bytes ++ rest)).pc = .Next := hpc
        refine runs_hash_frame hpc' hnext ?_
        rw [Frame.bytes, Frame.header, Frame.body, List.append_nil, withReader]
    | Data hash size encoding =>
        obtain ⟨data, hencodes⟩ := hf
        let h : Receiver := { self with
          pc := .Header cid
          traversal := t
          yielded := self.yielded ++ [cid] }
        let b : Receiver := { h with
          pc := .Body cid hash
          frames := self.frames ++ [(cid, .Data hash)] }
        have hruns : ∀ rest, (self.withReader ((Frame.Data hash size encoding).bytes ++ rest)).Runs
            (b.withReader (Bytes.leBytes 8 size.toNat ++ (encoding ++ rest))) := by
          intro rest
          have hpc' : (self.withReader ((Frame.Data hash size encoding).bytes ++ rest)).pc = .Next := hpc
          refine (runs_next hpc' hnext).trans ?_
          refine runs_data_header rfl ?_
          simp only [withReader, Frame.bytes, Frame.header, Frame.body, List.append_assoc]
        have hpcb : b.pc = .Body cid hash := rfl
        rcases body_cases hpcb hencodes with ⟨m, hm, hframes, hbody⟩ | ⟨e, he⟩
        · exact .inl ⟨cid, t, rfl, m, hm, hframes, fun rest => (hruns rest).trans (hbody rest)⟩
        · exact .inr (.inl ⟨e, fun rest => ⟨rest, (hruns rest).endsWith (he rest)⟩⟩)

/-! ## A stream that is cut short -/

/-- **In a header** the end of the stream is the end of the response. -/
theorem runs_in_header {self : Receiver} (hpc : self.pc = .Next) {cid : Cid} {t : Traversal}
    (hnext : self.traversal.next self.tables = .ok (some (cid, t))) {data : List UInt8}
    (hlt : data.length < 33) :
    (self.withReader data).Runs
      { self.withReader data with
        pc := .Done (.ok ())
        traversal := t
        yielded := self.yielded ++ [cid] } := by
  have hpc' : (self.withReader data).pc = .Next := hpc
  refine (runs_next hpc' hnext).trans (.of_advance ?_ nofun)
  simp only [Receiver.advance, readHeader, withReader, SyncResponseHeader.fromStream,
    RecvStream.readExact, Nat.not_le.mpr hlt, if_false, Bool.false_eq_true]

/-- **In the size or the encoding** it is an error. -/
theorem ends_in_body {self : Receiver} {cid : Cid} {hash : Hash} (hpc : self.pc = .Body cid hash)
    {size : UInt64} {encoding data : List UInt8} (h : Encodes hash size encoding data) {k : ℕ}
    (hk : k < 8 + encoding.length) :
    ∃ e left, (self.withReader ((Bytes.leBytes 8 size.toNat ++ encoding).take k)).EndsWith
      (.error e) left := by
  by_cases h8 : k < 8
  · have hlen : ((Bytes.leBytes 8 size.toNat ++ encoding).take k).length < 8 := by
      rw [List.length_take]
      omega
    refine ⟨.Read, _, _, .of_advance rfl (by rw [withReader, hpc]; nofun), ?_, rfl⟩
    simp only [Receiver.advance, withReader, hpc, readBody, RecvStream.readExact,
      Nat.not_le.mpr hlen, if_false, Bool.false_eq_true]
  · have htake : (Bytes.leBytes 8 size.toNat ++ encoding).take k
        = Bytes.leBytes 8 size.toNat ++ encoding.take (k - 8) := by
      rw [List.take_append, Bytes.leBytes_length, List.take_of_length_le]
      rw [Bytes.leBytes_length]
      omega
    refine ⟨.Bao, _, _, .of_advance rfl (by rw [withReader, hpc]; nofun), ?_, rfl⟩
    rw [htake]
    simp only [Receiver.advance, withReader, hpc, readBody, Frame.readExact_size,
      Frame.ofLeBytes_size, h.truncated (k - 8) (by omega)]

/-- **A frame that is cut short**, at a cid of the traversal. -/
theorem cut_frame {self : Receiver} (hpc : self.pc = .Next) {cid : Cid} {t : Traversal}
    (hnext : self.traversal.next self.tables = .ok (some (cid, t))) {f : Frame} (hf : f.Valid)
    {k : ℕ} (hk : k < f.bytes.length) :
    (k < 33 ∧ (self.withReader (f.bytes.take k)).EndsWith (.ok ()) (f.bytes.take k)) ∨
      33 ≤ k ∧ ∃ e left, (self.withReader (f.bytes.take k)).EndsWith (.error e) left := by
  by_cases hheader : k < 33
  · refine .inl ⟨hheader, _, runs_in_header hpc hnext ?_, rfl, rfl⟩
    rw [List.length_take]
    omega
  · refine .inr ⟨Nat.not_lt.mp hheader, ?_⟩
    cases f with
    | Hash hash =>
        rw [Frame.bytes_length] at hk
        exact absurd hk hheader
    | Data hash size encoding =>
        obtain ⟨data, hencodes⟩ := hf
        have hlen : k - 33 < 8 + encoding.length := by
          rw [Frame.bytes_length, Frame.body, List.length_append, Bytes.leBytes_length] at hk
          omega
        have htake : (Frame.Data hash size encoding).bytes.take k
            = (SyncResponseHeader.Data hash).asBytes
              ++ (Bytes.leBytes 8 size.toNat ++ encoding).take (k - 33) := by
          rw [Frame.bytes, Frame.header, Frame.body, List.take_append,
            SyncResponseHeader.asBytes_length, List.take_of_length_le]
          rw [SyncResponseHeader.asBytes_length]
          omega
        let h : Receiver := { self with
          pc := .Header cid
          traversal := t
          yielded := self.yielded ++ [cid] }
        let b : Receiver := { h with
          pc := .Body cid hash
          frames := self.frames ++ [(cid, .Data hash)] }
        have hpcb : b.pc = .Body cid hash := rfl
        obtain ⟨e, left, hend⟩ := ends_in_body hpcb hencodes hlen
        refine ⟨e, left, Runs.endsWith ?_ hend⟩
        have hpc' : (self.withReader ((Frame.Data hash size encoding).bytes.take k)).pc = .Next := hpc
        refine (runs_next hpc' hnext).trans ?_
        refine runs_data_header rfl ?_
        simp only [withReader, htake]

/-! ## Runs from one end to the other -/

theorem step_of_done {self : Receiver} {result : Except SyncError Unit} (h : self.pc = .Done result)
    (turn : Turn) : step self turn = none := by
  unfold step
  rw [h]

/-- A receiver that has returned goes nowhere. -/
theorem eq_of_run_done {self s : Receiver} {turns : List Turn}
    (hrun : Transition.run step self turns = some s) {result : Except SyncError Unit}
    (hpc : self.pc = .Done result) : s = self := by
  cases turns with
  | nil => exact (Option.some.inj hrun).symm
  | cons turn turns =>
      rw [Transition.run_cons, step_of_done hpc] at hrun
      cases hrun

theorem Runs.eq_of_done {self s : Receiver} (h : self.Runs s) {result : Except SyncError Unit}
    (hpc : self.pc = .Done result) : s = self := by
  obtain ⟨n, hn⟩ := h
  exact eq_of_run_done hn hpc

/-- A run to the end goes through all states on the way. -/
theorem Runs.of_runs {self m s : Receiver} (h : self.Runs s) {result : Except SyncError Unit}
    (hpc : s.pc = .Done result) (hm : self.Runs m) : m.Runs s := by
  obtain ⟨n', hn'⟩ := h
  obtain ⟨n, hn⟩ := hm
  rcases Nat.le_total n n' with hle | hle
  · obtain ⟨k, rfl⟩ := Nat.exists_eq_add_of_le hle
    rw [List.replicate_add, Transition.run_append, hn] at hn'
    exact ⟨k, hn'⟩
  · obtain ⟨k, rfl⟩ := Nat.exists_eq_add_of_le hle
    rw [List.replicate_add, Transition.run_append, hn'] at hn
    obtain rfl := Runs.eq_of_done ⟨k, hn⟩ hpc
    exact .refl m

/-- **What is reached on the way** comes to the same end. -/
theorem EndsWith.of_runs {self m : Receiver} {result : Except SyncError Unit} {data : List UInt8}
    (h : self.EndsWith result data) (hm : self.Runs m) : m.EndsWith result data := by
  obtain ⟨s, hs, hpc, hdata⟩ := h
  exact ⟨s, hs.of_runs hpc hm, hpc, hdata⟩

/-- There is one end. -/
theorem EndsWith.unique {self : Receiver} {result result' : Except SyncError Unit}
    {data data' : List UInt8} (h : self.EndsWith result data) (h' : self.EndsWith result' data') :
    result = result' ∧ data = data' := by
  obtain ⟨s, hs, hpc, rfl⟩ := h
  obtain ⟨s', hs', hpc', rfl⟩ := h'.of_runs hs
  obtain rfl := hs'.eq_of_done hpc
  rw [hpc] at hpc'
  exact ⟨Pc.Done.inj hpc', rfl⟩

/-- `handle_sync_response` returns, and what it returns is an error, whatever the environment lets
fail. -/
def ReportsError (self : Receiver) : Prop :=
  (∃ e data, self.EndsWith (.error e) data) ∧ ∀ turns s, Transition.run step self turns = some s →
    ∀ result, s.pc = .Done result → ∃ e, result = .error e

/-- A run that returns without an error is one in which nothing fails. -/
theorem runs_of_done_ok {self s : Receiver} {turns : List Turn}
    (hrun : Transition.run step self turns = some s) (hpc : s.pc = .Done (.ok ())) : self.Runs s := by
  induction turns generalizing self with
  | nil =>
      cases hrun
      exact .refl _
  | cons turn turns ih =>
      obtain ⟨m, hstep, hrun⟩ := Option.bind_eq_some_iff.mp hrun
      rcases step_cases hstep with hm | hm
      · -- the run is over after an operation that fails
        have hmpc : m.pc = .Done (.error .Io) := by rw [hm]
        rw [eq_of_run_done hrun hmpc, hmpc] at hpc
        cases hpc
      · refine (Runs.of_advance hm.symm fun r hr => ?_).trans (ih hrun)
        rw [step_of_done hr] at hstep
        cases hstep

theorem reportsError_iff {self : Receiver} :
    self.ReportsError ↔ ∃ e data, self.EndsWith (.error e) data := by
  refine ⟨And.left, fun h => ⟨h, fun turns s hrun result hpc => ?_⟩⟩
  obtain ⟨e, data, hend⟩ := h
  cases result with
  | error e' => exact ⟨e', rfl⟩
  | ok _ =>
      have hok : self.EndsWith (.ok ()) s.reader.data := ⟨s, runs_of_done_ok hrun hpc, hpc, rfl⟩
      obtain ⟨hresult, _⟩ := hend.unique hok
      cases hresult

/-! ## Responses -/

/-- A frame of a response that the receiver gets through. -/
theorem frame_of_ends {self : Receiver} (hpc : self.pc = .Next) {f : Frame} (hf : f.Valid)
    {rest : List UInt8} (h : (self.withReader (f.bytes ++ rest)).EndsWith (.ok ()) []) :
    ∃ cid t, self.traversal.next self.tables = .ok (some (cid, t)) ∧
      ∃ m : Receiver, m.pc = .Next ∧ m.frames = self.frames ++ [(cid, f.header)] ∧
        (∀ rest, (self.withReader (f.bytes ++ rest)).Runs (m.withReader rest)) ∧
        (m.withReader rest).EndsWith (.ok ()) [] := by
  rcases frame_cases hpc hf with ⟨cid, t, hnext, m, hm, hlog, hruns⟩ | ⟨e, he⟩ | hend
  · exact ⟨cid, t, hnext, m, hm, hlog, hruns, h.of_runs (hruns rest)⟩
  · obtain ⟨left, he⟩ := he rest
    obtain ⟨hresult, _⟩ := h.unique he
    cases hresult
  · -- the header at least is left
    obtain ⟨_, hdata⟩ := h.unique (hend rest)
    have hlen := congrArg List.length hdata
    rw [List.length_append, Frame.bytes_length, List.length_nil] at hlen
    omega

/-- **A response that the receiver gets through** is what it logs. -/
theorem frames_of_ends {self : Receiver} (hpc : self.pc = .Next) {frames : List Frame}
    (hframes : ∀ f ∈ frames, f.Valid)
    (h : (self.withReader (framesBytes frames)).EndsWith (.ok ()) []) :
    ∃ s, (self.withReader (framesBytes frames)).Runs s ∧ s.pc = .Done (.ok ()) ∧
      s.frames.map Prod.snd = self.frames.map Prod.snd ++ frames.map Frame.header := by
  induction frames generalizing self with
  | nil =>
      have hpc' : (self.withReader []).pc = .Next := hpc
      rw [List.map_nil, List.append_nil]
      rcases hnext : self.traversal.next self.tables with e | _ | ⟨cid, t⟩
      · obtain ⟨hresult, _⟩ := h.unique (ends_at_error_withReader hpc hnext [])
        cases hresult
      · exact ⟨_, runs_end hpc' hnext, rfl, rfl⟩
      · exact ⟨_, runs_in_header hpc hnext (by decide), rfl, rfl⟩
  | cons f frames ih =>
      obtain ⟨hf, hframes⟩ := List.forall_mem_cons.mp hframes
      rw [framesBytes, List.flatMap_cons] at h
      obtain ⟨cid, t, _, m, hm, hlog, hruns, hend⟩ := frame_of_ends hpc hf h
      obtain ⟨s, hs, hdone, hlog'⟩ := ih hm hframes hend
      refine ⟨s, (hruns _).trans hs, hdone, ?_⟩
      rw [hlog', hlog, List.map_append, List.append_assoc]
      rfl

theorem Runs.reportsError_iff {self m : Receiver} (h : self.Runs m) :
    self.ReportsError ↔ m.ReportsError := by
  rw [Receiver.reportsError_iff, Receiver.reportsError_iff]
  constructor
  · rintro ⟨e, data, hend⟩
    exact ⟨e, data, hend.of_runs h⟩
  · rintro ⟨e, data, hend⟩
    exact ⟨e, data, h.endsWith hend⟩

/-- **Where a response can be cut.** -/
theorem reportsError_cut_iff {self : Receiver} (hpc : self.pc = .Next) {front back : List Frame}
    {f : Frame} (hfront : ∀ f ∈ front, f.Valid) (hf : f.Valid)
    (h : (self.withReader (framesBytes (front ++ f :: back))).EndsWith (.ok ()) []) {k : ℕ}
    (hk : k < f.bytes.length) :
    (self.withReader (framesBytes front ++ f.bytes.take k)).ReportsError ↔ 33 ≤ k := by
  induction front generalizing self with
  | nil =>
      obtain ⟨cid, t, hnext, _⟩ := frame_of_ends hpc hf h
      rw [reportsError_iff]
      rcases cut_frame hpc hnext hf hk with ⟨hlt, hend⟩ | ⟨hle, herror⟩
      · refine iff_of_false ?_ (Nat.not_le.mpr hlt)
        rintro ⟨e, data, herror⟩
        obtain ⟨hresult, _⟩ := hend.unique herror
        cases hresult
      · exact iff_of_true herror hle
  | cons g front ih =>
      obtain ⟨hg, hfront⟩ := List.forall_mem_cons.mp hfront
      rw [List.cons_append, framesBytes, List.flatMap_cons] at h
      obtain ⟨cid, t, hnext, m, hm, _, hruns, hend⟩ := frame_of_ends hpc hg h
      rw [← ih hm hfront hend, framesBytes, List.flatMap_cons, List.append_assoc]
      exact (hruns _).reportsError_iff

end Receiver

/-! ## What the sender writes -/

/-- The bao encoding, with the size in front, is one that cannot be cut. -/
def Libraries.NoTruncation (S : Set (List UInt8)) : Prop :=
  ∀ d ∈ S, ∀ size body, exportBao d = Bytes.leBytes 8 size ++ body → ∀ k < body.length,
    decodeRanges (blake3 d) (UInt64.ofNat size) (body.take k) = none

theorem exists_encodes {S : Set (List UInt8)} (laws : Libraries.Laws S)
    (hcut : Libraries.NoTruncation S) {d : List UInt8} (hd : d ∈ S) :
    ∃ (size : UInt64) (encoding : List UInt8),
      Libraries.exportBao d = Bytes.leBytes 8 size.toNat ++ encoding ∧
        Encodes (Libraries.blake3 d) size encoding d := by
  obtain ⟨n, encoding, hexport, hn, _⟩ := laws.decodeRanges_exportBao d hd []
  have hsize : (UInt64.ofNat n).toNat = n := UInt64.toNat_ofNat_of_lt' hn
  refine ⟨UInt64.ofNat n, encoding, by rw [hsize, hexport], fun rest => ?_, hcut d hd n encoding hexport⟩
  -- the size and the encoding do not depend on what comes after
  obtain ⟨n', encoding', hexport', hn', hdecode⟩ := laws.decodeRanges_exportBao d hd rest
  have hlen : (Bytes.leBytes 8 n).length = (Bytes.leBytes 8 n').length := by
    rw [Bytes.leBytes_length, Bytes.leBytes_length]
  obtain ⟨hle, rfl⟩ := List.append_inj (hexport.symm.trans hexport') hlen
  have hnn : n = n' := by
    have hof := congrArg Bytes.ofLeBytes hle
    rw [Bytes.ofLeBytes_leBytes, Bytes.ofLeBytes_leBytes, Nat.mod_eq_of_lt, Nat.mod_eq_of_lt] at hof
    · exact hof
    · exact hn'.trans_eq (by norm_num)
    · exact hn.trans_eq (by norm_num)
  rw [hnn]
  exact hdecode

/-- **The response of a sender** that gets to its end is a sequence of such frames. -/
theorem exists_frames_of_response {S : Set (List UInt8)} (laws : Libraries.Laws S)
    (hcut : Libraries.NoTruncation S) {db : Tables} {blobs : BlobStore} (hS : ∀ d ∈ blobs.blobs, d ∈ S)
    {inline : Cid → Bool} {t : Traversal} (hok : (writeSyncResponse db blobs inline t).result = .ok ()) :
    ∃ frames : List Frame, (∀ f ∈ frames, f.Valid) ∧
      (writeSyncResponse db blobs inline t).bytes = framesBytes frames ∧
      (writeSyncResponse db blobs inline t).frames.map Prod.snd = frames.map Frame.header := by
  fun_induction writeSyncResponse db blobs inline t with
  | case1 => cases hok
  | case2 => exact ⟨[], fun f hf => absurd hf List.not_mem_nil, rfl, rfl⟩
  | case3 => cases hok
  | case4 => cases hok
  | case5 t cid t' hnext hash hhash hinline body hbody ih =>
      obtain ⟨frames, hvalid, hbytes, hheaders⟩ := ih hok
      obtain ⟨d, hget, rfl⟩ := Option.map_eq_some_iff.mp hbody
      have hd : d ∈ S := hS d (List.mem_of_find?_eq_some hget)
      obtain rfl : Libraries.blake3 d = hash := by
        rw [← laws.tagHash_eq d hd]
        simpa using List.find?_some hget
      obtain ⟨size, encoding, hexport, hencodes⟩ := exists_encodes laws hcut hd
      refine ⟨.Data (Libraries.blake3 d) size encoding :: frames,
        List.forall_mem_cons.mpr ⟨⟨d, hencodes⟩, hvalid⟩, ?_, ?_⟩
      · simp only [Response.after, hbytes, hexport, framesBytes, List.flatMap_cons, Frame.bytes,
          Frame.header, Frame.body, List.append_assoc]
      · rw [Response.after, List.map_cons, hheaders]
        rfl
  | case6 t cid t' hnext hash hhash hinline ih =>
      obtain ⟨frames, hvalid, hbytes, hheaders⟩ := ih hok
      refine ⟨.Hash hash :: frames, List.forall_mem_cons.mpr ⟨trivial, hvalid⟩, ?_, ?_⟩
      · rw [Response.after, hbytes, framesBytes, framesBytes, List.flatMap_cons, Frame.bytes,
          List.append_assoc]
        rfl
      · rw [Response.after, List.map_cons, hheaders]
        rfl

/-- **The framing of responses.**  Whatever frames there are, they are read back as they were written,
and then the end of the stream; and the receiver, if it gets through them, takes them for what they are.
Such a response can be cut anywhere, and the receiver reports an error if and only if the header of the
frame with the cut is complete.  What a sender writes to the end is such a response. -/
theorem framing_iff :
    (∀ frames : List Frame, (∀ f ∈ frames, f.Valid) →
      readFrames ⟨framesBytes frames, false⟩ = (frames, .ok ()) ∧
      ∀ tables store opts,
        (Receiver.start ⟨framesBytes frames, false⟩ tables store opts).EndsWith (.ok ()) [] →
          (∃ s, (Receiver.start ⟨framesBytes frames, false⟩ tables store opts).Runs s ∧
            s.pc = .Done (.ok ()) ∧ s.frames.map Prod.snd = frames.map Frame.header) ∧
          ∀ front f back, frames = front ++ f :: back → ∀ k < f.bytes.length,
            ((Receiver.start ⟨framesBytes front ++ f.bytes.take k, false⟩ tables store opts).ReportsError
              ↔ 33 ≤ k)) ∧
      ∀ S, Libraries.Laws S → Libraries.NoTruncation S → ∀ (db : Tables) (blobs : BlobStore),
        (∀ d ∈ blobs.blobs, d ∈ S) → ∀ opts inline,
          let response := handleSyncRequest opts inline db blobs
          response.result = .ok () →
            ∃ frames : List Frame, (∀ f ∈ frames, f.Valid) ∧ response.bytes = framesBytes frames ∧
              response.frames.map Prod.snd = frames.map Frame.header := by
  refine ⟨fun frames hframes => ⟨readFrames_framesBytes hframes, fun tables store opts h => ?_⟩, ?_⟩
  · have hpc : (Receiver.start ⟨[], false⟩ tables store opts).pc = .Next := rfl
    refine ⟨Receiver.frames_of_ends hpc hframes h, ?_⟩
    rintro front f back rfl k hk
    have hfront : ∀ f ∈ front, f.Valid := fun g hg => hframes g (List.mem_append_left _ hg)
    have hf : f.Valid := hframes f (List.mem_append_right _ List.mem_cons_self)
    exact Receiver.reportsError_cut_iff hpc hfront hf h hk
  · exact fun S laws hcut db blobs hS opts inline => exists_frames_of_response laws hcut hS

end Framing

section Runs

attribute [local instance] Libraries.toy

theorem Libraries.toy_noTruncation : NoTruncation {[1], [5]} := by
  intro d hd size body hexport k hk
  have hlen : (Bytes.leBytes 8 d.length).length = (Bytes.leBytes 8 size).length := by
    rw [Bytes.leBytes_length, Bytes.leBytes_length]
  obtain ⟨hsize, rfl⟩ := List.append_inj hexport hlen
  have hof := congrArg Bytes.ofLeBytes hsize
  have hone : d.length = 1 := by
    rcases hd with rfl | rfl <;> rfl
  rw [Bytes.ofLeBytes_leBytes, Bytes.ofLeBytes_leBytes, hone] at hof
  -- the size in front is more than what is left of the encoding
  have hmod : (UInt64.ofNat size).toNat = 1 := hof.symm
  simp only [decodeRanges, hmod, List.length_take]
  exact if_neg fun h => by omega

/-- The frames of a sender with the two example nodes, with the root inline and the leaf as a hash. -/
def twoFrames : List Frame :=
  [.Data (Libraries.padded [1]) 1 [1], .Hash (Libraries.padded [5])]

theorem twoFrames_valid : ∀ f ∈ twoFrames, f.Valid := by
  intro f hf
  rcases List.mem_cons.mp hf with rfl | hf
  · refine ⟨[1], fun rest => rfl, fun k hk => ?_⟩
    obtain rfl : k = 0 := Nat.lt_one_iff.mp hk
    rfl
  · rw [List.mem_singleton.mp hf]
    trivial

/-- The frames of the two nodes if nothing is inline. -/
def twoHashes : List Frame := [.Hash (Libraries.padded [1]), .Hash (Libraries.padded [5])]

theorem twoHashes_valid : ∀ f ∈ twoHashes, f.Valid := by
  intro f hf
  rcases List.mem_cons.mp hf with rfl | hf
  · trivial
  · rw [List.mem_singleton.mp hf]
    trivial

/-- The two nodes, one after the other. -/
def rootAndLeaf : TraversalOpts := .Sequence [Libraries.root, Libraries.leaf]

/-- A receiver without data, that asks for the two nodes. -/
def Receiver.forBoth (data : List UInt8) : Receiver := .start ⟨data, false⟩ .empty ⟨[]⟩ rootAndLeaf

/-- The receiver has returned without an error. -/
def Pc.isOk : Pc → Bool
  | .Done (.ok ()) => true
  | _ => false

theorem Pc.eq_of_isOk {pc : Pc} (h : pc.isOk = true) : pc = .Done (.ok ()) := by
  unfold isOk at h
  split at h
  · rfl
  · cases h

theorem Receiver.forBoth_ends {data : List UInt8} (n : ℕ)
    (h : (Transition.run step (forBoth data) (List.replicate n .proceeds)).map
      (fun s => (s.pc.isOk, s.reader.data)) = some (true, [])) : (forBoth data).EndsWith (.ok ()) [] := by
  obtain ⟨s, hs, hend⟩ := Option.map_eq_some_iff.mp h
  obtain ⟨hpc, hdata⟩ := Prod.mk.inj hend
  exact ⟨s, ⟨n, hs⟩, Pc.eq_of_isOk hpc, hdata⟩

/-- The condition can be met: a cut in the encoding of the first frame.  And there are senders to which
the last part applies. -/
theorem framing_cut_in_encoding :
    (Receiver.forBoth ((framesBytes twoFrames).take 41)).ReportsError ∧
      ∃ frames : List Frame, (∀ f ∈ frames, f.Valid) ∧
        (handleSyncRequest rootAndLeaf .NoRaw twoNodes ⟨[[1], [5]]⟩).bytes = framesBytes frames := by
  obtain ⟨hread, hsender⟩ := framing_iff
  obtain ⟨_, hreceiver⟩ := hread twoFrames twoFrames_valid
  obtain ⟨_, hcuts⟩ := hreceiver _ _ _ (Receiver.forBoth_ends 10 (by decide +kernel))
  have hok : (handleSyncRequest rootAndLeaf .NoRaw twoNodes ⟨[[1], [5]]⟩).result = .ok () := by
    rw [handleSyncRequest, writeSyncResponse_data rfl rfl (by decide) rfl,
      writeSyncResponse_hash rfl rfl (by decide), writeSyncResponse_end rfl]
    rfl
  obtain ⟨frames, hvalid, hbytes, _⟩ := hsender _ Libraries.toy_laws Libraries.toy_noTruncation twoNodes
    ⟨[[1], [5]]⟩ (by simp) rootAndLeaf .NoRaw hok
  exact ⟨(hcuts [] _ _ rfl 41 (by decide)).mpr (by decide), frames, hvalid, hbytes⟩

/-- **A cut that is not noticed.**  The sender has both nodes, and sends their hashes.  The second frame
is cut after its first byte, and the receiver returns without an error. -/
theorem cut_in_header_not_reported :
    let response := handleSyncRequest rootAndLeaf .None twoNodes ⟨[[1], [5]]⟩
    response.result = .ok () ∧ response.bytes = framesBytes twoHashes ∧
      (Receiver.forBoth response.bytes).EndsWith (.ok ()) [] ∧
        ¬ (Receiver.forBoth (response.bytes.take 34)).ReportsError := by
  have hresponse : handleSyncRequest rootAndLeaf .None twoNodes ⟨[[1], [5]]⟩
      = ⟨[(Libraries.root, .Hash (Libraries.padded [1])), (Libraries.leaf, .Hash (Libraries.padded [5]))],
        framesBytes twoHashes, .ok ()⟩ := by
    rw [handleSyncRequest, writeSyncResponse_hash rfl rfl (by decide),
      writeSyncResponse_hash rfl rfl (by decide), writeSyncResponse_end rfl]
    rfl
  have hends : (Receiver.forBoth (framesBytes twoHashes)).EndsWith (.ok ()) [] :=
    Receiver.forBoth_ends 5 (by decide +kernel)
  rw [hresponse]
  refine ⟨rfl, rfl, hends, fun h => ?_⟩
  have hpc : (Receiver.forBoth []).pc = .Next := rfl
  have hroot : ∀ f ∈ twoHashes.take 1, f.Valid := fun f hf =>
    twoHashes_valid f (List.mem_of_mem_take hf)
  have hleaf : (Frame.Hash (Libraries.padded [5])).Valid := trivial
  have hcut : (Receiver.forBoth (framesBytes (twoHashes.take 1)
      ++ (Frame.Hash (Libraries.padded [5])).bytes.take 1)).ReportsError ↔ 33 ≤ 1 :=
    Receiver.reportsError_cut_iff hpc hroot hleaf hends (by decide)
  exact absurd (hcut.mp h) (by decide)

end Runs

end IrohExperiments.DagSync
