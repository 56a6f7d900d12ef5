import IrohExperiments.DagSync.Traversal
import IrohExperiments.Lib.Transition

/-!
# The two sides of a sync

**The sender** traverses its own tables and writes a frame for each cid: the header, and for an
inline frame the export of the data.  Its tables do not change while it does that, so
`writeSyncResponse` is a total function.

**The receiver** runs the same traversal over tables that it extends as it goes.  It is a machine
with one step for each operation that can fail or at which the sync can be given up, so that "at
every point" of `handle_sync_response` means: in every state that the machine reaches.  The tables
are written in two steps, one for each row.  The label of a step says whether the operation
succeeds as far as the environment is concerned: a connection, a store or a database may fail at
any time.

The log of the receiver, `frames`, is what `handle_sync_response` prints: each header that was read,
with the cid that it was taken to be for.
-/

namespace IrohExperiments.DagSync

variable [Libraries]

/-- A store of blobs. -/
structure BlobStore where
  blobs : List (List UInt8)

namespace BlobStore

/-- `add_bytes`, with the hash of the tag. -/
def addBytes (self : BlobStore) (data : List UInt8) : BlobStore × Hash :=
  (⟨data :: self.blobs⟩, Libraries.tagHash data)

def get (self : BlobStore) (hash : Hash) : Option (List UInt8) :=
  self.blobs.find? fun data => Libraries.tagHash data = hash

/-- `export_bao` of all chunks. -/
def exportBao (self : BlobStore) (hash : Hash) : Option (List UInt8) :=
  (self.get hash).map Libraries.exportBao

/-- **The store returns what was added.** -/
theorem get_eq {S : Set (List UInt8)} (laws : Libraries.Laws S) {self : BlobStore}
    (hS : ∀ d ∈ self.blobs, d ∈ S) {data : List UInt8} (hdata : data ∈ self.blobs) :
    self.get (Libraries.blake3 data) = some data := by
  have htag := laws.tagHash_eq data (hS data hdata)
  cases hget : self.get (Libraries.blake3 data) with
  | none =>
      have hnone := List.find?_eq_none.mp hget data hdata
      rw [htag, decide_eq_true rfl] at hnone
      exact absurd rfl hnone
  | some d =>
      have hd : d ∈ S := hS d (List.mem_of_find?_eq_some hget)
      have hhash : Libraries.tagHash d = Libraries.blake3 data := by
        simpa using List.find?_some hget
      rw [laws.tagHash_eq d hd] at hhash
      rw [laws.blake3_injOn hd (hS data hdata) hhash]

end BlobStore

/-! ## The sender -/

/-- What the sender has written, frame by frame and as bytes, and how it ended. -/
structure Response where
  frames : List (Cid × SyncResponseHeader)
  bytes : List UInt8
  result : Except SyncError Unit

/-- A frame in front of a response. -/
def Response.after (self : Response) (cid : Cid) (header : SyncResponseHeader)
    (body : List UInt8) : Response :=
  ⟨(cid, header) :: self.frames, header.asBytes ++ (body ++ self.bytes), self.result⟩

def writeSyncResponse (db : Tables) (blobs : BlobStore) (inline : Cid → Bool)
    (traversal : Traversal) : Response :=
  match _h : traversal.next db with
  | .error e => ⟨[], [], .error e⟩
  | .ok none => ⟨[], [], .ok ()⟩
  | .ok (some (cid, traversal)) =>
      match db.blake3Hash cid.hash with
      | none => ⟨[], [], .error .Blake3HashNotFound⟩
      | some hash =>
          if inline cid then
            match blobs.exportBao hash with
            | none => Response.after ⟨[], [], .error .DataNotFound⟩ cid (.Data hash) []
            | some body =>
                (writeSyncResponse db blobs inline traversal).after cid (.Data hash) body
          else (writeSyncResponse db blobs inline traversal).after cid (.Hash hash) []
termination_by traversal.remaining db
decreasing_by all_goals exact Traversal.remaining_lt _h

section Frames

variable {db : Tables} {blobs : BlobStore} {inline : Cid → Bool} {t t' : Traversal} {cid : Cid}
  {hash : Hash}

theorem writeSyncResponse_end (h : t.next db = .ok none) :
    writeSyncResponse db blobs inline t = ⟨[], [], .ok ()⟩ := by
  rw [writeSyncResponse]
  split <;> rename_i hnext <;> rw [h] at hnext <;> cases hnext

theorem writeSyncResponse_data (h : t.next db = .ok (some (cid, t')))
    (hhash : db.blake3Hash cid.hash = some hash) (hinline : inline cid) {body : List UInt8}
    (hbody : blobs.exportBao hash = some body) :
    writeSyncResponse db blobs inline t
      = (writeSyncResponse db blobs inline t').after cid (.Data hash) body := by
  rw [writeSyncResponse]
  split <;> rename_i hnext <;> rw [h] at hnext <;> cases hnext
  simp only [hhash, if_pos hinline, hbody]

theorem writeSyncResponse_hash (h : t.next db = .ok (some (cid, t')))
    (hhash : db.blake3Hash cid.hash = some hash) (hinline : ¬ inline cid) :
    writeSyncResponse db blobs inline t
      = (writeSyncResponse db blobs inline t').after cid (.Hash hash) [] := by
  rw [writeSyncResponse]
  split <;> rename_i hnext <;> rw [h] at hnext <;> cases hnext
  simp only [hhash, if_neg hinline]

/-- **What a complete response consists of**: one frame for each cid of the traversal, in order, with the
hash that the sender has for the cid, and the data of those that are inline. -/
theorem frames_of_response (hok : (writeSyncResponse db blobs inline t).result = .ok ()) :
    t.collect db = .ok ((writeSyncResponse db blobs inline t).frames.map Prod.fst) ∧
      ∀ f ∈ (writeSyncResponse db blobs inline t).frames, ∃ hash, db.blake3Hash f.1.hash = some hash ∧
        f.2 = if inline f.1 then .Data hash else .Hash hash := by
  fun_induction writeSyncResponse db blobs inline t with
  | case1 => cases hok
  | case2 t hnext =>
      refine ⟨?_, fun f hf => absurd hf List.not_mem_nil⟩
      rw [Traversal.collect_eq, hnext]
      rfl
  | case3 => cases hok
  | case4 => cases hok
  | case5 t cid t' hnext hash hhash hinline body hbody ih =>
      obtain ⟨hcollect, hframes⟩ := ih hok
      refine ⟨by rw [Traversal.collect_eq, hnext]; simp only [hcollect]; rfl, ?_⟩
      exact List.forall_mem_cons.mpr ⟨⟨hash, hhash, (if_pos hinline).symm⟩, hframes⟩
  | case6 t cid t' hnext hash hhash hinline ih =>
      obtain ⟨hcollect, hframes⟩ := ih hok
      refine ⟨by rw [Traversal.collect_eq, hnext]; simp only [hcollect]; rfl, ?_⟩
      exact List.forall_mem_cons.mpr ⟨⟨hash, hhash, (if_neg hinline).symm⟩, hframes⟩

end Frames

/-- `handle_sync_request`. -/
def handleSyncRequest (opts : TraversalOpts) (inline : InlineOpts) (tables : Tables)
    (blobs : BlobStore) : Response :=
  writeSyncResponse tables blobs (getInline inline) (getTraversal opts)

/-! ## The receiver -/

/-- Where the receiver stands in `handle_sync_response`. -/
inductive Pc where
  /-- at the call of `next` -/
  | Next
  /-- at the read of the header -/
  | Header (cid : Cid)
  /-- at the read of the size and the data -/
  | Body (cid : Cid) (hash : Hash)
  /-- at the check against the hash of the cid -/
  | Verify (cid : Cid) (hash : Hash) (buffer : List UInt8)
  /-- at the call of `add_bytes` -/
  | Store (cid : Cid) (hash : Hash) (data : List UInt8)
  /-- in `insert_links`, before the first write -/
  | InsertHash (cid : Cid) (hash : Hash) (data : List UInt8)
  /-- in `insert_links`, before the second write -/
  | InsertData (cid : Cid) (hash : Hash) (links : List Cid)
  | Done (result : Except SyncError Unit)

structure Receiver where
  pc : Pc
  traversal : Traversal
  tables : Tables
  store : BlobStore
  reader : RecvStream
  yielded : List Cid
  frames : List (Cid × SyncResponseHeader)

/-- Whether the environment lets the next operation succeed. -/
inductive Turn where
  | proceeds
  | fails

namespace Receiver

/-- `handle_sync_response` at its start. -/
def start (recv : RecvStream) (tables : Tables) (store : BlobStore) (traversal : TraversalOpts) :
    Receiver :=
  ⟨.Next, getTraversal traversal, tables, store, recv, [], []⟩

/-- The call of `next`. -/
def next (self : Receiver) : Receiver :=
  match self.traversal.next self.tables with
  | .error e => { self with pc := .Done (.error e) }
  | .ok none => { self with pc := .Done (.ok ()) }
  | .ok (some (cid, traversal)) =>
      { self with pc := .Header cid, traversal, yielded := self.yielded ++ [cid] }

def readHeader (self : Receiver) (cid : Cid) : Receiver :=
  match SyncResponseHeader.fromStream self.reader with
  | .error e => { self with pc := .Done (.error e) }
  | .ok none => { self with pc := .Done (.ok ()) }
  | .ok (some (header, reader)) =>
      let frames := self.frames ++ [(cid, header)]
      match header with
      -- the hash is not trusted, and the data is not fetched by other means
      | .Hash _ => { self with pc := .Next, reader, frames }
      | .Data hash => { self with pc := .Body cid hash, reader, frames }

/-- The size of the data, and then the data itself, verified against the hash in the header. -/
def readBody (self : Receiver) (cid : Cid) (hash : Hash) : Receiver :=
  match self.reader.readExact 8 with
  | .error _ => { self with pc := .Done (.error .Read) }
  | .ok (size, reader) =>
      match Libraries.decodeRanges hash (UInt64.ofNat (Bytes.ofLeBytes size)) reader.data with
      | none => { self with pc := .Done (.error .Bao) }
      | some (buffer, n) =>
          { self with
            pc := .Verify cid hash buffer
            reader := { reader with data := reader.data.drop n } }

def verify (self : Receiver) (cid : Cid) (hash : Hash) (buffer : List UInt8) : Receiver :=
  match Libraries.code cid.hash.code with
  | none => { self with pc := .Done (.error .UnknownHashFunction) }
  | some hasher =>
      if hasher buffer ≠ cid.hash then { self with pc := .Done (.error .UserHashMismatch) }
      else { self with pc := .Store cid hash buffer }

def addBytes (self : Receiver) (cid : Cid) (hash : Hash) (data : List UInt8) : Receiver :=
  let (store, tag) := self.store.addBytes data
  if tag ≠ hash then { self with pc := .Done (.error .Blake3HashMismatch), store }
  else { self with pc := .InsertHash cid hash data, store }

/-- The first half of `insert_links`. -/
def insertHash (self : Receiver) (cid : Cid) (hash : Hash) (data : List UInt8) : Receiver :=
  match Libraries.links data with
  | none => { self with pc := .Done (.error .ExtractLinks) }
  | some links =>
      { self with pc := .InsertData cid hash links, tables := self.tables.insertHash cid hash }

/-- The second half of `insert_links`. -/
def insertData (self : Receiver) (cid : Cid) (hash : Hash) (links : List Cid) : Receiver :=
  match self.tables.insertData cid hash links with
  | (.error e, tables) => { self with pc := .Done (.error e), tables }
  | (.ok (), tables) => { self with pc := .Next, tables }

/-- The next operation of `handle_sync_response`. -/
def advance (self : Receiver) : Receiver :=
  match self.pc with
  | .Next => self.next
  | .Header cid => self.readHeader cid
  | .Body cid hash => self.readBody cid hash
  | .Verify cid hash buffer => self.verify cid hash buffer
  | .Store cid hash data => self.addBytes cid hash data
  | .InsertHash cid hash data => self.insertHash cid hash data
  | .InsertData cid hash links => self.insertData cid hash links
  | .Done _ => self

/-- One step of `handle_sync_response`. -/
def step (self : Receiver) (turn : Turn) : Option Receiver :=
  match self.pc, turn with
  | .Done _, _ => none
  | _, .fails => some { self with pc := .Done (.error .Io) }
  | _, .proceeds => some self.advance

theorem step_proceeds {self : Receiver} (h : ∀ r, self.pc ≠ .Done r) :
    step self .proceeds = some self.advance := by
  unfold step
  split
  · rename_i r hpc
    exact absurd hpc (h r)
  · rename_i hturn _
    cases hturn
  · rfl

/-- **What a step does.**  It fails and changes nothing, or it is the next operation. -/
theorem step_cases {self s : Receiver} {turn : Turn} (h : step self turn = some s) :
    s = { self with pc := .Done (.error .Io) } ∨ s = self.advance := by
  unfold step at h
  split at h
  · cases h
  · cases h
    exact .inl rfl
  · cases h
    exact .inr rfl

/-- **The two writes of the receiver are `insert_links`.** -/
theorem run_insertLinks (self : Receiver) {cid : Cid} {hash : Hash} {data : List UInt8}
    (hpc : self.pc = .InsertHash cid hash data) {tables : Tables}
    (h : self.tables.insertLinks cid hash data = (.ok (), tables)) :
    Transition.run step self (List.replicate 2 .proceeds)
      = some { self with pc := .Next, tables } := by
  have hfirst : step self .proceeds = some (self.insertHash cid hash data) := by
    rw [step_proceeds (by rw [hpc]; intro r h; cases h), advance, hpc]
  rw [Tables.insertLinks] at h
  cases hlinks : Libraries.links data with
  | none =>
      rw [hlinks] at h
      cases h
  | some links =>
      simp only [hlinks] at h
      rw [List.replicate_succ, Transition.run_cons, hfirst, Option.bind_some, insertHash, hlinks,
        List.replicate_one, Transition.run_cons, step_proceeds]
      · simp only [advance, insertData, h, Option.bind_some, Transition.run_nil]
      · intro r h
        cases h

end Receiver

end IrohExperiments.DagSync
