import IrohExperiments.DagSync.Import
import IrohExperiments.DagSync.Framing
import IrohExperiments.DagSync.Resume

/-!
# A sync over an incomplete DAG

A receiver may come to a cid whose links it cannot follow: the block is not in its tables, and it does
not come with the response, either since the frame has only a hash or since the filter rejects the cid,
so that there is no frame for it.  The traversal cannot go on below such a cid.

Up to there the receiver has inserted the block of each `Data` frame (`Receiver.Progress`).  But the
look-up of the links fails with an error, and the tables of a sync that fails are not committed.
`incomplete_iff` says when the sync ends there with what it has: only if there is no look-up after the
cid.
-/

namespace IrohExperiments.DagSync

section Incomplete

variable [Libraries]

/-! ## A cid without links -/

namespace FullTraversal

/-- The look-up comes first in a call. -/
theorem call_of_missing {t : FullTraversal} {db : Tables} {cid : Cid} {e : SyncError}
    (hprev : t.prev = some cid) (hraw : cid.codec ≠ rawCodec) (hlinks : db.links cid = .error e) :
    t.call db = (.error e, { t with prev := none }) := by
  rw [call, expand, hprev]
  simp only [if_neg hraw, hlinks]

/-- What is passed over is rejected. -/
theorem Passes.rejects {filter : TraversalFilter} {db : Tables} {t inner : FullTraversal}
    {passed : List Cid} (h : Passes filter db t passed inner) {cid : Cid} (hcid : cid ∈ passed) :
    filter.accepts cid = false := by
  induction h with
  | here => exact absurd hcid List.not_mem_nil
  | past _ hrejects _ ih =>
      rcases List.mem_cons.mp hcid with rfl | hcid
      · exact hrejects
      · exact ih hcid

/-- **A filtered call fails** if it passes over a cid whose links cannot be looked up. -/
theorem Passes.error_of_missing {filter : TraversalFilter} {db : Tables} {t inner : FullTraversal}
    {passed : List Cid} (h : Passes filter db t passed inner) {cid : Cid} (hcid : cid ∈ passed)
    (hraw : cid.codec ≠ rawCodec) {e : SyncError} (hlinks : db.links cid = .error e) :
    (t.callFiltered filter db).1 = .error e := by
  induction h with
  | here => exact absurd hcid List.not_mem_nil
  | @past t t' inner item items h hrejects _ ih =>
      have hstep : t.callFiltered filter db = t'.callFiltered filter db := by
        rw [FullTraversal.callFiltered_eq, h]
        simp only [hrejects]
        rfl
      rw [hstep]
      rcases List.mem_cons.mp hcid with rfl | hcid
      · obtain ⟨_, _, _, hprev, _⟩ := next_eq_some (next_of_call h)
        rw [FullTraversal.callFiltered_eq, call_of_missing hprev hraw hlinks]
      · exact ih hcid

end FullTraversal

namespace Traversal

/-- A call of `next` comes to the cid: it yields it or passes over it. -/
def Reaches (db : Tables) (self : Traversal) (cid : Cid) : Prop :=
  (∃ rest, self.next db = .ok (some (cid, rest))) ∨
    ∃ t passed inner, self.full = some t ∧ FullTraversal.Passes self.filter db t passed inner ∧
      cid ∈ passed

/-- **A cid that is passed over** has its links looked up in the same call. -/
theorem next_of_passed {self : Traversal} {db : Tables} {t inner : FullTraversal} {passed : List Cid}
    (hfull : self.full = some t) (h : FullTraversal.Passes self.filter db t passed inner) {cid : Cid}
    (hcid : cid ∈ passed) (hraw : cid.codec ≠ rawCodec) {e : SyncError}
    (hlinks : db.links cid = .error e) : self.next db = .error e := by
  cases self with
  | Sequence cids => cases hfull
  | Full t' => cases h.rejects hcid
  | Filtered t' filter =>
      cases hfull
      have herror := h.error_of_missing hcid hraw hlinks
      match hcall : t.callFiltered filter db with
      | (r, t') =>
          have hr : r = .error e := by
            rw [← herror]
            exact (congrArg Prod.fst hcall).symm
          rw [next, FullTraversal.nextFiltered_eq_call, hcall, hr]
          rfl

/-- **A cid that is yielded** has its links looked up in the call after that, unless the traversal
does not look at links. -/
theorem next_of_yielded {self rest : Traversal} {db : Tables} {cid : Cid}
    (h : self.next db = .ok (some (cid, rest))) (hraw : cid.codec ≠ rawCodec) {e : SyncError}
    (hlinks : db.links cid = .error e) :
    rest.next db = .error e ∨ ∃ cids, self = .Sequence (cid :: cids) ∧ rest = .Sequence cids := by
  cases self with
  | Sequence cids =>
      cases cids with
      | nil => cases h
      | cons c cids =>
          cases h
          exact .inr ⟨cids, rfl, rfl⟩
  | Full t =>
      obtain ⟨t', hnext, rfl⟩ := map_eq_some h
      obtain ⟨_, _, _, hprev, _⟩ := FullTraversal.next_eq_some hnext
      refine .inl ?_
      rw [next_eq_call, call, FullTraversal.call_of_missing hprev hraw hlinks]
      rfl
  | Filtered t filter =>
      obtain ⟨t', hnext, rfl⟩ := map_eq_some h
      obtain ⟨_, hprev, _⟩ := FullTraversal.nextFiltered_eq_some hnext
      refine .inl ?_
      rw [next_eq_call, call, FullTraversal.callFiltered_eq,
        FullTraversal.call_of_missing hprev hraw hlinks]
      rfl

end Traversal

/-! ## The progress of the receiver -/

/-- The tables come from others by inserting, for each `Data` frame of a log, a block with the cid and
the hash of the frame. -/
inductive Inserted (tables : Tables) : List (Cid × SyncResponseHeader) → Tables → Prop
  | start : Inserted tables [] tables
  | hash {frames : List (Cid × SyncResponseHeader)} {db : Tables} (h : Inserted tables frames db)
      (cid : Cid) (hash : Hash) : Inserted tables (frames ++ [(cid, .Hash hash)]) db
  | data {frames : List (Cid × SyncResponseHeader)} {db db' : Tables} (h : Inserted tables frames db)
      (b : Block) (hinsert : db.insertLinks b.cid (Libraries.tagHash b.data) b.data = (.ok (), db')) :
      Inserted tables (frames ++ [(b.cid, .Data (Libraries.tagHash b.data))]) db'

namespace Receiver

/-- All blocks that came are in the tables, except the one of the last frame. -/
def Awaits (tables : Tables) (self : Receiver) (cid : Cid) (hash : Hash) (db : Tables) : Prop :=
  ∃ frames, self.frames = frames ++ [(cid, .Data hash)] ∧ Inserted tables frames db

/-- What has been inserted when the receiver stands where it stands. -/
def Progress (tables : Tables) (self : Receiver) : Prop :=
  match self.pc with
  | .Next | .Header _ | .Done (.ok ()) => Inserted tables self.frames self.tables
  | .Body cid hash | .Verify cid hash _ => self.Awaits tables cid hash self.tables
  | .Store cid hash data => cid.Names data ∧ self.Awaits tables cid hash self.tables
  | .InsertHash cid hash data =>
      cid.Names data ∧ Libraries.tagHash data = hash ∧ self.Awaits tables cid hash self.tables
  | .InsertData cid hash links => ∃ data db, cid.Names data ∧ Libraries.tagHash data = hash ∧
      Libraries.links data = some links ∧ self.tables = db.insertHash cid hash ∧
        self.Awaits tables cid hash db
  | .Done (.error _) => True

namespace Progress

variable {tables : Tables} {self s : Receiver} {cid : Cid} {hash : Hash}

theorem next (h : Inserted tables self.frames self.tables) : self.next.Progress tables := by
  rw [Receiver.next]
  split
  · trivial
  · exact h
  · exact h

theorem readHeader (cid : Cid) (h : Inserted tables self.frames self.tables) :
    (self.readHeader cid).Progress tables := by
  rw [Receiver.readHeader]
  split
  · trivial
  · exact h
  · split
    · exact h.hash cid _
    · exact ⟨self.frames, rfl, h⟩

theorem readBody (h : self.Awaits tables cid hash self.tables) :
    (self.readBody cid hash).Progress tables := by
  rw [Receiver.readBody]
  split
  · trivial
  · split
    · trivial
    · exact h

theorem verify (buffer : List UInt8) (h : self.Awaits tables cid hash self.tables) :
    (self.verify cid hash buffer).Progress tables := by
  rw [Receiver.verify]
  split
  · trivial
  · rename_i hasher hcode
    split_ifs with hdigest
    · trivial
    · refine ⟨?_, h⟩
      rw [Cid.Names, hcode, Option.map_some, not_not.mp hdigest]

theorem addBytes {data : List UInt8} (hnames : cid.Names data)
    (h : self.Awaits tables cid hash self.tables) :
    (self.addBytes cid hash data).Progress tables := by
  rw [Receiver.addBytes, BlobStore.addBytes]
  simp only
  split_ifs with hhash
  · trivial
  · exact ⟨hnames, not_not.mp hhash, h⟩

theorem insertHash {data : List UInt8} (hnames : cid.Names data) (htag : Libraries.tagHash data = hash)
    (h : self.Awaits tables cid hash self.tables) :
    (self.insertHash cid hash data).Progress tables := by
  rw [Receiver.insertHash]
  split
  · trivial
  · rename_i links hlinks
    exact ⟨data, self.tables, hnames, htag, hlinks, rfl, h⟩

/-- The second write completes the insertion. -/
theorem insertData {links : List Cid} {data : List UInt8} {db : Tables} (hnames : cid.Names data)
    (htag : Libraries.tagHash data = hash) (hlinks : Libraries.links data = some links)
    (hdb : self.tables = db.insertHash cid hash) (h : self.Awaits tables cid hash db) :
    (self.insertData cid hash links).Progress tables := by
  obtain ⟨frames, hframes, h⟩ := h
  subst htag
  rw [Receiver.insertData]
  rcases hinsert : self.tables.insertData cid (Libraries.tagHash data) links with ⟨e | u, db'⟩
  · trivial
  · have hwhole : db.insertLinks cid (Libraries.tagHash data) data = (.ok (), db') := by
      rw [Tables.insertLinks, hlinks, ← hinsert, hdb]
    have hinserted := h.data ⟨cid, data, hnames⟩ hwhole
    simp only [← hframes] at hinserted
    exact hinserted

/-- **Every operation keeps the invariant.** -/
theorem advance (h : self.Progress tables) : self.advance.Progress tables := by
  have hself := h
  rw [Progress] at h
  rw [Receiver.advance]
  cases hpc : self.pc <;> simp only [hpc] at h ⊢
  case Next => exact next h
  case Header => exact readHeader _ h
  case Body => exact readBody h
  case Verify => exact verify _ h
  case Store => exact addBytes h.1 h.2
  case InsertHash => exact insertHash h.1 h.2.1 h.2.2
  case InsertData =>
      obtain ⟨data, db, hnames, htag, hlinks, hdb, h⟩ := h
      exact insertData hnames htag hlinks hdb h
  case Done => exact hself

theorem step {turn : Turn} (h : self.Progress tables) (hstep : Receiver.step self turn = some s) :
    s.Progress tables := by
  rcases step_cases hstep with rfl | rfl
  · trivial
  · exact h.advance

/-- **Between two cids, all blocks that came are in the tables.** -/
theorem run {recv : RecvStream} {store : BlobStore} {opts : TraversalOpts}
    (hruns : (start recv tables store opts).Runs s) : s.Progress tables := by
  obtain ⟨n, hn⟩ := hruns
  have hstart : (start recv tables store opts).Progress tables := .start
  exact Transition.run_invariant (I := Progress tables) hstart
    (fun _ _ _ hm hstep => hm.step hstep) hn

end Progress

end Receiver

/-! ## What the command commits -/

/-- The sync returns `Ok` after its traversal has yielded the cids, and the tables that the command
commits are the ones with the blocks of all `Data` frames of the log. -/
def SyncKeeps (node : Node) (opts : TraversalOpts) (recv : RecvStream) (yielded : List Cid)
    (frames : List (Cid × SyncResponseHeader)) : Prop :=
  ∃ n s, Transition.run Receiver.step (.start recv node.tables node.store opts)
      (List.replicate n .proceeds) = some s ∧
    s.pc = .Done (.ok ()) ∧ s.yielded = yielded ∧
    ∀ reader, ∃ node',
      node.step reader (.Sync opts recv (List.replicate n .proceeds) .proceeds) = some node' ∧
        Inserted node.tables frames node'.tables

namespace Receiver

/-- A traversal does not take back a cid. -/
theorem yielded_advance (self : Receiver) : self.yielded <+: self.advance.yielded := by
  have hsame : self.yielded <+: self.yielded := List.prefix_rfl
  rw [Receiver.advance]
  cases self.pc with
  | Next =>
      simp only [Receiver.next]
      split
      · exact hsame
      · exact hsame
      · exact List.prefix_append _ _
  | Header cid =>
      simp only [readHeader]
      split
      · exact hsame
      · exact hsame
      · split <;> exact hsame
  | Body cid hash =>
      simp only [readBody]
      split
      · exact hsame
      · split <;> exact hsame
  | Verify cid hash buffer =>
      simp only [verify]
      split
      · exact hsame
      · split_ifs <;> exact hsame
  | Store cid hash data =>
      simp only [addBytes]
      split_ifs <;> exact hsame
  | InsertHash cid hash data =>
      simp only [insertHash]
      split <;> exact hsame
  | InsertData cid hash links =>
      simp only [insertData]
      split <;> exact hsame
  | Done r => exact hsame

theorem Runs.yielded {self s : Receiver} (h : self.Runs s) : self.yielded <+: s.yielded := by
  obtain ⟨n, hn⟩ := h
  refine Transition.run_related (R := fun m m' : Receiver => m.yielded <+: m'.yielded)
    (fun _ => List.prefix_rfl) List.IsPrefix.trans ?_ hn
  intro m turn m' hstep
  rcases step_cases hstep with rfl | rfl
  · exact List.prefix_rfl
  · exact m.yielded_advance

variable {node : Node} {opts : TraversalOpts} {recv : RecvStream} {m s : Receiver}
  {yielded : List Cid} {frames : List (Cid × SyncResponseHeader)}

/-- **An error loses everything.** -/
theorem not_syncKeeps (hruns : (start recv node.tables node.store opts).Runs m) {e : SyncError}
    {data : List UInt8} (hend : m.EndsWith (.error e) data) :
    ¬ SyncKeeps node opts recv yielded frames := by
  rintro ⟨n, s, hrun, hdone, _⟩
  have hok : (start recv node.tables node.store opts).EndsWith (.ok ()) s.reader.data :=
    ⟨s, ⟨n, hrun⟩, hdone, rfl⟩
  obtain ⟨hresult, _⟩ := (hok.of_runs hruns).unique hend
  cases hresult

/-- **A sync that ends between two frames** commits what came before. -/
theorem syncKeeps (hruns : (start recv node.tables node.store opts).Runs m) (hpc : m.pc = .Next)
    (hm : m.Runs s) (hdone : s.pc = .Done (.ok ())) (htables : s.tables = m.tables)
    (hyielded : s.yielded = yielded) : SyncKeeps node opts recv yielded m.frames := by
  obtain ⟨n, hn⟩ := hruns.trans hm
  refine ⟨n, s, hn, hdone, hyielded, fun reader => ⟨⟨s.tables, s.store⟩, ?_, ?_⟩⟩
  · rw [Node.step, hn]
    simp only [Option.bind_eq_bind, Option.bind_some, hdone]
    rfl
  · have hprogress := Progress.run hruns
    rw [Progress, hpc] at hprogress
    rw [htables]
    exact hprogress

/-- **A frame with only a hash.**  The look-up of the links comes next, unless the traversal is a
sequence. -/
theorem syncKeeps_hash_iff (hruns : (start recv node.tables node.store opts).Runs m)
    (hpc : m.pc = .Next) {cid : Cid} {rest : Traversal}
    (hnext : m.traversal.next m.tables = .ok (some (cid, rest))) (hraw : cid.codec ≠ rawCodec)
    {e : SyncError} (hlinks : m.tables.links cid = .error e) {hash : Hash} {reader : RecvStream}
    (hread : SyncResponseHeader.fromStream m.reader = .ok (some (.Hash hash, reader))) :
    SyncKeeps node opts recv (m.yielded ++ [cid]) m.frames ↔ m.traversal = .Sequence [cid] := by
  let g : Receiver := { m with
    traversal := rest
    reader
    yielded := m.yielded ++ [cid]
    frames := m.frames ++ [(cid, .Hash hash)] }
  have hpcg : g.pc = .Next := hpc
  have hg : m.Runs g := by
    refine (runs_next hpc hnext).trans (.of_advance ?_ nofun)
    simp only [Receiver.advance, readHeader, hread, g, hpc]
  rcases Traversal.next_of_yielded hnext hraw hlinks with herror | ⟨cids, hself, hrest⟩
  · have hend : g.EndsWith (.error e) reader.data := ends_at_error hpcg herror
    refine iff_of_false (not_syncKeeps hruns (hg.endsWith hend)) fun hlast => ?_
    rw [hlast] at hnext
    cases hnext
    cases herror
  · cases cids with
    | nil =>
        have hend : g.traversal.next g.tables = .ok none := by
          simp only [g, hrest]
          rfl
        exact iff_of_true (syncKeeps hruns hpc (hg.trans (runs_end hpcg hend)) rfl rfl rfl) hself
    | cons c cids =>
        refine iff_of_false ?_ ?_
        · -- the sequence goes on, so the sync does not stop at the cid
          rintro ⟨n, s, hrun, hdone, hs, _⟩
          have hmore : g.traversal.next g.tables = .ok (some (c, .Sequence cids)) := by
            simp only [g, hrest]
            rfl
          have hlater := Runs.of_runs ⟨n, hrun⟩ hdone (hruns.trans (hg.trans (runs_next hpcg hmore)))
          have hlen := hlater.yielded.length_le
          simp [hs, g] at hlen
        · intro hlast
          rw [hself] at hlast
          cases hlast

end Receiver

/-- **Where a sync stops, and what it keeps.**  The receiver is at a call of `next` that comes to a cid
with links to follow, but its block is not in the tables, and does not come with the response.  Then the
sync stops there and commits the blocks that came before if and only if the filter accepts the cid and
no call of `next` follows that looks up its links: the response ends before the frame of the cid, or
the cid is the last one of a sequence. -/
theorem incomplete_iff {node : Node} {opts : TraversalOpts} {recv : RecvStream} {m : Receiver}
    {cid : Cid} (hruns : (Receiver.start recv node.tables node.store opts).Runs m)
    (hpc : m.pc = .Next) (hreaches : m.traversal.Reaches m.tables cid) (hraw : cid.codec ≠ rawCodec)
    (hmissing : m.tables.blake3Hash cid.hash = none)
    (hinline : m.traversal.filter.accepts cid → ∀ hash reader,
      SyncResponseHeader.fromStream m.reader ≠ .ok (some (.Data hash, reader))) :
    SyncKeeps node opts recv (m.yielded ++ [cid].filter m.traversal.filter.accepts) m.frames ↔
      m.traversal.filter.accepts cid ∧
        (SyncResponseHeader.fromStream m.reader = .ok none ∨
          (∃ hash reader, SyncResponseHeader.fromStream m.reader = .ok (some (.Hash hash, reader))) ∧
            m.traversal = .Sequence [cid]) := by
  have hlinks : m.tables.links cid = .error .Blake3HashNotFound := by
    rw [Tables.blake3Hash] at hmissing
    rw [Tables.links, hmissing]
  rcases hreaches with ⟨rest, hnext⟩ | ⟨t, passed, inner, hfull, hpasses, hcid⟩
  · -- the cid is yielded, and what happens depends on its frame
    have haccepts := (Traversal.next_eq_some hnext).accepts
    rw [List.filter_cons_of_pos haccepts, List.filter_nil]
    have hheader := Receiver.runs_next hpc hnext
    have hgoes : ∀ r, Pc.Header cid ≠ .Done r := fun r h => Pc.noConfusion h
    rcases hread : SyncResponseHeader.fromStream m.reader with e | _ | ⟨hash | hash, reader⟩
    · have hend : m.EndsWith (.error e) m.reader.data := by
        refine ⟨_, hheader.trans (.advance hgoes), ?_, ?_⟩ <;>
          simp only [Receiver.advance, Receiver.readHeader, hread]
      refine iff_of_false (Receiver.not_syncKeeps hruns hend) ?_
      rintro ⟨_, hended | ⟨⟨hash, reader, hhash⟩, _⟩⟩
      · cases hended
      · cases hhash
    · -- the end of the response is the end of the sync
      refine iff_of_true ?_ ⟨haccepts, .inl rfl⟩
      refine Receiver.syncKeeps hruns hpc (hheader.trans (.advance hgoes)) ?_ ?_ ?_ <;>
        simp only [Receiver.advance, Receiver.readHeader, hread]
    · rw [Receiver.syncKeeps_hash_iff hruns hpc hnext hraw hlinks hread]
      constructor
      · exact fun hlast => ⟨haccepts, .inr ⟨⟨hash, reader, rfl⟩, hlast⟩⟩
      · rintro ⟨_, hended | ⟨_, hlast⟩⟩
        · cases hended
        · exact hlast
    · exact absurd hread (hinline haccepts hash reader)
  · -- the cid is passed over, so the look-up comes in the same call
    have hend := Receiver.ends_at_error hpc
      (Traversal.next_of_passed hfull hpasses hcid hraw hlinks)
    refine iff_of_false (Receiver.not_syncKeeps hruns hend) ?_
    rintro ⟨haccepts, _⟩
    rw [hpasses.rejects hcid] at haccepts
    cases haccepts

/-- A sender that has no block for the cid ends its response there. -/
theorem writeSyncResponse_missing {db : Tables} {blobs : BlobStore} {inline : Cid → Bool}
    {t t' : Traversal} {cid : Cid} (h : t.next db = .ok (some (cid, t')))
    (hhash : db.blake3Hash cid.hash = none) :
    writeSyncResponse db blobs inline t = ⟨[], [], .error .Blake3HashNotFound⟩ := by
  rw [writeSyncResponse]
  split <;> rename_i hnext <;> rw [h] at hnext <;> cases hnext
  simp only [hhash]

end Incomplete

section Runs

namespace Libraries

/-- A node that is not raw, with the data `[5]`. -/
def stem : Cid := { leaf with codec := 0x70 }

/-- The example libraries, but with `[1]` for the encoding of a link to `stem`. -/
@[reducible] def chain : Libraries :=
  { toy with
    links := fun data => if data = [1] then some [stem] else some []
    toVec := fun links => if links = [stem] then some [1] else none
    fromSlice := fun v => if v = [1] then some [stem] else none }

end Libraries

attribute [local instance] Libraries.chain

open Libraries (root stem padded)

theorem Libraries.chain_laws : Libraries.Laws {[1], [5]} where
  blake3_injOn := @Laws.blake3_injOn toy _ toy_laws
  hasher_injOn := @Laws.hasher_injOn toy _ toy_laws
  tagHash_eq := @Laws.tagHash_eq toy _ toy_laws
  decodeRanges_exportBao := @Laws.decodeRanges_exportBao toy _ toy_laws
  fromSlice_toVec links v h := by
    obtain ⟨hlinks, hv⟩ := Option.ite_none_right_eq_some.mp h
    cases hv
    exact hlinks ▸ if_pos rfl

namespace Incomplete

/-- Everything under the root, with blocks of the codec of `stem` not inline. -/
def opts : TraversalOpts := .Full ⟨root, none, none, none⟩

def inline : InlineOpts := .Excude {0x70}

def rootBlock : Block := ⟨root, [1], by decide +kernel⟩

/-- The tables of a node that has the root only. -/
def rootOnly : Tables := (Tables.empty.insertLinks root (padded [1]) [1]).2

/-- The tables of a node that has both blocks. -/
def both : Tables := (rootOnly.insertLinks stem (padded [5]) [5]).2

/-- The receiver after the frame of the root. -/
def afterRoot (rest : List UInt8) : Receiver where
  pc := .Next
  traversal := .Full ⟨some root, [], {root}⟩
  tables := rootOnly
  store := ⟨[[1]]⟩
  reader := ⟨rest, false⟩
  yielded := [root]
  frames := [(root, .Data (padded [1]))]

/-- The frame of the root, and then the rest of the response. -/
def rootFrame (rest : List UInt8) : List UInt8 :=
  (SyncResponseHeader.Data (padded [1])).asBytes ++ (Libraries.exportBao [1] ++ rest)

theorem runs_rootFrame (rest : List UInt8) :
    (Receiver.start ⟨rootFrame rest, false⟩ Node.init.tables Node.init.store opts).Runs
      (afterRoot rest) := by
  have hinsert : Tables.empty.insertLinks root (padded [1]) [1] = (.ok (), rootOnly) := rfl
  exact Receiver.runs_data_frame Libraries.chain_laws rfl (b := rootBlock) (.inl rfl) rfl rfl hinsert

theorem next_afterRoot : (Traversal.Full ⟨some root, [], {root}⟩).next rootOnly
    = .ok (some (stem, .Full ⟨some stem, [], {stem, root}⟩)) := by
  rfl

/-- The call of `next` that comes to `stem`. -/
theorem reaches_stem (rest : List UInt8) :
    (afterRoot rest).traversal.Reaches (afterRoot rest).tables stem := .inl ⟨_, next_afterRoot⟩

theorem blake3Hash_stem : rootOnly.blake3Hash stem.hash = none := by decide +kernel

/-- The sender has no block for `stem` either, and the response ends where the receiver needs it. -/
theorem root_kept :
    SyncKeeps Node.init opts ⟨(handleSyncRequest opts inline rootOnly ⟨[[1]]⟩).bytes, false⟩
      [root, stem] [(root, .Data (padded [1]))] := by
  have hstart : (getTraversal opts).next rootOnly
      = .ok (some (root, .Full ⟨some root, [], {root}⟩)) := rfl
  have hbytes : (handleSyncRequest opts inline rootOnly ⟨[[1]]⟩).bytes = rootFrame [] := by
    rw [handleSyncRequest, writeSyncResponse_data hstart rfl (by decide +kernel) rfl,
      writeSyncResponse_missing next_afterRoot blake3Hash_stem]
    rfl
  have hended : SyncResponseHeader.fromStream (afterRoot []).reader = .ok none := rfl
  rw [hbytes]
  refine (incomplete_iff (runs_rootFrame []) rfl (reaches_stem []) (by decide) blake3Hash_stem ?_).mpr
    ⟨rfl, .inl hended⟩
  intro _ hash reader hread
  rw [hended] at hread
  cases hread

/-- **The sync does not stop at the root.**  The sender has both blocks, and its response is complete,
but nothing is inline.  The receiver has no data, takes the hash of the root, and then fails in the
look-up of its links. -/
theorem root_not_inline :
    let response := handleSyncRequest opts .None both ⟨[[1], [5]]⟩
    let m := Receiver.start ⟨response.bytes, false⟩ Node.init.tables Node.init.store opts
    response.result = .ok () ∧ m.traversal.Reaches m.tables root ∧ root.codec ≠ rawCodec ∧
      m.tables.blake3Hash root.hash = none ∧
      (∃ hash reader, SyncResponseHeader.fromStream m.reader = .ok (some (.Hash hash, reader))) ∧
      m.EndsWith (.error .Blake3HashNotFound) (SyncResponseHeader.Hash (padded [5])).asBytes ∧
      ¬ SyncKeeps Node.init opts ⟨response.bytes, false⟩ [root] [] := by
  have hstart : ∀ db, (getTraversal opts).next db
      = .ok (some (root, .Full ⟨some root, [], {root}⟩)) := fun _ => rfl
  have hnext : (Traversal.Full ⟨some root, [], {root}⟩).next both
      = .ok (some (stem, .Full ⟨some stem, [], {stem, root}⟩)) := by rfl
  have hend : (Traversal.Full ⟨some stem, [], {stem, root}⟩).next both = .ok none := by rfl
  let rest : List UInt8 := (SyncResponseHeader.Hash (padded [5])).asBytes
  have hresponse : handleSyncRequest opts .None both ⟨[[1], [5]]⟩
      = ⟨[(root, .Hash (padded [1])), (stem, .Hash (padded [5]))],
        (SyncResponseHeader.Hash (padded [1])).asBytes ++ rest, .ok ()⟩ := by
    rw [handleSyncRequest, writeSyncResponse_hash (hstart both) rfl (by decide),
      writeSyncResponse_hash hnext rfl (by decide), writeSyncResponse_end hend]
    rfl
  have hread := SyncResponseHeader.fromStream_asBytes (.Hash (padded [1])) rest false
  -- the look-up comes before the second frame is read
  have hlost : (Receiver.start ⟨(SyncResponseHeader.Hash (padded [1])).asBytes ++ rest, false⟩
      Node.init.tables Node.init.store opts).EndsWith (.error .Blake3HashNotFound) rest :=
    (Receiver.runs_hash_frame rfl (hstart _) rfl).endsWith (Receiver.ends_at_error rfl rfl)
  rw [hresponse]
  exact ⟨rfl, .inl ⟨_, hstart _⟩, by decide, rfl, ⟨_, _, hread⟩, hlost,
    Receiver.not_syncKeeps (.refl _) hlost⟩

end Incomplete

end Runs

end IrohExperiments.DagSync
