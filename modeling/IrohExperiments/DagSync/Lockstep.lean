import IrohExperiments.DagSync.Sync

/-!
# Sender and receiver in lockstep

A frame does not say which cid it is for.  The receiver takes the k-th frame to be for the k-th cid
of its own traversal, and that traversal runs over other tables than the one of the sender: over
what the receiver had before and what the frames so far have added.

Two honest nodes stay in lockstep as long as the receiver has, whenever it looks up the links of a
cid, the block of the cid.  It looks up the links of every cid but the raw ones, also of those that
its filter rejects; so such a cid has to be there from the start, or pass the filter and be sent
inline.  A cid that is sent inline is looked up only after its block was inserted: that is what the
deferred look-up is for.

`Lockstep` is the simulation relation.  It holds between two calls of `next`, and says that both
sides are at the same state of the traversal, although over different tables.
-/

namespace IrohExperiments.DagSync

section Lockstep

variable [Libraries]

/-- The block of a cid is among the blocks. -/
def Holds (blocks : List Block) (cid : Cid) : Prop := ∃ b ∈ blocks, b.cid = cid

/-! ## Tables with blocks in common -/

/-- An insertion succeeds if the links can be extracted, and encoded if there are any. -/
theorem Tables.exists_insertLinks (self : Tables) (cid : Cid) (hash : Hash) {data : List UInt8}
    (h : ∃ links, Libraries.links data = some links ∧
      (links = [] ∨ ∃ v, Libraries.toVec links = some v)) :
    ∃ tables, self.insertLinks cid hash data = (.ok (), tables) := by
  obtain ⟨links, hlinks, hv⟩ := h
  rw [insertLinks, hlinks]
  simp only
  rcases (self.insertHash cid hash).insertData_cases cid hash links with
    ⟨_, heq⟩ | ⟨hne, hnone, _⟩ | ⟨v, _, _, heq⟩
  · exact ⟨_, heq⟩
  · rcases hv with hnil | ⟨v, hv⟩
    · exact absurd hnil hne
    · rw [hv] at hnone
      cases hnone
  · exact ⟨_, heq⟩

/-- Tables that both hold the block of a cid have the same links for it. -/
theorem Tables.Reflects.sameLinks {S : Set (List UInt8)} (laws : Libraries.Laws S)
    {blocks blocks' : List Block} {tables tables' : Tables} (h : tables.Reflects S blocks)
    (h' : tables'.Reflects S blocks') (hS : ∀ b ∈ blocks, b.data ∈ S)
    (hS' : ∀ b ∈ blocks', b.data ∈ S) {cid : Cid} (hcid : Holds blocks cid)
    (hcid' : Holds blocks' cid) : SameLinks tables tables' cid := by
  obtain ⟨b, hb, rfl⟩ := hcid
  obtain ⟨b', hb', heq⟩ := hcid'
  have hdata : b.data = b'.data :=
    b.names.unique laws (hS b hb) (hS' b' hb') (heq ▸ b'.names)
  refine ⟨b.children, h.links_eq laws hb, ?_⟩
  rw [← heq, h'.links_eq laws hb', Block.children, Block.children, hdata]

/-! ## Runs of the receiver in which nothing fails -/

namespace Receiver

def Runs (self s : Receiver) : Prop :=
  ∃ n, Transition.run step self (List.replicate n .proceeds) = some s

theorem Runs.refl (self : Receiver) : self.Runs self := ⟨0, rfl⟩

theorem Runs.trans {self m s : Receiver} (h : self.Runs m) (h' : m.Runs s) : self.Runs s := by
  obtain ⟨n, hn⟩ := h
  obtain ⟨n', hn'⟩ := h'
  refine ⟨n + n', ?_⟩
  rw [List.replicate_add, Transition.run_append, hn]
  exact hn'

theorem Runs.advance {self : Receiver} (h : ∀ r, self.pc ≠ .Done r) : self.Runs self.advance :=
  ⟨1, by rw [List.replicate_one, Transition.run_cons, step_proceeds h]; rfl⟩

/-- The run of an operation, with its position and its outcome as equations. -/
theorem Runs.of_advance {self s : Receiver} (heq : self.advance = s) (h : ∀ r, self.pc ≠ .Done r) :
    self.Runs s := heq ▸ .advance h

/-- At a cid of its traversal the receiver gets to the header. -/
theorem runs_next {self : Receiver} (hpc : self.pc = .Next) {cid : Cid} {t : Traversal}
    (hnext : self.traversal.next self.tables = .ok (some (cid, t))) :
    self.Runs { self with pc := .Header cid, traversal := t, yielded := self.yielded ++ [cid] } := by
  refine .of_advance ?_ (by rw [hpc]; nofun)
  rw [Receiver.advance, hpc]
  simp only [Receiver.next, hnext]

/-- At the end of its traversal the receiver returns. -/
theorem runs_end {self : Receiver} (hpc : self.pc = .Next)
    (hnext : self.traversal.next self.tables = .ok none) :
    self.Runs { self with pc := .Done (.ok ()) } := by
  refine .of_advance ?_ (by rw [hpc]; nofun)
  rw [Receiver.advance, hpc]
  simp only [Receiver.next, hnext]

/-- **The receiver reads a `Hash` frame.** -/
theorem runs_hash_frame {self : Receiver} (hpc : self.pc = .Next) {cid : Cid} {t : Traversal}
    (hnext : self.traversal.next self.tables = .ok (some (cid, t))) {hash : Hash}
    {rest : List UInt8}
    (hreader : self.reader = ⟨(SyncResponseHeader.Hash hash).asBytes ++ rest, false⟩) :
    self.Runs
      { self with
        traversal := t
        reader := ⟨rest, false⟩
        yielded := self.yielded ++ [cid]
        frames := self.frames ++ [(cid, .Hash hash)] } := by
  refine (runs_next hpc hnext).trans (.of_advance ?_ nofun)
  simp only [Receiver.advance, readHeader, hreader, SyncResponseHeader.fromStream_asBytes, hpc]

theorem runs_data_header {self : Receiver} {cid : Cid} (hpc : self.pc = .Header cid) {hash : Hash}
    {rest : List UInt8}
    (hreader : self.reader = ⟨(SyncResponseHeader.Data hash).asBytes ++ rest, false⟩) :
    self.Runs
      { self with
        pc := .Body cid hash
        reader := ⟨rest, false⟩
        frames := self.frames ++ [(cid, .Data hash)] } := by
  refine .of_advance ?_ (by rw [hpc]; nofun)
  rw [Receiver.advance, hpc]
  simp only [readHeader, hreader, SyncResponseHeader.fromStream_asBytes]

theorem runs_body {S : Set (List UInt8)} (laws : Libraries.Laws S) {self : Receiver} {cid : Cid}
    {data : List UInt8} (hpc : self.pc = .Body cid (Libraries.blake3 data)) (hdata : data ∈ S)
    {rest : List UInt8} (hreader : self.reader = ⟨Libraries.exportBao data ++ rest, false⟩) :
    self.Runs
      { self with
        pc := .Verify cid (Libraries.blake3 data) data
        reader := ⟨rest, false⟩ } := by
  obtain ⟨size, body, hexport, hsize, hdecode⟩ := laws.decodeRanges_exportBao data hdata rest
  have hread := RecvStream.readExact_append (Bytes.leBytes 8 size) (body ++ rest) false
  rw [Bytes.leBytes_length] at hread
  have hlt : size < 256 ^ 8 := hsize.trans_eq (by norm_num)
  refine .of_advance ?_ (by rw [hpc]; nofun)
  rw [Receiver.advance, hpc]
  simp only [readBody, hreader, hexport, List.append_assoc, hread, Bytes.ofLeBytes_leBytes,
    Nat.mod_eq_of_lt hlt, hdecode, List.drop_left]

/-- The check against the cid. -/
theorem runs_verify {self : Receiver} {b : Block} {hash : Hash}
    (hpc : self.pc = .Verify b.cid hash b.data) :
    self.Runs { self with pc := .Store b.cid hash b.data } := by
  obtain ⟨hasher, hcode, hdigest⟩ := Option.map_eq_some_iff.mp b.names
  refine .of_advance ?_ (by rw [hpc]; nofun)
  rw [Receiver.advance, hpc]
  simp only [verify, hcode, hdigest, ne_eq, not_true_eq_false, if_false]

/-- The check against the hash in the header. -/
theorem runs_store {S : Set (List UInt8)} (laws : Libraries.Laws S) {self : Receiver} {cid : Cid}
    {data : List UInt8} (hpc : self.pc = .Store cid (Libraries.blake3 data) data)
    (hdata : data ∈ S) :
    self.Runs
      { self with
        pc := .InsertHash cid (Libraries.blake3 data) data
        store := ⟨data :: self.store.blobs⟩ } := by
  refine .of_advance ?_ (by rw [hpc]; nofun)
  rw [Receiver.advance, hpc]
  simp only [addBytes, BlobStore.addBytes, laws.tagHash_eq data hdata, ne_eq, not_true_eq_false,
    if_false]

/-- **The receiver reads a `Data` frame.**  It ends up with the block inserted, and with the rest of
the stream. -/
theorem runs_data_frame {S : Set (List UInt8)} (laws : Libraries.Laws S) {self : Receiver}
    (hpc : self.pc = .Next) {b : Block} (hb : b.data ∈ S) {t : Traversal}
    (hnext : self.traversal.next self.tables = .ok (some (b.cid, t))) {rest : List UInt8}
    (hreader : self.reader =
      ⟨(SyncResponseHeader.Data (Libraries.blake3 b.data)).asBytes ++
        (Libraries.exportBao b.data ++ rest), false⟩)
    {tables : Tables}
    (hinsert : self.tables.insertLinks b.cid (Libraries.blake3 b.data) b.data = (.ok (), tables)) :
    self.Runs
      { pc := .Next
        traversal := t
        tables
        store := ⟨b.data :: self.store.blobs⟩
        reader := ⟨rest, false⟩
        yielded := self.yielded ++ [b.cid]
        frames := self.frames ++ [(b.cid, .Data (Libraries.blake3 b.data))] } := by
  obtain ⟨_, _, _, _, _, _, _⟩ := self
  simp only at hpc hreader
  subst hpc hreader
  refine (runs_next rfl hnext).trans ?_
  refine (runs_data_header rfl rfl).trans ?_
  refine (runs_body laws rfl hb rfl).trans ?_
  refine (runs_verify rfl).trans ?_
  refine (runs_store laws rfl hb).trans ?_
  exact ⟨2, run_insertLinks _ rfl hinsert⟩

end Receiver

/-! ## The simulation -/

/-- Between two calls of `next`, with a traversal in the same state on both sides.  The sender has
its `blocks`, and the receiver has inserted `blocks'` so far. -/
structure Lockstep (S : Set (List UInt8)) (inline : Cid → Bool) (blocks : List Block)
    (sender : Tables) (t : Traversal) (blocks' : List Block) (receiver : Tables) : Prop where
  reflects : receiver.Reflects S blocks'
  data_mem : ∀ b ∈ blocks', b.data ∈ S
  prev_sender : ∀ cid, t.prev = some cid → Holds blocks cid
  prev_receiver : ∀ cid, t.prev = some cid → cid.codec ≠ rawCodec → Holds blocks' cid
  held : ∀ cid, t.unfiltered.Yields sender cid → Holds blocks cid
  covered : t.followsLinks → ∀ cid, t.unfiltered.Yields sender cid → cid.codec ≠ rawCodec →
    Holds blocks' cid ∨ t.filter.accepts cid ∧ inline cid

/-- What the receiver has reached, from `s` on, when it got through a response. -/
structure Completed (S : Set (List UInt8)) (inline : Cid → Bool) (blocks : List Block)
    (response : Response) (s : Receiver) (blocks' : List Block) (s' : Receiver) : Prop where
  runs : s.Runs s'
  returns : s'.pc = .Done (.ok ())
  frames : s'.frames = s.frames ++ response.frames
  consumed : s'.reader.data = []
  reflects : s'.tables.Reflects S blocks'
  inserted : ∀ f ∈ response.frames, inline f.1 → ∃ b ∈ blocks, b.cid = f.1 ∧ b ∈ blocks'

section Simulation

variable {S : Set (List UInt8)} {inline : Cid → Bool} {blocks blocks' : List Block}
  {sender receiver : Tables} {blobs : BlobStore} {t rest : Traversal} {cid : Cid}

/-- **In lockstep, both sides find the same cid next.** -/
theorem Lockstep.next (laws : Libraries.Laws S) (hsender : sender.Reflects S blocks)
    (hS : ∀ b ∈ blocks, b.data ∈ S) (h : Lockstep S inline blocks sender t blocks' receiver) :
    ∃ r, t.next sender = .ok r ∧ t.next receiver = .ok r := by
  have hsame : ∀ cid, Holds blocks cid → Holds blocks' cid → SameLinks sender receiver cid :=
    fun cid hcid hcid' => hsender.sameLinks laws h.reflects hS h.data_mem hcid hcid'
  refine Traversal.next_congr (fun cid hcid hraw => ?_) (fun cid hcid hraw hrejected => ?_)
  · exact hsame cid (h.prev_sender cid hcid) (h.prev_receiver cid hcid hraw)
  · -- only a traversal with a filter rejects anything
    have hfollows : t.followsLinks := by
      cases t with
      | Sequence cids => cases hrejected
      | Full inner => rfl
      | Filtered inner filter => rfl
    rcases h.covered hfollows cid hcid hraw with hcid' | ⟨haccepts, _⟩
    · exact hsame cid (h.held cid hcid) hcid'
    · rw [hrejected] at haccepts
      cases haccepts

/-- **A frame keeps the two sides in lockstep**, if the receiver inserts the block of a cid that is
sent inline. -/
theorem Lockstep.frame (h : Lockstep S inline blocks sender t blocks' receiver)
    (hleaves : t.Leaves sender cid rest) {blocks'' : List Block} {receiver' : Tables}
    (hreflects : receiver'.Reflects S blocks'') (hdata : ∀ b ∈ blocks'', b.data ∈ S)
    (hkept : ∀ b ∈ blocks', b ∈ blocks'') (hinserted : inline cid → Holds blocks'' cid) :
    Lockstep S inline blocks sender rest blocks'' receiver' := by
  have hholds : ∀ c, Holds blocks' c → Holds blocks'' c := fun c ⟨b, hb, heq⟩ => ⟨b, hkept b hb, heq⟩
  exact
    { reflects := hreflects
      data_mem := hdata
      prev_sender := fun c hc => by
        obtain ⟨rfl, _⟩ := hleaves.prev_eq c hc
        exact h.held c hleaves.yields
      prev_receiver := fun c hc hraw => by
        obtain ⟨rfl, hfollows⟩ := hleaves.prev_eq c hc
        rcases h.covered hfollows c hleaves.yields hraw with hold | ⟨_, hinline⟩
        · exact hholds c hold
        · exact hinserted hinline
      held := fun c hc => h.held c (hleaves.later c hc)
      covered := fun hfollows c hc hraw => by
        rw [hleaves.followsLinks_eq] at hfollows
        rw [hleaves.filter_eq]
        exact (h.covered hfollows c (hleaves.later c hc) hraw).imp_left (hholds c) }

/-- A response with one frame more in front. -/
theorem Completed.after {response : Response} {s m s' : Receiver} {header : SyncResponseHeader}
    {body : List UInt8} (h : Completed S inline blocks response m blocks' s') (hruns : s.Runs m)
    (hframes : m.frames = s.frames ++ [(cid, header)])
    (hinserted : inline cid → ∃ b ∈ blocks, b.cid = cid ∧ b ∈ blocks') :
    Completed S inline blocks (response.after cid header body) s blocks' s' where
  runs := hruns.trans h.runs
  returns := h.returns
  frames := by rw [h.frames, hframes, List.append_assoc]; rfl
  consumed := h.consumed
  reflects := h.reflects
  inserted f hf hinline := by
    rcases List.mem_cons.mp hf with rfl | hf
    · exact hinserted hinline
    · exact h.inserted f hf hinline

/-- **From lockstep on, the receiver gets through the response.** -/
theorem Lockstep.complete (laws : Libraries.Laws S) (hsender : sender.Reflects S blocks)
    (hS : ∀ b ∈ blocks, b.data ∈ S)
    (hblobs : ∀ b ∈ blocks, blobs.get (Libraries.blake3 b.data) = some b.data) (s : Receiver)
    (h : Lockstep S inline blocks sender s.traversal blocks' s.tables) (hpc : s.pc = .Next)
    (hreader : s.reader = ⟨(writeSyncResponse sender blobs inline s.traversal).bytes, false⟩) :
    (writeSyncResponse sender blobs inline s.traversal).result = .ok () ∧
      ∃ blocks'' s', (∀ b ∈ blocks', b ∈ blocks'') ∧
        Completed S inline blocks (writeSyncResponse sender blobs inline s.traversal) s
          blocks'' s' := by
  -- over its own tables, which do not change, the traversal of the sender ends
  induction hn : s.traversal.remaining sender using Nat.strong_induction_on
    generalizing s blocks' with
  | _ n ih =>
      obtain ⟨r, hnext, hnext'⟩ := h.next laws hsender hS
      rcases r with _ | ⟨cid, rest⟩
      · rw [writeSyncResponse_end hnext] at hreader ⊢
        exact ⟨rfl, blocks', _, fun b hb => hb,
          { runs := Receiver.runs_end hpc hnext'
            returns := rfl
            frames := (List.append_nil _).symm
            consumed := by rw [hreader]
            reflects := h.reflects
            inserted := fun f hf => absurd hf List.not_mem_nil }⟩
      · have hlt := Traversal.remaining_lt hnext
        have hleaves := Traversal.next_eq_some hnext
        obtain ⟨b, hb, rfl⟩ := h.held cid hleaves.yields
        have hhash : sender.blake3Hash b.cid.hash = some (Libraries.blake3 b.data) :=
          hsender.hash_row b hb
        by_cases hinline : inline b.cid
        · have hbody : blobs.exportBao (Libraries.blake3 b.data)
              = some (Libraries.exportBao b.data) := by
            rw [BlobStore.exportBao, hblobs b hb, Option.map_some]
          rw [writeSyncResponse_data hnext hhash hinline hbody] at hreader ⊢
          obtain ⟨tables, hinsert⟩ := s.tables.exists_insertLinks b.cid (Libraries.blake3 b.data)
            (hsender.extracts b hb)
          let m : Receiver :=
            { pc := .Next
              traversal := rest
              tables
              store := ⟨b.data :: s.store.blobs⟩
              reader := ⟨(writeSyncResponse sender blobs inline rest).bytes, false⟩
              yielded := s.yielded ++ [b.cid]
              frames := s.frames ++ [(b.cid, .Data (Libraries.blake3 b.data))] }
          have hruns : s.Runs m :=
            Receiver.runs_data_frame laws hpc (hS b hb) hnext' hreader hinsert
          have hlock : Lockstep S inline blocks sender rest (b :: blocks') tables :=
            h.frame hleaves (h.reflects.insert laws h.data_mem (hS b hb) hinsert)
              (List.forall_mem_cons.mpr ⟨hS b hb, h.data_mem⟩)
              (fun c hc => List.mem_cons_of_mem _ hc) (fun _ => ⟨b, List.mem_cons_self, rfl⟩)
          obtain ⟨hok, blocks'', s', hkept, hcompleted⟩ := ih _ (hn ▸ hlt) m hlock rfl rfl rfl
          exact ⟨hok, blocks'', s', fun c hc => hkept c (List.mem_cons_of_mem _ hc),
            hcompleted.after hruns rfl fun _ => ⟨b, hb, rfl, hkept b List.mem_cons_self⟩⟩
        · rw [writeSyncResponse_hash hnext hhash hinline] at hreader ⊢
          let m : Receiver :=
            { s with
              traversal := rest
              reader := ⟨(writeSyncResponse sender blobs inline rest).bytes, false⟩
              yielded := s.yielded ++ [b.cid]
              frames := s.frames ++ [(b.cid, .Hash (Libraries.blake3 b.data))] }
          have hruns : s.Runs m := Receiver.runs_hash_frame hpc hnext' hreader
          have hlock : Lockstep S inline blocks sender rest blocks' s.tables :=
            h.frame hleaves h.reflects h.data_mem (fun c hc => hc) fun hi => absurd hi hinline
          obtain ⟨hok, blocks'', s', hkept, hcompleted⟩ := ih _ (hn ▸ hlt) m hlock hpc rfl rfl
          exact ⟨hok, blocks'', s', hkept,
            hcompleted.after hruns rfl fun hi => absurd hi hinline⟩

end Simulation

/-- **Two honest nodes stay in lockstep.**  The tables of both are built by inserting blocks, and the
sender has the block of every cid that its traversal, without the filter, yields.  For a full
traversal, each of these cids that is not raw is one whose block the receiver has, or one that
passes the filter and is sent inline.

Then the sender writes a frame for each cid of its traversal, with the data of those that are inline, and the
receiver gets through what the sender wrote: it returns `Ok`, takes each frame to be for the cid that the
sender wrote it for, leaves nothing of the stream, and has the blake3 hash and the links of every cid of the
traversal that is inline. -/
theorem sync_lockstep {S : Set (List UInt8)} (laws : Libraries.Laws S)
    {blocks blocks' : List Block} {sender receiver : Tables} {blobs store : BlobStore}
    (hsender : Built blocks sender) (hreceiver : Built blocks' receiver)
    (hblobs : ∀ b ∈ blocks, b.data ∈ blobs.blobs) (hS : ∀ d ∈ blobs.blobs, d ∈ S)
    (hS' : ∀ b ∈ blocks', b.data ∈ S) (opts : TraversalOpts) (inline : InlineOpts)
    (hheld : ∀ cid, opts.unfiltered.Yields sender cid → Holds blocks cid)
    (hcovered : ∀ o, opts = .Full o → ∀ cid, opts.unfiltered.Yields sender cid →
      cid.codec ≠ rawCodec →
        Holds blocks' cid ∨ opts.filter.accepts cid ∧ getInline inline cid) :
    let response := handleSyncRequest opts inline sender blobs
    response.result = .ok () ∧
      ∃ cids, (getTraversal opts).collect sender = .ok cids ∧ response.frames.map Prod.fst = cids ∧
        (∀ f ∈ response.frames, ∃ hash, sender.blake3Hash f.1.hash = some hash ∧
          f.2 = if getInline inline f.1 then .Data hash else .Hash hash) ∧
        ∃ n s, Transition.run Receiver.step (.start ⟨response.bytes, false⟩ receiver store opts)
            (List.replicate n .proceeds) = some s ∧
          s.pc = .Done (.ok ()) ∧ s.frames = response.frames ∧ s.reader.data = [] ∧
          ∀ cid ∈ cids, getInline inline cid → ∃ b ∈ blocks, b.cid = cid ∧
            s.tables.blake3Hash cid.hash = some (Libraries.blake3 b.data) ∧
            s.tables.links cid = .ok b.children := by
  have hdata : ∀ b ∈ blocks, b.data ∈ S := fun b hb => hS b.data (hblobs b hb)
  have hstart : Lockstep S (getInline inline) blocks sender (getTraversal opts) blocks' receiver :=
    { reflects := hreceiver.reflects laws hS'
      data_mem := hS'
      prev_sender := fun cid hcid => by
        rw [getTraversal_prev] at hcid
        cases hcid
      prev_receiver := fun cid hcid => by
        rw [getTraversal_prev] at hcid
        cases hcid
      held := fun cid hcid => hheld cid (getTraversal_unfiltered opts ▸ hcid)
      covered := fun hfollows cid hcid hraw => by
        rw [getTraversal_unfiltered] at hcid
        rw [getTraversal_filter]
        cases opts with
        | Sequence cids => cases hfollows
        | Full o => exact hcovered o rfl cid hcid hraw }
  obtain ⟨hok, blocks'', s, _, hcompleted⟩ := hstart.complete laws (hsender.reflects laws hdata)
    hdata (fun b hb => BlobStore.get_eq laws hS (hblobs b hb))
    (.start ⟨(handleSyncRequest opts inline sender blobs).bytes, false⟩ receiver store opts) rfl rfl
  obtain ⟨n, hn⟩ := hcompleted.runs
  obtain ⟨hcollect, hframes⟩ := frames_of_response hok
  refine ⟨hok, _, hcollect, rfl, hframes, n, s, hn, hcompleted.returns, hcompleted.frames,
    hcompleted.consumed, fun cid hcid hinline => ?_⟩
  obtain ⟨f, hf, rfl⟩ := List.mem_map.mp hcid
  obtain ⟨b, hb, heq, hb'⟩ := hcompleted.inserted f hf hinline
  refine ⟨b, hb, heq, ?_, ?_⟩
  · rw [← heq]
    exact hcompleted.reflects.hash_row b hb'
  · rw [← heq]
    exact hcompleted.reflects.links_eq laws hb'

end Lockstep

section Runs

attribute [local instance] Libraries.toy

namespace Libraries

/-- The example libraries obey the laws for the data of the two example nodes. -/
theorem toy_laws : Laws {[1], [5]} where
  blake3_injOn := padded_injOn
  hasher_injOn c hasher hcode d hd d' hd' heq := by
    obtain ⟨_, h⟩ := Option.ite_none_right_eq_some.mp hcode
    cases h
    exact padded_injOn hd hd' (List.Vector.toList_injective (Multihash.mk.inj heq).2)
  tagHash_eq _ _ := rfl
  fromSlice_toVec links v h := by
    obtain ⟨hlinks, hv⟩ := Option.ite_none_right_eq_some.mp h
    cases hv
    exact hlinks ▸ if_pos rfl
  decodeRanges_exportBao d hd rest := by
    have hlen : d.length < 2 ^ 64 := by
      rcases hd with rfl | rfl <;> decide
    refine ⟨d.length, d, rfl, hlen, ?_⟩
    have hsize : (UInt64.ofNat d.length).toNat = d.length := UInt64.toNat_ofNat_of_lt' hlen
    simp only [decodeRanges, hsize, List.take_left, List.length_append, Nat.le_add_right, blake3,
      and_self, if_true]

end Libraries

/-- The node with the data `[5]`, which is raw. -/
def leafBlock : Block := ⟨Libraries.leaf, [5], by decide +kernel⟩

/-- The node with the data `[1]`, which has a link to the other one. -/
def rootBlock : Block := ⟨Libraries.root, [1], by decide +kernel⟩

/-- Tables with both nodes. -/
def twoNodes : Tables :=
  ((Tables.empty.insertLinks leafBlock.cid (Libraries.blake3 leafBlock.data) leafBlock.data).2
    |>.insertLinks rootBlock.cid (Libraries.blake3 rootBlock.data) rootBlock.data).2

theorem twoNodes_built : Built [rootBlock, leafBlock] twoNodes :=
  .insert rootBlock (.insert leafBlock .empty (Prod.ext rfl rfl)) (Prod.ext rfl rfl)

/-- A receiver without data asks for the DAG, with the root inline and the leaf as a hash. -/
theorem sync_lockstep_twoNodes :
    let opts : TraversalOpts := .Full ⟨Libraries.root, none, none, none⟩
    let response := handleSyncRequest opts .NoRaw twoNodes ⟨[[1], [5]]⟩
    response.result = .ok () ∧
      ∃ cids, (getTraversal opts).collect twoNodes = .ok cids ∧ response.frames.map Prod.fst = cids ∧
        (∀ f ∈ response.frames, ∃ hash, twoNodes.blake3Hash f.1.hash = some hash ∧
          f.2 = if getInline .NoRaw f.1 then .Data hash else .Hash hash) ∧
        ∃ n s, Transition.run Receiver.step (.start ⟨response.bytes, false⟩ .empty ⟨[]⟩ opts)
            (List.replicate n .proceeds) = some s ∧
          s.pc = .Done (.ok ()) ∧ s.frames = response.frames ∧ s.reader.data = [] ∧
          ∀ cid ∈ cids, getInline .NoRaw cid → ∃ b ∈ [rootBlock, leafBlock], b.cid = cid ∧
            s.tables.blake3Hash cid.hash = some (Libraries.blake3 b.data) ∧
            s.tables.links cid = .ok b.children := by
  have hyields : ∀ cid, (TraversalOpts.Full ⟨Libraries.root, none, none, none⟩).unfiltered.Yields
      twoNodes cid → cid = Libraries.root ∨ cid = Libraries.leaf := by
    intro cid hcid
    have hmem := hcid.mem rfl
    have hknown : twoNodes.knownLinks = {Libraries.leaf} := by decide +kernel
    rw [hknown, Finset.mem_union, List.mem_toFinset, Finset.mem_singleton] at hmem
    exact hmem.imp_left List.mem_singleton.mp
  refine sync_lockstep Libraries.toy_laws twoNodes_built .empty ?_ (fun d hd => ?_)
    (fun b hb => absurd hb List.not_mem_nil) _ _ ?_ ?_
  · simp [rootBlock, leafBlock]
  · simpa using hd
  · intro cid hcid
    rcases hyields cid hcid with rfl | rfl
    · exact ⟨rootBlock, List.mem_cons_self, rfl⟩
    · exact ⟨leafBlock, List.mem_cons_of_mem _ List.mem_cons_self, rfl⟩
  · rintro o - cid hcid hraw
    rcases hyields cid hcid with rfl | rfl
    · exact .inr ⟨rfl, by decide⟩
    · exact absurd rfl hraw

end Runs

end IrohExperiments.DagSync
