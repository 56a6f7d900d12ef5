import IrohExperiments.DagSync.Aliases
import IrohExperiments.DagSync.Backing

/-!
# The blocks of a node

Tables that are `Built` from blocks are what the results about a sync take for granted of an honest node.
A node does not insert blocks one by one, though: it runs commands, which can fail, and the import makes
the two writes of a block in the other order.

`Holding` says that the committed tables come about by inserting blocks, and that the data of each block
is in the store.  A command adds blocks and takes none away (`Node.exists_holding_step`), so the tables
of every node are built, whatever it has imported and from whomever it has synced, as long as the files
were good.  `Receiver.HasBut` also says which blocks a sync adds: one for each frame with data.
-/

namespace IrohExperiments.DagSync

section Holding

variable [Libraries]

/-- The tables are built from the blocks, and the data of each of them is in the store. -/
structure Holding (blocks : List Block) (tables : Tables) (store : BlobStore) : Prop where
  built : Built blocks tables
  stored : ∀ b ∈ blocks, b.data ∈ store.blobs

namespace Holding

variable {blocks : List Block} {tables : Tables} {store : BlobStore}

theorem mono {store' : BlobStore} (h : Holding blocks tables store)
    (hblobs : store.blobs ⊆ store'.blobs) : Holding blocks tables store' :=
  ⟨h.built, fun b hb => hblobs (h.stored b hb)⟩

theorem addBytes (h : Holding blocks tables store) (data : List UInt8) :
    Holding blocks tables (store.addBytes data).1 :=
  h.mono (List.subset_cons_self _ _)

/-- One more block. -/
theorem insert (h : Holding blocks tables store) {b : Block} (hb : b.data ∈ store.blobs)
    {tables' : Tables}
    (hinsert : tables.insertLinks b.cid (Libraries.blake3 b.data) b.data = (.ok (), tables')) :
    Holding (b :: blocks) tables' store :=
  ⟨.insert b h.built hinsert, List.forall_mem_cons.mpr ⟨hb, h.stored⟩⟩

end Holding

/-- What an import has added to the blocks, and what it has still to write of the next one. -/
def Importer.Adds (blocks : List Block) (self : Importer) : Prop :=
  match self.pc with
  | .Next | .Done (.ok ()) => ∃ more, Holding (more ++ blocks) self.tables self.store
  | .Store cid data links =>
      (∃ more, Holding (more ++ blocks) self.tables self.store) ∧ cid.Names data ∧
        Libraries.links data = some links
  | .InsertData cid hash links =>
      (∃ more, Holding (more ++ blocks) self.tables self.store) ∧
        ∃ b : Block, b.cid = cid ∧ hash = Libraries.blake3 b.data ∧
          Libraries.links b.data = some links ∧ b.data ∈ self.store.blobs
  | .InsertHash cid hash =>
      ∃ more, Holding (more ++ blocks) (self.tables.insertHash cid hash) self.store
  | .Done (.error _) => True

/-- What a sync has added: a block for each frame with data, except for the one of the cid that it is
at. -/
def Receiver.HasBut (blocks : List Block) (self : Receiver) (tables : Tables) (pending : Option Cid) :
    Prop :=
  ∃ more, Holding (more ++ blocks) tables self.store ∧
    ∀ cid hash, (cid, SyncResponseHeader.Data hash) ∈ self.frames →
      pending = some cid ∨ ∃ b ∈ more, b.cid = cid

def Receiver.Adds (blocks : List Block) (self : Receiver) : Prop :=
  match self.pc with
  | .Next | .Header _ | .Done (.ok ()) => self.HasBut blocks self.tables none
  | .Body cid _ | .Verify cid _ _ => self.HasBut blocks self.tables (some cid)
  | .Store cid _ data => self.HasBut blocks self.tables (some cid) ∧ cid.Names data
  | .InsertHash cid hash data =>
      self.HasBut blocks self.tables (some cid) ∧
        ∃ b : Block, b.cid = cid ∧ b.data = data ∧ hash = Libraries.blake3 data ∧
          data ∈ self.store.blobs
  | .InsertData cid hash links =>
      ∃ tables, self.HasBut blocks tables (some cid) ∧ self.tables = tables.insertHash cid hash ∧
        ∃ b : Block, b.cid = cid ∧ hash = Libraries.blake3 b.data ∧
          Libraries.links b.data = some links ∧ b.data ∈ self.store.blobs
  | .Done (.error _) => True

/-- The two writes of an import. -/
theorem Holding.insertData {blocks : List Block} {tables tables' : Tables} {store : BlobStore}
    (h : Holding blocks tables store) {b : Block} (hb : b.data ∈ store.blobs) {links : List Cid}
    (hlinks : Libraries.links b.data = some links)
    (hinsert : tables.insertData b.cid (Libraries.blake3 b.data) links = (.ok (), tables')) :
    Holding (b :: blocks) (tables'.insertHash b.cid (Libraries.blake3 b.data)) store := by
  refine h.insert hb (Tables.importBlock_ok_iff.mp ?_)
  rw [Tables.importBlock, hlinks]
  simp only [hinsert]

namespace Importer

variable {blocks : List Block} {self s : Importer}

theorem Adds.advance (htag : ∀ d, Libraries.tagHash d = Libraries.blake3 d)
    (hstream : BlocksNamed self.stream) (h : self.Adds blocks) : self.advance.Adds blocks := by
  rw [Adds] at h
  rw [Importer.advance]
  cases hpc : self.pc with
  | Next =>
      rw [hpc] at h
      simp only
      rw [next]
      split
      · exact h
      · exact trivial
      · rename_i cid data stream heq
        split
        · exact trivial
        · rename_i links hlinks
          exact ⟨h, hstream (cid, data) (by rw [heq]; exact List.mem_cons_self), hlinks⟩
  | Store cid data links =>
      rw [hpc] at h
      obtain ⟨⟨more, hmore⟩, hnames, hlinks⟩ := h
      exact ⟨⟨more, hmore.addBytes data⟩, ⟨cid, data, hnames⟩, rfl, htag data, hlinks,
        List.mem_cons_self⟩
  | InsertData cid hash links =>
      rw [hpc] at h
      obtain ⟨⟨more, hmore⟩, b, rfl, rfl, hlinks, hb⟩ := h
      simp only
      rw [insertData]
      split
      · exact trivial
      · rename_i tables hinsert
        exact ⟨b :: more, hmore.insertData hb hlinks hinsert⟩
  | InsertHash cid hash =>
      rw [hpc] at h
      exact h
  | Done result =>
      simp only
      rw [Adds]
      exact h

theorem blocksNamed_advance (h : BlocksNamed self.stream) : BlocksNamed self.advance.stream := by
  have hrest : ∀ {b stream}, self.stream = b :: stream → BlocksNamed stream := by
    intro b stream hstream c hc
    refine h c ?_
    rw [hstream]
    exact List.mem_cons_of_mem _ hc
  rw [Importer.advance]
  split
  · rw [next]
    split
    · exact h
    · rename_i hstream
      exact hrest hstream
    · rename_i hstream
      split <;> exact hrest hstream
  · exact h
  · rw [insertData]
    split <;> exact h
  · exact h
  · exact h

/-- **An import that gets to its end** has added blocks. -/
theorem exists_holding_of_run (htag : ∀ d, Libraries.tagHash d = Libraries.blake3 d)
    {reader : CarReader} {file : List UInt8} {tables : Tables} {store : BlobStore}
    (hgood : ∀ roots stream, reader file = .ok (roots, stream) → BlocksNamed stream)
    (h : Holding blocks tables store) {turns : List Turn}
    (hrun : Transition.run step (start reader file tables store) turns = some s)
    (hdone : s.pc = .Done (.ok ())) : ∃ more, Holding (more ++ blocks) s.tables s.store := by
  have hadds : BlocksNamed s.stream ∧ s.Adds blocks := by
    refine Transition.run_invariant (I := fun s : Importer => BlocksNamed s.stream ∧ s.Adds blocks)
      ?_ (fun m turn m' hm hstep => ?_) hrun
    · rw [start]
      split
      · exact ⟨fun b hb => absurd hb List.not_mem_nil, trivial⟩
      · rename_i roots stream hread
        exact ⟨hgood roots stream hread, [], h⟩
    · rcases step_cases hstep with rfl | rfl
      · exact ⟨hm.1, trivial⟩
      · exact ⟨blocksNamed_advance hm.1, hm.2.advance htag hm.1⟩
  obtain ⟨_, hadds⟩ := hadds
  rw [Adds, hdone] at hadds
  exact hadds

end Importer

namespace Receiver

variable {blocks : List Block} {self s : Receiver}

/-- The frame rule: nothing that matters has changed. -/
theorem HasBut.frame {tables : Tables} {pending : Option Cid} (h : self.HasBut blocks tables pending)
    (hblobs : self.store.blobs ⊆ s.store.blobs) (hframes : s.frames = self.frames) :
    s.HasBut blocks tables pending := by
  obtain ⟨more, hmore, hhas⟩ := h
  refine ⟨more, hmore.mono hblobs, ?_⟩
  rw [hframes]
  exact hhas

/-- A frame without data. -/
theorem HasBut.hashFrame {tables : Tables} {cid : Cid} {hash : Hash}
    (h : self.HasBut blocks tables none) (hstore : s.store = self.store)
    (hframes : s.frames = self.frames ++ [(cid, .Hash hash)]) : s.HasBut blocks tables none := by
  obtain ⟨more, hmore, hhas⟩ := h
  refine ⟨more, hstore ▸ hmore, fun c hc hmem => ?_⟩
  rw [hframes] at hmem
  rcases List.mem_append.mp hmem with hmem | hmem
  · exact hhas c hc hmem
  · cases List.mem_singleton.mp hmem

/-- A frame with data, which is still to be written. -/
theorem HasBut.dataFrame {tables : Tables} {cid : Cid} {hash : Hash}
    (h : self.HasBut blocks tables none) (hstore : s.store = self.store)
    (hframes : s.frames = self.frames ++ [(cid, .Data hash)]) :
    s.HasBut blocks tables (some cid) := by
  obtain ⟨more, hmore, hhas⟩ := h
  refine ⟨more, hstore ▸ hmore, fun c hc hmem => ?_⟩
  rw [hframes] at hmem
  rcases List.mem_append.mp hmem with hmem | hmem
  · rcases hhas c hc hmem with hnone | hb
    · cases hnone
    · exact .inr hb
  · cases List.mem_singleton.mp hmem
    exact .inl rfl

/-- The block that was pending is written. -/
theorem HasBut.insert {tables tables' : Tables} {b : Block}
    (h : self.HasBut blocks tables (some b.cid)) (hb : b.data ∈ self.store.blobs)
    (hinsert : tables.insertLinks b.cid (Libraries.blake3 b.data) b.data = (.ok (), tables'))
    (hstore : s.store = self.store) (hframes : s.frames = self.frames) :
    s.HasBut blocks tables' none := by
  obtain ⟨more, hmore, hhas⟩ := h
  refine ⟨b :: more, hstore ▸ hmore.insert hb hinsert, fun c hc hmem => .inr ?_⟩
  rw [hframes] at hmem
  rcases hhas c hc hmem with heq | ⟨b', hb', heq⟩
  · exact ⟨b, List.mem_cons_self, Option.some.inj heq⟩
  · exact ⟨b', List.mem_cons_of_mem _ hb', heq⟩

theorem Adds.advance (htag : ∀ d, Libraries.tagHash d = Libraries.blake3 d)
    (h : self.Adds blocks) : self.advance.Adds blocks := by
  have hblobs := List.Subset.refl self.store.blobs
  rw [Adds] at h
  rw [Receiver.advance]
  cases hpc : self.pc with
  | Next =>
      rw [hpc] at h
      simp only
      rw [next]
      split
      · exact trivial
      · exact h.frame hblobs rfl
      · exact h.frame hblobs rfl
  | Header cid =>
      rw [hpc] at h
      simp only
      rw [readHeader]
      split
      · exact trivial
      · exact h.frame hblobs rfl
      · split
        · exact h.hashFrame rfl rfl
        · exact h.dataFrame rfl rfl
  | Body cid hash =>
      rw [hpc] at h
      simp only
      rw [readBody]
      split
      · exact trivial
      · split
        · exact trivial
        · exact h.frame hblobs rfl
  | Verify cid hash buffer =>
      rw [hpc] at h
      simp only
      rcases self.verify_cases cid hash buffer with ⟨hnames, hverify⟩ | ⟨_, e, hverify⟩
      · rw [hverify]
        exact ⟨h.frame hblobs rfl, hnames⟩
      · rw [hverify]
        exact trivial
  | Store cid hash data =>
      rw [hpc] at h
      obtain ⟨hhas, hnames⟩ := h
      simp only
      rw [addBytes]
      simp only [BlobStore.addBytes, htag]
      split_ifs with hne
      · exact trivial
      · exact ⟨hhas.frame (List.subset_cons_self _ _) rfl, ⟨cid, data, hnames⟩, rfl, rfl,
          (not_not.mp hne).symm, List.mem_cons_self⟩
  | InsertHash cid hash data =>
      rw [hpc] at h
      obtain ⟨hhas, b, rfl, rfl, rfl, hb⟩ := h
      simp only
      rw [insertHash]
      split
      · exact trivial
      · rename_i links hlinks
        exact ⟨self.tables, hhas.frame hblobs rfl, rfl, b, rfl, rfl, hlinks, hb⟩
  | InsertData cid hash links =>
      rw [hpc] at h
      obtain ⟨tables, hhas, htables, b, rfl, rfl, hlinks, hb⟩ := h
      simp only
      rw [insertData]
      split
      · exact trivial
      · rename_i tables' hinsert
        refine hhas.insert hb ?_ rfl rfl
        rw [Tables.insertLinks, hlinks, ← htables]
        exact hinsert
  | Done result =>
      simp only
      rw [Adds]
      exact h

/-- **A sync that gets to its end** has added a block for each frame with data. -/
theorem hasBut_of_run (htag : ∀ d, Libraries.tagHash d = Libraries.blake3 d)
    {recv : RecvStream} {tables : Tables} {store : BlobStore} {opts : TraversalOpts}
    (h : Holding blocks tables store) {turns : List Turn}
    (hrun : Transition.run step (start recv tables store opts) turns = some s)
    (hdone : s.pc = .Done (.ok ())) : s.HasBut blocks s.tables none := by
  have hstart : (start recv tables store opts).Adds blocks :=
    ⟨[], h, fun cid hash hmem => absurd hmem List.not_mem_nil⟩
  have hadds : s.Adds blocks := by
    refine Transition.run_invariant (I := Adds blocks) hstart (fun m turn m' hm hstep => ?_) hrun
    rcases step_cases hstep with rfl | rfl
    · exact trivial
    · exact hm.advance htag
  rw [Adds, hdone] at hadds
  exact hadds

end Receiver

/-- **A command adds blocks**, or none if it fails. -/
theorem Node.exists_holding_step (htag : ∀ d, Libraries.tagHash d = Libraries.blake3 d)
    {reader : CarReader} {self node : Node} {command : Command} {blocks : List Block}
    (h : Holding blocks self.tables self.store) (hgood : command.Good reader)
    (hstep : self.step reader command = some node) :
    ∃ more, Holding (more ++ blocks) node.tables node.store := by
  have hkept : ∃ more, Holding (more ++ blocks) self.tables node.store :=
    ⟨[], h.mono (Node.blobs_step hstep)⟩
  cases command with
  | Import file turns commit =>
      obtain ⟨s, hrun, hcommit⟩ := Option.bind_eq_some_iff.mp hstep
      split at hcommit
      · rename_i hdone
        cases hcommit
        exact Importer.exists_holding_of_run htag hgood h hrun hdone
      · cases hcommit
        exact hkept
  | Sync opts recv turns commit =>
      obtain ⟨s, hrun, hcommit⟩ := Option.bind_eq_some_iff.mp hstep
      split at hcommit
      · rename_i hdone
        cases hcommit
        obtain ⟨more, hmore, _⟩ := Receiver.hasBut_of_run htag h hrun hdone
        exact ⟨more, hmore⟩
      · cases hcommit
        exact hkept

/-- **The tables of a node are built from blocks**, if the files that it has imported are good. -/
theorem Node.exists_holding_of_run (htag : ∀ d, Libraries.tagHash d = Libraries.blake3 d)
    {reader : CarReader} {commands : List Command} (hgood : ∀ command ∈ commands, command.Good reader)
    {node : Node} (hrun : Transition.run (Node.step reader) Node.init commands = some node) :
    ∃ blocks, Holding blocks node.tables node.store := by
  refine Transition.run_induction (P := fun commands (node : Node) =>
    (∀ command ∈ commands, command.Good reader) →
      ∃ blocks, Holding blocks node.tables node.store) (fun _ => ?_) ?_ hrun hgood
  · exact ⟨[], .empty, fun b hb => absurd hb List.not_mem_nil⟩
  · intro commands m command m' _ ih hstep hgood
    obtain ⟨blocks, hblocks⟩ := ih fun c hc => hgood c (List.mem_append_left _ hc)
    obtain ⟨more, hmore⟩ := exists_holding_step htag hblocks
      (hgood command (List.mem_append_right _ List.mem_cons_self)) hstep
    exact ⟨_, hmore⟩

end Holding

end IrohExperiments.DagSync
