import IrohExperiments.DagSync.Sync

/-!
# What the receiver stores

The sender is not trusted: it chooses the headers, the sizes and the data, and it can stop or fail
at any byte.  What it sends ends up in the tables, and the tables drive the traversal that decides
what comes next.

The invariant `Receiver.Safe` ties every row to a `Block`, that is to data and a cid that names it,
where the cid was yielded by the traversal and the data is in the store.  A row is written several
steps after the checks that justify it, so the invariant also says what has been checked so far at
each position (`Receiver.Checked`).

Only `tagHash_eq` is needed of the libraries.  That the data of a frame matches the hash in the
header is checked by `add_bytes` once more, so nothing depends on `decode_ranges`.
-/

namespace IrohExperiments.DagSync.Receiver

section Safety

variable [Libraries]

/-- The traversal asked for the block, and its data is in the store. -/
def Accepted (self : Receiver) (b : Block) : Prop :=
  b.cid ∈ self.yielded ∧ b.data ∈ self.store.blobs

/-- A row of `hashToBlake3` that belongs to an accepted block. -/
def HashRow (self : Receiver) (hash : Multihash) (value : Hash) : Prop :=
  ∃ b, self.Accepted b ∧ hash = b.cid.hash ∧ value = Libraries.blake3 b.data

/-- A row of `dataToLinks` that belongs to an accepted block, and holds its links. -/
def LinksRow (self : Receiver) (key : DataKey) (value : List UInt8) : Prop :=
  ∃ b, self.Accepted b ∧ key = ⟨b.cid.codec, Libraries.blake3 b.data⟩ ∧
    ∃ links, links ≠ [] ∧ Libraries.links b.data = some links ∧
      Libraries.toVec links = some value

/-- What has been checked when the receiver stands where it stands. -/
def Checked (self : Receiver) : Prop :=
  match self.pc with
  | .Next | .Done _ => True
  | .Header cid | .Body cid _ | .Verify cid _ _ => cid ∈ self.yielded
  | .Store cid _ data => cid ∈ self.yielded ∧ cid.Names data
  | .InsertHash cid hash data =>
      ∃ b, self.Accepted b ∧ b.cid = cid ∧ b.data = data ∧ hash = Libraries.blake3 data
  | .InsertData cid hash links =>
      ∃ b, self.Accepted b ∧ b.cid = cid ∧ Libraries.links b.data = some links ∧
        hash = Libraries.blake3 b.data

/-- Every row was there at the start or belongs to an accepted block. -/
structure Safe (tables : Tables) (receiver : Receiver) : Prop where
  hash_rows : ∀ hash value, receiver.tables.hashToBlake3.get? hash = some value →
    tables.hashToBlake3.get? hash = some value ∨ receiver.HashRow hash value
  links_rows : ∀ key value, receiver.tables.dataToLinks.get? key = some value →
    tables.dataToLinks.get? key = some value ∨ receiver.LinksRow key value
  checked : receiver.Checked

namespace Safe

variable {tables : Tables} {self s : Receiver}

/-- **The frame rule.**  An operation that leaves the tables alone, and drops neither cids nor
blobs, has only to care for its own check. -/
theorem frame (h : self.Safe tables) (htables : s.tables = self.tables)
    (hyielded : self.yielded ⊆ s.yielded) (hblobs : self.store.blobs ⊆ s.store.blobs)
    (hchecked : s.Checked) : s.Safe tables where
  hash_rows hash value hrow :=
    (h.hash_rows hash value (htables ▸ hrow)).imp_right fun ⟨b, hb, heq⟩ =>
      ⟨b, ⟨hyielded hb.1, hblobs hb.2⟩, heq⟩
  links_rows key value hrow :=
    (h.links_rows key value (htables ▸ hrow)).imp_right fun ⟨b, hb, heq⟩ =>
      ⟨b, ⟨hyielded hb.1, hblobs hb.2⟩, heq⟩
  checked := hchecked

/-- The sync can end anywhere. -/
theorem done (h : self.Safe tables) (r : Except SyncError Unit) :
    Safe tables { self with pc := .Done r } :=
  h.frame rfl (List.Subset.refl _) (List.Subset.refl _) trivial

/-! ## One lemma for each operation -/

theorem next (h : self.Safe tables) : self.next.Safe tables := by
  rw [Receiver.next]
  split
  · exact h.done _
  · exact h.done _
  · rename_i cid traversal _
    exact h.frame rfl (List.subset_append_left _ _) (List.Subset.refl _)
      (List.mem_append_right _ List.mem_cons_self)

theorem readHeader (h : self.Safe tables) {cid : Cid} (hcid : cid ∈ self.yielded) :
    (self.readHeader cid).Safe tables := by
  rw [Receiver.readHeader]
  split
  · exact h.done _
  · exact h.done _
  · split
    · exact h.frame rfl (List.Subset.refl _) (List.Subset.refl _) trivial
    · exact h.frame rfl (List.Subset.refl _) (List.Subset.refl _) hcid

theorem readBody (h : self.Safe tables) {cid : Cid} (hash : Hash) (hcid : cid ∈ self.yielded) :
    (self.readBody cid hash).Safe tables := by
  rw [Receiver.readBody]
  split
  · exact h.done _
  · split
    · exact h.done _
    · exact h.frame rfl (List.Subset.refl _) (List.Subset.refl _) hcid

/-- From here on the cid names the data. -/
theorem verify (h : self.Safe tables) {cid : Cid} (hash : Hash) (buffer : List UInt8)
    (hcid : cid ∈ self.yielded) : (self.verify cid hash buffer).Safe tables := by
  rw [Receiver.verify]
  split
  · exact h.done _
  · rename_i hasher hcode
    split_ifs with hdigest
    · exact h.done _
    · refine h.frame rfl (List.Subset.refl _) (List.Subset.refl _) ⟨hcid, ?_⟩
      rw [Cid.Names, hcode, Option.map_some, not_not.mp hdigest]

/-- From here on there is an accepted block. -/
theorem addBytes (htag : ∀ d, Libraries.tagHash d = Libraries.blake3 d) (h : self.Safe tables)
    {cid : Cid} (hash : Hash) {data : List UInt8} (hcid : cid ∈ self.yielded)
    (hnames : cid.Names data) : (self.addBytes cid hash data).Safe tables := by
  rw [Receiver.addBytes, BlobStore.addBytes]
  simp only
  split_ifs with hhash
  · exact h.frame rfl (List.Subset.refl _) (List.subset_cons_self _ _) trivial
  · refine h.frame rfl (List.Subset.refl _) (List.subset_cons_self _ _) ?_
    refine ⟨⟨cid, data, hnames⟩, ⟨hcid, List.mem_cons_self⟩, rfl, rfl, ?_⟩
    rw [← not_not.mp hhash, htag]

theorem insertHash (h : self.Safe tables) {b : Block} (hb : self.Accepted b) :
    (self.insertHash b.cid (Libraries.blake3 b.data) b.data).Safe tables := by
  rw [Receiver.insertHash]
  split
  · exact h.done _
  · rename_i links hlinks
    exact
      { hash_rows := fun hash value hrow => by
          simp only [Tables.insertHash, SortedTable.get?_insert] at hrow
          split_ifs at hrow with hkey
          · exact .inr ⟨b, hb, hkey, (Option.some.inj hrow).symm⟩
          · exact h.hash_rows hash value hrow
        links_rows := h.links_rows
        checked := ⟨b, hb, rfl, hlinks, rfl⟩ }

theorem insertData (h : self.Safe tables) {b : Block} (hb : self.Accepted b) {links : List Cid}
    (hlinks : Libraries.links b.data = some links) :
    (self.insertData b.cid (Libraries.blake3 b.data) links).Safe tables := by
  rw [Receiver.insertData]
  rcases self.tables.insertData_cases b.cid (Libraries.blake3 b.data) links with
    ⟨_, heq⟩ | ⟨_, _, heq⟩ | ⟨v, hne, hv, heq⟩
  · rw [heq]
    exact h.frame rfl (List.Subset.refl _) (List.Subset.refl _) trivial
  · rw [heq]
    exact h.done _
  · rw [heq]
    exact
      { hash_rows := h.hash_rows
        links_rows := fun key value hrow => by
          simp only [SortedTable.get?_insert] at hrow
          split_ifs at hrow with hkey
          · exact .inr ⟨b, hb, hkey, links, hne, hlinks, Option.some.inj hrow ▸ hv⟩
          · exact h.links_rows key value hrow
        checked := trivial }

/-! ## The run -/

/-- **Every operation keeps the invariant.** -/
theorem advance (htag : ∀ d, Libraries.tagHash d = Libraries.blake3 d) (h : self.Safe tables) :
    self.advance.Safe tables := by
  have hchecked := h.checked
  rw [Checked] at hchecked
  rw [Receiver.advance]
  cases hpc : self.pc <;> simp only [hpc] at hchecked ⊢
  case Next => exact h.next
  case Header => exact h.readHeader hchecked
  case Body => exact h.readBody _ hchecked
  case Verify => exact h.verify _ _ hchecked
  case Store => exact h.addBytes htag _ hchecked.1 hchecked.2
  case InsertHash =>
      obtain ⟨b, hb, rfl, rfl, rfl⟩ := hchecked
      exact h.insertHash hb
  case InsertData =>
      obtain ⟨b, hb, rfl, hlinks, rfl⟩ := hchecked
      exact h.insertData hb hlinks
  case Done => exact h

theorem step (htag : ∀ d, Libraries.tagHash d = Libraries.blake3 d) {turn : Turn}
    (h : self.Safe tables) (hstep : Receiver.step self turn = some s) : s.Safe tables := by
  rcases step_cases hstep with rfl | rfl
  · exact h.done _
  · exact h.advance htag

theorem run (htag : ∀ d, Libraries.tagHash d = Libraries.blake3 d) {recv : RecvStream}
    {store : BlobStore} {opts : TraversalOpts} {turns : List Turn}
    (hrun : Transition.run Receiver.step (start recv tables store opts) turns = some s) :
    s.Safe tables := by
  have hstart : (start recv tables store opts).Safe tables :=
    ⟨fun _ _ => .inl, fun _ _ => .inl, trivial⟩
  exact Transition.run_invariant (I := Safe tables) hstart
    (fun _ _ _ hm hstep => hm.step htag hstep) hrun

end Safe

/-- **A `Hash` frame changes nothing but the position in the stream.** -/
theorem step_of_hash_frame {self s : Receiver} {cid : Cid} {hash : Hash} {reader : RecvStream}
    (hpc : self.pc = .Header cid)
    (hframe : SyncResponseHeader.fromStream self.reader = .ok (some (.Hash hash, reader)))
    {turn : Turn} (hstep : step self turn = some s) :
    s.tables = self.tables ∧ s.store = self.store ∧ (s.pc = .Next ∨ ∃ e, s.pc = .Done (.error e)) := by
  rcases step_cases hstep with rfl | rfl
  · exact ⟨rfl, rfl, .inr ⟨.Io, rfl⟩⟩
  · rw [advance, hpc]
    simp only [readHeader, hframe]
    exact ⟨trivial, trivial, .inl trivial⟩

/-- **Receiver safety.**  Whatever the stream is, and wherever the sync stands or ended: a row that
the receiver added or changed belongs to a cid that its own traversal yielded and to data in its
store that the cid names, and a row of links holds the links of that data.  A `Hash` frame changes
no table. -/
theorem rows_authentic (htag : ∀ d, Libraries.tagHash d = Libraries.blake3 d) {recv : RecvStream}
    {tables : Tables} {store : BlobStore} {opts : TraversalOpts} {turns : List Turn} {s : Receiver}
    (hrun : Transition.run step (start recv tables store opts) turns = some s) :
    (∀ hash value, s.tables.hashToBlake3.get? hash = some value →
      tables.hashToBlake3.get? hash ≠ some value → s.HashRow hash value) ∧
    (∀ key value, s.tables.dataToLinks.get? key = some value →
      tables.dataToLinks.get? key ≠ some value → s.LinksRow key value) ∧
    (∀ cid hash reader, s.pc = .Header cid →
      SyncResponseHeader.fromStream s.reader = .ok (some (.Hash hash, reader)) →
      ∀ turn s', step s turn = some s' → s'.tables = s.tables) := by
  have hsafe := Safe.run htag hrun
  refine ⟨fun hash value hrow hnew => ?_, fun key value hrow hnew => ?_, ?_⟩
  · exact (hsafe.hash_rows hash value hrow).resolve_left hnew
  · exact (hsafe.links_rows key value hrow).resolve_left hnew
  · intro cid hash reader hpc hframe turn s' hstep
    exact (step_of_hash_frame hpc hframe hstep).1

end Safety

section Runs

attribute [local instance] Libraries.toy

/-- A stream with a `Data` frame for a root and a `Hash` frame, with a wrong hash, for its leaf. -/
def forgedLeaf : RecvStream :=
  ⟨(SyncResponseHeader.Data (Libraries.padded [1])).asBytes ++ Libraries.exportBao [1] ++
    (SyncResponseHeader.Hash (Libraries.padded [9])).asBytes, false⟩

/-- The rows that a receiver has after it read that stream belong to the root. -/
theorem rows_authentic_forgedLeaf :
    ∃ s, Transition.run step
        (start forgedLeaf .empty ⟨[]⟩ (.Full ⟨Libraries.root, none, none, none⟩))
        (List.replicate 10 .proceeds) = some s ∧
      s.HashRow Libraries.root.hash (Libraries.padded [1]) ∧
      s.LinksRow ⟨0x71, Libraries.padded [1]⟩ [1] := by
  have hrows : ((Transition.run step
      (start forgedLeaf .empty ⟨[]⟩ (.Full ⟨Libraries.root, none, none, none⟩))
      (List.replicate 10 .proceeds)).map fun s =>
        (s.tables.hashToBlake3.rows, s.tables.dataToLinks.rows))
      = some ([(Libraries.root.hash, Libraries.padded [1])],
          [(⟨0x71, Libraries.padded [1]⟩, [1])]) := by
    decide +kernel
  obtain ⟨s, hs, hrows⟩ := Option.map_eq_some_iff.mp hrows
  obtain ⟨hhash, hlinks⟩ := Prod.mk.inj hrows
  have hauthentic := rows_authentic (fun _ => rfl) hs
  refine ⟨s, hs, hauthentic.1 _ _ ?_ nofun, hauthentic.2.1 _ _ ?_ nofun⟩
  · rw [← SortedTable.mem_rows_iff, hhash]
    exact List.mem_cons_self
  · rw [← SortedTable.mem_rows_iff, hlinks]
    exact List.mem_cons_self

end Runs

end IrohExperiments.DagSync.Receiver
