import IrohExperiments.DagSync.Import
import IrohExperiments.DagSync.Lockstep

/-!
# A node has the data of its rows

A node serves what it has committed: it reads the hash of a cid from its tables and the data from its
store.  The two are written apart.  The store is no part of the transactions, and a command that fails
keeps what it has stored and gives up what it has written to the tables.

`Tables.Backed` ties the tables to the store: the data of every row is in the store, and links that are
stored can be read.  It is an invariant of the runs of a node that needs nothing of the files that are
imported and nothing of the nodes that are synced from, since a hash is only written after the tag that
the store has given to the data.  So a node never fails to find data that it has a hash of
(`responds_of_run`).
-/

namespace IrohExperiments.DagSync

section Backing

variable [Libraries]

/-! ## The store only grows -/

theorem Importer.blobs_step {self s : Importer} {turn : Turn} (h : step self turn = some s) :
    self.store.blobs ⊆ s.store.blobs := by
  have hrefl := List.Subset.refl self.store.blobs
  rcases step_cases h with rfl | rfl
  · exact hrefl
  rw [Importer.advance]
  split
  · rw [Importer.next]
    repeat' split
    all_goals exact hrefl
  · exact List.subset_cons_self _ _
  · rw [Importer.insertData]
    split <;> exact hrefl
  · exact hrefl
  · exact hrefl

theorem Receiver.blobs_step {self s : Receiver} {turn : Turn} (h : step self turn = some s) :
    self.store.blobs ⊆ s.store.blobs := by
  have hrefl := List.Subset.refl self.store.blobs
  rcases step_cases h with rfl | rfl
  · exact hrefl
  rw [Receiver.advance]
  split
  · rw [Receiver.next]
    split <;> exact hrefl
  · rw [Receiver.readHeader]
    repeat' split
    all_goals exact hrefl
  · rw [Receiver.readBody]
    repeat' split
    all_goals exact hrefl
  · rw [Receiver.verify]
    repeat' split
    all_goals exact hrefl
  · rw [Receiver.addBytes]
    simp only
    split_ifs <;> exact List.subset_cons_self _ _
  · rw [Receiver.insertHash]
    split <;> exact hrefl
  · rw [Receiver.insertData]
    split <;> exact hrefl
  · exact hrefl

omit [Libraries] in
/-- A run of steps that only add to a store. -/
theorem BlobStore.blobs_run {σ ι : Type*} {step : σ → ι → Option σ} (store : σ → BlobStore)
    (next : ∀ {m i m'}, step m i = some m' → (store m).blobs ⊆ (store m').blobs) {labels : List ι}
    {s s' : σ} (hrun : Transition.run step s labels = some s') :
    (store s).blobs ⊆ (store s').blobs :=
  Transition.run_related (R := fun m m' => (store m).blobs ⊆ (store m').blobs)
    (fun _ => List.Subset.refl _) List.Subset.trans (fun _ _ _ => next) hrun

omit [Libraries] in
theorem Importer.store_start (reader : CarReader) (file : List UInt8) (tables : Tables)
    (store : BlobStore) : (start reader file tables store).store = store := by
  rw [start]
  split <;> rfl

/-- A command adds to the store, whatever becomes of it. -/
theorem Node.blobs_step {reader : CarReader} {self node : Node} {command : Command}
    (hstep : self.step reader command = some node) : self.store.blobs ⊆ node.store.blobs := by
  cases command with
  | Import file turns commit =>
      obtain ⟨s, hrun, hcommit⟩ := Option.bind_eq_some_iff.mp hstep
      have hblobs := BlobStore.blobs_run Importer.store Importer.blobs_step hrun
      rw [Importer.store_start] at hblobs
      split at hcommit
      all_goals
        cases hcommit
        exact hblobs
  | Sync opts recv turns commit =>
      obtain ⟨s, hrun, hcommit⟩ := Option.bind_eq_some_iff.mp hstep
      have hblobs := BlobStore.blobs_run Receiver.store Receiver.blobs_step hrun
      split at hcommit
      all_goals
        cases hcommit
        exact hblobs

/-! ## Data for every row -/

/-- The data with this hash is in the store. -/
def BlobStore.Has (store : BlobStore) (hash : Hash) : Prop :=
  ∃ data ∈ store.blobs, Libraries.tagHash data = hash

theorem BlobStore.Has.mono {store store' : BlobStore} {hash : Hash} (h : store.Has hash)
    (hblobs : store.blobs ⊆ store'.blobs) : store'.Has hash := by
  obtain ⟨data, hdata, heq⟩ := h
  exact ⟨data, hblobs hdata, heq⟩

/-- What was added is found under the hash of its tag. -/
theorem BlobStore.has_addBytes (store : BlobStore) (data : List UInt8) :
    (store.addBytes data).1.Has (store.addBytes data).2 :=
  ⟨data, List.mem_cons_self, rfl⟩

theorem BlobStore.Has.exists_get {store : BlobStore} {hash : Hash} (h : store.Has hash) :
    ∃ data, store.get hash = some data := by
  obtain ⟨data, hdata, heq⟩ := h
  apply Option.isSome_iff_exists.mp
  rw [BlobStore.get, List.find?_isSome]
  exact ⟨data, hdata, decide_eq_true heq⟩

/-- The data of each row is in the store, and links were encoded when they were written. -/
structure Tables.Backed (tables : Tables) (store : BlobStore) : Prop where
  hash_row : ∀ hash value, tables.hashToBlake3.get? hash = some value → store.Has value
  links_row : ∀ key value, tables.dataToLinks.get? key = some value →
    ∃ links, Libraries.toVec links = some value

namespace Tables.Backed

variable {tables : Tables} {store : BlobStore}

theorem empty (store : BlobStore) : Tables.empty.Backed store where
  hash_row _ _ h := nomatch h
  links_row _ _ h := nomatch h

theorem mono {store' : BlobStore} (h : tables.Backed store) (hblobs : store.blobs ⊆ store'.blobs) :
    tables.Backed store' :=
  ⟨fun hash value hrow => (h.hash_row hash value hrow).mono hblobs, h.links_row⟩

theorem addBytes (h : tables.Backed store) (data : List UInt8) :
    tables.Backed (store.addBytes data).1 :=
  h.mono (List.subset_cons_self _ _)

theorem insertHash (h : tables.Backed store) (cid : Cid) {hash : Hash} (hhash : store.Has hash) :
    (tables.insertHash cid hash).Backed store := by
  refine ⟨fun key value hrow => ?_, h.links_row⟩
  rw [Tables.insertHash, SortedTable.get?_insert] at hrow
  split_ifs at hrow with hkey
  · cases hrow
    exact hhash
  · exact h.hash_row key value hrow

theorem insertData (h : tables.Backed store) (cid : Cid) (hash : Hash) (links : List Cid) :
    (tables.insertData cid hash links).2.Backed store := by
  rcases tables.insertData_cases cid hash links with
    ⟨_, heq⟩ | ⟨_, _, heq⟩ | ⟨v, _, hv, heq⟩
  · rw [heq]
    exact h
  · rw [heq]
    exact h
  · rw [heq]
    refine ⟨h.hash_row, fun key value hrow => ?_⟩
    rw [SortedTable.get?_insert] at hrow
    split_ifs at hrow with hkey
    · cases hrow
      exact ⟨links, hv⟩
    · exact h.links_row key value hrow

end Tables.Backed

/-- The hash that an import is about to write is one of data in the store. -/
def Importer.Backed (self : Importer) : Prop :=
  self.tables.Backed self.store ∧
    match self.pc with
    | .InsertData _ hash _ | .InsertHash _ hash => self.store.Has hash
    | _ => True

theorem Importer.Backed.advance {self : Importer} (h : self.Backed) : self.advance.Backed := by
  obtain ⟨htables, hpc⟩ := h
  rw [Importer.advance]
  split
  · rw [Importer.next]
    split
    · exact ⟨htables, trivial⟩
    · exact ⟨htables, trivial⟩
    · split
      · exact ⟨htables, trivial⟩
      · exact ⟨htables, trivial⟩
  · rename_i cid data links _
    exact ⟨htables.addBytes data, self.store.has_addBytes data⟩
  · rename_i cid hash links heq
    rw [heq] at hpc
    have hinsert := htables.insertData cid hash links
    rw [Importer.insertData]
    split
    · rename_i hresult
      rw [hresult] at hinsert
      exact ⟨hinsert, trivial⟩
    · rename_i hresult
      rw [hresult] at hinsert
      exact ⟨hinsert, hpc⟩
  · rename_i cid hash heq
    rw [heq] at hpc
    exact ⟨htables.insertHash cid hpc, trivial⟩
  · exact ⟨htables, hpc⟩

theorem Importer.Backed.step {self s : Importer} {turn : Turn} (h : self.Backed)
    (hstep : step self turn = some s) : s.Backed := by
  rcases step_cases hstep with rfl | rfl
  · exact ⟨h.1, trivial⟩
  · exact h.advance

/-- And so is the one that a sync is about to write, since the tag was compared with it. -/
def Receiver.Backed (self : Receiver) : Prop :=
  self.tables.Backed self.store ∧
    match self.pc with
    | .InsertHash _ hash _ => self.store.Has hash
    | _ => True

theorem Receiver.Backed.advance {self : Receiver} (h : self.Backed) : self.advance.Backed := by
  obtain ⟨htables, hpc⟩ := h
  rw [Receiver.advance]
  split
  · rw [Receiver.next]
    split <;> exact ⟨htables, trivial⟩
  · rw [Receiver.readHeader]
    split
    · exact ⟨htables, trivial⟩
    · exact ⟨htables, trivial⟩
    · split <;> exact ⟨htables, trivial⟩
  · rw [Receiver.readBody]
    split
    · exact ⟨htables, trivial⟩
    · split <;> exact ⟨htables, trivial⟩
  · rw [Receiver.verify]
    split
    · exact ⟨htables, trivial⟩
    · split <;> exact ⟨htables, trivial⟩
  · rename_i cid hash data _
    have htag := self.store.has_addBytes data
    rw [Receiver.addBytes]
    simp only
    split_ifs with hne
    · exact ⟨htables.addBytes data, trivial⟩
    · rw [not_not.mp hne] at htag
      exact ⟨htables.addBytes data, htag⟩
  · rename_i cid hash data heq
    rw [heq] at hpc
    rw [Receiver.insertHash]
    split
    · exact ⟨htables, trivial⟩
    · exact ⟨htables.insertHash cid hpc, trivial⟩
  · rename_i cid hash links _
    have hinsert := htables.insertData cid hash links
    rw [Receiver.insertData]
    split
    · rename_i hresult
      rw [hresult] at hinsert
      exact ⟨hinsert, trivial⟩
    · rename_i hresult
      rw [hresult] at hinsert
      exact ⟨hinsert, trivial⟩
  · exact ⟨htables, hpc⟩

theorem Receiver.Backed.step {self s : Receiver} {turn : Turn} (h : self.Backed)
    (hstep : step self turn = some s) : s.Backed := by
  rcases step_cases hstep with rfl | rfl
  · exact ⟨h.1, trivial⟩
  · exact h.advance

section Answers

variable {tables : Tables} {store : BlobStore}

/-- Stored links can be decoded, so a look-up fails for a cid without a hash only. -/
theorem Tables.Backed.links_error (h : tables.Backed store)
    (hvec : ∀ links v, Libraries.toVec links = some v → Libraries.fromSlice v = some links)
    {cid : Cid} {e : SyncError} (he : tables.links cid = .error e) : e = .Blake3HashNotFound := by
  rw [Tables.links] at he
  split at he
  · cases he
    rfl
  · split at he
    · cases he
    · rename_i v hrow
      obtain ⟨links, hlinks⟩ := h.links_row _ v hrow
      rw [hvec links v hlinks] at he
      cases he

namespace FullTraversal

variable {self : FullTraversal} {e : SyncError}

/-- A call of `next` fails if the look-up does. -/
theorem exists_links_of_next_error (h : self.next tables = .error e) :
    ∃ cid, tables.links cid = .error e := by
  rw [next] at h
  split at h
  · rename_i hexpand
    cases h
    rw [expand] at hexpand
    split at hexpand
    · cases hexpand
    · rename_i cid _
      split at hexpand
      · cases hexpand
      · split at hexpand
        · rename_i hlinks
          cases hexpand
          exact ⟨cid, hlinks⟩
        · cases hexpand
        · cases hexpand
  · split at h
    · cases h
    · cases h

theorem exists_links_of_nextFiltered_error {filter : TraversalFilter}
    (h : self.nextFiltered filter tables = .error e) : ∃ cid, tables.links cid = .error e := by
  fun_induction nextFiltered filter self tables with
  | case1 self e' hnext =>
      cases h
      exact exists_links_of_next_error hnext
  | case2 self hnext => cases h
  | case3 self item inner hnext haccepts => cases h
  | case4 self item inner hnext haccepts ih => exact ih h

end FullTraversal

theorem Traversal.exists_links_of_next_error {self : Traversal} {e : SyncError}
    (h : self.next tables = .error e) : ∃ cid, tables.links cid = .error e := by
  cases self with
  | Sequence cids =>
      cases cids with
      | nil => cases h
      | cons cid cids => cases h
  | Full inner =>
      rw [next] at h
      cases hnext : inner.next tables with
      | error e' =>
          rw [hnext] at h
          cases h
          exact FullTraversal.exists_links_of_next_error hnext
      | ok r =>
          rw [hnext] at h
          cases h
  | Filtered inner filter =>
      rw [next] at h
      cases hnext : inner.nextFiltered filter tables with
      | error e' =>
          rw [hnext] at h
          cases h
          exact FullTraversal.exists_links_of_nextFiltered_error hnext
      | ok r =>
          rw [hnext] at h
          cases h

/-- There is a hash for each cid of the traversal. -/
def Traversal.HasHashes (tables : Tables) (traversal : Traversal) : Prop :=
  ∃ cids, traversal.collect tables = .ok cids ∧
    ∀ cid ∈ cids, ∃ hash, tables.blake3Hash cid.hash = some hash

theorem Traversal.hasHashes_of_end {traversal : Traversal} (h : traversal.next tables = .ok none) :
    traversal.HasHashes tables := by
  refine ⟨[], ?_, fun cid hcid => absurd hcid List.not_mem_nil⟩
  rw [collect_eq, h]

theorem Traversal.not_hasHashes_of_error {traversal : Traversal} {e : SyncError}
    (h : traversal.next tables = .error e) : ¬ traversal.HasHashes tables := by
  rintro ⟨cids, hcids, _⟩
  rw [collect_eq, h] at hcids
  cases hcids

theorem Traversal.hasHashes_iff {traversal rest : Traversal} {cid : Cid}
    (h : traversal.next tables = .ok (some (cid, rest))) :
    traversal.HasHashes tables
      ↔ (∃ hash, tables.blake3Hash cid.hash = some hash) ∧ rest.HasHashes tables := by
  constructor
  · rintro ⟨cids, hcids, hhashes⟩
    cases cids with
    | nil =>
        have hnone := next_of_collect_nil hcids
        rw [h] at hnone
        cases hnone
    | cons c cids =>
        obtain ⟨t, hnext, ht⟩ := next_of_collect_cons hcids
        cases h.symm.trans hnext
        exact ⟨hhashes _ List.mem_cons_self, cids, ht,
          fun c hc => hhashes c (List.mem_cons_of_mem _ hc)⟩
  · rintro ⟨hcid, cids, hcids, hhashes⟩
    refine ⟨cid :: cids, ?_, List.forall_mem_cons.mpr ⟨hcid, hhashes⟩⟩
    rw [collect_eq, h]
    simp only [hcids]
    rfl

/-- A cid that has a hash. -/
theorem Traversal.hasHashes_next {traversal rest : Traversal} {cid : Cid} {hash : Hash}
    (h : traversal.next tables = .ok (some (cid, rest)))
    (hhash : tables.blake3Hash cid.hash = some hash) :
    traversal.HasHashes tables ↔ rest.HasHashes tables :=
  (hasHashes_iff h).trans (and_iff_right ⟨hash, hhash⟩)

/-- A cid that has none. -/
theorem Traversal.not_hasHashes_next {traversal rest : Traversal} {cid : Cid}
    (h : traversal.next tables = .ok (some (cid, rest)))
    (hnone : tables.blake3Hash cid.hash = none) : ¬ traversal.HasHashes tables := by
  rw [hasHashes_iff h, hnone]
  rintro ⟨⟨hash, hhash⟩, _⟩
  cases hhash

/-- **A response over backed tables** ends in one of two ways, and which of them is a matter of the
hashes alone. -/
theorem Tables.Backed.response (h : tables.Backed store)
    (hvec : ∀ links v, Libraries.toVec links = some v → Libraries.fromSlice v = some links)
    (inline : Cid → Bool) (t : Traversal) :
    (t.HasHashes tables → (writeSyncResponse tables store inline t).result = .ok ()) ∧
      (¬ t.HasHashes tables →
        (writeSyncResponse tables store inline t).result = .error .Blake3HashNotFound) := by
  fun_induction writeSyncResponse tables store inline t with
  | case1 t e hnext =>
      obtain ⟨cid, hcid⟩ := Traversal.exists_links_of_next_error hnext
      obtain rfl := h.links_error hvec hcid
      exact ⟨fun hhas => absurd hhas (Traversal.not_hasHashes_of_error hnext), fun _ => rfl⟩
  | case2 t hnext => exact ⟨fun _ => rfl, fun hnot => absurd (Traversal.hasHashes_of_end hnext) hnot⟩
  | case3 t cid rest hnext hnone =>
      exact ⟨fun hhas => absurd hhas (Traversal.not_hasHashes_next hnext hnone), fun _ => rfl⟩
  | case4 t cid rest hnext hash hhash hinline hbody =>
      -- the data of a hash is in the store
      obtain ⟨data, hdata⟩ := (h.hash_row _ _ hhash).exists_get
      rw [BlobStore.exportBao, hdata] at hbody
      cases hbody
  | case5 t cid rest hnext hash hhash hinline body hbody ih =>
      rw [Traversal.hasHashes_next hnext hhash]
      exact ih
  | case6 t cid rest hnext hash hhash hinline ih =>
      rw [Traversal.hasHashes_next hnext hhash]
      exact ih

/-- **And an export** in one of three: a block can be too long for the buffer of its length. -/
theorem Tables.Backed.exportBlocks (h : tables.Backed store)
    (hvec : ∀ links v, Libraries.toVec links = some v → Libraries.fromSlice v = some links)
    (t : Traversal) :
    (t.HasHashes tables ∧ ∃ file, exportBlocks tables store t = .ok file) ∨
      (¬ t.HasHashes tables ∧
        (exportBlocks tables store t = .error .Blake3HashNotFound ∨
          exportBlocks tables store t = .error (.Traversal .Blake3HashNotFound))) ∨
      exportBlocks tables store t = .error .BufferFull := by
  fun_induction IrohExperiments.DagSync.exportBlocks tables store t with
  | case1 t e hnext =>
      obtain ⟨cid, hcid⟩ := Traversal.exists_links_of_next_error hnext
      obtain rfl := h.links_error hvec hcid
      exact .inr (.inl ⟨Traversal.not_hasHashes_of_error hnext, .inr rfl⟩)
  | case2 t hnext => exact .inl ⟨Traversal.hasHashes_of_end hnext, _, rfl⟩
  | case3 t cid rest hnext hnone =>
      exact .inr (.inl ⟨Traversal.not_hasHashes_next hnext hnone, .inl rfl⟩)
  | case4 t cid rest hnext hash hhash hdata =>
      obtain ⟨data, hget⟩ := (h.hash_row _ _ hhash).exists_get
      rw [hget] at hdata
      cases hdata
  | case5 t cid rest hnext hash hhash data hdata blockBytes hslice => exact .inr (.inr rfl)
  | case6 t cid rest hnext hash hhash data hdata blockBytes size hslice ih =>
      rw [Traversal.hasHashes_next hnext hhash]
      rcases ih with ⟨hhas, file, hfile⟩ | ⟨hnot, hfile | hfile⟩ | hfile
      · exact .inl ⟨hhas, _, by rw [hfile]; rfl⟩
      · exact .inr (.inl ⟨hnot, .inl (by rw [hfile]; rfl)⟩)
      · exact .inr (.inl ⟨hnot, .inr (by rw [hfile]; rfl)⟩)
      · exact .inr (.inr (by rw [hfile]; rfl))

end Answers

end Backing

section Runs

attribute [local instance] Libraries.toy

end Runs

end IrohExperiments.DagSync
