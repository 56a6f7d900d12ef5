import IrohExperiments.DagSync.Formats
import IrohExperiments.DagSync.Import
import IrohExperiments.DagSync.Lockstep

/-!
# One block under several cids

Cids that differ in the codec alone share their row in `hashToBlake3`, but not the one in
`dataToLinks`.  So a block that comes in under one codec is present under all of them, and has its
links only under that one.  A missing row in `dataToLinks` is then taken for a leaf.

A block comes in by an import or by `insert_links`, which do the same two writes in different order.
`missing_links_iff` says in which sequences of insertions a missing row for a DAG-CBOR cid always means
a leaf.
-/

namespace IrohExperiments.DagSync

open Transition (run_cons run_replicate_succ)

section Aliases

variable [Libraries]

/-- What an import does with a block, once it is stored. -/
def Tables.importBlock (self : Tables) (cid : Cid) (hash : Hash) (data : List UInt8) :
    Except SyncError Unit × Tables :=
  match Libraries.links data with
  | none => (.error .ExtractLinks, self)
  | some links =>
      match self.insertData cid hash links with
      | (.error e, tables) => (.error e, tables)
      | (.ok (), tables) => (.ok (), tables.insertHash cid hash)

/-- The order of the writes does not matter. -/
theorem Tables.importBlock_ok_iff {tables tables' : Tables} {cid : Cid} {hash : Hash}
    {data : List UInt8} :
    tables.importBlock cid hash data = (.ok (), tables')
      ↔ tables.insertLinks cid hash data = (.ok (), tables') := by
  rw [importBlock, insertLinks]
  cases Libraries.links data with
  | none => rfl
  | some links =>
      by_cases hnil : links = []
      · simp [insertData, hnil]
      · cases hv : Libraries.toVec links with
        | none => simp [insertData, hnil, hv]
        | some v => simp [insertData, hnil, hv, insertHash]

/-- **An import that comes to a block** does this, if no operation fails. -/
theorem Importer.run_block_iff {tables tables' : Tables} {store : BlobStore} {cid : Cid}
    {data : List UInt8} {stream : List (Except CarError (Cid × List UInt8))} :
    Transition.run Importer.step ⟨.Next, .ok (cid, data) :: stream, tables, store⟩
        (List.replicate 4 .proceeds) = some ⟨.Next, stream, tables', (store.addBytes data).1⟩
      ↔ tables.importBlock cid (Libraries.tagHash data) data = (.ok (), tables') := by
  rw [Tables.importBlock, run_replicate_succ (step_proceeds (by simp)), advance]
  simp only [next]
  cases Libraries.links data with
  | none => simp [run_cons, List.replicate_succ, step]
  | some links =>
      simp only
      rw [run_replicate_succ (step_proceeds (by simp)), advance]
      simp only [addBytes, BlobStore.addBytes]
      rw [run_replicate_succ (step_proceeds (by simp)), advance]
      simp only [insertData]
      cases hinsert : tables.insertData cid (Libraries.tagHash data) links with
      | mk result tables'' =>
          cases result with
          | error e => simp [run_cons, List.replicate_succ, step]
          | ok _ =>
              simp only
              rw [run_replicate_succ (step_proceeds (by simp)), advance]
              simp [insertHash]

/-! ## Sequences of insertions -/

inductive Route where
  | Import
  | InsertLinks

structure Insertion where
  block : Block
  route : Route

/-- An insertion that succeeds.  One that does not takes the transaction with it. -/
def insertBlock (tables : Tables) (i : Insertion) : Option Tables :=
  match i.route with
  | .Import =>
      match tables.importBlock i.block.cid (Libraries.tagHash i.block.data) i.block.data with
      | (.ok (), tables) => some tables
      | (.error _, _) => none
  | .InsertLinks =>
      match tables.insertLinks i.block.cid (Libraries.blake3 i.block.data) i.block.data with
      | (.ok (), tables) => some tables
      | (.error _, _) => none

/-- For a DAG-CBOR cid of data in `S` that is present, no links means that the data has none. -/
def Tables.LinksComplete (self : Tables) (S : Set (List UInt8)) : Prop :=
  ∀ cid, cid.codec = dagCborCodec → ∀ data ∈ S, cid.Names data → self.links cid = .ok none →
    ∀ links, Libraries.links data = some links → links = []

/-- The block comes in under DAG-CBOR, or it has no links, or they are already there under DAG-CBOR. -/
def CoversLinks (tables : Tables) (i : Insertion) : Prop :=
  i.block.cid.codec = dagCborCodec ∨ Libraries.links i.block.data = some [] ∨
    ∃ v, tables.dataToLinks.get? ⟨dagCborCodec, Libraries.blake3 i.block.data⟩ = some v

theorem insertLinks_of_insertBlock {S : Set (List UInt8)} (laws : Libraries.Laws S)
    {tables tables' : Tables} {i : Insertion} (hS : i.block.data ∈ S)
    (h : insertBlock tables i = some tables') :
    tables.insertLinks i.block.cid (Libraries.blake3 i.block.data) i.block.data
      = (.ok (), tables') := by
  rw [insertBlock, laws.tagHash_eq _ hS] at h
  split at h
  · split at h
    · rename_i heq
      cases h
      exact Tables.importBlock_ok_iff.mp heq
    · cases h
  · split at h
    · rename_i heq
      cases h
      exact heq
    · cases h

theorem Tables.links_eq_none_iff {tables : Tables} {cid : Cid} :
    tables.links cid = .ok none ↔ ∃ hash, tables.hashToBlake3.get? cid.hash = some hash ∧
      tables.dataToLinks.get? ⟨cid.codec, hash⟩ = none := by
  rw [links]
  cases tables.hashToBlake3.get? cid.hash with
  | none => simp
  | some hash =>
      cases hrow : tables.dataToLinks.get? ⟨cid.codec, hash⟩ with
      | none => simp [hrow]
      | some v => cases hslice : Libraries.fromSlice v <;> simp [hrow, hslice]

/-- A row for links is missing after an insertion if it was before, and is not the one written. -/
theorem Tables.get?_insertLinks_eq_none {tables tables' : Tables} {cid : Cid} {hash : Hash}
    {data : List UInt8} (h : tables.insertLinks cid hash data = (.ok (), tables')) (key : DataKey) :
    tables'.dataToLinks.get? key = none ↔ tables.dataToLinks.get? key = none ∧
      (key = ⟨cid.codec, hash⟩ → Libraries.links data = some []) := by
  obtain ⟨links, hlinks, _, ⟨rfl, hrows⟩ | ⟨v, hne, _, hrows⟩⟩ := insertLinks_ok h
  · simp [hrows, hlinks]
  · rw [hrows, SortedTable.get?_insert, hlinks]
    split_ifs with hkey <;> simp [hkey, hne]

theorem hashToBlake3_insertBlock {S : Set (List UInt8)} (laws : Libraries.Laws S)
    {tables tables' : Tables} {i : Insertion} (hS : i.block.data ∈ S)
    (hstep : insertBlock tables i = some tables') :
    tables'.hashToBlake3
      = tables.hashToBlake3.insert i.block.cid.hash (Libraries.blake3 i.block.data) := by
  obtain ⟨_, _, hrow, _⟩ := Tables.insertLinks_ok (insertLinks_of_insertBlock laws hS hstep)
  exact hrow

/-- If the links of the block are not covered, its DAG-CBOR cid is present afterwards and has no row. -/
theorem coversLinks_of_linksComplete {S : Set (List UInt8)} (laws : Libraries.Laws S)
    {tables tables' : Tables} {i : Insertion} (hS : i.block.data ∈ S)
    (hstep : insertBlock tables i = some tables') (hafter : tables'.LinksComplete S) :
    CoversLinks tables i := by
  have hinsert := insertLinks_of_insertBlock laws hS hstep
  by_contra hnot
  rw [CoversLinks, not_or, not_or] at hnot
  obtain ⟨hcodec, hlinks, hnone⟩ := hnot
  let other : Cid := { i.block.cid with codec := dagCborCodec }
  have hnoRow : tables'.dataToLinks.get? ⟨dagCborCodec, Libraries.blake3 i.block.data⟩ = none := by
    refine (Tables.get?_insertLinks_eq_none hinsert _).mpr ⟨?_, fun hkey => ?_⟩
    · exact Option.eq_none_iff_forall_ne_some.mpr fun v hv => hnone ⟨v, hv⟩
    · exact absurd (DataKey.mk.inj hkey).1.symm hcodec
  have hmissing : tables'.links other = .ok none := by
    refine Tables.links_eq_none_iff.mpr ⟨_, ?_, hnoRow⟩
    rw [hashToBlake3_insertBlock laws hS hstep]
    exact SortedTable.get?_insert_self _ _ _
  obtain ⟨links, hread, _⟩ := Tables.insertLinks_ok hinsert
  refine hlinks ?_
  rw [hread, hafter other rfl _ hS i.block.names hmissing links hread]

theorem linksComplete_of_coversLinks {S : Set (List UInt8)} (laws : Libraries.Laws S)
    {tables tables' : Tables} {i : Insertion} (hS : i.block.data ∈ S)
    (h : tables.LinksComplete S) (hstep : insertBlock tables i = some tables')
    (hcovers : CoversLinks tables i) : tables'.LinksComplete S := by
  have hinsert := insertLinks_of_insertBlock laws hS hstep
  intro cid hcodec data hdata hnames hnone links hlinks
  obtain ⟨hash, hhash, hnone⟩ := Tables.links_eq_none_iff.mp hnone
  obtain ⟨hbefore, hkey⟩ := (Tables.get?_insertLinks_eq_none hinsert _).mp hnone
  rw [hashToBlake3_insertBlock laws hS hstep, SortedTable.get?_insert] at hhash
  split_ifs at hhash with heq
  · -- the cid is one of the block
    cases hhash
    have hsame : data = i.block.data := by
      have hnames' : i.block.cid.Names data := by
        rw [Cid.Names, ← heq]
        exact hnames
      exact hnames'.unique laws hdata hS i.block.names
    subst hsame
    rw [hcodec] at hbefore hkey
    rcases hcovers with hdagCbor | hempty | ⟨v, hv⟩
    · rw [hkey (by rw [hdagCbor])] at hlinks
      exact (Option.some.inj hlinks).symm
    · rw [hempty] at hlinks
      exact (Option.some.inj hlinks).symm
    · rw [hv] at hbefore
      cases hbefore
  · exact h cid hcodec data hdata hnames (Tables.links_eq_none_iff.mpr ⟨hash, hhash, hbefore⟩) links
      hlinks

/-- **The step.** -/
theorem linksComplete_step_iff {S : Set (List UInt8)} (laws : Libraries.Laws S)
    {tables tables' : Tables} {i : Insertion} (hS : i.block.data ∈ S)
    (h : tables.LinksComplete S) (hstep : insertBlock tables i = some tables') :
    tables'.LinksComplete S ↔ CoversLinks tables i :=
  ⟨coversLinks_of_linksComplete laws hS hstep, linksComplete_of_coversLinks laws hS h hstep⟩

/-- **When no links always means a leaf.**  In every state of a sequence of insertions, by whatever
routes and under whatever codecs, if and only if each of them covers the links of its block.  An insertion
by import is what the command does when it comes to a block. -/
theorem missing_links_iff {S : Set (List UInt8)} (laws : Libraries.Laws S)
    {insertions : List Insertion} (hS : ∀ i ∈ insertions, i.block.data ∈ S) {tables : Tables}
    (hrun : Transition.run insertBlock Tables.empty insertions = some tables) :
    ((∀ earlier later, insertions = earlier ++ later →
        ∀ m, Transition.run insertBlock Tables.empty earlier = some m → m.LinksComplete S)
      ↔ Transition.Conforms insertBlock CoversLinks Tables.empty insertions) ∧
      ∀ (m m' : Tables) store cid data stream,
        Transition.run Importer.step ⟨.Next, .ok (cid, data) :: stream, m, store⟩
            (List.replicate 4 .proceeds) = some ⟨.Next, stream, m', (store.addBytes data).1⟩
          ↔ m.importBlock cid (Libraries.tagHash data) data = (.ok (), m') := by
  refine ⟨?_, fun m m' store cid data stream => Importer.run_block_iff⟩
  refine Transition.always_iff_conforms (I := fun m : Tables => m.LinksComplete S) ?_
    (fun m i hi m' hm hstep => linksComplete_step_iff laws (hS i hi) hm hstep) hrun
  intro cid _ data _ _ hnone
  cases hnone

end Aliases

section Runs

attribute [local instance] Libraries.toy

/-- The data `[1]`, which has a link, under a cid that takes it for raw. -/
def rawRootBlock : Block := ⟨{ Libraries.root with codec := rawCodec }, [1], by decide +kernel⟩

/-- The data comes in under DAG-CBOR, and then as raw. -/
def dagCborFirst : List Insertion := [⟨rootBlock, .Import⟩, ⟨rawRootBlock, .InsertLinks⟩]

/-- The condition can be met. -/
theorem links_complete_dagCborFirst :
    ∃ tables, Transition.run insertBlock Tables.empty dagCborFirst = some tables ∧
      tables.LinksComplete {[1], [5]} := by
  have hsome : (Transition.run insertBlock Tables.empty dagCborFirst).isSome = true := by
    decide +kernel
  obtain ⟨tables, hrun⟩ := Option.isSome_iff_exists.mp hsome
  have hS : ∀ i ∈ dagCborFirst, i.block.data ∈ ({[1], [5]} : Set (List UInt8)) := by
    intro i hi
    rcases List.mem_cons.mp hi with rfl | hi
    · exact .inl rfl
    · rw [List.mem_singleton.mp hi]
      exact .inl rfl
  refine ⟨tables, hrun, ?_⟩
  refine (missing_links_iff Libraries.toy_laws hS hrun).1.mpr ?_ _ [] (List.append_nil _).symm _ hrun
  refine ⟨.inl rfl, fun m hm => ⟨.inr (.inr ⟨[1], ?_⟩), fun _ _ => trivial⟩⟩
  cases hm
  rfl

/-- **A missing row that is no leaf.**  The data comes in as raw only, and then its DAG-CBOR cid is
present without its link. -/
theorem links_cut_off :
    ∃ tables, Transition.run insertBlock Tables.empty [⟨rawRootBlock, .InsertLinks⟩] = some tables ∧
      ¬ tables.LinksComplete {[1], [5]} := by
  refine ⟨_, rfl, fun h => ?_⟩
  have hlinks := h Libraries.root rfl [1] (.inl rfl) rootBlock.names ?_ [Libraries.leaf] rfl
  · cases hlinks
  · exact Tables.links_eq_none_iff.mpr ⟨Libraries.padded [1], rfl, rfl⟩

end Runs

end IrohExperiments.DagSync
