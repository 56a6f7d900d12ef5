import IrohExperiments.Lib.Cbor
import IrohExperiments.DagSync.Sync

/-!
# CAR files

A CAR file is a header with the cids of its roots, and behind it one section for each block, with
the cid and the data.  An import reads such files with the reader of a library, and an export writes
them itself: it puts together the lengths, the header and the sections.

* `CarFile.bytes` is the format.  A header is a CBOR map, and a root in it is a *link*, that is, a
  byte string behind tag 42.
* `CarReader` is the reader of the library, a parameter.  `CarReader.Exact` is what is relied on,
  and `CarReader.strict` is a reader that has it.  A file without roots counts as empty and is refused.
* `exportTraversal` is the export.  Its sections are those of the format, for the blocks of the
  traversal in order (`exportBlocks_eq`).  Its header is not: the cids in it are serialized as byte
  strings without a tag, so no exported file with a root is a CAR file (`exported_ne_bytes`).

So no exported file can be imported (`export_not_imported`).  `export_sections` says how far it is from one
that can: behind a header with links it would be read back.
-/

namespace IrohExperiments.DagSync

/-! ## Cids as bytes -/

/-- A multihash: its code, and its digest behind the length.  No digest has more than 64 bytes. -/
def Multihash.bytes : Codec Multihash where
  encode m := Codec.u64.encode m.code ++ (Codec.sized Codec.usize).encode m.digest
  decode data :=
    ((Codec.u64.pair (Codec.sized Codec.usize)).decode data).bind fun r =>
      if r.1.2.length ≤ 64 then some (⟨r.1.1, r.1.2⟩, r.2) else none
  Fits m := m.digest.length ≤ 64
  decode_encode m hm rest := by
    have hdigest : (Codec.sized Codec.usize).Fits m.digest := lt_of_le_of_lt hm (by decide)
    have h := (Codec.u64.pair (Codec.sized Codec.usize)).decode_encode (m.code, m.digest)
      ⟨Codec.u64_fits m.code, hdigest⟩ rest
    exact (congrArg (Option.bind · _) h).trans (if_pos hm)

namespace Cid

/-- `to_bytes`.  A cid of version 0 is its multihash. -/
def toBytes (self : Cid) : List UInt8 :=
  match self.version with
  | .V0 => Multihash.bytes.encode self.hash
  | .V1 => 1 :: (Codec.u64.pair Multihash.bytes).encode (self.codec, self.hash)

/-- What the type of the cid library guarantees: a digest has at most 64 bytes, and version 0 has
one codec and one hash function. -/
structure Valid (cid : Cid) : Prop where
  digest : cid.hash.digest.length ≤ 64
  v0 : cid.version = .V0 → cid.codec = 0x70 ∧ cid.hash.code = 0x12 ∧ cid.hash.digest.length = 32

/-- `read_bytes`.  An integer is accepted in its shortest form only, so a cid is read from its own bytes. -/
def readBytes : List UInt8 → Option (Cid × List UInt8)
  | 0x12 :: 0x20 :: data =>
      if 32 ≤ data.length then some (⟨.V0, 0x70, ⟨0x12, data.take 32⟩⟩, data.drop 32) else none
  | 0x01 :: data =>
      ((Codec.u64.pair Multihash.bytes).decode data).bind fun r =>
        if (Codec.u64.pair Multihash.bytes).encode r.1 ++ r.2 = data then
          some (⟨.V1, r.1.1, r.1.2⟩, r.2)
        else none
  | _ => none

/-- **The bytes of a cid are read as the cid.** -/
theorem readBytes_toBytes {self : Cid} (h : self.Valid) (rest : List UInt8) :
    readBytes (self.toBytes ++ rest) = some (self, rest) := by
  obtain ⟨version, codec, code, digest⟩ := self
  cases version with
  | V0 =>
      obtain ⟨hcodec, hcode, hdigest⟩ := h.v0 rfl
      simp only at hcodec hcode hdigest
      subst hcodec hcode
      have hbytes : toBytes ⟨.V0, 0x70, ⟨0x12, digest⟩⟩ = 0x12 :: 0x20 :: digest := by
        show Codec.varint 10 0x12 ++ (Codec.varint 10 digest.length ++ digest) = _
        rw [hdigest]
        rfl
      rw [hbytes]
      simp only [List.cons_append, readBytes, List.length_append, hdigest, Nat.le_add_right,
        if_true]
      rw [List.take_left' hdigest, List.drop_left' hdigest]
  | V1 =>
      have hdecode := (Codec.u64.pair Multihash.bytes).decode_encode (codec, ⟨code, digest⟩)
        ⟨Codec.u64_fits codec, h.digest⟩ rest
      simp only [toBytes, List.cons_append, readBytes, hdecode, Option.bind_some, if_true]

end Cid

/-! ## The format -/

/-- A link: tag 42 on the bytes of a cid, with a zero byte in front. -/
def link : Codec (List UInt8) :=
  (Cbor.tagged 42 Cbor.byteString).via (fun cid => 0 :: cid)
    (fun
      | 0 :: cid => some cid
      | _ => none)
    fun _ => rfl

/-- The name of a field. -/
def fieldName (name : String) : List UInt8 :=
  Cbor.textString.encode (name.toList.map fun c => UInt8.ofNat c.toNat)

/-- The header of a file, `{roots: [..], version: 1}`, with the given encoding of a root. -/
def carHeader (root : Codec (List UInt8)) : Codec (List (List UInt8)) :=
  (Cbor.array root).enclosed (Cbor.head 5 2 ++ fieldName "roots")
    (fieldName "version" ++ Cbor.unsigned.encode 1)

/-- A part of a file, behind its length. -/
def frame : Codec (List UInt8) := Codec.sized Codec.usize

theorem frame_encode (data : List UInt8) :
    frame.encode data = Codec.varint 10 data.length ++ data := rfl

/-- The contents of a file. -/
structure CarFile where
  roots : List Cid
  blocks : List (Cid × List UInt8)
  deriving DecidableEq

/-- One frame for each block, with the cid and the data. -/
def sections (blocks : List (Cid × List UInt8)) : List UInt8 :=
  blocks.flatMap fun b => frame.encode (b.1.toBytes ++ b.2)

namespace CarFile

/-- A file of the format, in version 1. -/
def bytes (self : CarFile) : List UInt8 :=
  frame.encode ((carHeader link).encode (self.roots.map Cid.toBytes)) ++ sections self.blocks

/-- Lengths that fit into 64 bits, and cids of the cid library. -/
structure Fits (car : CarFile) : Prop where
  header : frame.Fits ((carHeader link).encode (car.roots.map Cid.toBytes))
  links : (carHeader link).Fits (car.roots.map Cid.toBytes)
  roots : ∀ cid ∈ car.roots, cid.Valid
  blocks : ∀ b ∈ car.blocks, b.1.Valid ∧ frame.Fits (b.1.toBytes ++ b.2)

end CarFile

/-- Up to the first root, the encoding of a header does not depend on how a root is encoded. -/
theorem carHeader_encode_cons (item : Codec (List UInt8)) (root : List UInt8)
    (roots : List (List UInt8)) (file : List UInt8) :
    ∃ rest, (carHeader item).encode (root :: roots) ++ file
      = (Cbor.head 5 2 ++ fieldName "roots") ++ (Cbor.head 4 (roots.length + 1) ++
        (item.encode root ++ rest)) := by
  refine ⟨roots.flatMap item.encode
    ++ ((fieldName "version" ++ Cbor.unsigned.encode 1) ++ file), ?_⟩
  show (_ ++ ((_ ++ (item.encode root ++ _)) ++ _)) ++ file = _
  simp only [List.append_assoc]
  rfl

/-- **An exported file is not a CAR file**, if it has a root: where the format has the tag of the
first link, there is a byte string. -/
theorem exported_ne_bytes {roots : List Cid} (hroots : roots ≠ []) (file : List UInt8)
    (blocks : List (Cid × List UInt8)) :
    frame.encode ((carHeader Cbor.byteString).encode (roots.map Cid.toBytes)) ++ file
      ≠ CarFile.bytes ⟨roots, blocks⟩ := by
  intro h
  obtain ⟨root, roots, rfl⟩ := List.exists_cons_of_ne_nil hroots
  -- the headers have the same bytes until one of them ends
  have hheader : (carHeader Cbor.byteString).encode ((root :: roots).map Cid.toBytes) ++ file
      = (carHeader link).encode ((root :: roots).map Cid.toBytes) ++ sections blocks := by
    rw [CarFile.bytes, frame_encode, frame_encode, List.append_assoc, List.append_assoc] at h
    exact Codec.varint_append_inj 10 h
  obtain ⟨rest, hbytes⟩ :=
    carHeader_encode_cons Cbor.byteString root.toBytes (roots.map Cid.toBytes) file
  obtain ⟨rest', hlink⟩ :=
    carHeader_encode_cons link root.toBytes (roots.map Cid.toBytes) (sections blocks)
  rw [List.map_cons, hbytes, hlink, List.append_cancel_left_eq, List.append_cancel_left_eq]
    at hheader
  have hitem : Cbor.head 2 root.toBytes.length ++ (root.toBytes ++ rest)
      = Cbor.head 6 42 ++ (Cbor.byteString.encode (0 :: root.toBytes) ++ [] ++ rest') := by
    have hbyteString : Cbor.byteString.encode root.toBytes
        = Cbor.head 2 root.toBytes.length ++ root.toBytes := rfl
    have hlink : link.encode root.toBytes
        = Cbor.head 6 42 ++ (Cbor.byteString.encode (0 :: root.toBytes) ++ []) := rfl
    rw [hbyteString, hlink, List.append_assoc, List.append_assoc] at hheader
    exact hheader
  exact absurd (Cbor.head_append_inj (by decide) (by decide) hitem).1 (by decide)

/-! ## Reading -/

inductive CarError where
  | InvalidHeader
  | InvalidBlock
  deriving DecidableEq

/-- `CarReader`: from the bytes of a file to the roots in its header and the stream of its blocks. -/
abbrev CarReader :=
  List UInt8 → Except CarError (List Cid × List (Except CarError (Cid × List UInt8)))

/-- What is relied on: a reader accepts files of the format that have a root, and no others. -/
structure CarReader.Exact (reader : CarReader) : Prop where
  reads : ∀ car : CarFile, car.roots ≠ [] → car.Fits →
    reader car.bytes = .ok (car.roots, car.blocks.map .ok)
  only : ∀ file roots blocks, reader file = .ok (roots, blocks.map .ok) →
    roots ≠ [] ∧ file = CarFile.bytes ⟨roots, blocks⟩

/-! ## Export -/

section Export

variable [Libraries]

inductive ExportError where
  | Traversal (e : SyncError)
  | Blake3HashNotFound
  | DataNotFound
  | BufferFull

/-- `postcard::to_slice` of a size, into a buffer of so many bytes. -/
def toSlice (buffer size : ℕ) : Option (List UInt8) :=
  if (Codec.varint 10 size).length ≤ buffer then some (Codec.varint 10 size) else none

/-- The loop of `export_traversal`: what it writes behind the header. -/
def exportBlocks (db : Tables) (store : BlobStore) (traversal : Traversal) :
    Except ExportError (List UInt8) :=
  match _h : traversal.next db with
  | .error e => .error (.Traversal e)
  | .ok none => .ok []
  | .ok (some (cid, traversal)) =>
      match db.blake3Hash cid.hash with
      | none => .error .Blake3HashNotFound
      | some blake3Hash =>
          match store.get blake3Hash with
          | none => .error .DataNotFound
          | some data =>
              let blockBytes := cid.toBytes ++ data
              match toSlice 9 blockBytes.length with
              | none => .error .BufferFull
              | some size =>
                  (exportBlocks db store traversal).map fun file => size ++ blockBytes ++ file
termination_by traversal.remaining db
decreasing_by exact Traversal.remaining_lt _h

/-- `export_traversal`.  In the header a cid is serialized as a byte string. -/
def exportTraversal (db : Tables) (store : BlobStore) (traversal : Traversal) :
    Except ExportError (List UInt8) :=
  let header := (carHeader Cbor.byteString).encode (traversal.roots.map Cid.toBytes)
  (exportBlocks db store traversal).map fun file =>
    Codec.varint 10 header.length ++ header ++ file

/-- The cids of the traversal all have data, and this is what they are. -/
structure Traversal.HasBlocks (db : Tables) (store : BlobStore) (traversal : Traversal)
    (blocks : List (Cid × List UInt8)) : Prop where
  cids : traversal.collect db = .ok (blocks.map Prod.fst)
  data : ∀ b ∈ blocks, (db.blake3Hash b.1.hash).bind store.get = some b.2

/-- **The sections of an exported file** are those of the blocks. -/
theorem exportBlocks_eq {db : Tables} {store : BlobStore} {traversal : Traversal}
    {blocks : List (Cid × List UInt8)} (h : traversal.HasBlocks db store blocks)
    (hsize : ∀ b ∈ blocks, (b.1.toBytes ++ b.2).length < 2 ^ 63) :
    exportBlocks db store traversal = .ok (sections blocks) := by
  induction blocks generalizing traversal with
  | nil =>
      have hnone := Traversal.next_of_collect_nil h.cids
      rw [exportBlocks]
      split <;> rename_i hnext <;> rw [hnext] at hnone
      · cases hnone
      · rfl
      · cases hnone
  | cons b blocks ih =>
      obtain ⟨t, hsome, ht⟩ := Traversal.next_of_collect_cons h.cids
      have hrest := ih ⟨ht, fun c hc => h.data c (List.mem_cons_of_mem _ hc)⟩
        fun c hc => hsize c (List.mem_cons_of_mem _ hc)
      obtain ⟨hash, hhash, hdata⟩ := Option.bind_eq_some_iff.mp (h.data b List.mem_cons_self)
      have hslice : toSlice 9 (b.1.toBytes ++ b.2).length
          = some (Codec.varint 10 (b.1.toBytes ++ b.2).length) := by
        refine if_pos (Codec.varint_length_le 1 (by decide) ?_)
        exact lt_of_lt_of_le (hsize b List.mem_cons_self) (by decide)
      rw [exportBlocks]
      split <;> rename_i hnext <;> rw [hnext] at hsome
      · cases hsome
      · cases hsome
      · cases hsome
        simp only [hhash, hdata, hslice, hrest]
        rfl

theorem exportTraversal_eq_ok {db : Tables} {store : BlobStore} {traversal : Traversal}
    {file : List UInt8} (h : exportTraversal db store traversal = .ok file) :
    ∃ rest, file
      = frame.encode ((carHeader Cbor.byteString).encode (traversal.roots.map Cid.toBytes)) ++ rest := by
  simp only [exportTraversal, ← frame_encode] at h
  cases hblocks : exportBlocks db store traversal with
  | error e =>
      simp only [hblocks, Except.map] at h
      cases h
  | ok rest =>
      simp only [hblocks, Except.map] at h
      exact ⟨rest, (Except.ok.inj h).symm⟩

/-- **No export can be imported**, whatever the traversal yields.  The reader wants a root, and every root in an
exported header is a byte string. -/
theorem export_not_imported {reader : CarReader} (hreader : reader.Exact) {db : Tables}
    {store : BlobStore} {opts : TraversalOpts} {blocks : List (Cid × List UInt8)} :
    ¬ ∃ file, exportTraversal db store (getTraversal opts) = .ok file ∧
      reader file = .ok ((getTraversal opts).roots, blocks.map .ok) := by
  rintro ⟨file, hfile, hread⟩
  obtain ⟨hroots, hbytes⟩ := hreader.only _ _ _ hread
  obtain ⟨rest, hrest⟩ := exportTraversal_eq_ok hfile
  exact exported_ne_bytes hroots rest blocks (hrest.symm.trans hbytes)

/-- **Nothing but the header is wrong.**  With links for the roots, a reader gets from an exported
file the roots and the blocks of the traversal, in order. -/
theorem export_sections {reader : CarReader} (hreader : reader.Exact) {db : Tables}
    {store : BlobStore} {traversal : Traversal} {blocks : List (Cid × List UInt8)}
    (hblocks : traversal.HasBlocks db store blocks)
    (hsize : ∀ b ∈ blocks, (b.1.toBytes ++ b.2).length < 2 ^ 63)
    (hroots : traversal.roots ≠ []) (hfits : CarFile.Fits ⟨traversal.roots, blocks⟩) :
    ∃ file, exportTraversal db store traversal = .ok
        (frame.encode ((carHeader Cbor.byteString).encode (traversal.roots.map Cid.toBytes)) ++ file) ∧
      reader (frame.encode ((carHeader link).encode (traversal.roots.map Cid.toBytes)) ++ file)
        = .ok (traversal.roots, blocks.map .ok) := by
  refine ⟨sections blocks, ?_, hreader.reads ⟨traversal.roots, blocks⟩ hroots hfits⟩
  simp only [exportTraversal, exportBlocks_eq hblocks hsize, ← frame_encode]
  rfl

end Export

/-! ## A reader -/

/-- Read sections to the end of a file, `n` at most. -/
def readSections : ℕ → List UInt8 → Option (List (Cid × List UInt8))
  | _, [] => some []
  | 0, _ :: _ => none
  | n + 1, b :: data => do
      let next ← frame.decode (b :: data)
      let block ← Cid.readBytes next.1
      let blocks ← readSections n next.2
      return block :: blocks

def CarFile.read (file : List UInt8) : Option CarFile := do
  let header ← frame.decode file
  let roots ← (carHeader link).fromBytes header.1
  let roots ← roots.mapM fun cid => (Cid.readBytes cid).map Prod.fst
  let blocks ← readSections header.2.length header.2
  return ⟨roots, blocks⟩

/-- A reader of files in which everything is as it has to be. -/
def CarReader.strict : CarReader := fun file =>
  match CarFile.read file with
  | some car =>
      if car.roots ≠ [] ∧ car.bytes = file then .ok (car.roots, car.blocks.map .ok)
      else .error .InvalidHeader
  | none => .error .InvalidHeader

theorem readSections_sections {blocks : List (Cid × List UInt8)}
    (h : ∀ b ∈ blocks, b.1.Valid ∧ frame.Fits (b.1.toBytes ++ b.2)) {n : ℕ}
    (hn : blocks.length ≤ n) : readSections n (sections blocks) = some blocks := by
  induction blocks generalizing n with
  | nil => cases n <;> rfl
  | cons b blocks ih =>
      obtain ⟨hvalid, hfits⟩ := h b List.mem_cons_self
      cases n with
      | zero => exact absurd hn (Nat.not_succ_le_zero _)
      | succ n =>
          have hdecode := frame.decode_encode (b.1.toBytes ++ b.2) hfits (sections blocks)
          have hrest := ih (fun c hc => h c (List.mem_cons_of_mem _ hc)) (Nat.le_of_succ_le_succ hn)
          have hsections : sections (b :: blocks)
              = frame.encode (b.1.toBytes ++ b.2) ++ sections blocks := rfl
          rw [← hsections] at hdecode
          obtain ⟨c, data, hcons⟩ : ∃ c data, sections (b :: blocks) = c :: data := by
            refine List.exists_cons_of_ne_nil fun hnil => ?_
            rw [hnil] at hdecode
            cases hdecode
          rw [hcons] at hdecode ⊢
          rw [readSections, hdecode, Option.bind_eq_bind, Option.bind_some,
            Cid.readBytes_toBytes hvalid, Option.bind_eq_bind, Option.bind_some, hrest]
          rfl

theorem length_le_sections (blocks : List (Cid × List UInt8)) :
    blocks.length ≤ (sections blocks).length := by
  induction blocks with
  | nil => exact Nat.le_refl _
  | cons b blocks ih =>
      have hpos : 0 < (Codec.varint 10 (b.1.toBytes ++ b.2).length).length :=
        Codec.varint_length_pos 9 _
      have hsections : sections (b :: blocks)
          = (Codec.varint 10 (b.1.toBytes ++ b.2).length ++ (b.1.toBytes ++ b.2))
            ++ sections blocks := rfl
      rw [hsections, List.length_append, List.length_append, List.length_cons]
      omega

theorem mapM_readBytes {cids : List Cid} (h : ∀ cid ∈ cids, cid.Valid) :
    ((cids.map Cid.toBytes).mapM fun cid => (Cid.readBytes cid).map Prod.fst) = some cids := by
  induction cids with
  | nil => rfl
  | cons cid cids ih =>
      have hcid := Cid.readBytes_toBytes (h cid List.mem_cons_self) []
      rw [List.append_nil] at hcid
      rw [List.map_cons, List.mapM_cons, hcid, ih fun c hc => h c (List.mem_cons_of_mem _ hc)]
      rfl

/-- **Round trip of files.** -/
theorem CarFile.read_bytes {car : CarFile} (h : car.Fits) : CarFile.read car.bytes = some car := by
  have hheader := frame.decode_encode _ h.header (sections car.blocks)
  have hroots := (carHeader link).fromBytes_encode h.links
  have hblocks := readSections_sections h.blocks (length_le_sections car.blocks)
  rw [CarFile.read, CarFile.bytes, hheader, Option.bind_eq_bind, Option.bind_some, hroots,
    Option.bind_eq_bind, Option.bind_some, mapM_readBytes h.roots, Option.bind_eq_bind,
    Option.bind_some, hblocks]
  rfl

theorem CarReader.strict_exact : CarReader.strict.Exact where
  reads car hroots h := by
    rw [strict, CarFile.read_bytes h]
    exact if_pos ⟨hroots, rfl⟩
  only file roots blocks h := by
    have hok : ∀ {l l' : List (Cid × List UInt8)}, l.map Except.ok = l'.map (Except.ok (ε := CarError))
        → l = l' := fun h => List.map_injective_iff.mpr (fun _ _ => Except.ok.inj) h
    rw [strict] at h
    split at h
    · rename_i car _
      split_ifs at h with hcar
      · obtain ⟨hroots, hblocks⟩ := Prod.mk.inj (Except.ok.inj h)
        rw [← hroots, ← hok hblocks]
        exact ⟨hcar.1, hcar.2.symm⟩
    · cases h

section Runs

attribute [local instance] Libraries.toy

/-- The tables of a node with a single leaf. -/
def leafTables : Tables := Tables.empty.insertHash Libraries.leaf (Libraries.padded [5])

theorem hasBlocks_leaf :
    (getTraversal (.Sequence [Libraries.leaf])).HasBlocks leafTables ⟨[[5]]⟩
      [(Libraries.leaf, [5])] := by
  refine ⟨?_, ?_⟩
  · rw [getTraversal, Traversal.collect_eq]
    simp only [Traversal.next]
    rw [Traversal.collect_eq]
    rfl
  · intro b hb
    rw [List.mem_singleton.mp hb]
    decide +kernel

/-- Also not the file without roots and blocks. -/
theorem export_not_imported_nil :
    CarReader.strict.Exact ∧ (getTraversal (.Sequence [])).HasBlocks leafTables ⟨[[5]]⟩ [] ∧
      ¬ ∃ file, exportTraversal leafTables ⟨[[5]]⟩ (getTraversal (.Sequence [])) = .ok file ∧
        CarReader.strict file = .ok ((getTraversal (.Sequence [])).roots, [].map .ok) := by
  refine ⟨CarReader.strict_exact, ⟨?_, fun b hb => absurd hb List.not_mem_nil⟩,
    export_not_imported CarReader.strict_exact⟩
  rw [getTraversal, Traversal.collect_eq]
  rfl

/-- **A file that cannot be imported**: the export of a single leaf. -/
theorem exported_leaf_not_read :
    CarReader.strict.Exact ∧
      (getTraversal (.Sequence [Libraries.leaf])).HasBlocks leafTables ⟨[[5]]⟩
        [(Libraries.leaf, [5])] ∧
      ¬ ∃ file, exportTraversal leafTables ⟨[[5]]⟩ (getTraversal (.Sequence [Libraries.leaf]))
          = .ok file ∧
        CarReader.strict file = .ok ([Libraries.leaf], [.ok (Libraries.leaf, [5])]) := by
  refine ⟨CarReader.strict_exact, hasBlocks_leaf, ?_⟩
  rintro ⟨file, hfile, hread⟩
  obtain ⟨rest, hrest⟩ := exportTraversal_eq_ok hfile
  exact exported_ne_bytes (List.cons_ne_nil Libraries.leaf []) rest _
    (hrest.symm.trans (CarReader.strict_exact.only _ _ [(Libraries.leaf, [5])] hread).2)

end Runs

end IrohExperiments.DagSync
