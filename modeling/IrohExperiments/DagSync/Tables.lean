import IrohExperiments.DagSync.Protocol
import IrohExperiments.Lib.SortedTable
import Mathlib.Data.Set.Function

/-!
# The tables of a node

Data is stored under its blake3 hash, but the cids of a DAG hold other hashes.  A node has two
tables for that: `hashToBlake3` maps the multihash of a cid to a blake3 hash, and `dataToLinks` maps
the codec of a cid and a blake3 hash to the links of the data.  Data without links has no row in the
second table.

The sync stands on libraries for hashing, for the DAG codec and for verified streaming.  They are
the parameter `Libraries`, and `Libraries.Laws` is what an honest run relies on.  The laws are about
a set of data only: a hash function cannot be injective, but the data that two nodes hold may well
be without a collision.

`Built` says that tables come about by inserting blocks.  Under the laws such tables are determined
by their blocks as far as it matters (`Built.reflects`): what `links` returns for the cid of a block
is a matter of the data of the block alone.
-/

namespace IrohExperiments.DagSync

/-- The libraries that the sync is built on.  `code` is the table of hash functions, `tagHash` is the
hash that the blob store gives to data, and `decodeRanges` returns the data with the number of bytes
that it read. -/
class Libraries where
  links : List UInt8 → Option (List Cid)
  toVec : List Cid → Option (List UInt8)
  fromSlice : List UInt8 → Option (List Cid)
  code : UInt64 → Option (List UInt8 → Multihash)
  blake3 : List UInt8 → Hash
  tagHash : List UInt8 → Hash
  exportBao : List UInt8 → List UInt8
  decodeRanges : Hash → UInt64 → List UInt8 → Option (List UInt8 × ℕ)

namespace Libraries

/-- A hash for examples: the data itself, padded with zeros. -/
def padded (data : List UInt8) : Hash := ⟨(data ++ List.replicate 32 0).take 32, by simp⟩

theorem padded_injOn : Set.InjOn padded {[1], [5]} := by
  rintro _ (rfl | rfl) _ (rfl | rfl) h
  · rfl
  · exact absurd h (by decide)
  · exact absurd h (by decide)
  · rfl

/-- The raw node with the data `[5]`. -/
def leaf : Cid := ⟨.V1, rawCodec, ⟨0x1e, (padded [5]).toList⟩⟩

/-- The node with the data `[1]`, which is the encoding of a link to `leaf`. -/
def root : Cid := ⟨.V1, 0x71, ⟨0x1e, (padded [1]).toList⟩⟩

/-- Libraries for examples, in which `[1]` is the only data with a link. -/
@[reducible] def toy : Libraries where
  links data := if data = [1] then some [leaf] else some []
  toVec links := if links = [leaf] then some [1] else none
  fromSlice v := if v = [1] then some [leaf] else none
  code c := if c = 0x1e then some fun data => ⟨0x1e, (padded data).toList⟩ else none
  blake3 := padded
  tagHash := padded
  exportBao data := Bytes.leBytes 8 data.length ++ data
  decodeRanges hash size input :=
    let data := input.take size.toNat
    if size.toNat ≤ input.length ∧ padded data = hash then some (data, size.toNat) else none

end Libraries

variable [Libraries]

/-- The digest of the data with the hash function that a cid names is the hash of the cid. -/
def Cid.Names (self : Cid) (data : List UInt8) : Prop :=
  (Libraries.code self.hash.code).map (fun hasher => hasher data) = some self.hash

instance (cid : Cid) (data : List UInt8) : Decidable (cid.Names data) :=
  inferInstanceAs (Decidable (_ = _))

/-- A node of a DAG: data together with a cid that names it. -/
structure Block where
  cid : Cid
  data : List UInt8
  names : cid.Names data

/-- What an honest run relies on, for the data in a set: the hash functions have no collision there,
the blob store tags data with its blake3 hash, links that can be written can be read back, and the
export of data, which starts with its size, decodes to the data. -/
structure Libraries.Laws (S : Set (List UInt8)) : Prop where
  blake3_injOn : S.InjOn blake3
  hasher_injOn : ∀ c hasher, code c = some hasher → S.InjOn hasher
  tagHash_eq : ∀ d ∈ S, tagHash d = blake3 d
  fromSlice_toVec : ∀ links v, toVec links = some v → fromSlice v = some links
  decodeRanges_exportBao : ∀ d ∈ S, ∀ rest, ∃ size body,
    exportBao d = Bytes.leBytes 8 size ++ body ∧ size < 2 ^ 64 ∧
      decodeRanges (blake3 d) (UInt64.ofNat size) (body ++ rest) = some (d, body.length)

/-- **A cid names one piece of data.** -/
theorem Cid.Names.unique {S : Set (List UInt8)} (laws : Libraries.Laws S) {cid : Cid}
    {d d' : List UInt8} (hd : d ∈ S) (hd' : d' ∈ S) (h : cid.Names d) (h' : cid.Names d') :
    d = d' := by
  obtain ⟨hasher, hcode, hdigest⟩ := Option.map_eq_some_iff.mp h
  obtain ⟨hasher', hcode', hdigest'⟩ := Option.map_eq_some_iff.mp h'
  obtain rfl : hasher = hasher' := Option.some.inj (hcode.symm.trans hcode')
  exact laws.hasher_injOn _ hasher hcode hd hd' (hdigest.trans hdigest'.symm)

/-! ## The tables -/

/-- A key of `dataToLinks`. -/
structure DataKey where
  codec : UInt64
  hash : Hash
  deriving DecidableEq

instance : LinearOrder DataKey :=
  LinearOrder.lift' (fun k => toLex (k.codec.toNat, k.hash)) fun a b h => by
    obtain ⟨hcodec, hhash⟩ := Prod.mk.inj (toLex.injective h)
    cases a
    cases b
    exact congrArg₂ DataKey.mk (UInt64.toNat_inj.mp hcodec) hhash

structure Tables where
  hashToBlake3 : SortedTable Multihash Hash
  dataToLinks : SortedTable DataKey (List UInt8)

namespace Tables

def empty : Tables := ⟨SortedTable.empty, SortedTable.empty⟩

/-- `blake3_hash`. -/
def blake3Hash (self : Tables) (hash : Multihash) : Option Hash := self.hashToBlake3.get? hash

/-- The stored links of a cid.  That nothing is stored for the data is not an error, but that the
data is not known at all is one. -/
def links (self : Tables) (cid : Cid) : Except SyncError (Option (List Cid)) :=
  match self.hashToBlake3.get? cid.hash with
  | none => .error .Blake3HashNotFound
  | some hash =>
      match self.dataToLinks.get? ⟨cid.codec, hash⟩ with
      | none => .ok none
      | some links =>
          match Libraries.fromSlice links with
          | none => .error .DecodeLinks
          | some links => .ok (some links)

/-- The first write of `insert_links`. -/
def insertHash (self : Tables) (cid : Cid) (hash : Hash) : Tables :=
  { self with hashToBlake3 := self.hashToBlake3.insert cid.hash hash }

/-- The second write of `insert_links`, if there is one. -/
def insertData (self : Tables) (cid : Cid) (hash : Hash) (links : List Cid) :
    Except SyncError Unit × Tables :=
  if links = [] then (.ok (), self)
  else
    match Libraries.toVec links with
    | none => (.error .EncodeLinks, self)
    | some links =>
        (.ok (), { self with dataToLinks := self.dataToLinks.insert ⟨cid.codec, hash⟩ links })

/-- `insert_links`.  The links are extracted before anything is written, whatever the codec of the
cid is. -/
def insertLinks (self : Tables) (cid : Cid) (hash : Hash) (data : List UInt8) :
    Except SyncError Unit × Tables :=
  match Libraries.links data with
  | none => (.error .ExtractLinks, self)
  | some links => (self.insertHash cid hash).insertData cid hash links

end Tables

/-! ## What the tables hold for data -/

/-- The row of `dataToLinks` that belongs to data. -/
def linksRow (data : List UInt8) : Option (List UInt8) :=
  (Libraries.links data).bind fun links => if links = [] then none else Libraries.toVec links

/-- The links of a block, as the tables give them. -/
def Block.children (self : Block) : Option (List Cid) :=
  (Libraries.links self.data).bind fun links => if links = [] then none else some links

/-- **The second write.**  It succeeds exactly if there is nothing to write or the links can be
encoded, and it touches one row of `dataToLinks` at most. -/
theorem Tables.insertData_cases (self : Tables) (cid : Cid) (hash : Hash) (links : List Cid) :
    (links = [] ∧ self.insertData cid hash links = (.ok (), self)) ∨
    (links ≠ [] ∧ Libraries.toVec links = none ∧
      self.insertData cid hash links = (.error .EncodeLinks, self)) ∨
    ∃ v, links ≠ [] ∧ Libraries.toVec links = some v ∧
      self.insertData cid hash links
        = (.ok (), { self with dataToLinks := self.dataToLinks.insert ⟨cid.codec, hash⟩ v }) := by
  by_cases hlinks : links = []
  · exact .inl ⟨hlinks, if_pos hlinks⟩
  · rw [insertData, if_neg hlinks]
    cases htoVec : Libraries.toVec links with
    | none => exact .inr (.inl ⟨hlinks, rfl, rfl⟩)
    | some v => exact .inr (.inr ⟨v, hlinks, rfl, rfl⟩)

/-- What a successful insertion does. -/
theorem Tables.insertLinks_ok {tables tables' : Tables} {cid : Cid} {hash : Hash}
    {data : List UInt8} (h : tables.insertLinks cid hash data = (.ok (), tables')) :
    ∃ links, Libraries.links data = some links ∧
      tables'.hashToBlake3 = tables.hashToBlake3.insert cid.hash hash ∧
      ((links = [] ∧ tables'.dataToLinks = tables.dataToLinks) ∨
        ∃ v, links ≠ [] ∧ Libraries.toVec links = some v ∧
          tables'.dataToLinks = tables.dataToLinks.insert ⟨cid.codec, hash⟩ v) := by
  rw [insertLinks] at h
  cases hlinks : Libraries.links data with
  | none =>
      rw [hlinks] at h
      cases h
  | some links =>
      simp only [hlinks] at h
      refine ⟨links, rfl, ?_⟩
      rcases (tables.insertHash cid hash).insertData_cases cid hash links with
        ⟨hnil, heq⟩ | ⟨_, _, heq⟩ | ⟨v, hne, hv, heq⟩
      · rw [heq] at h
        cases h
        exact ⟨rfl, .inl ⟨hnil, rfl⟩⟩
      · rw [heq] at h
        cases h
      · rw [heq] at h
        cases h
        exact ⟨rfl, .inr ⟨v, hne, hv, rfl⟩⟩

/-- Tables that come about by inserting blocks, the last one first.  Each block is stored under its
own cid, with its blake3 hash. -/
inductive Built : List Block → Tables → Prop
  | empty : Built [] Tables.empty
  | insert {blocks : List Block} {tables tables' : Tables} (block : Block)
      (h : Built blocks tables)
      (hinsert :
        tables.insertLinks block.cid (Libraries.blake3 block.data) block.data = (.ok (), tables')) :
      Built (block :: blocks) tables'

/-- The tables hold what belongs to each of the blocks, and nothing else for the data in `S`. -/
structure Tables.Reflects (S : Set (List UInt8)) (blocks : List Block) (tables : Tables) : Prop where
  hash_row : ∀ b ∈ blocks, tables.hashToBlake3.get? b.cid.hash = some (Libraries.blake3 b.data)
  links_row : ∀ b ∈ blocks,
    tables.dataToLinks.get? ⟨b.cid.codec, Libraries.blake3 b.data⟩ = linksRow b.data
  only : ∀ codec, ∀ d ∈ S, ∀ v,
    tables.dataToLinks.get? ⟨codec, Libraries.blake3 d⟩ = some v → linksRow d = some v
  extracts : ∀ b ∈ blocks, ∃ links, Libraries.links b.data = some links ∧
    (links = [] ∨ ∃ v, Libraries.toVec links = some v)

namespace Tables.Reflects

variable {S : Set (List UInt8)} {blocks : List Block} {tables tables' : Tables}

theorem empty : Tables.Reflects S [] Tables.empty where
  hash_row _ hb := absurd hb List.not_mem_nil
  links_row _ hb := absurd hb List.not_mem_nil
  only _ _ _ _ h := nomatch h
  extracts _ hb := absurd hb List.not_mem_nil

/-- The row of `dataToLinks` for data, after an insertion. -/
theorem get?_insertLinks (laws : Libraries.Laws S) {b : Block} (hb : b.data ∈ S)
    (hinsert : tables.insertLinks b.cid (Libraries.blake3 b.data) b.data = (.ok (), tables'))
    (codec : UInt64) {d : List UInt8} (hd : d ∈ S) :
    tables'.dataToLinks.get? ⟨codec, Libraries.blake3 d⟩
        = tables.dataToLinks.get? ⟨codec, Libraries.blake3 d⟩ ∨
      d = b.data ∧ tables'.dataToLinks.get? ⟨codec, Libraries.blake3 d⟩ = linksRow d := by
  obtain ⟨links, hlinks, _, ⟨hnil, hrows⟩ | ⟨v, hne, hv, hrows⟩⟩ := insertLinks_ok hinsert
  · exact .inl (by rw [hrows])
  · rw [hrows, SortedTable.get?_insert]
    split_ifs with hkey
    · have hdata : d = b.data := laws.blake3_injOn hd hb (DataKey.mk.inj hkey).2
      refine .inr ⟨hdata, ?_⟩
      rw [hdata, linksRow, hlinks, Option.bind_some, if_neg hne, hv]
    · exact .inl rfl

/-- The row of a block that was just inserted. -/
theorem get?_inserted (h : tables.Reflects S blocks) {b : Block}
    (hb : b.data ∈ S)
    (hinsert : tables.insertLinks b.cid (Libraries.blake3 b.data) b.data = (.ok (), tables')) :
    tables'.dataToLinks.get? ⟨b.cid.codec, Libraries.blake3 b.data⟩ = linksRow b.data := by
  obtain ⟨links, hlinks, _, ⟨hnil, hrows⟩ | ⟨v, hne, hv, hrows⟩⟩ := insertLinks_ok hinsert
  · -- nothing was written, so the row has to be missing already
    have hrow : linksRow b.data = none := by
      rw [linksRow, hlinks, Option.bind_some, if_pos hnil]
    rw [hrows, hrow, Option.eq_none_iff_forall_ne_some]
    intro v hv
    have honly := h.only b.cid.codec b.data hb v hv
    rw [hrow] at honly
    cases honly
  · rw [hrows, SortedTable.get?_insert_self, linksRow, hlinks, Option.bind_some, if_neg hne, hv]

/-- **Insertion keeps the invariant.** -/
theorem insert (laws : Libraries.Laws S) (h : tables.Reflects S blocks)
    (hS : ∀ b ∈ blocks, b.data ∈ S) {b : Block} (hb : b.data ∈ S)
    (hinsert : tables.insertLinks b.cid (Libraries.blake3 b.data) b.data = (.ok (), tables')) :
    tables'.Reflects S (b :: blocks) where
  hash_row c hc := by
    obtain ⟨_, _, hrows, _⟩ := insertLinks_ok hinsert
    rw [hrows, SortedTable.get?_insert]
    rcases List.mem_cons.mp hc with rfl | hc
    · exact if_pos rfl
    · split_ifs with hkey
      · -- another cid with the same hash names the same data
        have hdata : c.data = b.data := by
          have hnames : b.cid.Names c.data := by
            have hc := c.names
            rw [Cid.Names, hkey] at hc
            exact hc
          exact hnames.unique laws (hS c hc) hb b.names
        rw [hdata]
      · exact h.hash_row c hc
  links_row c hc := by
    rcases List.mem_cons.mp hc with rfl | hc
    · exact h.get?_inserted hb hinsert
    · rcases get?_insertLinks laws hb hinsert c.cid.codec (hS c hc) with heq | ⟨_, heq⟩
      · rw [heq, h.links_row c hc]
      · exact heq
  only codec d hd v hv := by
    rcases get?_insertLinks laws hb hinsert codec hd with heq | ⟨_, heq⟩
    · exact h.only codec d hd v (heq ▸ hv)
    · exact heq ▸ hv
  extracts c hc := by
    rcases List.mem_cons.mp hc with rfl | hc
    · obtain ⟨links, hlinks, _, ⟨hnil, _⟩ | ⟨v, _, hv, _⟩⟩ := insertLinks_ok hinsert
      · exact ⟨links, hlinks, .inl hnil⟩
      · exact ⟨links, hlinks, .inr ⟨v, hv⟩⟩
    · exact h.extracts c hc

/-- **What `links` returns for the cid of a block.** -/
theorem links_eq (laws : Libraries.Laws S) (h : tables.Reflects S blocks) {b : Block}
    (hb : b ∈ blocks) : tables.links b.cid = .ok b.children := by
  obtain ⟨links, hlinks, hv⟩ := h.extracts b hb
  have hrow := h.links_row b hb
  rw [linksRow, hlinks, Option.bind_some] at hrow
  rw [Tables.links, h.hash_row b hb, Block.children, hlinks, Option.bind_some]
  simp only [hrow]
  rcases hv with hnil | ⟨v, hv⟩
  · rw [if_pos hnil, if_pos hnil]
  · by_cases hnil : links = []
    · rw [if_pos hnil, if_pos hnil]
    · rw [if_neg hnil, if_neg hnil, hv]
      simp only [laws.fromSlice_toVec links v hv]

end Tables.Reflects

/-- Tables that are built from blocks reflect them. -/
theorem Built.reflects {S : Set (List UInt8)} (laws : Libraries.Laws S) {blocks : List Block}
    {tables : Tables} (h : Built blocks tables) (hS : ∀ b ∈ blocks, b.data ∈ S) :
    tables.Reflects S blocks := by
  induction h with
  | empty => exact .empty
  | insert block h hinsert ih =>
      have hblocks := fun b hb => hS b (List.mem_cons_of_mem _ hb)
      exact (ih hblocks).insert laws hblocks (hS block List.mem_cons_self) hinsert

end IrohExperiments.DagSync
