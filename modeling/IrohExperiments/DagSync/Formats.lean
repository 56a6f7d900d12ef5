import IrohExperiments.DagSync.Tables

/-!
# Links and the codec of a cid

The codec of a cid says how its data is to be read, and so what the links of the data are.
`insert_links` reads all data as DAG-CBOR.  A raw leaf is then refused if its bytes are not DAG-CBOR,
and gets links that it does not have if they happen to be.

`Formats` is what each codec has for links.  `extracts_iff` says for which cids and data an insertion
stores the links of the data, in all states of the tables.  Raw data is right only by chance
(`records_raw_iff`).
-/

namespace IrohExperiments.DagSync

/-- The codec of DAG-CBOR. -/
def dagCborCodec : UInt64 := 0x71

section Formats

variable [Libraries]

/-- The links of a valid block, by the codec of its cid. -/
structure Formats where
  links : UInt64 → List UInt8 → Option (List Cid)
  /-- Raw data is always valid, and has no links. -/
  raw_links : ∀ data, links rawCodec data = some []
  /-- For DAG-CBOR the library is right. -/
  dagCbor_links : ∀ data ls, links dagCborCodec data = some ls → Libraries.links data = some ls

/-- The row of a cid, as it is, stands for the given links. -/
def Tables.Stands (self : Tables) (cid : Cid) (hash : Hash) (links : List Cid) : Prop :=
  match self.dataToLinks.get? ⟨cid.codec, hash⟩ with
  | none => links = []
  | some v => links ≠ [] ∧ Libraries.fromSlice v = some links

/-- An insertion succeeds, and afterwards `links` returns the given links. -/
def Tables.Records (self : Tables) (cid : Cid) (hash : Hash) (data : List UInt8)
    (links : List Cid) : Prop :=
  ∃ tables, self.insertLinks cid hash data = (.ok (), tables) ∧
    tables.links cid = .ok (if links = [] then none else some links)

/-- What is read out of data as DAG-CBOR are the given links, and they can be encoded.  Where nothing is
read out, nothing is written, so then it depends on the row. -/
def Tables.ReadsAs (self : Tables) (cid : Cid) (hash : Hash) (data : List UInt8)
    (links : List Cid) : Prop :=
  (links ≠ [] ∧ Libraries.links data = some links ∧ ∃ v, Libraries.toVec links = some v) ∨
    (Libraries.links data = some [] ∧ self.Stands cid hash links)

/-- `links` for a cid with a hash. -/
theorem Tables.links_eq_iff_stands {tables : Tables} {cid : Cid} {hash : Hash}
    (hrow : tables.hashToBlake3.get? cid.hash = some hash) (links : List Cid) :
    tables.links cid = .ok (if links = [] then none else some links)
      ↔ tables.Stands cid hash links := by
  rw [Tables.links, hrow, Tables.Stands]
  cases hdata : tables.dataToLinks.get? ⟨cid.codec, hash⟩ with
  | none => by_cases hnil : links = [] <;> simp [hnil, hdata]
  | some v =>
      cases hslice : Libraries.fromSlice v with
      | none => by_cases hnil : links = [] <;> simp [hnil, hdata, hslice]
      | some ls => by_cases hnil : links = [] <;> simp [hnil, hdata, hslice]

section Extraction

-- links that were encoded can be read back
variable (fromSlice_toVec : ∀ links v, Libraries.toVec links = some v → Libraries.fromSlice v = some links)

include fromSlice_toVec

/-- **What an insertion records.** -/
theorem records_iff (tables : Tables) (cid : Cid) (hash : Hash) (data : List UInt8) (links : List Cid) :
    tables.Records cid hash data links ↔ tables.ReadsAs cid hash data links := by
  rw [Tables.Records, Tables.ReadsAs, Tables.insertLinks]
  cases hread : Libraries.links data with
  | none => simp
  | some ls =>
      have hhash : (tables.insertHash cid hash).hashToBlake3.get? cid.hash = some hash :=
        SortedTable.get?_insert_self _ _ _
      rcases (tables.insertHash cid hash).insertData_cases cid hash ls with
        ⟨rfl, heq⟩ | ⟨hne, hnone, heq⟩ | ⟨v, hne, hv, heq⟩
      · -- nothing is written for the data
        have hstands := Tables.links_eq_iff_stands hhash links
        simp only [heq, Prod.mk.injEq, true_and, exists_eq_left', hstands, Option.some.injEq]
        constructor
        · exact .inr
        · rintro (⟨hne, hnil, _⟩ | hstands)
          · exact absurd hnil.symm hne
          · exact hstands
      · simp only [heq, Prod.mk.injEq, reduceCtorEq, false_and, exists_false, Option.some.injEq,
          false_iff]
        rintro (⟨_, rfl, v, hv⟩ | ⟨hnil, _⟩)
        · rw [hnone] at hv
          cases hv
        · exact hne hnil
      · simp only [heq, Prod.mk.injEq, true_and, exists_eq_left', Option.some.injEq]
        refine (Tables.links_eq_iff_stands (by exact hhash) links).trans ?_
        simp only [Tables.Stands, SortedTable.get?_insert_self, fromSlice_toVec ls v hv, Option.some.injEq]
        constructor
        · rintro ⟨hlinks, rfl⟩
          exact .inl ⟨hlinks, rfl, v, hv⟩
        · rintro (⟨hlinks, heq, _⟩ | ⟨hnil, _⟩)
          · exact ⟨hlinks, heq⟩
          · exact absurd hnil hne

/-- **When an insertion stores the links of the data.**  For a cid of any codec and in all states of the
tables. -/
theorem extracts_iff (formats : Formats) (tables : Tables) (cid : Cid) (hash : Hash) (data : List UInt8) :
    (∀ links, formats.links cid.codec data = some links → tables.Records cid hash data links)
      ↔ ∀ links, formats.links cid.codec data = some links → tables.ReadsAs cid hash data links := by
  refine forall₂_congr fun links _ => ?_
  exact records_iff fromSlice_toVec tables cid hash data links

/-- **Raw data** is recorded right if and only if the bytes happen to be DAG-CBOR without links. -/
theorem records_raw_iff (formats : Formats) {tables : Tables} {cid : Cid} (hcodec : cid.codec = rawCodec)
    {hash : Hash} (hrow : tables.dataToLinks.get? ⟨cid.codec, hash⟩ = none) (data : List UInt8) :
    (∀ links, formats.links cid.codec data = some links → tables.Records cid hash data links)
      ↔ Libraries.links data = some [] := by
  have hvalid : ∀ links, formats.links cid.codec data = some links ↔ [] = links := by
    intro links
    rw [hcodec, formats.raw_links, Option.some.injEq]
  simp only [hvalid, forall_eq', records_iff fromSlice_toVec, Tables.ReadsAs, Tables.Stands, hrow]
  simp

end Extraction

end Formats

section Runs

/-- The `toy` libraries, but not all data is DAG-CBOR. -/
@[reducible] def Libraries.strict : Libraries :=
  { Libraries.toy with
    links := fun data => if data.head? = some 0xff then none else Libraries.toy.links data }

attribute [local instance] Libraries.strict

/-- The formats that there are: raw data and DAG-CBOR. -/
def Formats.known : Formats where
  links codec data :=
    if codec = rawCodec then some [] else if codec = dagCborCodec then Libraries.links data else none
  raw_links _ := if_pos rfl
  dagCbor_links _ _ h := h

theorem strict_fromSlice_toVec (links : List Cid) (v : List UInt8)
    (h : Libraries.toVec links = some v) : Libraries.fromSlice v = some links := by
  obtain ⟨hlinks, hv⟩ : links = [Libraries.leaf] ∧ [1] = v :=
    Option.ite_none_right_eq_some.mp h |>.imp_right Option.some.inj
  rw [← hv, hlinks]
  rfl

/-- The condition can be met: a DAG-CBOR node with a link. -/
theorem extracts_root :
    Tables.empty.Records Libraries.root (Libraries.padded [1]) [1] [Libraries.leaf] := by
  refine (extracts_iff strict_fromSlice_toVec Formats.known _ _ _ _).mpr (fun links hlinks => .inl ?_)
    _ rfl
  obtain rfl : [Libraries.leaf] = links := Option.some.inj hlinks
  exact ⟨List.cons_ne_nil _ _, hlinks, [1], rfl⟩

/-- The cid of raw data. -/
def rawCid (data : List UInt8) : Cid := ⟨.V1, rawCodec, ⟨0x1e, (Libraries.padded data).toList⟩⟩

theorem not_records_raw {data : List UInt8} (h : Libraries.links data ≠ some []) :
    ¬ ∀ links, Formats.known.links (rawCid data).codec data = some links →
      Tables.empty.Records (rawCid data) (Libraries.padded data) data links := by
  rwa [records_raw_iff strict_fromSlice_toVec Formats.known rfl rfl data]

/-- **Raw leaves that go wrong.**  One starts with a byte that no DAG-CBOR starts with, and is refused.
The other one is the encoding of a link, and gets it. -/
theorem raw_leaf_not_recorded :
    ((rawCid [0xff]).Names [0xff] ∧
      ¬ ∀ links, Formats.known.links (rawCid [0xff]).codec [0xff] = some links →
        Tables.empty.Records (rawCid [0xff]) (Libraries.padded [0xff]) [0xff] links) ∧
    (rawCid [1]).Names [1] ∧
      ¬ ∀ links, Formats.known.links (rawCid [1]).codec [1] = some links →
        Tables.empty.Records (rawCid [1]) (Libraries.padded [1]) [1] links :=
  ⟨⟨rfl, not_records_raw (by decide)⟩, rfl, not_records_raw (by decide)⟩

end Runs

end IrohExperiments.DagSync
