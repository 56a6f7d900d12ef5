import IrohExperiments.Tracker.Protocol
import IrohExperiments.Lib.SortedTable

/-!
# The records of the tracker's tables

Both tables of the tracker are keyed by an `AnnouncePath`: the content, kind and endpoint of an
announce, packed into 66 bytes.  This file has the packing of the keys and of the two kinds of
value, and proves that each packing is a bijection with the records of its width (the `Record`
instances).

The fields of a path are raw bytes, and the enumerations and the key are read back out of them by
`content`, `announceKind` and `endpointId`.  The last of these can panic, on bytes that are not a
public key; on a path built by `new` it does not.  `Canonical` paths are the ones built by `new`,
and on these the three readings determine the path (`Canonical.eq_new`).

`contentMin_le_and_le_contentMax` says which keys lie between the bounds of a range scan for one
content: exactly the ones with its **hash**, whatever their format byte.
-/

namespace IrohExperiments.Tracker

structure AnnouncePath where
  hash : Bytes 32
  format : UInt8
  kind : UInt8
  endpoint : Bytes 32
  deriving DecidableEq

namespace AnnouncePath

section Fields

variable [KeyScheme]

def new (content : HashAndFormat) (kind : AnnounceKind) (endpoint : EndpointId) : AnnouncePath where
  hash := content.hash
  format := content.format.toU8
  kind := kind.toU8
  endpoint := endpoint.asBytes

def content (self : AnnouncePath) : HashAndFormat where
  hash := self.hash
  format := if self.format = 0 then .Raw else .HashSeq

def announceKind (self : AnnouncePath) : AnnounceKind :=
  if self.kind = 0 then .Partial else .Complete

/-- The method `endpoint()`.  `none` is the panic of its `unwrap`. -/
def endpointId (self : AnnouncePath) : Option EndpointId := EndpointId.fromBytes self.endpoint

@[simp] theorem content_new (c : HashAndFormat) (k : AnnounceKind) (e : EndpointId) :
    (new c k e).content = c := by
  obtain ⟨h, f⟩ := c
  cases f <;> rfl

@[simp] theorem announceKind_new (c : HashAndFormat) (k : AnnounceKind) (e : EndpointId) :
    (new c k e).announceKind = k := by
  cases k <;> rfl

@[simp] theorem endpointId_new (c : HashAndFormat) (k : AnnounceKind) (e : EndpointId) :
    (new c k e).endpointId = some e :=
  EndpointId.fromBytes_asBytes e

/-- A path that `new` can build. -/
def Canonical (self : AnnouncePath) : Prop := ∃ c k e, self = new c k e

theorem canonical_new (c : HashAndFormat) (k : AnnounceKind) (e : EndpointId) :
    (new c k e).Canonical :=
  ⟨c, k, e, rfl⟩

/-- A canonical path is determined by what is read back out of it. -/
theorem Canonical.eq_new {self : AnnouncePath} (h : self.Canonical) :
    ∃ e, self.endpointId = some e ∧ self = new self.content self.announceKind e := by
  obtain ⟨c, k, e, rfl⟩ := h
  refine ⟨e, endpointId_new c k e, ?_⟩
  rw [content_new, announceKind_new]

end Fields

/-! ## Bounds of a range scan -/

def contentMin (content : HashAndFormat) : AnnouncePath where
  hash := content.hash
  format := 0
  kind := 0
  endpoint := List.Vector.replicate 32 0

def contentMax (content : HashAndFormat) : AnnouncePath where
  hash := content.hash
  format := 255
  kind := 255
  endpoint := List.Vector.replicate 32 255

/-! ## Packing -/

/-- The 66 bytes of a path: hash, format, kind, endpoint. -/
def asBytes (value : AnnouncePath) : Bytes 66 :=
  ⟨value.hash.toList ++ (value.format :: value.kind :: value.endpoint.toList), by simp⟩

def fromBytes (data : Bytes 66) : AnnouncePath where
  hash := data.slice 0 32 (by decide)
  format := data.get 32
  kind := data.get 33
  endpoint := data.slice 34 32 (by decide)

@[simp] theorem asBytes_toList (p : AnnouncePath) :
    p.asBytes.toList = p.hash.toList ++ (p.format :: p.kind :: p.endpoint.toList) := rfl

theorem fromBytes_asBytes (p : AnnouncePath) : fromBytes p.asBytes = p := by
  have hh : p.hash.toList.length = 32 := p.hash.toList_length
  have he : p.endpoint.toList.length = 32 := p.endpoint.toList_length
  have hhash : p.asBytes.slice 0 32 (by decide) = p.hash := by
    apply List.Vector.toList_injective
    simp [hh]
  -- past the hash, the bytes of the packing are those of its tail
  have htail : ∀ i, 32 ≤ i → p.asBytes.toList[i]?
      = (p.format :: p.kind :: p.endpoint.toList)[i - 32]? := by
    intro i hi
    rw [asBytes_toList, List.getElem?_append_right (by omega), hh]
  have hformat : p.asBytes.get 32 = p.format := by
    have h : p.asBytes.toList[32]? = some (p.asBytes.get 32) := by
      rw [List.Vector.get_eq_get_toList]
      exact List.getElem?_eq_getElem _
    rw [htail 32 (by omega)] at h
    exact (Option.some.inj h).symm
  have hkind : p.asBytes.get 33 = p.kind := by
    have h : p.asBytes.toList[33]? = some (p.asBytes.get 33) := by
      rw [List.Vector.get_eq_get_toList]
      exact List.getElem?_eq_getElem _
    rw [htail 33 (by omega)] at h
    exact (Option.some.inj h).symm
  have hend : p.asBytes.slice 34 32 (by decide) = p.endpoint := by
    apply List.Vector.toList_injective
    have hdrop : p.hash.toList.drop 34 = [] := List.drop_of_length_le (by omega)
    simp [hh, List.drop_append, hdrop, List.take_of_length_le he.le]
  rw [fromBytes, hhash, hformat, hkind, hend]

theorem asBytes_fromBytes (data : Bytes 66) : (fromBytes data).asBytes = data := by
  have hlen : data.toList.length = 66 := data.toList_length
  apply List.Vector.toList_injective
  have h32 : data.toList.drop 32 = data.get 32 :: data.toList.drop 33 := by
    rw [List.Vector.get_eq_get_toList, List.drop_eq_getElem_cons (by omega)]
    rfl
  have h33 : data.toList.drop 33 = data.get 33 :: data.toList.drop 34 := by
    rw [List.Vector.get_eq_get_toList, List.drop_eq_getElem_cons (by omega)]
    rfl
  have h34 : (data.toList.drop 34).take 32 = data.toList.drop 34 :=
    List.take_of_length_le (by rw [List.length_drop, hlen])
  show (data.toList.drop 0).take 32 ++
    (data.get 32 :: data.get 33 :: (data.toList.drop 34).take 32) = data.toList
  rw [h34, ← h33, ← h32, List.drop_zero, List.take_append_drop]

instance : Record AnnouncePath where
  width := 66
  bytes := ⟨asBytes, fromBytes, fromBytes_asBytes, asBytes_fromBytes⟩

/-- **What a range scan for a content covers.**  A key lies between the bounds exactly when it has
the content's hash: the bounds of the format byte are 0 and 255, so the scan does not tell the
formats apart. -/
theorem contentMin_le_and_le_contentMax (content : HashAndFormat) (p : AnnouncePath) :
    (contentMin content).asBytes ≤ p.asBytes ∧ p.asBytes ≤ (contentMax content).asBytes
      ↔ p.hash = content.hash := by
  have hlen : ∀ a b : Bytes 32, a.toList.length = b.toList.length := fun a b => by
    rw [a.toList_length, b.toList_length]
  have hmin : (contentMin content).asBytes ≤ p.asBytes
      ↔ content.hash.toList < p.hash.toList ∨ content.hash.toList = p.hash.toList ∧
        List.replicate 34 0 ≤ p.format :: p.kind :: p.endpoint.toList :=
    Bytes.append_le_append_iff _ _ (hlen content.hash p.hash)
  have hmax : p.asBytes ≤ (contentMax content).asBytes
      ↔ p.hash.toList < content.hash.toList ∨ p.hash.toList = content.hash.toList ∧
        p.format :: p.kind :: p.endpoint.toList ≤ List.replicate 34 255 :=
    Bytes.append_le_append_iff _ _ (hlen p.hash content.hash)
  -- the rest of a key always lies between 34 zeros and 34 times 255
  have hrest : (p.format :: p.kind :: p.endpoint.toList).length = 34 := by simp
  have hlow := Bytes.replicate_zero_le (p.format :: p.kind :: p.endpoint.toList)
  have hhigh := Bytes.le_replicate_max (p.format :: p.kind :: p.endpoint.toList)
  rw [hrest] at hlow hhigh
  rw [hmin, hmax]
  constructor
  · rintro ⟨h | h, h' | h'⟩
    · exact absurd h' (lt_asymm h)
    · exact List.Vector.toList_injective h'.1
    · exact List.Vector.toList_injective h.1.symm
    · exact List.Vector.toList_injective h'.1
  · intro h
    rw [h]
    exact ⟨Or.inr ⟨rfl, hlow⟩, Or.inr ⟨rfl, hhigh⟩⟩

/-- The rows that the scan finds. -/
theorem mem_range_iff {V : Type*} [Record V] (t : RecordTable AnnouncePath V)
    (content : HashAndFormat) (r : AnnouncePath × V) :
    r ∈ t.range (contentMin content) (contentMax content)
      ↔ r ∈ t.iter ∧ r.1.hash = content.hash := by
  rw [RecordTable.range_eq_filter, List.mem_filter, decide_eq_true_eq]
  exact and_congr_right fun _ => contentMin_le_and_le_contentMax content r.1

end AnnouncePath

/-! ## Values -/

structure AnnounceValue where
  timestamp : AbsoluteTime
  signature : Bytes 64
  deriving DecidableEq

namespace AnnounceValue

/-- The 72 bytes of a value: the timestamp in microseconds, little endian, and the signature. -/
def asBytes (value : AnnounceValue) : Bytes 72 :=
  ⟨(Bytes.ofUInt64 value.timestamp.micros).toList ++ value.signature.toList, by simp⟩

def fromBytes (data : Bytes 72) : AnnounceValue where
  timestamp := ⟨Bytes.toUInt64 (data.slice 0 8 (by decide))⟩
  signature := data.slice 8 64 (by decide)

theorem fromBytes_asBytes (v : AnnounceValue) : fromBytes v.asBytes = v := by
  have ht : (Bytes.ofUInt64 v.timestamp.micros).toList.length = 8 := List.Vector.toList_length _
  have hs : v.signature.toList.length = 64 := v.signature.toList_length
  have htime : v.asBytes.slice 0 8 (by decide) = Bytes.ofUInt64 v.timestamp.micros := by
    apply List.Vector.toList_injective
    show ((Bytes.ofUInt64 v.timestamp.micros).toList ++ v.signature.toList).take 8 = _
    rw [List.take_append_of_le_length ht.ge, List.take_of_length_le ht.le]
  have hsig : v.asBytes.slice 8 64 (by decide) = v.signature := by
    apply List.Vector.toList_injective
    show (((Bytes.ofUInt64 v.timestamp.micros).toList ++ v.signature.toList).drop 8).take 64 = _
    rw [List.drop_append_of_le_length ht.ge, List.drop_of_length_le ht.le, List.nil_append,
      List.take_of_length_le hs.le]
  rw [fromBytes, htime, hsig, Bytes.toUInt64_ofUInt64]

theorem asBytes_fromBytes (data : Bytes 72) : (fromBytes data).asBytes = data := by
  have hlen : data.toList.length = 72 := data.toList_length
  apply List.Vector.toList_injective
  show (Bytes.ofUInt64 (Bytes.toUInt64 (data.slice 0 8 (by decide)))).toList
    ++ (data.slice 8 64 (by decide)).toList = _
  rw [Bytes.ofUInt64_toUInt64]
  have h := Bytes.take_append_slice data 8 64 (by decide)
  rw [List.take_of_length_le (i := 8 + 64) hlen.le] at h
  exact h

instance : Record AnnounceValue where
  width := 72
  bytes := ⟨asBytes, fromBytes, fromBytes_asBytes, asBytes_fromBytes⟩

end AnnounceValue

structure ProbeValue where
  timestamp : AbsoluteTime
  deriving DecidableEq

namespace ProbeValue

def asBytes (value : ProbeValue) : Bytes 8 := Bytes.ofUInt64 value.timestamp.micros

def fromBytes (data : Bytes 8) : ProbeValue := ⟨⟨Bytes.toUInt64 data⟩⟩

theorem fromBytes_asBytes (v : ProbeValue) : fromBytes v.asBytes = v := by
  rw [fromBytes, asBytes, Bytes.toUInt64_ofUInt64]

theorem asBytes_fromBytes (data : Bytes 8) : (fromBytes data).asBytes = data :=
  Bytes.ofUInt64_toUInt64 data

instance : Record ProbeValue where
  width := 8
  bytes := ⟨asBytes, fromBytes, fromBytes_asBytes, asBytes_fromBytes⟩

end ProbeValue

end IrohExperiments.Tracker
