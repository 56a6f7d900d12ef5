import IrohExperiments.Tracker.AnnouncePath

/-!
# The order of the keys

The database compares keys by their bytes, and the program compares paths field by field: the order
of `AnnouncePath` is derived.  The packing puts the fields at fixed places in the order of their
declaration, so the two agree (`keyCompare_asBytes`), and the rows of a table come in the derived order
of their paths (`iter_sorted`).

`record_codec` collects what the tables rest on: the order, and that keys and values are read as they
were written.
-/

namespace IrohExperiments.Tracker

namespace AnnouncePath

/-- The derived order: hash, format, kind, endpoint.  Arrays compare as slices. -/
def cmp (self other : AnnouncePath) : Ordering :=
  (Bytes.cmp self.hash.toList other.hash.toList).then
    ((compare self.format other.format).then
      ((compare self.kind other.kind).then
        (Bytes.cmp self.endpoint.toList other.endpoint.toList)))

/-- `redb::Key::compare`. -/
def keyCompare (data1 data2 : List UInt8) : Ordering := Bytes.cmp data1 data2

/-- **The bytes of two paths compare as the paths do.** -/
theorem keyCompare_asBytes (a b : AnnouncePath) :
    keyCompare a.asBytes.toList b.asBytes.toList = a.cmp b := by
  have hlen : a.hash.toList.length = b.hash.toList.length := by
    rw [a.hash.toList_length, b.hash.toList_length]
  rw [keyCompare, asBytes_toList, asBytes_toList, Bytes.cmp_append _ _ hlen, Bytes.cmp_cons_cons,
    Bytes.cmp_cons_cons, cmp]

theorem cmp_eq_lt_iff (a b : AnnouncePath) : a.cmp b = .lt ↔ a.asBytes < b.asBytes := by
  rw [← keyCompare_asBytes]
  exact Bytes.cmp_eq_lt_iff _ _

/-- Only equal paths compare as equal. -/
theorem cmp_eq_eq_iff (a b : AnnouncePath) : a.cmp b = .eq ↔ a = b := by
  have hinj : a.asBytes = b.asBytes ↔ a = b :=
    (Function.LeftInverse.injective fromBytes_asBytes).eq_iff
  rw [← keyCompare_asBytes, keyCompare, Bytes.cmp_eq_eq_iff, ← hinj]
  exact List.Vector.toList_injective.eq_iff

/-- **The rows of a table** come in the order of their paths. -/
theorem iter_sorted {V : Type*} [Record V] (t : RecordTable AnnouncePath V) :
    t.iter.Pairwise fun r s => r.1.cmp s.1 = .lt := by
  rw [RecordTable.iter, List.pairwise_map]
  refine t.raw.sorted.imp fun {r s} hlt => ?_
  rw [cmp_eq_lt_iff]
  show (fromBytes r.1).asBytes < (fromBytes s.1).asBytes
  rw [asBytes_fromBytes, asBytes_fromBytes]
  exact hlt

end AnnouncePath

/-- **The records of the tables.**  Keys compare as paths do, so only equal paths compare as equal and the
rows of a table come in the order of their paths.  A path is read as it was written and gives back what it
was made of, and so do the values. -/
theorem record_codec [KeyScheme] :
    (∀ a b : AnnouncePath,
        AnnouncePath.keyCompare a.asBytes.toList b.asBytes.toList = a.cmp b) ∧
      (∀ a b : AnnouncePath, a.cmp b = .eq ↔ a = b) ∧
      (∀ (V : Type) [Record V] (t : RecordTable AnnouncePath V),
        t.iter.Pairwise fun r s => r.1.cmp s.1 = .lt) ∧
      (∀ a : AnnouncePath, AnnouncePath.fromBytes a.asBytes = a) ∧
      (∀ content kind endpoint,
        (AnnouncePath.new content kind endpoint).content = content ∧
        (AnnouncePath.new content kind endpoint).announceKind = kind ∧
        (AnnouncePath.new content kind endpoint).endpointId = some endpoint) ∧
      (∀ value : AnnounceValue, AnnounceValue.fromBytes value.asBytes = value) ∧
      ∀ value : ProbeValue, ProbeValue.fromBytes value.asBytes = value := by
  refine ⟨AnnouncePath.keyCompare_asBytes, AnnouncePath.cmp_eq_eq_iff,
    fun _ _ t => AnnouncePath.iter_sorted t, AnnouncePath.fromBytes_asBytes, ?_,
    AnnounceValue.fromBytes_asBytes, ProbeValue.fromBytes_asBytes⟩
  intro content kind endpoint
  exact ⟨AnnouncePath.content_new _ _ _, AnnouncePath.announceKind_new _ _ _,
    AnnouncePath.endpointId_new _ _ _⟩

end IrohExperiments.Tracker
