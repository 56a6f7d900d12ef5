import IrohExperiments.Tracker.SeqProbe

/-!
# The sizes of content

Before a probe of complete content can draw a chunk, it has to know the size of the blob, or the hash
sequence and the sizes of its children.

`Sizes.Of` says what these are.  They belong to the data with the hash, so there is one answer for everybody
(`Sizes.Of.unique`), as long as no two of the data that anybody has share a hash.  The requests for one blob
of `iroh_blobs_util` are on top of the state machine of `SeqProbe.lean`: the claimed size, the verified size,
and a single chunk.  They all ask for the root only, so `readRoot_eq` says for all of them that they do not
panic.
-/

namespace IrohExperiments.Tracker

/-! ## Content -/

/-- A hash function, and the data that anybody has. -/
class Blobs where
  blake3 : List UInt8 → Hash
  Known : List UInt8 → Prop

/-- No two of the data that anybody has share a hash. -/
def Blobs.CollisionFree [Blobs] : Prop :=
  ∀ data data', Known data → Known data' → blake3 data = blake3 data' → data = data'

def HashSeq.toBytes (self : HashSeq) : List UInt8 := self.flatMap List.Vector.toList

theorem HashSeq.length_toBytes (self : HashSeq) : self.toBytes.length = 32 * self.length := by
  induction self with
  | nil => rfl
  | cons hash self ih =>
      rw [toBytes, List.flatMap_cons, List.length_append, List.length_cons, List.Vector.toList_length]
      rw [toBytes] at ih
      omega

/-- The bytes of a sequence are those of one sequence only. -/
theorem HashSeq.toBytes_inj {hs hs' : HashSeq} (h : hs.toBytes = hs'.toBytes) : hs = hs' := by
  induction hs generalizing hs' with
  | nil =>
      have hlength := hs'.length_toBytes
      rw [← h] at hlength
      cases hs' with
      | nil => rfl
      | cons hash hs' => exact absurd hlength (by simp [toBytes])
  | cons hash hs ih =>
      cases hs' with
      | nil =>
          have hlength := HashSeq.length_toBytes (hash :: hs)
          rw [h] at hlength
          exact absurd hlength (by simp [toBytes])
      | cons hash' hs' =>
          rw [toBytes, toBytes, List.flatMap_cons, List.flatMap_cons] at h
          obtain ⟨hhash, hrest⟩ := List.append_inj h (by simp)
          rw [List.Vector.toList_injective hhash, ih hrest]

/-- What is known of complete content before a chunk of it is chosen. -/
inductive Sizes where
  | Raw (size : UInt64)
  | HashSeq (hs : HashSeq) (sizes : List UInt64)

/-- A draw from the chunks does not panic. -/
def Sizes.Choosable : Sizes → Prop
  | .Raw size => (ContentSizes.Raw size).Choosable
  | .HashSeq _ sizes => (ContentSizes.HashSeq sizes).Choosable

section Content

variable [Blobs]

/-- The size of the data with the hash. -/
def SizeOf (hash : Hash) (size : UInt64) : Prop :=
  ∃ data, Blobs.Known data ∧ Blobs.blake3 data = hash ∧ size.toNat = data.length

/-- The data with the hash is this sequence. -/
def SeqOf (hash : Hash) (hs : HashSeq) : Prop :=
  ∃ data, Blobs.Known data ∧ Blobs.blake3 data = hash ∧ data = hs.toBytes

/-- The sizes of the content. -/
def Sizes.Of (content : HashAndFormat) : Sizes → Prop
  | .Raw size => content.format = .Raw ∧ SizeOf content.hash size
  | .HashSeq hs sizes =>
      content.format = .HashSeq ∧ SeqOf content.hash hs ∧ List.Forall₂ SizeOf hs sizes

theorem SizeOf.unique (hfree : Blobs.CollisionFree) {hash : Hash} {size size' : UInt64}
    (h : SizeOf hash size) (h' : SizeOf hash size') : size = size' := by
  obtain ⟨data, hknown, hhash, hsize⟩ := h
  obtain ⟨data', hknown', hhash', hsize'⟩ := h'
  obtain rfl := hfree data data' hknown hknown' (hhash.trans hhash'.symm)
  exact UInt64.toNat_inj.mp (hsize.trans hsize'.symm)

theorem SeqOf.unique (hfree : Blobs.CollisionFree) {hash : Hash} {hs hs' : HashSeq}
    (h : SeqOf hash hs) (h' : SeqOf hash hs') : hs = hs' := by
  obtain ⟨data, hknown, hhash, hbytes⟩ := h
  obtain ⟨data', hknown', hhash', hbytes'⟩ := h'
  obtain rfl := hfree data data' hknown hknown' (hhash.trans hhash'.symm)
  exact HashSeq.toBytes_inj (hbytes.symm.trans hbytes')

theorem sizes_unique (hfree : Blobs.CollisionFree) {hs : HashSeq} {sizes sizes' : List UInt64}
    (h : List.Forall₂ SizeOf hs sizes) (h' : List.Forall₂ SizeOf hs sizes') : sizes = sizes' := by
  induction h generalizing sizes' with
  | nil =>
      cases h'
      rfl
  | cons hsize _ ih =>
      cases h' with
      | cons hsize' hrest' => rw [hsize.unique hfree hsize', ih hrest']

/-- **Content has one size.** -/
theorem Sizes.Of.unique (hfree : Blobs.CollisionFree) {content : HashAndFormat} {sizes sizes' : Sizes}
    (h : sizes.Of content) (h' : sizes'.Of content) : sizes = sizes' := by
  cases sizes with
  | Raw size =>
      cases sizes' with
      | Raw size' => rw [h.2.unique hfree h'.2]
      | HashSeq hs' sizes' => exact absurd (h.1.symm.trans h'.1) (by decide)
  | HashSeq hs sizes =>
      cases sizes' with
      | Raw size' => exact absurd (h.1.symm.trans h'.1) (by decide)
      | HashSeq hs' sizes' =>
          obtain rfl := h.2.1.unique hfree h'.2.1
          rw [sizes_unique hfree h.2.2 h'.2.2]

end Content

/-! ## Requests for one blob -/

/-- What the connection gives, or fails to give, for one blob: its header, and its parts as they are
checked. -/
structure BlobRemote where
  connected : Option Unit
  header : Option UInt64
  content : List (Option Unit)
  closed : Option Unit

/-- All parts of the blob come, and pass their checks. -/
def BlobRemote.answers (self : BlobRemote) : Bool :=
  self.connected.isSome && self.header.isSome && self.content.all Option.isSome && self.closed.isSome

/-- The loop over the content of a blob, which ends at the first part that fails its check. -/
def contentLoop : List (Option Unit) → Except Failure Unit
  | [] => .ok ()
  | item :: items => do
      orFail .Err item
      contentLoop items

theorem contentLoop_eq (items : List (Option Unit)) :
    contentLoop items = if items.all Option.isSome then .ok () else .error .Err := by
  induction items with
  | nil => rfl
  | cons item items ih =>
      cases item with
      | none => rfl
      | some _ => exact ih

/-- `ChunkRangesSeq::all` asks for everything. -/
def allBlobs : Asks := ⟨[], true⟩

/-- `ChunkRangesSeq::verified_size` asks for the last chunk of the root. -/
def lastChunkOfRoot : Asks := ⟨[true], false⟩

theorem includes_lastChunkOfRoot (offset : ℕ) :
    lastChunkOfRoot.includes offset = decide (offset = 0) := by
  cases offset <;> rfl

/-- A chunk of a blob is asked for. -/
theorem includes_chunk {size c : UInt64} (h : c < chunks size) (offset : ℕ) :
    (fromRanges [.range c (c + 1)]).includes offset = decide (offset = 0) := by
  cases offset with
  | succ offset => rfl
  | zero =>
      have hsize := size.toNat_lt
      have hone : (1 : UInt64).toNat = 1 := rfl
      rw [UInt64.lt_iff_toNat_lt, chunks_toNat] at h
      have hlt : c < c + 1 := by
        rw [UInt64.lt_iff_toNat_lt, UInt64.toNat_add]
        omega
      show decide (c < c + 1) = true
      exact decide_eq_true hlt

section Machine

variable [BlobsFsm]

/-- A request of a part of the root only, which is read to its end.  It gives the size in the header. -/
def readRoot (request : Asks) (remote : BlobRemote) : Except Failure UInt64 := do
  orFail .Err remote.connected
  match BlobsFsm.connectedNext request with
  | .StartRoot =>
      let size ← orFail .Err remote.header
      contentLoop remote.content
      match BlobsFsm.endBlobNext request 0 with
      | .Closing =>
          orFail .Err remote.closed
          return size
      | .MoreChildren _ => throw (.Panic .OnlyOneBlob)
  | _ => throw (.Panic .QueryIncludesRoot)

/-- The claimed size of a blob.  Nothing after the header is read. -/
def unverifiedSize (remote : BlobRemote) : Except Failure UInt64 := do
  orFail .Err remote.connected
  match BlobsFsm.connectedNext allBlobs with
  | .StartRoot =>
      let size ← orFail .Err remote.header
      orFail .Err remote.closed
      return size
  | _ => throw (.Panic .QueryIncludesRoot)

/-- The verified size of a blob. -/
def verifiedSize (remote : BlobRemote) : Except Failure UInt64 := readRoot lastChunkOfRoot remote

/-- The probe for a single chunk of a blob. -/
def chunkProbe (remote : BlobRemote) (chunk : UInt64) : Except Failure Unit := do
  let _ ← readRoot (fromRanges [.range chunk (chunk + 1)]) remote
  return ()

/-- A request that asks for the root, and for nothing else, is read without a panic. -/
theorem readRoot_eq {request : Asks} (hroot : ∀ offset, request.includes offset = decide (offset = 0))
    (remote : BlobRemote) :
    (∃ size, remote.header = some size ∧ remote.answers = true ∧ readRoot request remote = .ok size) ∨
      remote.answers = false ∧ readRoot request remote = .error .Err := by
  have hconnected : BlobsFsm.connectedNext request = .StartRoot := by
    refine BlobsFsm.connectedNext_eq request (some 0) ⟨Nat.le_refl _, ?_, fun o _ hlt => ?_⟩
    · rw [hroot, decide_eq_true rfl]
    · exact absurd hlt (Nat.not_lt_zero o)
  have hend : BlobsFsm.endBlobNext request 0 = .Closing := by
    refine BlobsFsm.endBlobNext_eq request 0 none fun o hle => ?_
    rw [hroot, decide_eq_false (by omega)]
  obtain ⟨connected, header, content, closed⟩ := remote
  rw [readRoot]
  simp only [hconnected, hend, contentLoop_eq, BlobRemote.answers]
  cases connected with
  | none => exact .inr ⟨rfl, rfl⟩
  | some _ =>
      cases header with
      | none => exact .inr ⟨rfl, rfl⟩
      | some size =>
          cases hall : content.all Option.isSome with
          | false => exact .inr ⟨rfl, rfl⟩
          | true =>
              cases closed with
              | none => exact .inr ⟨rfl, rfl⟩
              | some _ => exact .inl ⟨size, rfl, rfl, rfl⟩

theorem chunkProbe_eq {size c : UInt64} (h : c < chunks size) (remote : BlobRemote) :
    chunkProbe remote c = if remote.answers then .ok () else .error .Err := by
  rw [chunkProbe]
  rcases readRoot_eq (includes_chunk h) remote with ⟨size', _, hanswers, hread⟩ | ⟨hanswers, hread⟩
  · rw [hread, hanswers]
    rfl
  · rw [hread, hanswers]
    rfl

theorem unverifiedSize_eq (remote : BlobRemote) :
    (∃ size, unverifiedSize remote = .ok size) ∨ unverifiedSize remote = .error .Err := by
  have hconnected : BlobsFsm.connectedNext allBlobs = .StartRoot :=
    BlobsFsm.connectedNext_eq allBlobs (some 0) ⟨Nat.le_refl _, rfl, fun o _ hlt =>
      absurd hlt (Nat.not_lt_zero o)⟩
  rw [unverifiedSize, hconnected]
  cases remote.connected with
  | none => exact .inr rfl
  | some _ =>
      cases remote.header with
      | none => exact .inr rfl
      | some size =>
          cases remote.closed with
          | none => exact .inr rfl
          | some _ => exact .inl ⟨size, rfl⟩

end Machine

end IrohExperiments.Tracker
