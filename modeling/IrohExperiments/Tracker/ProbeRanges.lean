import IrohExperiments.Lib.U64

/-!
# Choosing a chunk to probe

A probe of complete content downloads one random chunk of it.  For a single blob the chunk is drawn
from the chunks of the blob, and for a hash sequence a number is drawn below the sum of the **full**
chunks of the children, and a loop finds the child that it falls into.

A draw from an empty range panics, and so does a sum that overflows in a build with overflow checks.
`probeRanges_isSome_iff` says on which content the choice does neither: the blob is not empty, and
the children have at least one full chunk between them, and fewer than 2^64.
-/

namespace IrohExperiments.Tracker

/-! ## Chunks -/

/-- `ChunkNum::chunks`, the number of chunks of 1024 bytes, the last of which need not be full. -/
def chunks (size : UInt64) : UInt64 := size / 1024 + if size % 1024 = 0 then 0 else 1

/-- `ChunkNum::full_chunks`, the number of full chunks of 1024 bytes. -/
def fullChunks (size : UInt64) : UInt64 := size / 1024

theorem chunks_toNat (size : UInt64) : (chunks size).toNat = (size.toNat + 1023) / 1024 := by
  have hlt := size.toNat_lt
  have hmod : (size % 1024).toNat = size.toNat % 1024 := UInt64.toNat_mod _ _
  have hdiv : (size / 1024).toNat = size.toNat / 1024 := UInt64.toNat_div _ _
  rw [chunks]
  split_ifs with h
  · rw [h] at hmod
    have hzero : size.toNat % 1024 = 0 := hmod.symm
    rw [UInt64.toNat_add, hdiv]
    have h0 : (0 : UInt64).toNat = 0 := rfl
    omega
  · have hne : size.toNat % 1024 ≠ 0 := by
      intro h0
      refine h (UInt64.toNat_inj.mp ?_)
      rw [hmod, h0]
      rfl
    rw [UInt64.toNat_add, hdiv]
    have h1 : (1 : UInt64).toNat = 1 := rfl
    omega

theorem fullChunks_toNat (size : UInt64) : (fullChunks size).toNat = size.toNat / 1024 :=
  UInt64.toNat_div _ _

/-- A number of chunks is far from the end of the integers. -/
theorem toNat_add_one_of_lt_fullChunks {c size : UInt64} (h : c < fullChunks size) :
    (c + 1).toNat = c.toNat + 1 := by
  have hone : (1 : UInt64).toNat = 1 := rfl
  have hsize := size.toNat_lt
  have hlt := UInt64.lt_iff_toNat_lt.mp h
  rw [fullChunks_toNat] at hlt
  rw [UInt64.toNat_add]
  omega

/-- The chunks that are asked for of one blob: none, or the ones from `start` to before `stop`. -/
inductive ChunkRanges where
  | empty
  | range (start stop : UInt64)
  deriving DecidableEq

/-- The chunks that are asked for of a root and its children.  What lies past the end is not asked
for. -/
abbrev ChunkRangesSeq := List ChunkRanges

/-! ## Draws -/

/-- A source of random numbers below a bound. -/
structure Rng where
  sample : UInt64 → UInt64
  sample_lt : ∀ stop, 0 < stop → sample stop < stop

/-- `random_range(0..stop)`.  An empty range is a panic. -/
def Rng.randomRange (rng : Rng) (stop : UInt64) : Option UInt64 :=
  if stop = 0 then none else some (rng.sample stop)

theorem Rng.randomRange_isSome (rng : Rng) (stop : UInt64) :
    (rng.randomRange stop).isSome ↔ 0 < stop.toNat := by
  have hzero : stop = 0 ↔ stop.toNat = 0 := UInt64.toNat_inj.symm
  rw [randomRange]
  split_ifs with h
  · rw [hzero.mp h]
    simp
  · simp [Nat.pos_of_ne_zero fun h0 => h (hzero.mpr h0)]

/-! ## The choice -/

/-- The loop of `random_hash_seq_ranges` over the sizes of the children. -/
def hashSeqLoop : UInt64 → List UInt64 → List ChunkRanges
  | _, [] => []
  | remaining, size :: sizes =>
      if remaining < fullChunks size then [.range remaining (remaining + 1)]
      else .empty :: hashSeqLoop (remaining - fullChunks size) sizes

def randomHashSeqRanges (build : U64.Build) (rng : Rng) (sizes : List UInt64) :
    Option ChunkRangesSeq := do
  let totalChunks ← U64.sum build (sizes.map fullChunks)
  let randomChunk ← rng.randomRange totalChunks
  return .empty :: hashSeqLoop randomChunk sizes

/-- What is known of complete content before a chunk of it is chosen: the size of the blob, or the
sizes of the children. -/
inductive ContentSizes where
  | Raw (size : UInt64)
  | HashSeq (sizes : List UInt64)

/-- The request of a probe of complete content.  `none` is a panic. -/
def probeRanges (build : U64.Build) (rng : Rng) : ContentSizes → Option ChunkRangesSeq
  | .Raw size => do
      let randomChunk ← rng.randomRange (chunks size)
      return [.range randomChunk (randomChunk + 1)]
  | .HashSeq sizes => randomHashSeqRanges build rng sizes

/-- There is a chunk to choose: the blob is not empty; some child is at least one chunk long, and the
full chunks of all children can be counted. -/
def ContentSizes.Choosable : ContentSizes → Prop
  | .Raw size => size ≠ 0
  | .HashSeq sizes =>
      (∃ size ∈ sizes, 1024 ≤ size.toNat) ∧ (sizes.map fun size => size.toNat / 1024).sum < 2 ^ 64

theorem total_fullChunks (sizes : List UInt64) :
    U64.total (sizes.map fullChunks) = (sizes.map fun size => size.toNat / 1024).sum := by
  rw [U64.total, List.map_map]
  exact congrArg List.sum (List.map_congr_left fun size _ => fullChunks_toNat size)

/-- There is a full chunk among the children when one of them is at least one chunk long. -/
theorem total_fullChunks_pos (sizes : List UInt64) :
    0 < U64.total (sizes.map fullChunks) ↔ ∃ size ∈ sizes, 1024 ≤ size.toNat := by
  rw [U64.total_pos_iff]
  constructor
  · rintro ⟨x, hx, hpos⟩
    obtain ⟨size, hsize, rfl⟩ := List.mem_map.mp hx
    rw [fullChunks_toNat] at hpos
    exact ⟨size, hsize, by omega⟩
  · rintro ⟨size, hsize, hle⟩
    refine ⟨fullChunks size, List.mem_map_of_mem hsize, ?_⟩
    rw [fullChunks_toNat]
    omega

/-- **The children of a hash sequence.** -/
theorem randomHashSeqRanges_isSome_iff (sizes : List UInt64) :
    (∀ build rng, (randomHashSeqRanges build rng sizes).isSome)
      ↔ (ContentSizes.HashSeq sizes).Choosable := by
  rw [ContentSizes.Choosable, ← total_fullChunks, ← total_fullChunks_pos]
  constructor
  · intro h
    -- a draw of zero is one that any range allows
    have hsome := h .Debug ⟨fun _ => 0, fun _ hpos => hpos⟩
    obtain ⟨ranges, hranges⟩ := Option.isSome_iff_exists.mp hsome
    obtain ⟨t, ht, hdraw⟩ := Option.bind_eq_some_iff.mp hranges
    obtain ⟨r, hr, _⟩ := Option.bind_eq_some_iff.mp hdraw
    have hlt := U64.total_lt_of_sum ht
    obtain ⟨t', ht', hval⟩ := U64.exists_sum_eq .Debug hlt
    obtain rfl := Option.some.inj (ht.symm.trans ht')
    have hpos := (Rng.randomRange_isSome _ t).mp (Option.isSome_iff_exists.mpr ⟨r, hr⟩)
    rw [hval] at hpos
    exact ⟨hpos, hlt⟩
  · rintro ⟨hpos, hlt⟩ build rng
    obtain ⟨t, ht, hval⟩ := U64.exists_sum_eq build hlt
    rw [← hval] at hpos
    obtain ⟨r, hr⟩ := Option.isSome_iff_exists.mp ((rng.randomRange_isSome t).mpr hpos)
    rw [randomHashSeqRanges, ht, Option.bind_eq_bind, Option.bind_some, hr]
    rfl

/-- **When a chunk can be chosen.**  In every build and with every draw, if and only if the blob is
not empty, or some child is at least one chunk long and there are fewer than 2^64 full chunks. -/
theorem probeRanges_isSome_iff (content : ContentSizes) :
    (∀ build rng, (probeRanges build rng content).isSome) ↔ content.Choosable := by
  cases content with
  | HashSeq sizes => exact randomHashSeqRanges_isSome_iff sizes
  | Raw size =>
      have hchunks : 0 < (chunks size).toNat ↔ size ≠ 0 := by
        rw [chunks_toNat, ne_eq, ← UInt64.toNat_inj]
        show _ ↔ size.toNat ≠ 0
        omega
      rw [ContentSizes.Choosable, ← hchunks]
      constructor
      · intro h
        have hsome := h .Release ⟨fun _ => 0, fun _ hpos => hpos⟩
        obtain ⟨ranges, hranges⟩ := Option.isSome_iff_exists.mp hsome
        obtain ⟨r, hr, _⟩ := Option.bind_eq_some_iff.mp hranges
        exact (Rng.randomRange_isSome _ _).mp (Option.isSome_iff_exists.mpr ⟨r, hr⟩)
      · intro hpos build rng
        obtain ⟨r, hr⟩ := Option.isSome_iff_exists.mp ((rng.randomRange_isSome _).mpr hpos)
        rw [probeRanges, hr]
        rfl

/-- **An empty blob cannot be probed.**  Neither can a collection of two files that are shorter than
a chunk, which has no full chunk. -/
theorem empty_blob_panics :
    ¬ (∀ build rng, (probeRanges build rng (.Raw 0)).isSome) ∧
      ¬ ∀ build rng, (probeRanges build rng (.HashSeq [5, 1023])).isSome := by
  refine ⟨fun h => ?_, fun h => ?_⟩
  · exact absurd (h .Release ⟨fun _ => 0, fun _ hpos => hpos⟩) (by decide)
  · exact absurd (h .Release ⟨fun _ => 0, fun _ hpos => hpos⟩) (by decide)

end IrohExperiments.Tracker
