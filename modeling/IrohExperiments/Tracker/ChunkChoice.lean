import IrohExperiments.Lib.WeightedIndex
import IrohExperiments.Tracker.ProbeRanges

/-!
# Which chunk is chosen

A probe of a hash sequence draws one number, and the loop over the sizes of the children turns it into
one chunk of one child.  The number of **full** chunks of a child is its weight, so the loop locates the
draw among the weights (`selectsChunk_iff_locate`): each full chunk of each child is chosen by one draw.

A child whose size is not a multiple of the chunk size has one chunk more than its weight, the last one,
and no draw chooses that one.  `coversChunks_iff` says on which children no chunk is left out.
-/

namespace IrohExperiments.Tracker

open WeightedIndex

/-- The chunk is among the chunks that are asked for. -/
def ChunkRanges.Contains : ChunkRanges → ℕ → Prop
  | .empty, _ => False
  | .range start stop, c => start.toNat ≤ c ∧ c < stop.toNat

/-- The request asks for a chunk of a child.  The first place is the one of the root. -/
def SelectsChunk (ranges : ChunkRangesSeq) (child c : ℕ) : Prop :=
  ∃ r, ranges[child + 1]? = some r ∧ r.Contains c

/-- The request that a draw leads to. -/
def requestOfDraw (sizes : List UInt64) (randomChunk : UInt64) : ChunkRangesSeq :=
  .empty :: hashSeqLoop randomChunk sizes

/-- The numbers that are drawn from. -/
def Drawable (build : U64.Build) (sizes : List UInt64) (randomChunk : UInt64) : Prop :=
  ∃ totalChunks, U64.sum build (sizes.map fullChunks) = some totalChunks ∧ randomChunk < totalChunks

/-- **The request of a probe** is the one of a number that is drawn. -/
theorem randomHashSeqRanges_eq_some {build : U64.Build} {rng : Rng} {sizes : List UInt64}
    {ranges : ChunkRangesSeq} (h : randomHashSeqRanges build rng sizes = some ranges) :
    ∃ randomChunk, Drawable build sizes randomChunk ∧ ranges = requestOfDraw sizes randomChunk := by
  obtain ⟨t, ht, h⟩ := Option.bind_eq_some_iff.mp h
  obtain ⟨r, hr, h⟩ := Option.bind_eq_some_iff.mp h
  rw [Rng.randomRange] at hr
  split_ifs at hr with hzero
  have hpos : 0 < t := UInt64.pos_iff_ne_zero.mpr hzero
  refine ⟨r, ⟨t, ht, ?_⟩, (Option.some.inj h).symm⟩
  rw [← Option.some.inj hr]
  exact rng.sample_lt t hpos

/-- The weight of each child. -/
def weights (sizes : List UInt64) : List ℕ := sizes.map fun size => size.toNat / 1024

theorem getElem?_weights {sizes : List UInt64} {child w : ℕ} :
    (weights sizes)[child]? = some w ↔ ∃ size, sizes[child]? = some size ∧ w = size.toNat / 1024 := by
  rw [weights, List.getElem?_map, Option.map_eq_some_iff]
  simp only [eq_comm]

/-- **The loop locates the draw among the weights.** -/
theorem selectsChunk_iff_locate (sizes : List UInt64) (randomChunk : UInt64) (child c : ℕ) :
    SelectsChunk (requestOfDraw sizes randomChunk) child c
      ↔ locate (weights sizes) randomChunk.toNat = some (child, c) := by
  rw [SelectsChunk, requestOfDraw, List.getElem?_cons_succ]
  induction sizes generalizing randomChunk child with
  | nil => simp [hashSeqLoop, weights, locate]
  | cons size sizes ih =>
      have hfull := fullChunks_toNat size
      have hlt : randomChunk < fullChunks size ↔ randomChunk.toNat < size.toNat / 1024 := by
        rw [UInt64.lt_iff_toNat_lt, hfull]
      rw [hashSeqLoop, weights, List.map_cons, locate]
      by_cases hr : randomChunk < fullChunks size
      · rw [if_pos hr, if_pos (hlt.mp hr)]
        -- the range is the draw alone
        have hsucc := toNat_add_one_of_lt_fullChunks hr
        cases child with
        | zero =>
            simp only [List.getElem?_cons_zero, Option.some.injEq, exists_eq_left',
              ChunkRanges.Contains, hsucc, Prod.mk.injEq, true_and]
            omega
        | succ child => simp
      · have hle : fullChunks size ≤ randomChunk := UInt64.not_lt.mp hr
        have hsub : (randomChunk - fullChunks size).toNat = randomChunk.toNat - size.toNat / 1024 := by
          rw [UInt64.toNat_sub_of_le _ _ hle, hfull]
        rw [if_neg hr, if_neg (hlt.not.mp hr), ← hsub, Option.map_eq_some_iff]
        cases child with
        | zero => simp [ChunkRanges.Contains]
        | succ child =>
            rw [List.getElem?_cons_succ, ih]
            simp [weights]

/-- The number that is drawn, if the sum of the full chunks is an integer. -/
def draw (rng : Rng) (sizes : List UInt64) : UInt64 :=
  rng.sample (UInt64.ofNat (U64.total (sizes.map fullChunks)))

/-- **A number is drawn** if there is a full chunk. -/
theorem randomHashSeqRanges_eq {sizes : List UInt64}
    (hpos : 0 < U64.total (sizes.map fullChunks))
    (hlt : U64.total (sizes.map fullChunks) < 2 ^ 64) (build : U64.Build) (rng : Rng) :
    (draw rng sizes).toNat < U64.total (sizes.map fullChunks) ∧
      randomHashSeqRanges build rng sizes = some (requestOfDraw sizes (draw rng sizes)) := by
  obtain ⟨t, ht, hval⟩ := U64.exists_sum_eq build hlt
  have htotal : UInt64.ofNat (U64.total (sizes.map fullChunks)) = t := by
    rw [← hval, UInt64.ofNat_toNat]
  have hdraw : draw rng sizes = rng.sample t := by rw [draw, htotal]
  have hstop : 0 < t := UInt64.lt_iff_toNat_lt.mpr (hval ▸ hpos)
  have hzero : ¬ t = 0 := UInt64.pos_iff_ne_zero.mp hstop
  rw [hdraw, ← hval]
  refine ⟨UInt64.lt_iff_toNat_lt.mp (rng.sample_lt t hstop), ?_⟩
  rw [randomHashSeqRanges, ht, Option.bind_eq_bind, Option.bind_some, Rng.randomRange, if_neg hzero]
  rfl

/-! ## Coverage -/

/-- Each chunk of each child is chosen by exactly one of the numbers that are drawn from. -/
def CoversChunks (build : U64.Build) (sizes : List UInt64) : Prop :=
  ∀ child size, sizes[child]? = some size → ∀ c < (chunks size).toNat,
    ∃! randomChunk, Drawable build sizes randomChunk ∧ SelectsChunk (requestOfDraw sizes randomChunk) child c

theorem sum_weights (sizes : List UInt64) :
    (weights sizes).sum = U64.total (sizes.map fullChunks) := (total_fullChunks sizes).symm

/-- Whatever a draw chooses is a full chunk. -/
theorem lt_fullChunks_of_selectsChunk {sizes : List UInt64} {randomChunk : UInt64} {child c : ℕ}
    (h : SelectsChunk (requestOfDraw sizes randomChunk) child c) {size : UInt64}
    (hsize : sizes[child]? = some size) : c < size.toNat / 1024 := by
  obtain ⟨w, hw, hc, _⟩ := locate_eq_some.mp ((selectsChunk_iff_locate _ _ _ _).mp h)
  obtain ⟨size', hsize', rfl⟩ := getElem?_weights.mp hw
  obtain rfl := Option.some.inj (hsize.symm.trans hsize')
  exact hc

/-- The last chunk of a child is left out if it is not a full one. -/
theorem not_coversChunks {build : U64.Build} {sizes : List UInt64} {size : UInt64}
    (hsize : size ∈ sizes) (hmod : size.toNat % 1024 ≠ 0) : ¬ CoversChunks build sizes := by
  intro h
  obtain ⟨child, hchild⟩ := List.mem_iff_getElem?.mp hsize
  have hlast : size.toNat / 1024 < (chunks size).toNat := by
    rw [chunks_toNat]
    omega
  obtain ⟨r, ⟨_, hselects⟩, _⟩ := h child size hchild _ hlast
  exact absurd (lt_fullChunks_of_selectsChunk hselects hchild) (Nat.lt_irrefl _)

/-- If every chunk is covered, then the sum that the draw stays below does not wrap: the last full chunk
of all is chosen, too. -/
theorem sum_weights_lt_of_coversChunks {build : U64.Build} {sizes : List UInt64}
    (h : CoversChunks build sizes) : (weights sizes).sum < 2 ^ 64 := by
  by_contra hge
  have hlast : (weights sizes).sum - 1 < (weights sizes).sum := by omega
  obtain ⟨child, c, hlocate⟩ := exists_locate hlast
  obtain ⟨w, hw, hc, _⟩ := locate_eq_some.mp hlocate
  obtain ⟨size, hsize, rfl⟩ := getElem?_weights.mp hw
  have hchunk : c < (chunks size).toNat := by
    rw [chunks_toNat]
    omega
  obtain ⟨r, ⟨⟨t, ht, hrt⟩, hselects⟩, _⟩ := h child size hsize c hchunk
  have hr : r.toNat = (weights sizes).sum - 1 :=
    locate_injective ((selectsChunk_iff_locate _ _ _ _).mp hselects) hlocate
  have ht' := U64.toNat_of_sum ht
  rw [← sum_weights] at ht'
  have hlt := UInt64.lt_iff_toNat_lt.mp hrt
  omega

/-- **A full chunk** is chosen by one number, which is its number among all full chunks. -/
theorem existsUnique_draw (build : U64.Build) {sizes : List UInt64}
    (hlt : (weights sizes).sum < 2 ^ 64) {child c : ℕ} {size : UInt64}
    (hsize : sizes[child]? = some size) (hfull : c < size.toNat / 1024) :
    ∃! randomChunk, Drawable build sizes randomChunk ∧
      SelectsChunk (requestOfDraw sizes randomChunk) child c := by
  let n := ((weights sizes).take child).sum + c
  have hlocate : locate (weights sizes) n = some (child, c) :=
    locate_eq_some.mpr ⟨_, getElem?_weights.mpr ⟨size, hsize, rfl⟩, hfull, rfl⟩
  have hn := lt_sum_of_locate hlocate
  have hdraw : (UInt64.ofNat n).toNat = n := UInt64.toNat_ofNat_of_lt' (hn.trans hlt)
  refine ⟨UInt64.ofNat n, ⟨?_, ?_⟩, ?_⟩
  · have htotal : U64.total (sizes.map fullChunks) < 2 ^ 64 := by rwa [← sum_weights]
    obtain ⟨t, ht, hval⟩ := U64.exists_sum_eq build htotal
    refine ⟨t, ht, UInt64.lt_iff_toNat_lt.mpr ?_⟩
    rw [hdraw, hval, ← sum_weights]
    exact hn
  · rw [selectsChunk_iff_locate, hdraw, hlocate]
  · rintro r ⟨_, hselects⟩
    refine UInt64.toNat_inj.mp ?_
    rw [hdraw]
    exact locate_injective ((selectsChunk_iff_locate _ _ _ _).mp hselects) hlocate

/-- **When every chunk can be chosen.**  In every build, if and only if the size of each child is a
multiple of the chunk size, and there are fewer than 2^64 chunks. -/
theorem coversChunks_iff (build : U64.Build) (sizes : List UInt64) :
    CoversChunks build sizes
      ↔ (∀ size ∈ sizes, size.toNat % 1024 = 0) ∧
        (sizes.map fun size => size.toNat / 1024).sum < 2 ^ 64 := by
  have hsum : (weights sizes).sum = (sizes.map fun size => size.toNat / 1024).sum := rfl
  constructor
  · intro h
    refine ⟨fun size hsize => by_contra fun hmod => not_coversChunks hsize hmod h, ?_⟩
    exact hsum.symm.trans_lt (sum_weights_lt_of_coversChunks h)
  · rintro ⟨hmod, hlt⟩ child size hsize c hc
    -- all chunks are full ones
    have hfull : c < size.toNat / 1024 := by
      rw [chunks_toNat] at hc
      have hsize := hmod size (List.mem_of_getElem? hsize)
      omega
    exact existsUnique_draw build (hsum.trans_lt hlt) hsize hfull

/-- **A chunk that is never chosen.**  The second chunk of a child of 1025 bytes is not a full one, and
neither is the only chunk of a child of 5 bytes. -/
theorem trailing_chunk_not_chosen :
    (∀ build, ¬ CoversChunks build [1025]) ∧ ∀ build, ¬ CoversChunks build [5] :=
  ⟨fun _ => not_coversChunks List.mem_cons_self (by decide),
    fun _ => not_coversChunks List.mem_cons_self (by decide)⟩

end IrohExperiments.Tracker
