import IrohExperiments.Lib.Transition
import IrohExperiments.Tracker.ChunkChoice

/-!
# The loop over the children

`random_hash_seq_ranges` keeps a counter and a list of ranges.  A pass takes the full chunks of one child
from the counter and pushes an empty range, or, if the counter is below them, pushes the one chunk that
the counter names and leaves the loop.

The counter is what is left of the draw after the children so far (`Inv`), so a draw below the sum of the
full chunks stops the loop inside the list, at the child and the chunk at which `locate` finds it
(`stopsAt_iff`).  No pass underflows, whatever the counter is (`exists_pass`).  The ranges are the ones of
`requestOfDraw` (`requestOfDraw_eq`).
-/

namespace IrohExperiments.Tracker

open WeightedIndex

/-- The variables of the loop, and whether it has been left. -/
structure ChildLoop where
  remaining : UInt64
  ranges : ChunkRangesSeq
  stopped : Bool

namespace ChildLoop

/-- One pass.  `none` is an overflow or an underflow. -/
def pass (self : ChildLoop) (size : UInt64) : Option ChildLoop :=
  if self.stopped then some self
  else if self.remaining < fullChunks size then do
    let stop ← U64.add .Debug self.remaining 1
    return ⟨self.remaining, self.ranges ++ [.range self.remaining stop], true⟩
  else do
    let remaining ← U64.sub .Debug self.remaining (fullChunks size)
    return ⟨remaining, self.ranges ++ [.empty], false⟩

/-- The loop for a draw, over the sizes of the children. -/
def run (randomChunk : UInt64) (sizes : List UInt64) : Option ChildLoop :=
  Transition.run pass ⟨randomChunk, [.empty], false⟩ sizes

variable {s s' : ChildLoop} {size : UInt64}

/-- **What a pass does.** -/
theorem pass_cases (s : ChildLoop) (size : UInt64) :
    s.stopped = true ∧ s.pass size = some s ∨
      s.stopped = false ∧ s.remaining.toNat < size.toNat / 1024 ∧
        s.pass size = some ⟨s.remaining, s.ranges ++ [.range s.remaining (s.remaining + 1)], true⟩ ∨
      s.stopped = false ∧ size.toNat / 1024 ≤ s.remaining.toNat ∧
        s.pass size = some ⟨s.remaining - fullChunks size, s.ranges ++ [.empty], false⟩ := by
  have hfull := fullChunks_toNat size
  have hlt : s.remaining < fullChunks size ↔ s.remaining.toNat < size.toNat / 1024 := by
    rw [UInt64.lt_iff_toNat_lt, hfull]
  cases hstopped : s.stopped with
  | true => exact Or.inl ⟨rfl, by rw [pass, if_pos hstopped]⟩
  | false =>
      have hrun : ¬ s.stopped = true := by rw [hstopped]; exact Bool.false_ne_true
      by_cases h : s.remaining < fullChunks size
      · refine Or.inr (Or.inl ⟨rfl, hlt.mp h, ?_⟩)
        -- a number of full chunks is far from the end of the integers
        have hsize := size.toNat_lt
        have hchunk := hlt.mp h
        have hone : (1 : UInt64).toNat = 1 := rfl
        have hadd := (U64.add_eq .Debug (x := s.remaining) (y := 1) (by omega)).1
        rw [pass, if_neg hrun, if_pos h, hadd]
        rfl
      · refine Or.inr (Or.inr ⟨rfl, Nat.not_lt.mp (hlt.not.mp h), ?_⟩)
        have hsub : U64.sub .Debug s.remaining (fullChunks size)
            = some (s.remaining - fullChunks size) := by
          rw [U64.sub, if_pos]
          rw [hfull]
          exact Nat.not_lt.mp (hlt.not.mp h)
        rw [pass, if_neg hrun, if_neg h, hsub]
        rfl

/-- No pass underflows. -/
theorem exists_pass (s : ChildLoop) (size : UInt64) : ∃ s', s.pass size = some s' := by
  rcases pass_cases s size with ⟨_, h⟩ | ⟨_, _, h⟩ | ⟨_, _, h⟩ <;> exact ⟨_, h⟩

/-! ## The invariant -/

/-- After the given children the loop goes on with the rest of the draw, or it has stopped at the place
where the draw lies. -/
structure Inv (randomChunk : UInt64) (sizes : List UInt64) (s : ChildLoop) : Prop where
  goes_on : s.stopped = false → s.remaining.toNat + (weights sizes).sum = randomChunk.toNat ∧
    s.ranges = List.replicate (sizes.length + 1) .empty
  stops : s.stopped = true → ∃ i,
    locate (weights sizes) randomChunk.toNat = some (i, s.remaining.toNat) ∧
    s.ranges = List.replicate (i + 1) .empty ++ [.range s.remaining (s.remaining + 1)]

variable {randomChunk : UInt64} {sizes : List UInt64}

theorem inv_nil : Inv randomChunk [] ⟨randomChunk, [.empty], false⟩ where
  goes_on _ := ⟨rfl, rfl⟩
  stops h := absurd h Bool.false_ne_true

theorem weights_concat (sizes : List UInt64) (size : UInt64) :
    weights (sizes ++ [size]) = weights sizes ++ [size.toNat / 1024] := by
  rw [weights, weights, List.map_append, List.map_singleton]

theorem Inv.pass (h : Inv randomChunk sizes s) (hpass : s.pass size = some s') :
    Inv randomChunk (sizes ++ [size]) s' := by
  rcases pass_cases s size with ⟨hstopped, hs⟩ | ⟨hrun, hlt, hs⟩ | ⟨hrun, hle, hs⟩ <;>
    obtain rfl := Option.some.inj (hs.symm.trans hpass)
  · -- the loop has been left
    obtain ⟨i, hlocate, hranges⟩ := h.stops hstopped
    refine ⟨fun hrun => ?_, fun _ => ⟨i, ?_, hranges⟩⟩
    · rw [hstopped] at hrun
      cases hrun
    · rw [weights_concat]
      exact locate_append hlocate _
  · -- the counter names a chunk of this child
    obtain ⟨hsum, hranges⟩ := h.goes_on hrun
    refine ⟨fun hrun => (by cases hrun), fun _ => ⟨sizes.length, ?_, ?_⟩⟩
    · have hlength : (weights sizes).length = sizes.length := by rw [weights, List.length_map]
      rw [weights_concat, ← hsum, Nat.add_comm, locate_concat hlt, hlength]
    · rw [hranges]
  · -- this child is passed over
    obtain ⟨hsum, hranges⟩ := h.goes_on hrun
    refine ⟨fun _ => ⟨?_, ?_⟩, fun hstopped => (by cases hstopped)⟩
    · have hfull := fullChunks_toNat size
      have hsub : (s.remaining - fullChunks size).toNat = s.remaining.toNat - size.toNat / 1024 := by
        rw [UInt64.toNat_sub_of_le _ _ (UInt64.le_iff_toNat_le.mpr (by omega)), hfull]
      rw [hsub, weights_concat, List.sum_append, List.sum_singleton]
      omega
    · rw [hranges, List.length_append, List.length_singleton, List.replicate_succ' (n := _ + 1)]

theorem inv_of_run (h : run randomChunk sizes = some s) : Inv randomChunk sizes s :=
  Transition.run_induction inv_nil (fun _ _ _ _ _ hinv hpass => hinv.pass hpass) h

/-- No draw makes the loop underflow. -/
theorem exists_run (randomChunk : UInt64) (sizes : List UInt64) :
    ∃ s, run randomChunk sizes = some s :=
  Transition.exists_run (fun size _ s => exists_pass s size) _

/-! ## Where the loop stops -/

/-- The loop stops at a chunk of a child, with ranges that are empty but for this chunk.  The root has the
first place. -/
def StopsAt (sizes : List UInt64) (randomChunk : UInt64) (i : ℕ) (c : UInt64) : Prop :=
  run randomChunk sizes = some ⟨c, List.replicate (i + 1) .empty ++ [.range c (c + 1)], true⟩

/-- **The loop stops where the draw lies.** -/
theorem stopsAt_iff {i : ℕ} {c : UInt64} :
    StopsAt sizes randomChunk i c ↔ locate (weights sizes) randomChunk.toNat = some (i, c.toNat) := by
  constructor
  · intro h
    obtain ⟨j, hlocate, hranges⟩ := (inv_of_run h).stops rfl
    have hlength := congrArg List.length hranges
    simp only [List.length_append, List.length_replicate, List.length_singleton] at hlength
    obtain rfl : i = j := by omega
    exact hlocate
  · intro hlocate
    obtain ⟨s, hs⟩ := exists_run randomChunk sizes
    obtain ⟨remaining, ranges, stopped⟩ := s
    cases stopped with
    | false =>
        -- then all of the weights would be below the draw
        have hsum := ((inv_of_run hs).goes_on rfl).1
        have hlt := lt_sum_of_locate hlocate
        dsimp only at hsum
        omega
    | true =>
        obtain ⟨j, hlocate', hranges⟩ := (inv_of_run hs).stops rfl
        obtain ⟨rfl, hc⟩ := Prod.mk.inj (Option.some.inj (hlocate.symm.trans hlocate'))
        obtain rfl := UInt64.toNat_inj.mp hc
        dsimp only at hranges
        rw [StopsAt, hs, hranges]

/-- **Every draw stops the loop** inside the list, at a full chunk. -/
theorem exists_stopsAt (h : randomChunk.toNat < U64.total (sizes.map fullChunks)) :
    ∃ i c size, sizes[i]? = some size ∧ c < fullChunks size ∧ StopsAt sizes randomChunk i c := by
  rw [← sum_weights] at h
  obtain ⟨i, n, hlocate⟩ := exists_locate h
  obtain ⟨w, hw, hn, hsum⟩ := locate_eq_some.mp hlocate
  obtain ⟨size, hsize, rfl⟩ := getElem?_weights.mp hw
  have hdraw := randomChunk.toNat_lt
  have hbound : n < 2 ^ 64 := by omega
  have hc : (UInt64.ofNat n).toNat = n := UInt64.toNat_ofNat_of_lt' hbound
  refine ⟨i, UInt64.ofNat n, size, hsize, ?_, ?_⟩
  · rw [UInt64.lt_iff_toNat_lt, hc, fullChunks_toNat]
    exact hn
  · rw [stopsAt_iff, hc]
    exact hlocate

/-- **Different draws stop it at different places.** -/
theorem stopsAt_injective {randomChunk' : UInt64} {i : ℕ} {c : UInt64}
    (h : StopsAt sizes randomChunk i c) (h' : StopsAt sizes randomChunk' i c) :
    randomChunk = randomChunk' :=
  UInt64.toNat_inj.mp (locate_injective (stopsAt_iff.mp h) (stopsAt_iff.mp h'))

/-! ## The ranges -/

theorem run_of_stopped (h : s.stopped = true) (sizes : List UInt64) :
    Transition.run pass s sizes = some s := by
  induction sizes with
  | nil => rfl
  | cons size sizes ih =>
      rw [Transition.run_cons, pass, if_pos h, Option.bind_some, ih]

/-- From where it stands, the loop pushes the ranges of `hashSeqLoop`. -/
theorem ranges_eq (hrun : s.stopped = false) (h : Transition.run pass s sizes = some s') :
    s'.ranges = s.ranges ++ hashSeqLoop s.remaining sizes := by
  induction sizes generalizing s with
  | nil =>
      obtain rfl := Option.some.inj h
      rw [hashSeqLoop, List.append_nil]
  | cons size sizes ih =>
      have hlt : s.remaining < fullChunks size ↔ s.remaining.toNat < size.toNat / 1024 := by
        rw [UInt64.lt_iff_toNat_lt, fullChunks_toNat]
      rw [Transition.run_cons] at h
      rw [hashSeqLoop]
      rcases pass_cases s size with ⟨hstopped, _⟩ | ⟨_, hchunk, hs⟩ | ⟨_, hchunk, hs⟩
      · rw [hrun] at hstopped
        cases hstopped
      · rw [hs, Option.bind_some, run_of_stopped rfl] at h
        rw [if_pos (hlt.mpr hchunk), ← Option.some.inj h]
      · rw [hs, Option.bind_some] at h
        rw [if_neg (hlt.not.mpr (Nat.not_lt.mpr hchunk)), ih rfl h, List.append_assoc,
          List.singleton_append]

/-- **The request of a draw** is the ranges of the loop. -/
theorem requestOfDraw_eq {i : ℕ} {c : UInt64} (h : StopsAt sizes randomChunk i c) :
    requestOfDraw sizes randomChunk
      = List.replicate (i + 1) .empty ++ [.range c (c + 1)] :=
  (ranges_eq rfl h).symm

/-- Its ranges, one by one. -/
theorem getElem?_requestOfDraw {i : ℕ} {c : UInt64} (h : StopsAt sizes randomChunk i c)
    (offset : ℕ) :
    (requestOfDraw sizes randomChunk)[offset]?
      = if offset < i + 1 then some .empty
        else if offset = i + 1 then some (.range c (c + 1))
        else none := by
  have hlength : (List.replicate (i + 1) ChunkRanges.empty).length = i + 1 := List.length_replicate
  rw [requestOfDraw_eq h]
  split_ifs with hlt heq
  · rw [List.getElem?_append_left (hlt.trans_eq hlength.symm), List.getElem?_replicate, if_pos hlt]
  · rw [heq, List.getElem?_append_right hlength.le, hlength, Nat.sub_self, List.getElem?_cons_zero]
  · refine List.getElem?_eq_none ?_
    rw [List.length_append, hlength, List.length_singleton]
    omega

/-- A chunk of a blob is asked for, and no other chunk of any blob. -/
def OnlyChunk (ranges : ChunkRangesSeq) (offset n : ℕ) : Prop :=
  ∀ o m, (∃ r, ranges[o]? = some r ∧ r.Contains m) ↔ o = offset ∧ m = n

theorem onlyChunk_requestOfDraw {i : ℕ} {c size : UInt64} (h : StopsAt sizes randomChunk i c)
    (hc : c < fullChunks size) : OnlyChunk (requestOfDraw sizes randomChunk) (i + 1) c.toNat := by
  intro o m
  rw [getElem?_requestOfDraw h]
  split_ifs with hlt heq
  · simp only [Option.some.injEq, exists_eq_left', ChunkRanges.Contains, false_iff]
    omega
  · simp only [Option.some.injEq, exists_eq_left', ChunkRanges.Contains,
      toNat_add_one_of_lt_fullChunks hc]
    omega
  · simp only [false_and, exists_false, false_iff]
    omega

end ChildLoop

end IrohExperiments.Tracker
