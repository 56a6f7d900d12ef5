import IrohExperiments.Tracker.Actor
import IrohExperiments.Tracker.ChildLoop

/-!
# The probe of a hash sequence

A probe of a complete hash sequence asks a provider for one chunk of one child.  Two requests take part in
it.  `get_hash_seq_and_sizes` asks for the sequence itself and for the size of each child, and `probe` asks
for the chunk that was drawn from the sizes.

The state machine of `iroh_blobs` takes a request through its blobs: the ones of which something is asked
for, in order.  It is a parameter, `BlobsFsm`, and so is what the connection gives (`Remote`).  Between the
machine, the sequence and the ranges there are indices to be kept apart: the root is at offset 0, so the
child at offset `i + 1` is entry `i` of the sequence.  Where they do not fit, `probe` panics.

* `getHashSeqAndSizes_eq_ok`: there is one size for each entry, and it is the size of that child.
* `probeHashSeq_eq`: the probe asks for the child that the draw lies in, and does not panic.
* `child_selection` puts this together with the loop that chooses the child.
-/

namespace IrohExperiments.Tracker

/-! ## Requests -/

/-- Of which blobs of a sequence something is asked for: of the root and the first children as the list
says, and of all children after these or of none. -/
structure Asks where
  front : List Bool
  rest : Bool

namespace Asks

def includes (self : Asks) (offset : ℕ) : Bool := self.front[offset]?.getD self.rest

/-- The first offset from the given one on of which something is asked for. -/
def IsNext (self : Asks) (start : ℕ) : Option ℕ → Prop
  | some offset =>
      start ≤ offset ∧ self.includes offset = true ∧
        ∀ o, start ≤ o → o < offset → self.includes o = false
  | none => ∀ o, start ≤ o → self.includes o = false

end Asks

def ChunkRanges.isNonempty : ChunkRanges → Bool
  | .empty => false
  | .range start stop => start < stop

/-- `from_ranges`: nothing is asked for past the list. -/
def fromRanges (ranges : ChunkRangesSeq) : Asks := ⟨ranges.map ChunkRanges.isNonempty, false⟩

/-- The request of a draw asks for nothing but a chunk of one child. -/
theorem includes_of_stopsAt {sizes : List UInt64} {randomChunk size c : UInt64} {i : ℕ}
    (h : ChildLoop.StopsAt sizes randomChunk i c) (hc : c < fullChunks size) (offset : ℕ) :
    (fromRanges (requestOfDraw sizes randomChunk)).includes offset = decide (offset = i + 1) := by
  have hnonempty : (ChunkRanges.range c (c + 1)).isNonempty = true := by
    rw [ChunkRanges.isNonempty, decide_eq_true_eq, UInt64.lt_iff_toNat_lt,
      toNat_add_one_of_lt_fullChunks hc]
    exact Nat.lt_succ_self _
  rw [Asks.includes, fromRanges, List.getElem?_map, ChildLoop.getElem?_requestOfDraw h]
  split_ifs with hlt heq
  · exact (decide_eq_false (by omega)).symm
  · rw [Option.map_some, Option.getD_some, hnonempty, decide_eq_true heq]
  · exact (decide_eq_false heq).symm

/-- The request for a sequence and its sizes, `from_ranges_infinite` of all of the root and of the last
chunk of a child: the last range of the list is repeated. -/
def rootAndSizes : Asks := ⟨[true], true⟩

theorem includes_rootAndSizes (offset : ℕ) : rootAndSizes.includes offset = true := by
  cases offset <;> rfl

/-- In this request the next offset is always asked for. -/
theorem isNext_rootAndSizes (offset : ℕ) : rootAndSizes.IsNext offset (some offset) :=
  ⟨Nat.le_refl _, includes_rootAndSizes offset, fun _ hle hlt => absurd hlt (Nat.not_lt.mpr hle)⟩

/-! ## The state machine -/

/-- What comes after the request has been sent. -/
inductive ConnectedNext where
  | StartRoot
  | StartChild (offset : ℕ)
  | Closing

/-- What comes after a blob. -/
inductive EndBlobNext where
  | MoreChildren (offset : ℕ)
  | Closing

def ConnectedNext.ofOffset : Option ℕ → ConnectedNext
  | some 0 => .StartRoot
  | some (n + 1) => .StartChild (n + 1)
  | none => .Closing

def EndBlobNext.ofOffset : Option ℕ → EndBlobNext
  | some offset => .MoreChildren offset
  | none => .Closing

/-- The state machine of a request.  It goes through the blobs of which something is asked for, in
order. -/
class BlobsFsm where
  connectedNext : Asks → ConnectedNext
  /-- After the blob at the offset. -/
  endBlobNext : Asks → ℕ → EndBlobNext
  connectedNext_eq : ∀ asks next, asks.IsNext 0 next →
    connectedNext asks = ConnectedNext.ofOffset next
  endBlobNext_eq : ∀ asks offset next, asks.IsNext (offset + 1) next →
    endBlobNext asks offset = EndBlobNext.ofOffset next

/-! ## Failures -/

/-- Where `probe` and `get_hash_seq_and_sizes` can panic: in the choice of the ranges, and at each
`unreachable!` and `expect`. -/
inductive Panic where
  | RandomRanges
  | QueryIncludesRoot
  | RequestDoesNotIncludeRoot
  | OffsetUnderflow
  | ChildOffsetTooLarge
  | InconsistentWithHashSeq
  | OnlyOneBlob

/-- An error that is returned, or a panic. -/
inductive Failure where
  | Err
  | Panic (panic : Panic)

def orFail {α : Type} (failure : Failure) : Option α → Except Failure α
  | some a => .ok a
  | none => .error failure

theorem ok_bind {α β : Type} (a : α) (f : α → Except Failure β) : Except.ok a >>= f = f a := rfl

theorem bind_eq_ok {α β : Type} {x : Except Failure α} {f : α → Except Failure β} {b : β} :
    x >>= f = .ok b ↔ ∃ a, x = .ok a ∧ f a = .ok b := by
  constructor
  · intro h
    cases x with
    | error e => cases h
    | ok a => exact ⟨a, rfl, h⟩
  · rintro ⟨a, rfl, h⟩
    exact h

/-- What the connection gives, or fails to give. -/
structure Remote where
  connected : Option Unit
  rootHeader : Option UInt64
  /-- The data of the root, which has to be a sequence of hashes. -/
  rootContent : Option HashSeq
  /-- The header and the data of the child at an offset, that is, its size. -/
  child : ℕ → Hash → Option UInt64
  closed : Option Unit

/-- The connection gets the probe of a child to its end. -/
def Remote.answers (self : Remote) (offset : ℕ) (hash : Hash) : Bool :=
  self.connected.isSome && (self.child offset hash).isSome && self.closed.isSome

/-- The sizes are the ones that the connection gives for the first entries of the sequence. -/
def SizesOf (remote : Remote) (hashSeq : HashSeq) (sizes : List UInt64) : Prop :=
  ∀ i size, sizes[i]? = some size →
    ∃ hash, hashSeq[i]? = some hash ∧ remote.child (i + 1) hash = some size

theorem SizesOf.push {remote : Remote} {hashSeq : HashSeq} {sizes : List UInt64}
    (h : SizesOf remote hashSeq sizes) {hash : Hash} {size : UInt64}
    (hhash : hashSeq[sizes.length]? = some hash)
    (hsize : remote.child (sizes.length + 1) hash = some size) :
    SizesOf remote hashSeq (sizes ++ [size]) := by
  intro i size' hi
  rcases Nat.lt_trichotomy i sizes.length with hlt | rfl | hgt
  · rw [List.getElem?_append_left hlt] at hi
    exact h i size' hi
  · rw [List.getElem?_concat_length] at hi
    obtain rfl := Option.some.inj hi
    exact ⟨hash, hhash, hsize⟩
  · rw [List.getElem?_eq_none (by rw [List.length_append, List.length_singleton]; omega)] at hi
    cases hi

section Machine

variable [BlobsFsm]

/-! ## The sizes -/

/-- The loop of `get_hash_seq_and_sizes`, after the blob at the offset. -/
def sizesLoop (remote : Remote) (hashSeq : HashSeq) (offset : ℕ) (sizes : List UInt64) :
    Except Failure (List UInt64) :=
  match BlobsFsm.endBlobNext rootAndSizes offset with
  | .Closing => .ok sizes
  | .MoreChildren more =>
      match _h : hashSeq[sizes.length]? with
      | none => .ok sizes
      | some hash =>
          match remote.child more hash with
          | none => .error .Err
          | some size => sizesLoop remote hashSeq more (sizes ++ [size])
termination_by hashSeq.length - sizes.length
decreasing_by
  obtain ⟨hlt, _⟩ := List.getElem?_eq_some_iff.mp _h
  rw [List.length_append, List.length_singleton]
  omega

def getHashSeqAndSizes (remote : Remote) (maxSize : UInt64) :
    Except Failure (HashSeq × List UInt64) := do
  orFail .Err remote.connected
  match BlobsFsm.connectedNext rootAndSizes with
  | .StartRoot =>
      let size ← orFail .Err remote.rootHeader
      if size > maxSize then throw .Err
      else
        let hashSeq ← orFail .Err remote.rootContent
        let sizes ← sizesLoop remote hashSeq 0 []
        orFail .Err remote.closed
        return (hashSeq, sizes)
  | _ => throw (.Panic .QueryIncludesRoot)

theorem connectedNext_rootAndSizes : BlobsFsm.connectedNext rootAndSizes = .StartRoot :=
  BlobsFsm.connectedNext_eq _ _ (isNext_rootAndSizes 0)

theorem endBlobNext_rootAndSizes (offset : ℕ) :
    BlobsFsm.endBlobNext rootAndSizes offset = .MoreChildren (offset + 1) :=
  BlobsFsm.endBlobNext_eq _ _ _ (isNext_rootAndSizes (offset + 1))

section Loop

variable {remote : Remote} {hashSeq : HashSeq} {sizes sizes' : List UInt64} {offset : ℕ} {hash : Hash}

theorem sizesLoop_of_end (h : hashSeq[sizes.length]? = none) :
    sizesLoop remote hashSeq offset sizes = .ok sizes := by
  rw [sizesLoop, endBlobNext_rootAndSizes]
  dsimp only
  split <;> rename_i hget <;> rw [h] at hget
  cases hget

theorem sizesLoop_of_child (h : hashSeq[sizes.length]? = some hash) :
    sizesLoop remote hashSeq offset sizes
      = (orFail .Err (remote.child (offset + 1) hash)).bind fun size =>
          sizesLoop remote hashSeq (offset + 1) (sizes ++ [size]) := by
  rw [sizesLoop, endBlobNext_rootAndSizes]
  dsimp only
  split <;> rename_i hget <;> rw [h] at hget
  · cases hget
  · obtain rfl := Option.some.inj hget
    cases remote.child (offset + 1) hash <;> rfl

/-- **The loop ends with a size for each entry.**  The blob that it stands at is the child of the size
that was pushed last. -/
theorem sizesLoop_eq_ok (hsizes : SizesOf remote hashSeq sizes)
    (hle : sizes.length ≤ hashSeq.length)
    (h : sizesLoop remote hashSeq sizes.length sizes = .ok sizes') :
    sizes'.length = hashSeq.length ∧ SizesOf remote hashSeq sizes' := by
  generalize hn : hashSeq.length - sizes.length = n
  induction n generalizing sizes with
  | zero =>
      rw [sizesLoop_of_end (List.getElem?_eq_none (by omega))] at h
      obtain rfl := Except.ok.inj h
      exact ⟨by omega, hsizes⟩
  | succ n ih =>
      have hlt : sizes.length < hashSeq.length := by omega
      have hhash := List.getElem?_eq_getElem hlt
      rw [sizesLoop_of_child hhash] at h
      cases hchild : remote.child (sizes.length + 1) hashSeq[sizes.length] with
      | none =>
          rw [hchild] at h
          cases h
      | some size =>
          rw [hchild] at h
          have hlength : (sizes ++ [size]).length = sizes.length + 1 := by
            rw [List.length_append, List.length_singleton]
          refine ih (hsizes.push hhash hchild) (by omega) ?_ (by omega)
          rw [hlength]
          exact h

/-- **There is a size for each entry of the sequence**, and it is the size of that child. -/
theorem getHashSeqAndSizes_eq_ok {maxSize : UInt64}
    (h : getHashSeqAndSizes remote maxSize = .ok (hashSeq, sizes)) :
    sizes.length = hashSeq.length ∧ SizesOf remote hashSeq sizes := by
  rw [getHashSeqAndSizes, connectedNext_rootAndSizes] at h
  obtain ⟨_, _, h⟩ := bind_eq_ok.mp h
  obtain ⟨size, _, h⟩ := bind_eq_ok.mp h
  split_ifs at h
  obtain ⟨hashSeq', _, h⟩ := bind_eq_ok.mp h
  obtain ⟨sizes', hloop, h⟩ := bind_eq_ok.mp h
  obtain ⟨_, _, h⟩ := bind_eq_ok.mp h
  obtain ⟨rfl, rfl⟩ := Prod.mk.inj (Except.ok.inj h)
  have hnil : SizesOf remote hashSeq' [] := fun _ _ hi => by cases hi
  exact sizesLoop_eq_ok hnil (Nat.zero_le _) hloop

end Loop

/-! ## The probe -/

/-- `usize::try_from(child.offset() - 1)`, with the largest `usize`. -/
def childIndex (usizeMax offset : ℕ) : Except Failure ℕ :=
  if offset = 0 then .error (.Panic .OffsetUnderflow)
  else if usizeMax < offset - 1 then .error (.Panic .ChildOffsetTooLarge)
  else .ok (offset - 1)

/-- The probe of a complete hash sequence.  The result says which entry of the sequence was asked for. -/
def probeHashSeq (build : U64.Build) (rng : Rng) (usizeMax : ℕ) (remote : Remote) (hs : HashSeq)
    (sizes : List UInt64) : Except Failure (ℕ × Hash) := do
  let ranges ← orFail (.Panic .RandomRanges) (randomHashSeqRanges build rng sizes)
  let request := fromRanges ranges
  orFail .Err remote.connected
  match BlobsFsm.connectedNext request with
  | .StartChild offset =>
      let index ← childIndex usizeMax offset
      let hash ← orFail (.Panic .InconsistentWithHashSeq) hs[index]?
      let _ ← orFail .Err (remote.child offset hash)
      match BlobsFsm.endBlobNext request offset with
      | .Closing =>
          orFail .Err remote.closed
          return (index, hash)
      | .MoreChildren _ => throw (.Panic .OnlyOneBlob)
  | _ => throw (.Panic .RequestDoesNotIncludeRoot)

section Probe

variable {sizes : List UInt64} {randomChunk size c : UInt64} {i : ℕ}

/-- The machine starts at the child. -/
theorem connectedNext_of_stopsAt (h : ChildLoop.StopsAt sizes randomChunk i c)
    (hc : c < fullChunks size) :
    BlobsFsm.connectedNext (fromRanges (requestOfDraw sizes randomChunk)) = .StartChild (i + 1) := by
  refine BlobsFsm.connectedNext_eq _ (some (i + 1)) ⟨Nat.zero_le _, ?_, fun o _ hlt => ?_⟩
  · rw [includes_of_stopsAt h hc, decide_eq_true rfl]
  · rw [includes_of_stopsAt h hc, decide_eq_false (Nat.ne_of_lt hlt)]

/-- After the child it is done. -/
theorem endBlobNext_of_stopsAt (h : ChildLoop.StopsAt sizes randomChunk i c)
    (hc : c < fullChunks size) :
    BlobsFsm.endBlobNext (fromRanges (requestOfDraw sizes randomChunk)) (i + 1) = .Closing := by
  refine BlobsFsm.endBlobNext_eq _ _ none fun o hle => ?_
  rw [includes_of_stopsAt h hc, decide_eq_false (Nat.ne_of_gt hle)]

/-- **The probe asks for the entry that the draw lies in.** -/
theorem probeHashSeq_eq {build : U64.Build} {rng : Rng} {usizeMax : ℕ} {hs : HashSeq} {hash : Hash}
    (hranges : randomHashSeqRanges build rng sizes = some (requestOfDraw sizes randomChunk))
    (h : ChildLoop.StopsAt sizes randomChunk i c) (hc : c < fullChunks size) (hi : i ≤ usizeMax)
    (hhash : hs[i]? = some hash) (remote : Remote) :
    probeHashSeq build rng usizeMax remote hs sizes
      = if remote.answers (i + 1) hash then .ok (i, hash) else .error .Err := by
  have hindex : childIndex usizeMax (i + 1) = .ok i := by
    rw [childIndex, if_neg (Nat.succ_ne_zero i), Nat.add_sub_cancel, if_neg (Nat.not_lt.mpr hi)]
  rw [probeHashSeq, hranges, Remote.answers]
  -- the reads of the connection, in order
  cases remote.connected with
  | none => rfl
  | some _ =>
      simp only [orFail, ok_bind, connectedNext_of_stopsAt h hc, hindex, hhash]
      cases remote.child (i + 1) hash with
      | none => rfl
      | some _ =>
          simp only [ok_bind, endBlobNext_of_stopsAt h hc]
          cases remote.closed <;> rfl

end Probe

/-- **The choice of a child.**  If there is a full chunk and the full chunks can be counted, then every
draw stops the loop at a full chunk of a child, and the ranges ask for this chunk only.  Different draws
stop it at different places.  If the sizes come with the sequence, then the probe asks for the entry of that
child: it returns, or fails with the connection, and it does not panic. -/
theorem child_selection (sizes : List UInt64) (hpos : 0 < U64.total (sizes.map fullChunks))
    (hlt : U64.total (sizes.map fullChunks) < 2 ^ 64) :
    (∀ randomChunk : UInt64, randomChunk.toNat < U64.total (sizes.map fullChunks) →
      ∃ i c size, sizes[i]? = some size ∧ c < fullChunks size ∧
        ChildLoop.StopsAt sizes randomChunk i c ∧
        ChildLoop.OnlyChunk (requestOfDraw sizes randomChunk) (i + 1) c.toNat) ∧
    (∀ randomChunk randomChunk' i c, ChildLoop.StopsAt sizes randomChunk i c →
      ChildLoop.StopsAt sizes randomChunk' i c → randomChunk = randomChunk') ∧
    ∀ earlier maxSize hs, getHashSeqAndSizes earlier maxSize = .ok (hs, sizes) →
      hs.length = sizes.length ∧
      ∀ build rng usizeMax, sizes.length ≤ usizeMax →
        ∃ i c hash, ChildLoop.StopsAt sizes (draw rng sizes) i c ∧ hs[i]? = some hash ∧
          ∀ remote, probeHashSeq build rng usizeMax remote hs sizes
            = if remote.answers (i + 1) hash then .ok (i, hash) else .error .Err := by
  refine ⟨fun randomChunk hdraw => ?_, fun _ _ _ _ => ChildLoop.stopsAt_injective, ?_⟩
  · obtain ⟨i, c, size, hsize, hc, hstops⟩ := ChildLoop.exists_stopsAt hdraw
    exact ⟨i, c, size, hsize, hc, hstops, ChildLoop.onlyChunk_requestOfDraw hstops hc⟩
  · intro earlier maxSize hs hget
    have hlength := (getHashSeqAndSizes_eq_ok hget).1
    refine ⟨hlength.symm, fun build rng usizeMax hmax => ?_⟩
    obtain ⟨hdraw, hranges⟩ := randomHashSeqRanges_eq hpos hlt build rng
    obtain ⟨i, c, size, hsize, hc, hstops⟩ := ChildLoop.exists_stopsAt hdraw
    -- the child has an entry, as there are as many entries as sizes
    have hi : i < sizes.length := (List.getElem?_eq_some_iff.mp hsize).1
    have hhash := List.getElem?_eq_getElem (hlength ▸ hi)
    exact ⟨i, c, _, hstops, hhash,
      probeHashSeq_eq hranges hstops hc (by omega) hhash⟩

end Machine

/-! ## A machine -/

namespace Asks

/-- The first offset from the given one on, searched for up to the end of the list: all that follow are
alike. -/
def next (self : Asks) (start : ℕ) : Option ℕ :=
  (List.range' start (self.front.length - start + 1)).find? self.includes

theorem IsNext.unique {self : Asks} {start : ℕ} {a b : Option ℕ} (h : self.IsNext start a)
    (h' : self.IsNext start b) : a = b := by
  have hno : ∀ o o', self.IsNext start (some o) → self.IsNext start (some o') → ¬ o < o' := by
    intro o o' ho ho' hlt
    have hfalse := ho'.2.2 o ho.1 hlt
    rw [ho.2.1] at hfalse
    cases hfalse
  have hnone : ∀ o, self.IsNext start none → ¬ self.IsNext start (some o) := by
    intro o hn ho
    have hfalse := hn o ho.1
    rw [ho.2.1] at hfalse
    cases hfalse
  cases a with
  | none =>
      cases b with
      | none => rfl
      | some o' => exact absurd h' (hnone o' h)
  | some o =>
      cases b with
      | none => exact absurd h (hnone o h')
      | some o' =>
          have hle := hno o o' h h'
          have hge := hno o' o h' h
          exact congrArg some (by omega)

theorem isNext_next (self : Asks) (start : ℕ) : self.IsNext start (self.next start) := by
  have hpast : ∀ o, self.front.length ≤ o → self.includes o = self.rest := by
    intro o hle
    rw [includes, List.getElem?_eq_none hle, Option.getD_none]
  cases hnext : self.next start with
  | some offset =>
      obtain ⟨hincludes, hmem, hbefore⟩ := List.find?_range'_eq_some.mp hnext
      refine ⟨(List.mem_range'_1.mp hmem).1, hincludes, fun o hle hlt => ?_⟩
      simpa using hbefore o hle hlt
  | none =>
      intro o hle
      have hnone := List.find?_range'_eq_none.mp hnext
      by_cases ho : o < start + (self.front.length - start + 1)
      · simpa using hnone o hle ho
      · have hlast := hnone (start + (self.front.length - start)) (by omega) (by omega)
        rw [hpast _ (by omega)] at hlast
        rw [hpast o (by omega)]
        simpa using hlast

end Asks

/-- A machine that computes the next offset. -/
abbrev BlobsFsm.standard : BlobsFsm where
  connectedNext asks := ConnectedNext.ofOffset (asks.next 0)
  endBlobNext asks offset := EndBlobNext.ofOffset (asks.next (offset + 1))
  connectedNext_eq asks _ h := by rw [h.unique (asks.isNext_next 0)]
  endBlobNext_eq asks offset _ h := by rw [h.unique (asks.isNext_next (offset + 1))]

section Standard

attribute [local instance] BlobsFsm.standard

/-- The sizes of three children.  The first one has no full chunk. -/
def threeSizes : List UInt64 := [5, 2053, 1024]

def threeHashes : HashSeq := [List.Vector.replicate 32 1, List.Vector.replicate 32 2,
  List.Vector.replicate 32 3]

/-- A provider of the three children. -/
def threeRemote : Remote where
  connected := some ()
  rootHeader := some 96
  rootContent := some threeHashes
  child offset _ := threeSizes[offset - 1]?
  closed := some ()

theorem getHashSeqAndSizes_three :
    getHashSeqAndSizes threeRemote 1000 = .ok (threeHashes, threeSizes) := by
  have hloop : sizesLoop threeRemote threeHashes 0 [] = .ok threeSizes :=
    calc sizesLoop threeRemote threeHashes 0 []
        = sizesLoop threeRemote threeHashes 1 [5] := sizesLoop_of_child rfl
      _ = sizesLoop threeRemote threeHashes 2 [5, 2053] := sizesLoop_of_child rfl
      _ = sizesLoop threeRemote threeHashes 3 [5, 2053, 1024] := sizesLoop_of_child rfl
      _ = .ok threeSizes := sizesLoop_of_end rfl
  have hsize : ¬ (96 : UInt64) > 1000 := by decide
  rw [getHashSeqAndSizes, connectedNext_rootAndSizes]
  simp only [threeRemote, orFail, ok_bind, if_neg hsize]
  exact congrArg (· >>= _) hloop

/-- The smallest number of the range. -/
def Rng.zero : Rng := ⟨fun _ => 0, fun _ hpos => hpos⟩

theorem child_selection_three :
    (∃ i c size, threeSizes[i]? = some size ∧ c < fullChunks size ∧
        ChildLoop.StopsAt threeSizes 2 i c ∧
        ChildLoop.OnlyChunk (requestOfDraw threeSizes 2) (i + 1) c.toNat) ∧
      ∃ i c hash, ChildLoop.StopsAt threeSizes (draw Rng.zero threeSizes) i c ∧
        threeHashes[i]? = some hash ∧
        ∀ remote, probeHashSeq .Debug Rng.zero 100 remote threeHashes threeSizes
          = if remote.answers (i + 1) hash then .ok (i, hash) else .error .Err :=
  have h := child_selection threeSizes (by decide) (by decide)
  ⟨h.1 2 (by decide),
    (h.2.2 threeRemote 1000 threeHashes getHashSeqAndSizes_three).2 .Debug Rng.zero 100 (by decide)⟩

example : ChildLoop.StopsAt [5, 2053, 1024] 2 2 0 := rfl

end Standard

end IrohExperiments.Tracker
