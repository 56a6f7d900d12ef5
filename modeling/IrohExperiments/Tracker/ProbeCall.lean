import IrohExperiments.Tracker.ProbeOne
import IrohExperiments.Tracker.Sizes

/-!
# A call of `probe`

`probe` has three parts when the content is complete: the sizes, from the actor or from the host that is
probed; a draw of a chunk; and the request of this chunk.  `ProbeCall.fetch` and `ProbeCall.probeWith` are
what the host is asked, and `ProbeConnection` is what it sends.

What a host sends is checked against the hash that was asked for: it can give the sizes of data with this
hash, and nothing else (`ProbeCall.Genuine`).

* `ProbeCall.right_of_fetch`: if a host gives sizes, then these are the ones of the content.
* `ProbeCall.probeWith_cases`: with the sizes of the content, a probe asks for a part of it.
-/

namespace IrohExperiments.Tracker

/-! ## Draws -/

/-- No chunk can be drawn from a blob. -/
theorem not_choosable_of_randomRange {rng : Rng} {size : UInt64}
    (hnone : rng.randomRange (chunks size) = none) : ¬ (Sizes.Raw size).Choosable := by
  intro hchoosable
  refine hchoosable (UInt64.toNat_inj.mp ?_)
  have hzero : ¬ 0 < (chunks size).toNat := by
    rw [← rng.randomRange_isSome, hnone]
    exact Bool.false_ne_true
  rw [chunks_toNat] at hzero
  show size.toNat = 0
  omega

/-- No chunk can be drawn from the children. -/
theorem not_choosable_of_ranges {build : U64.Build} {rng : Rng} {hs : HashSeq} {children : List UInt64}
    (hnone : randomHashSeqRanges build rng children = none) :
    ¬ (Sizes.HashSeq hs children).Choosable := by
  intro hchoosable
  have hsome := (randomHashSeqRanges_isSome_iff children).mpr hchoosable build rng
  rw [hnone] at hsome
  cases hsome

/-! ## What the request for a sequence gives -/

theorem bind_eq_error {α β : Type} {x : Except Failure α} {f : α → Except Failure β} {e : Failure} :
    x >>= f = .error e ↔ x = .error e ∨ ∃ a, x = .ok a ∧ f a = .error e := by
  cases x with
  | error e' =>
      constructor
      · exact fun h => .inl (congrArg _ (Except.error.inj h))
      · rintro (herror | ⟨_, hok, _⟩)
        · rw [Except.error.inj herror]
          rfl
        · cases hok
  | ok a =>
      constructor
      · exact fun h => .inr ⟨a, rfl, h⟩
      · rintro (herror | ⟨_, hok, h⟩)
        · cases herror
        · rw [← Except.ok.inj hok] at h
          exact h

theorem orFail_eq_ok {α : Type} {failure : Failure} {o : Option α} {a : α} :
    orFail failure o = .ok a ↔ o = some a := by
  cases o with
  | none => exact iff_of_false (fun h => by cases h) (fun h => by cases h)
  | some a' => exact ⟨fun h => congrArg some (Except.ok.inj h), fun h => congrArg _ (Option.some.inj h)⟩

theorem orFail_eq_error {α : Type} {failure e : Failure} {o : Option α}
    (h : orFail failure o = .error e) : e = failure := by
  cases o with
  | none => exact (Except.error.inj h).symm
  | some a => cases h

section Machine

variable [BlobsFsm] {remote : Remote} {maxSize : UInt64} {hs : HashSeq} {sizes : List UInt64}

/-- A sequence that was got is not longer than is allowed. -/
theorem header_of_getHashSeqAndSizes (h : getHashSeqAndSizes remote maxSize = .ok (hs, sizes)) :
    ∃ size, remote.rootHeader = some size ∧ size.toNat ≤ maxSize.toNat ∧
      remote.rootContent = some hs := by
  rw [getHashSeqAndSizes, connectedNext_rootAndSizes] at h
  obtain ⟨_, _, h⟩ := bind_eq_ok.mp h
  obtain ⟨size, hheader, h⟩ := bind_eq_ok.mp h
  split_ifs at h with hgt
  obtain ⟨hs', hcontent, h⟩ := bind_eq_ok.mp h
  obtain ⟨sizes', _, h⟩ := bind_eq_ok.mp h
  obtain ⟨_, _, h⟩ := bind_eq_ok.mp h
  obtain ⟨rfl, _⟩ := Prod.mk.inj (Except.ok.inj h)
  refine ⟨size, orFail_eq_ok.mp hheader, ?_, orFail_eq_ok.mp hcontent⟩
  rw [gt_iff_lt, UInt64.lt_iff_toNat_lt] at hgt
  omega

theorem sizesLoop_eq_error {offset : ℕ} {e : Failure}
    (h : sizesLoop remote hs offset sizes = .error e) : e = .Err := by
  fun_induction sizesLoop remote hs offset sizes with
  | case1 | case2 => cases h
  | case3 => exact (Except.error.inj h).symm
  | case4 _ _ _ _ _ _ _ _ ih => exact ih h

/-- It does not panic if it fails. -/
theorem getHashSeqAndSizes_eq_error {e : Failure}
    (h : getHashSeqAndSizes remote maxSize = .error e) : e = .Err := by
  rw [getHashSeqAndSizes, connectedNext_rootAndSizes] at h
  rcases bind_eq_error.mp h with h | ⟨_, _, h⟩
  · exact orFail_eq_error h
  rcases bind_eq_error.mp h with h | ⟨size, _, h⟩
  · exact orFail_eq_error h
  split_ifs at h
  · exact (Except.error.inj h).symm
  rcases bind_eq_error.mp h with h | ⟨hs', _, h⟩
  · exact orFail_eq_error h
  rcases bind_eq_error.mp h with h | ⟨sizes', _, h⟩
  · exact sizesLoop_eq_error h
  rcases bind_eq_error.mp h with h | ⟨_, _, h⟩
  · exact orFail_eq_error h
  · cases h

end Machine

/-! ## A call -/

structure ProbeOptions where
  maxHashSeqSize : UInt64
  build : U64.Build
  usizeMax : ℕ

/-- What the requests of one probe get from the connection, each of which is made at most once. -/
structure ProbeConnection where
  header : BlobRemote
  lastChunk : BlobRemote
  hashSeqAndSizes : Remote
  chunk : UInt64 → BlobRemote
  child : ChunkRangesSeq → Remote

structure ProbeCall where
  content : HashAndFormat
  kind : ProbeKind
  connection : ProbeConnection
  rng : Rng

/-- What a probe asked its host for: the header, a chunk of the blob, or the ranges of a chunk of a child,
with the index and the hash of the child. -/
inductive Asked where
  | Header
  | Chunk (chunk : UInt64)
  | Child (ranges : ChunkRangesSeq) (index : ℕ) (hash : Hash)

def Asked.kind : Asked → ProbeKind
  | .Header => .Incomplete
  | .Chunk _ | .Child .. => .Complete

section Call

variable [BlobsFsm]

namespace ProbeCall

/-- The sizes, as the host that is probed gives them. -/
def fetch (options : ProbeOptions) (self : ProbeCall) : Except Failure Sizes :=
  match self.content.format with
  | .Raw => do
      let size ← verifiedSize self.connection.lastChunk
      return .Raw size
  | .HashSeq => do
      let hs ← getHashSeqAndSizes self.connection.hashSeqAndSizes options.maxHashSeqSize
      return .HashSeq hs.1 hs.2

/-- The probe for a chunk, once the sizes are there. -/
def probeWith (options : ProbeOptions) (self : ProbeCall) : Sizes → Except Failure Asked
  | .Raw size => do
      let randomChunk ← orFail (.Panic .RandomRanges) (self.rng.randomRange (chunks size))
      chunkProbe (self.connection.chunk randomChunk) randomChunk
      return .Chunk randomChunk
  | .HashSeq hs sizes => do
      let ranges ← orFail (.Panic .RandomRanges) (randomHashSeqRanges options.build self.rng sizes)
      -- the draw is made once: the probe has these ranges
      let child ← probeHashSeq options.build self.rng options.usizeMax (self.connection.child ranges) hs sizes
      return .Child ranges child.1 child.2

/-- The probe for the header. -/
def probeHeader (self : ProbeCall) : Except Failure Asked := do
  let _ ← unverifiedSize self.connection.header
  return .Header

end ProbeCall

/-- The host sent what it was asked for. -/
def ProbeConnection.Answers (self : ProbeConnection) : Asked → Prop
  | .Header => ∃ size, unverifiedSize self.header = .ok size
  | .Chunk chunk => (self.chunk chunk).answers = true
  | .Child ranges index hash => (self.child ranges).answers (index + 1) hash = true

section Content

variable [Blobs]

/-- What was asked for is a part of the content. -/
def Asked.Inside (content : HashAndFormat) : Asked → Prop
  | .Header => True
  | .Chunk chunk => ∃ size, (Sizes.Raw size).Of content ∧ chunk < chunks size
  | .Child ranges index hash =>
      ∃ hs sizes size chunk, (Sizes.HashSeq hs sizes).Of content ∧ hs[index]? = some hash ∧
        sizes[index]? = some size ∧ chunk < fullChunks size ∧
        ChildLoop.OnlyChunk ranges (index + 1) chunk.toNat

namespace ProbeCall

/-- What passes the checks of a response is data with the hash, and its size. -/
structure Genuine (call : ProbeCall) : Prop where
  size : ∀ size, call.connection.lastChunk.header = some size →
    call.connection.lastChunk.answers = true → SizeOf call.content.hash size
  hashSeq : ∀ hs, call.connection.hashSeqAndSizes.rootContent = some hs → SeqOf call.content.hash hs
  seqSize : ∀ hs size, call.connection.hashSeqAndSizes.rootContent = some hs →
    call.connection.hashSeqAndSizes.rootHeader = some size → size.toNat = hs.toBytes.length
  child : ∀ offset hash size,
    call.connection.hashSeqAndSizes.child offset hash = some size → SizeOf hash size

/-- The host has the content, and sends what it is asked for. -/
structure Provides (options : ProbeOptions) (call : ProbeCall) : Prop where
  fetch : call.kind = .Complete → ∃ sizes, call.fetch options = .ok sizes
  answers : ∀ asked, asked.kind = call.kind → asked.Inside call.content → call.connection.Answers asked

end ProbeCall

/-- The sizes of the content, and a sequence that is not too long. -/
structure Sizes.Right (options : ProbeOptions) (content : HashAndFormat) (sizes : Sizes) : Prop where
  of : sizes.Of content
  bounded : ∀ hs children, sizes = .HashSeq hs children →
    hs.toBytes.length ≤ options.maxHashSeqSize.toNat

namespace ProbeCall

variable {options : ProbeOptions} {call : ProbeCall} {sizes : Sizes}

/-- **A host gives the sizes, or fails.**  It cannot give other ones. -/
theorem right_of_fetch (hgenuine : call.Genuine) (h : call.fetch options = .ok sizes) :
    sizes.Right options call.content := by
  rw [fetch] at h
  split at h
  · rename_i hformat
    obtain ⟨size, hread, h⟩ := bind_eq_ok.mp h
    obtain rfl := Except.ok.inj h
    rcases readRoot_eq includes_lastChunkOfRoot call.connection.lastChunk with
      ⟨size', hheader, hanswers, hok⟩ | ⟨_, herror⟩
    · obtain rfl := Except.ok.inj (hok.symm.trans hread)
      refine ⟨⟨hformat, hgenuine.size _ hheader hanswers⟩, fun hs children heq => by cases heq⟩
    · cases herror.symm.trans hread
  · rename_i hformat
    obtain ⟨⟨hs, children⟩, hget, h⟩ := bind_eq_ok.mp h
    obtain rfl := Except.ok.inj h
    obtain ⟨hlength, hsizes⟩ := getHashSeqAndSizes_eq_ok hget
    obtain ⟨size, hheader, hmax, hcontent⟩ := header_of_getHashSeqAndSizes hget
    refine ⟨⟨hformat, hgenuine.hashSeq hs hcontent, ?_⟩, ?_⟩
    · refine List.forall₂_iff_get.mpr ⟨hlength.symm, fun i hi hi' => ?_⟩
      obtain ⟨hash, hhash, hchild⟩ := hsizes i _ (List.getElem?_eq_getElem hi')
      rw [List.getElem?_eq_getElem hi, Option.some.injEq] at hhash
      rw [List.get_eq_getElem, List.get_eq_getElem, hhash]
      exact hgenuine.child _ _ _ hchild
    · rintro hs' children' heq
      obtain ⟨rfl, rfl⟩ := Sizes.HashSeq.inj heq
      rw [← hgenuine.seqSize hs size hcontent hheader]
      exact hmax

omit [BlobsFsm] in
/-- **A draw from the right sizes** lies inside the content. -/
theorem inside_of_ranges {content : HashAndFormat} {hs : HashSeq} {children : List UInt64} {rng : Rng}
    {ranges : ChunkRangesSeq} (h : (Sizes.HashSeq hs children).Of content)
    (hranges : randomHashSeqRanges options.build rng children = some ranges) :
    ∃ randomChunk index chunk size hash, ranges = requestOfDraw children randomChunk ∧
      ChildLoop.StopsAt children randomChunk index chunk ∧ chunk < fullChunks size ∧
      index < hs.length ∧ hs[index]? = some hash ∧ (Asked.Child ranges index hash).Inside content := by
  obtain ⟨randomChunk, ⟨t, ht, hlt⟩, rfl⟩ := randomHashSeqRanges_eq_some hranges
  -- also a sum that wraps is not above the number of full chunks
  have hdraw : randomChunk.toNat < U64.total (children.map fullChunks) := by
    have hval := U64.toNat_of_sum ht
    have hmod := Nat.mod_le (U64.total (children.map fullChunks)) (2 ^ 64)
    rw [UInt64.lt_iff_toNat_lt] at hlt
    omega
  obtain ⟨index, chunk, size, hsize, hchunk, hstops⟩ := ChildLoop.exists_stopsAt hdraw
  have hindex : index < hs.length := by
    rw [h.2.2.length_eq]
    exact (List.getElem?_eq_some_iff.mp hsize).1
  have hhash := List.getElem?_eq_getElem hindex
  exact ⟨randomChunk, index, chunk, size, hs[index], rfl, hstops, hchunk, hindex, hhash,
    hs, children, size, chunk, h, hhash, hsize, hchunk, ChildLoop.onlyChunk_requestOfDraw hstops hchunk⟩

/-- **The probe for a chunk** asks for a part of the content, and has what the host answers; or there is no
chunk to draw. -/
theorem probeWith_cases (hfits : options.maxHashSeqSize.toNat ≤ options.usizeMax)
    (h : sizes.Right options call.content) :
    (∃ asked, asked.kind = .Complete ∧ asked.Inside call.content ∧
        (call.connection.Answers asked ∧ call.probeWith options sizes = .ok asked ∨
          ¬ call.connection.Answers asked ∧ call.probeWith options sizes = .error .Err)) ∨
      ¬ sizes.Choosable ∧ call.probeWith options sizes = .error (.Panic .RandomRanges) := by
  cases sizes with
  | Raw size =>
      rw [probeWith]
      cases hdraw : call.rng.randomRange (chunks size) with
      | none => exact .inr ⟨not_choosable_of_randomRange hdraw, rfl⟩
      | some chunk =>
          have hchunk : chunk < chunks size := by
            rw [Rng.randomRange] at hdraw
            split_ifs at hdraw with hzero
            rw [← Option.some.inj hdraw]
            exact call.rng.sample_lt _ (UInt64.pos_iff_ne_zero.mpr hzero)
          refine .inl ⟨.Chunk chunk, rfl, ⟨size, h.of, hchunk⟩, ?_⟩
          simp only [orFail, ok_bind, chunkProbe_eq hchunk, ProbeConnection.Answers]
          cases (call.connection.chunk chunk).answers with
          | true => exact .inl ⟨rfl, rfl⟩
          | false => exact .inr ⟨Bool.false_ne_true, rfl⟩
  | HashSeq hs children =>
      rw [probeWith]
      cases hranges : randomHashSeqRanges options.build call.rng children with
      | none => exact .inr ⟨not_choosable_of_ranges hranges, rfl⟩
      | some ranges =>
          obtain ⟨randomChunk, index, chunk, size, hash, rfl, hstops, hchunk, hindex, hhash, hinside⟩ :=
            inside_of_ranges h.of hranges
          have hmax : index ≤ options.usizeMax := by
            have hbounded := h.bounded hs children rfl
            rw [HashSeq.length_toBytes] at hbounded
            omega
          refine .inl ⟨.Child _ index hash, rfl, hinside, ?_⟩
          simp only [orFail, ok_bind, probeHashSeq_eq hranges hstops hchunk hmax hhash, ProbeConnection.Answers]
          cases (call.connection.child (requestOfDraw children randomChunk)).answers (index + 1) hash with
          | true => exact .inl ⟨rfl, rfl⟩
          | false => exact .inr ⟨Bool.false_ne_true, rfl⟩

omit [Blobs] in
/-- A host that fails to give the sizes does not make the tracker panic. -/
theorem fetch_eq_error {e : Failure} (h : call.fetch options = .error e) : e = .Err := by
  rw [fetch] at h
  split at h
  · rcases readRoot_eq includes_lastChunkOfRoot call.connection.lastChunk with
      ⟨_, _, _, hok⟩ | ⟨_, herror⟩
    · rw [verifiedSize, hok] at h
      cases h
    · rw [verifiedSize, herror] at h
      cases h
      rfl
  · cases hget : getHashSeqAndSizes call.connection.hashSeqAndSizes options.maxHashSeqSize with
    | ok hs =>
        rw [hget] at h
        cases h
    | error e' =>
        rw [hget] at h
        cases h
        exact getHashSeqAndSizes_eq_error hget

/-- What a probe came to.  It asked for a part of the content and got it, or did not get it; or the host
did not give the sizes; or there is no chunk to draw. -/
def Explained (options : ProbeOptions) (call : ProbeCall) (result : Except Failure Asked) : Prop :=
  (∃ asked, asked.kind = call.kind ∧ asked.Inside call.content ∧
      (call.connection.Answers asked ∧ result = .ok asked ∨
        ¬ call.connection.Answers asked ∧ result = .error .Err)) ∨
    call.kind = .Complete ∧
      ((∀ sizes, call.fetch options ≠ .ok sizes) ∧ result = .error .Err ∨
        ∃ sizes : Sizes, sizes.Of call.content ∧ ¬ sizes.Choosable ∧
          result = .error (.Panic .RandomRanges))

theorem explained_probeWith (hfits : options.maxHashSeqSize.toNat ≤ options.usizeMax)
    (hkind : call.kind = .Complete) (h : sizes.Right options call.content) :
    call.Explained options (call.probeWith options sizes) := by
  rcases probeWith_cases hfits h with ⟨asked, hasked, hresult⟩ | ⟨hchoosable, hpanic⟩
  · exact .inl ⟨asked, hasked.trans hkind.symm, hresult⟩
  · exact .inr ⟨hkind, .inr ⟨sizes, h.of, hchoosable, hpanic⟩⟩

theorem explained_probeHeader (options : ProbeOptions) (hkind : call.kind = .Incomplete) :
    call.Explained options call.probeHeader := by
  refine .inl ⟨.Header, hkind.symm, trivial, ?_⟩
  rw [probeHeader]
  rcases unverifiedSize_eq call.connection.header with ⟨size, hok⟩ | herror
  · rw [hok]
    exact .inl ⟨⟨size, hok⟩, rfl⟩
  · rw [herror]
    refine .inr ⟨?_, rfl⟩
    rintro ⟨size, hok⟩
    cases herror.symm.trans hok

end ProbeCall

end Content

end Call

end IrohExperiments.Tracker
