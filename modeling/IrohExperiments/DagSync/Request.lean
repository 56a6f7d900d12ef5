import IrohExperiments.DagSync.Car

/-!
# Requests on the wire

A client puts its request into the postcard format, and the server reads it and runs the traversal that
it finds in it.  The two sides run the same traversal only if the server finds what the client put in.

A cid has its own two halves: it is written as a byte string, and read as a byte string that the cid
library then parses.  `CidLibrary` is the library, a parameter; all that is used of it is that its parser
reads the bytes of a cid.  The other types derive both halves, so each has one codec, put together of
the ones of its fields or variants in the order of their declaration.

* `request_roundtrip`: a request is read as it was written, and so is each cid in it.
* `handleRequest_toAllocvec`: a request that is not too large gets the answer of `handleSyncRequest` for the
  traversal and the options that the client has put in.  It is the link from the wire to the sync, whose
  results are all about that answer.
-/

namespace IrohExperiments.DagSync

/-! ## Cids -/

/-- The cid library: the bytes of a cid, and a parser.  `Cid.Valid` are the cids that it can build. -/
class CidLibrary where
  toBytes : Cid → List UInt8
  tryFrom : List UInt8 → Option Cid
  /-- The bytes of a cid are a vector. -/
  toBytes_length : ∀ cid : Cid, cid.Valid → (toBytes cid).length < 2 ^ 64
  tryFrom_toBytes : ∀ cid : Cid, cid.Valid → tryFrom (toBytes cid) = some cid

/-- A byte string behind its length. -/
def byteString : Codec (List UInt8) := Codec.sized Codec.usize

namespace Cid

section Library

variable [CidLibrary]

/-- `Serialize`, in a format that is not meant for people. -/
def serialize (self : Cid) : List UInt8 := byteString.encode (CidLibrary.toBytes self)

/-- `Deserialize` in such a format. -/
def deserialize (data : List UInt8) : Option (Cid × List UInt8) :=
  (byteString.decode data).bind fun r => (CidLibrary.tryFrom r.1).map fun cid => (cid, r.2)

/-- **A cid is read as it was written.** -/
theorem deserialize_serialize {self : Cid} (h : self.Valid) (rest : List UInt8) :
    deserialize (self.serialize ++ rest) = some (self, rest) := by
  have hbytes := byteString.decode_encode _ (CidLibrary.toBytes_length self h) rest
  rw [deserialize, serialize, hbytes, Option.bind_some, CidLibrary.tryFrom_toBytes self h]
  rfl

end Library

/-! ### The order of cids -/

/-- The derived order compares the version, the codec and the hash, and of the hash the code, the size
and the digest. -/
def orderKey (cid : Cid) : ℕ ×ₗ ℕ ×ₗ ℕ ×ₗ ℕ ×ₗ List UInt8 :=
  toLex (match cid.version with | .V0 => 0 | .V1 => 1,
    toLex (cid.codec.toNat,
      toLex (cid.hash.code.toNat, toLex (cid.hash.digest.length, cid.hash.digest))))

theorem orderKey_injective : Function.Injective orderKey := by
  rintro ⟨version, codec, code, digest⟩ ⟨version', codec', code', digest'⟩ h
  obtain ⟨hversion, h⟩ := Prod.mk.inj (toLex.injective h)
  obtain ⟨hcodec, h⟩ := Prod.mk.inj (toLex.injective h)
  obtain ⟨hcode, h⟩ := Prod.mk.inj (toLex.injective h)
  obtain ⟨_, hdigest⟩ := Prod.mk.inj (toLex.injective h)
  obtain rfl := UInt64.toNat_inj.mp hcodec
  obtain rfl := UInt64.toNat_inj.mp hcode
  obtain rfl : digest = digest' := hdigest
  cases version <;> cases version' <;> first | rfl | simp at hversion

abbrev order : LinearOrder Cid := LinearOrder.lift' orderKey orderKey_injective

end Cid

/-- Codecs are ordered as integers. -/
abbrev codecOrder : LinearOrder UInt64 :=
  LinearOrder.lift' UInt64.toNat fun _ _ => UInt64.toNat_inj.mp

/-! ## Requests -/

structure SyncRequest where
  traversal : TraversalOpts
  inline : InlineOpts

inductive Request where
  | Sync (request : SyncRequest)

/-! ### What the types guarantee

The cids are cids of the cid library, and a vector or a set has a length. -/

def TraversalFilter.Valid : TraversalFilter → Prop
  | .Excude codecs => codecs.card < 2 ^ 64
  | _ => True

structure FullTraversalOpts.Valid (opts : FullTraversalOpts) : Prop where
  root : opts.root.Valid
  visited : ∀ cids ∈ opts.visited, cids.card < 2 ^ 64 ∧ ∀ cid ∈ cids, cid.Valid
  filter : ∀ filter ∈ opts.filter, filter.Valid

def TraversalOpts.Valid : TraversalOpts → Prop
  | .Sequence cids => cids.length < 2 ^ 64 ∧ ∀ cid ∈ cids, cid.Valid
  | .Full opts => opts.Valid

def InlineOpts.Valid : InlineOpts → Prop
  | .Excude codecs => codecs.card < 2 ^ 64
  | _ => True

def Request.Valid : Request → Prop
  | .Sync request => request.traversal.Valid ∧ request.inline.Valid

/-! ### Codecs

Each codec is followed by the reason that valid values fit it. -/

section Codecs

attribute [local instance] Cid.order codecOrder

theorem set_u64_fits {codecs : Finset UInt64} (h : codecs.card < 2 ^ 64) :
    Codec.u64.set.Fits codecs :=
  ⟨h, fun x _ => Codec.u64_fits x⟩

def traversalOrderCodec : Codec TraversalOrder :=
  (Variants.one Codec.unit).codec (Nat.le_of_ble_eq_true rfl) |>.via
    (fun | .DepthFirstPreOrderLeftToRight => ())
    (fun _ => some .DepthFirstPreOrderLeftToRight)
    (fun o => by cases o; rfl)

def traversalFilterCodec : Codec TraversalFilter :=
  ((((Variants.one Codec.u64.set).or Codec.unit).or Codec.unit).or Codec.unit).codec
      (Nat.le_of_ble_eq_true rfl) |>.via
    (fun
      | .All => .inl ()
      | .NoRaw => .inr (.inl ())
      | .JustRaw => .inr (.inr (.inl ()))
      | .Excude codecs => .inr (.inr (.inr codecs)))
    (fun
      | .inl _ => some .All
      | .inr (.inl _) => some .NoRaw
      | .inr (.inr (.inl _)) => some .JustRaw
      | .inr (.inr (.inr codecs)) => some (.Excude codecs))
    (fun f => by cases f <;> rfl)

theorem traversalFilterCodec_fits {filter : TraversalFilter} (h : filter.Valid) :
    traversalFilterCodec.Fits filter := by
  cases filter with
  | Excude codecs => exact set_u64_fits h
  | _ => exact trivial

def inlineOptsCodec : Codec InlineOpts :=
  ((((Variants.one Codec.unit).or Codec.u64.set).or Codec.unit).or Codec.unit).codec
      (Nat.le_of_ble_eq_true rfl) |>.via
    (fun
      | .All => .inl ()
      | .NoRaw => .inr (.inl ())
      | .Excude codecs => .inr (.inr (.inl codecs))
      | .None => .inr (.inr (.inr ())))
    (fun
      | .inl _ => some .All
      | .inr (.inl _) => some .NoRaw
      | .inr (.inr (.inl codecs)) => some (.Excude codecs)
      | .inr (.inr (.inr _)) => some .None)
    (fun i => by cases i <;> rfl)

theorem inlineOptsCodec_fits {inline : InlineOpts} (h : inline.Valid) :
    inlineOptsCodec.Fits inline := by
  cases inline with
  | Excude codecs => exact set_u64_fits h
  | _ => exact trivial

variable [CidLibrary]

def cidCodec : Codec Cid where
  encode := Cid.serialize
  decode := Cid.deserialize
  Fits := Cid.Valid
  decode_encode _ h rest := Cid.deserialize_serialize h rest

def fullTraversalOptsCodec : Codec FullTraversalOpts :=
  -- two fields have a default, but here no field can be missing
  (cidCodec.pair (cidCodec.set.option.pair
      (traversalOrderCodec.option.pair traversalFilterCodec.option))).via
    (fun o => (o.root, o.visited, o.order, o.filter))
    (fun x => some ⟨x.1, x.2.1, x.2.2.1, x.2.2.2⟩)
    (fun _ => rfl)

theorem fullTraversalOptsCodec_fits {opts : FullTraversalOpts} (h : opts.Valid) :
    fullTraversalOptsCodec.Fits opts := by
  have horder : ∀ order ∈ opts.order, traversalOrderCodec.Fits order := fun _ _ => trivial
  have hfilter : ∀ filter ∈ opts.filter, traversalFilterCodec.Fits filter :=
    fun filter hmem => traversalFilterCodec_fits (h.filter filter hmem)
  exact ⟨h.root, h.visited, horder, hfilter⟩

def traversalOptsCodec : Codec TraversalOpts :=
  ((Variants.one fullTraversalOptsCodec).or cidCodec.list).codec (Nat.le_of_ble_eq_true rfl) |>.via
    (fun | .Sequence cids => .inl cids | .Full opts => .inr opts)
    (fun | .inl cids => some (.Sequence cids) | .inr opts => some (.Full opts))
    (fun t => by cases t <;> rfl)

theorem traversalOptsCodec_fits {traversal : TraversalOpts} (h : traversal.Valid) :
    traversalOptsCodec.Fits traversal := by
  cases traversal with
  | Sequence cids => exact h
  | Full opts => exact fullTraversalOptsCodec_fits h

def syncRequestCodec : Codec SyncRequest :=
  (traversalOptsCodec.pair inlineOptsCodec).via (fun r => (r.traversal, r.inline))
    (fun x => some ⟨x.1, x.2⟩) (fun _ => rfl)

def requestCodec : Codec Request :=
  (Variants.one syncRequestCodec).codec (Nat.le_of_ble_eq_true rfl) |>.via
    (fun | .Sync request => request)
    (fun request => some (.Sync request))
    (fun r => by cases r; rfl)

theorem requestCodec_fits {request : Request} (h : request.Valid) : requestCodec.Fits request := by
  obtain ⟨traversal, inline⟩ := request
  exact ⟨traversalOptsCodec_fits h.1, inlineOptsCodec_fits h.2⟩

end Codecs

section Wire

variable [CidLibrary]

/-- `postcard::to_allocvec`. -/
def Request.toAllocvec (self : Request) : List UInt8 := requestCodec.encode self

/-- `postcard::from_bytes`. -/
def Request.fromBytes (data : List UInt8) : Option Request := requestCodec.fromBytes data

theorem Request.fromBytes_toAllocvec {request : Request} (h : request.Valid) :
    fromBytes request.toAllocvec = some request :=
  requestCodec.fromBytes_encode (requestCodec_fits h)

/-- **Requests are read as they were written**, and so are the cids in them. -/
theorem request_roundtrip :
    (∀ cid : Cid, cid.Valid → ∀ rest, Cid.deserialize (cid.serialize ++ rest) = some (cid, rest)) ∧
      ∀ request : Request, request.Valid →
        Request.fromBytes request.toAllocvec = some request :=
  ⟨fun _ h rest => Cid.deserialize_serialize h rest, fun _ h => Request.fromBytes_toAllocvec h⟩

/-! ## The server -/

variable [Libraries]

def maxRequestSize : ℕ := 1024 * 1024 * 16

/-- `handle_request`, on what the client has sent.  `none` is an error before the response starts. -/
def handleRequest (request : List UInt8) (tables : Tables) (blobs : BlobStore) : Option Response :=
  if request.length ≤ maxRequestSize then
    (Request.fromBytes request).map fun
      | .Sync args => handleSyncRequest args.traversal args.inline tables blobs
  else none

/-- **The server answers the request of the client.** -/
theorem handleRequest_toAllocvec {args : SyncRequest} (h : (Request.Sync args).Valid)
    (hsize : (Request.Sync args).toAllocvec.length ≤ maxRequestSize) (tables : Tables)
    (blobs : BlobStore) :
    handleRequest (Request.Sync args).toAllocvec tables blobs
      = some (handleSyncRequest args.traversal args.inline tables blobs) := by
  rw [handleRequest, if_pos hsize, Request.fromBytes_toAllocvec h]
  rfl

end Wire

/-! ## The library of the format -/

theorem Cid.toBytes_length_lt {cid : Cid} (h : cid.Valid) : cid.toBytes.length < 2 ^ 64 := by
  have hint : ∀ n, n < 2 ^ 64 → (Codec.varint 10 n).length ≤ 10 := fun n hn =>
    Codec.varint_length_le 0 (by decide) (lt_of_lt_of_le hn (by decide))
  have hdigest := h.digest
  have hcode := hint _ cid.hash.code.toNat_lt
  have hlen := hint cid.hash.digest.length (by omega)
  have hmultihash : (Multihash.bytes.encode cid.hash).length ≤ 84 := by
    show (Codec.varint 10 cid.hash.code.toNat ++
      (Codec.varint 10 cid.hash.digest.length ++ cid.hash.digest)).length ≤ 84
    rw [List.length_append, List.length_append]
    omega
  rw [toBytes]
  cases cid.version with
  | V0 => exact lt_of_le_of_lt hmultihash (by decide)
  | V1 =>
      have hcodec := hint _ cid.codec.toNat_lt
      show (Codec.varint 10 cid.codec.toNat ++ Multihash.bytes.encode cid.hash).length + 1 < 2 ^ 64
      rw [List.length_append]
      omega

/-- The cids of the format, and its parser.  Bytes after a cid are ignored. -/
abbrev CidLibrary.standard : CidLibrary where
  toBytes := Cid.toBytes
  tryFrom data := (Cid.readBytes data).map Prod.fst
  toBytes_length _ h := Cid.toBytes_length_lt h
  tryFrom_toBytes cid h := by
    have hread := Cid.readBytes_toBytes h []
    rw [List.append_nil] at hread
    rw [hread]
    rfl

section Standard

attribute [local instance] CidLibrary.standard

/-- A request with a set of each kind, and with cids of both versions. -/
def excludingRequest : Request :=
  .Sync ⟨.Full ⟨⟨.V0, 0x70, 0x12, List.replicate 32 7⟩, some {⟨.V1, 0x71, 0x1e, [1, 2]⟩},
    some .DepthFirstPreOrderLeftToRight, some (.Excude {0x55, 300})⟩, .Excude {0x71}⟩

theorem excludingRequest_valid : excludingRequest.Valid := by
  have hroot : Cid.Valid ⟨.V0, 0x70, 0x12, List.replicate 32 7⟩ := ⟨by decide, fun _ => by decide⟩
  have hseen : Cid.Valid ⟨.V1, 0x71, 0x1e, [1, 2]⟩ := ⟨by decide, fun h => by cases h⟩
  have hcodecs : ({0x55, 300} : Finset UInt64).card < 2 ^ 64 := by decide
  have hinline : ({0x71} : Finset UInt64).card < 2 ^ 64 := by decide
  refine ⟨⟨hroot, fun cids hcids => ?_, fun filter hfilter => ?_⟩, hinline⟩
  · obtain rfl := Option.some.inj hcids
    refine ⟨by decide, fun cid hcid => ?_⟩
    rw [Finset.mem_singleton.mp hcid]
    exact hseen
  · obtain rfl := Option.some.inj hfilter
    exact hcodecs

theorem request_roundtrip_excluding :
    Request.fromBytes excludingRequest.toAllocvec = some excludingRequest :=
  request_roundtrip.2 excludingRequest excludingRequest_valid

example :
    (Request.Sync ⟨.Full ⟨⟨.V1, 0x55, 0x12, [7]⟩, none, none, none⟩, .All⟩).toAllocvec
      = [0, 1, 5, 1, 0x55, 0x12, 1, 7, 0, 0, 0, 0] := by
  decide

end Standard

end IrohExperiments.DagSync
