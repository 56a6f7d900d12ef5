import IrohExperiments.Lib.Codec

/-!
# The content discovery protocol

The messages that announcing nodes, querying clients and the tracker exchange, with their wire
formats.  Everything here is shared by both ends of a connection.

* `AbsoluteTime` counts microseconds; subtracting a later time from an earlier one wraps, as it
  does in a release build.
* `SignedAnnounce` is an announce and a signature over its serialized form; `SignedAnnounce.verify`
  checks the signature against the host the announce names.
* `Query` and `QueryResponse` ask for the hosts of one content and answer with announces.

The signature scheme is not part of this repository.  `KeyScheme` is what is used of it: which
32-byte strings are public keys, and when a signature is one of a message.
-/

namespace IrohExperiments.Tracker

/-! ## Hashes and content -/

/-- A blake3 hash. -/
abbrev Hash := Bytes 32

inductive BlobFormat where
  | Raw
  | HashSeq
  deriving DecidableEq

/-- `format as u8`. -/
def BlobFormat.toU8 : BlobFormat → UInt8
  | .Raw => 0
  | .HashSeq => 1

structure HashAndFormat where
  hash : Hash
  format : BlobFormat
  deriving DecidableEq

/-! ## Keys and signatures -/

/-- The signature scheme of the endpoints: the byte strings that are public keys, and when a
signature is valid for a message under a public key. -/
class KeyScheme where
  isKey : Bytes 32 → Bool
  verify : Bytes 32 → List UInt8 → Bytes 64 → Bool

/-- A public key: a byte string that is one. -/
structure EndpointId [KeyScheme] where
  bytes : Bytes 32
  isKey : KeyScheme.isKey bytes = true
  deriving DecidableEq

section Keys

variable [KeyScheme]

/-- `EndpointId::from_bytes`, which fails on a string that is not a public key. -/
def EndpointId.fromBytes (b : Bytes 32) : Option EndpointId :=
  if h : KeyScheme.isKey b = true then some ⟨b, h⟩ else none

/-- `EndpointId::as_bytes`. -/
def EndpointId.asBytes (e : EndpointId) : Bytes 32 := e.bytes

@[simp] theorem EndpointId.fromBytes_asBytes (e : EndpointId) :
    EndpointId.fromBytes e.asBytes = some e := by
  show (if h : KeyScheme.isKey e.bytes = true then some (⟨e.bytes, h⟩ : EndpointId) else none) = _
  rw [dif_pos e.isKey]

end Keys

/-! ## Times -/

/-- A span of time, in nanoseconds. -/
abbrev Duration := ℕ

/-- `Duration::from_secs`. -/
def Duration.fromSecs (s : ℕ) : Duration := s * 1000000000

/-- `Duration::from_micros`. -/
def Duration.fromMicros (us : UInt64) : Duration := us.toNat * 1000

/-- Microseconds since the UNIX epoch. -/
structure AbsoluteTime where
  micros : UInt64
  deriving DecidableEq

namespace AbsoluteTime

instance : LinearOrder AbsoluteTime :=
  LinearOrder.lift' (fun t => t.micros.toNat) fun a b h => by
    cases a; cases b
    exact congrArg AbsoluteTime.mk (UInt64.toNat_inj.mp h)

theorem le_iff {a b : AbsoluteTime} : a ≤ b ↔ a.micros.toNat ≤ b.micros.toNat := Iff.rfl

/-- The age of `rhs` at the time `self`.  The difference is one of unsigned integers: a release
build, which the README asks for, wraps when `rhs` lies after `self`. -/
def sub (self rhs : AbsoluteTime) : Duration := Duration.fromMicros (self.micros - rhs.micros)

instance : HSub AbsoluteTime AbsoluteTime Duration := ⟨sub⟩

/-- The time that has passed since `t`, which does not lie after `now`. -/
def age (now t : AbsoluteTime) : Duration := (now.micros.toNat - t.micros.toNat) * 1000

/-- From an earlier to a later time the subtraction is the one of natural numbers. -/
theorem sub_of_le {self rhs : AbsoluteTime} (h : rhs ≤ self) : self - rhs = self.age rhs := by
  show (self.micros - rhs.micros).toNat * 1000 = _
  rw [UInt64.toNat_sub_of_le _ _ (UInt64.le_iff_toNat_le.mpr h)]
  rfl

end AbsoluteTime

/-! ## Announces -/

inductive AnnounceKind where
  | Partial
  | Complete
  deriving DecidableEq

/-- `kind as u8`. -/
def AnnounceKind.toU8 : AnnounceKind → UInt8
  | .Partial => 0
  | .Complete => 1

def AnnounceKind.fromComplete (complete : Bool) : AnnounceKind :=
  if complete then .Complete else .Partial

/-- The claim of a host to have some content. -/
structure Announce [KeyScheme] where
  host : EndpointId
  content : HashAndFormat
  kind : AnnounceKind
  timestamp : AbsoluteTime
  deriving DecidableEq

/-- An announce with the signature of its host over its serialized form. -/
structure SignedAnnounce [KeyScheme] where
  announce : Announce
  signature : Bytes 64
  deriving DecidableEq

/-! ## Queries -/

structure QueryFlags where
  complete : Bool
  verified : Bool
  deriving DecidableEq

structure Query where
  content : HashAndFormat
  flags : QueryFlags
  deriving DecidableEq

structure QueryResponse [KeyScheme] where
  hosts : List SignedAnnounce
  deriving DecidableEq

inductive Request [KeyScheme] where
  | Announce (announce : SignedAnnounce)
  | Query (query : Query)

inductive Response [KeyScheme] where
  | QueryResponse (response : QueryResponse)

/-- Maximum size of a request. -/
def requestSizeLimit : ℕ := 1024 * 16

/-! ## Wire formats -/

section Wire

def hashCodec : Codec Hash := Codec.bytes 32

def blobFormatCodec : Codec BlobFormat :=
  ((Variants.one Codec.unit).or Codec.unit).codec (by decide) |>.via
    (fun | .Raw => .inl () | .HashSeq => .inr ())
    (fun | .inl _ => some .Raw | .inr _ => some .HashSeq)
    (fun b => by cases b <;> rfl)

def hashAndFormatCodec : Codec HashAndFormat :=
  (hashCodec.pair blobFormatCodec).via (fun c => (c.hash, c.format))
    (fun x => some ⟨x.1, x.2⟩) (fun _ => rfl)

def announceKindCodec : Codec AnnounceKind :=
  ((Variants.one Codec.unit).or Codec.unit).codec (by decide) |>.via
    (fun | .Partial => .inl () | .Complete => .inr ())
    (fun | .inl _ => some .Partial | .inr _ => some .Complete)
    (fun b => by cases b <;> rfl)

def absoluteTimeCodec : Codec AbsoluteTime :=
  Codec.u64.via AbsoluteTime.micros (fun x => some ⟨x⟩) (fun _ => rfl)

def queryFlagsCodec : Codec QueryFlags :=
  (Codec.bool.pair Codec.bool).via (fun f => (f.complete, f.verified))
    (fun x => some ⟨x.1, x.2⟩) (fun _ => rfl)

def queryCodec : Codec Query :=
  (hashAndFormatCodec.pair queryFlagsCodec).via (fun q => (q.content, q.flags))
    (fun x => some ⟨x.1, x.2⟩) (fun _ => rfl)

variable [KeyScheme]

/-- The 32 bytes of the key; decoding fails on bytes that are not a key. -/
def endpointIdCodec : Codec EndpointId :=
  (Codec.bytes 32).via EndpointId.asBytes EndpointId.fromBytes EndpointId.fromBytes_asBytes

def announceCodec : Codec Announce :=
  (endpointIdCodec.pair (hashAndFormatCodec.pair (announceKindCodec.pair absoluteTimeCodec))).via
    (fun a => (a.host, a.content, a.kind, a.timestamp))
    (fun x => some ⟨x.1, x.2.1, x.2.2.1, x.2.2.2⟩) (fun _ => rfl)

def signedAnnounceCodec : Codec SignedAnnounce :=
  (announceCodec.pair (Codec.bytes 64)).via (fun a => (a.announce, a.signature))
    (fun x => some ⟨x.1, x.2⟩) (fun _ => rfl)

def queryResponseCodec : Codec QueryResponse :=
  signedAnnounceCodec.list.via QueryResponse.hosts (fun x => some ⟨x⟩) (fun _ => rfl)

def requestCodec : Codec Request :=
  ((Variants.one queryCodec).or signedAnnounceCodec).codec (Nat.le_of_ble_eq_true rfl) |>.via
    (fun | .Announce a => .inl a | .Query q => .inr q)
    (fun | .inl a => some (.Announce a) | .inr q => some (.Query q))
    (fun r => by cases r <;> rfl)

def responseCodec : Codec Response :=
  (Variants.one queryResponseCodec).codec (Nat.le_of_ble_eq_true rfl) |>.via
    (fun | .QueryResponse r => r) (fun r => some (.QueryResponse r)) (fun _ => rfl)

end Wire

/-! ## Signing -/

inductive VerifyError where
  | SignatureError
  | SerializationError
  deriving DecidableEq

section Signing

variable [KeyScheme]

/-- The message that the host of an announce signs. -/
def Announce.toAllocvec (a : Announce) : List UInt8 := announceCodec.encode a

/-- `SignedAnnounce::new`, with the signing function of the host's secret key. -/
def SignedAnnounce.new (announce : Announce) (sign : List UInt8 → Bytes 64) : SignedAnnounce :=
  ⟨announce, sign announce.toAllocvec⟩

/-- Check the signature against the host that the announce names. -/
def SignedAnnounce.verify (a : SignedAnnounce) : Except VerifyError Unit :=
  if KeyScheme.verify a.announce.host.asBytes a.announce.toAllocvec a.signature then .ok ()
  else .error .SignatureError

end Signing

/-! ## A scheme to compute with

Concrete runs of the tracker need a scheme of keys.  In this one every string is a key, and the
only signature that a key accepts is the key itself, twice. -/

abbrev KeyScheme.doubling : KeyScheme where
  isKey := fun _ => true
  verify := fun key _ signature => decide (signature.toList = key.toList ++ key.toList)

/-- The host whose key consists of one byte throughout. -/
def EndpointId.doubling (fill : UInt8) : @EndpointId KeyScheme.doubling :=
  letI := KeyScheme.doubling
  ⟨List.Vector.replicate 32 fill, rfl⟩

/-- A signed announce of that host. -/
def SignedAnnounce.doubling (fill : UInt8) (content : HashAndFormat) (kind : AnnounceKind)
    (timestamp : AbsoluteTime) : @SignedAnnounce KeyScheme.doubling :=
  letI := KeyScheme.doubling
  ⟨⟨EndpointId.doubling fill, content, kind, timestamp⟩, List.Vector.replicate 64 fill⟩

theorem SignedAnnounce.verify_doubling (fill : UInt8) (content : HashAndFormat)
    (kind : AnnounceKind) (timestamp : AbsoluteTime) :
    @SignedAnnounce.verify KeyScheme.doubling (doubling fill content kind timestamp) = .ok () := by
  have htwice : List.replicate 64 fill = List.replicate 32 fill ++ List.replicate 32 fill := by
    rw [List.replicate_append_replicate]
  exact if_pos (decide_eq_true htwice)

/-- The hash that consists of one byte throughout, in one of the formats. -/
def HashAndFormat.filled (fill : UInt8) (format : BlobFormat) : HashAndFormat :=
  ⟨List.Vector.replicate 32 fill, format⟩

end IrohExperiments.Tracker
