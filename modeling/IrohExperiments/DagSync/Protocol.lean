import IrohExperiments.Lib.Codec
import Mathlib.Data.Finset.Basic
import Mathlib.Data.Prod.Lex

/-!
# The protocol of DAG sync

A node of a DAG is named by a `Cid`: the codec of its data and a multihash, which is the digest of
the data together with the code of the hash function.  A request names a deterministic traversal of
the DAG and says which nodes are to be sent inline; the response is a sequence of frames, one for
each node of the traversal.  A frame starts with a header of 33 bytes (`SyncResponseHeader`) that
holds a blake3 hash, and it does not hold the cid.
-/

namespace IrohExperiments.DagSync

/-- A blake3 hash. -/
abbrev Hash := Bytes 32

structure Multihash where
  code : UInt64
  digest : List UInt8
  deriving DecidableEq

/-- Multihashes are ordered as keys of a table: by code, and then by digest. -/
instance : LinearOrder Multihash :=
  LinearOrder.lift' (fun m => toLex (m.code.toNat, m.digest)) fun a b h => by
    obtain ⟨hcode, hdigest⟩ := Prod.mk.inj (toLex.injective h)
    cases a
    cases b
    exact congrArg₂ Multihash.mk (UInt64.toNat_inj.mp hcode) hdigest

inductive Version where
  | V0
  | V1
  deriving DecidableEq

structure Cid where
  version : Version
  codec : UInt64
  hash : Multihash
  deriving DecidableEq

/-- The codec of data without structure. -/
def rawCodec : UInt64 := 0x55

/-! ## Requests -/

inductive TraversalOrder where
  | DepthFirstPreOrderLeftToRight

inductive TraversalFilter where
  | All
  | NoRaw
  | JustRaw
  | Excude (codecs : Finset UInt64)
  deriving DecidableEq

/-- The codecs that a filter lets through. -/
def TraversalFilter.accepts : TraversalFilter → Cid → Bool
  | .All, _ => true
  | .NoRaw, cid => cid.codec ≠ rawCodec
  | .JustRaw, cid => cid.codec = rawCodec
  | .Excude codecs, cid => cid.codec ∉ codecs

structure FullTraversalOpts where
  root : Cid
  visited : Option (Finset Cid)
  order : Option TraversalOrder
  filter : Option TraversalFilter

inductive TraversalOpts where
  | Sequence (cids : List Cid)
  | Full (opts : FullTraversalOpts)

inductive InlineOpts where
  | All
  | NoRaw
  | Excude (codecs : Finset UInt64)
  | None

/-- `get_inline`. -/
def getInline : InlineOpts → Cid → Bool
  | .All, _ => true
  | .NoRaw, cid => cid.codec ≠ rawCodec
  | .Excude codecs, cid => cid.codec ∉ codecs
  | .None, _ => false

/-! ## Responses -/

/-- What can go wrong in a sync. -/
inductive SyncError where
  | Blake3HashNotFound
  | ExtractLinks
  | EncodeLinks
  | DecodeLinks
  | InvalidHeader
  | Read
  | Bao
  | UnknownHashFunction
  | UserHashMismatch
  | Blake3HashMismatch
  | DataNotFound
  | Io

/-- The stream of a response: what is still to be read, and whether the stream ends with an error
after that. -/
structure RecvStream where
  data : List UInt8
  reset : Bool

inductive ReadError where
  | UnexpectedEof
  | Reset

/-- `read_exact`. -/
def RecvStream.readExact (self : RecvStream) (n : ℕ) :
    Except ReadError (List UInt8 × RecvStream) :=
  if n ≤ self.data.length then
    .ok (self.data.take n, { self with data := self.data.drop n })
  else if self.reset then .error .Reset
  else .error .UnexpectedEof

/-- Reading exactly what comes first. -/
theorem RecvStream.readExact_append (front rest : List UInt8) (reset : Bool) :
    readExact ⟨front ++ rest, reset⟩ front.length = .ok (front, ⟨rest, reset⟩) := by
  rw [readExact, if_pos (by simp)]
  simp

inductive SyncResponseHeader where
  | Hash (hash : Hash)
  | Data (hash : Hash)
  deriving DecidableEq

namespace SyncResponseHeader

def codec : Codec SyncResponseHeader :=
  ((Variants.one (Codec.bytes 32)).or (Codec.bytes 32)).codec (Nat.le_of_ble_eq_true rfl) |>.via
    (fun | .Hash h => .inl h | .Data h => .inr h)
    (fun | .inl h => some (.Hash h) | .inr h => some (.Data h))
    (fun r => by cases r <;> rfl)

def asBytes (self : SyncResponseHeader) : List UInt8 := codec.encode self

theorem asBytes_length (self : SyncResponseHeader) : self.asBytes.length = 33 := by
  cases self with
  | Hash h =>
      show (Codec.varint 5 0 ++ (Codec.bytes 32).encode h).length = 33
      rw [List.length_append, Codec.bytes_encode_length]
      rfl
  | Data h =>
      show (Codec.varint 5 1 ++ (Codec.bytes 32).encode h).length = 33
      rw [List.length_append, Codec.bytes_encode_length]
      rfl

/-- Read a header.  `none` is the end of the stream, also in the middle of a header. -/
def fromStream (stream : RecvStream) :
    Except SyncError (Option (SyncResponseHeader × RecvStream)) :=
  match stream.readExact 33 with
  | .ok (buf, stream) =>
      match codec.fromBytes buf with
      | some header => .ok (some (header, stream))
      | none => .error .InvalidHeader
  | .error .UnexpectedEof => .ok none
  | .error .Reset => .error .Read

/-- A header is read as it was written. -/
theorem fromStream_asBytes (self : SyncResponseHeader) (rest : List UInt8) (reset : Bool) :
    fromStream ⟨self.asBytes ++ rest, reset⟩ = .ok (some (self, ⟨rest, reset⟩)) := by
  have hread := RecvStream.readExact_append self.asBytes rest reset
  have hfits : codec.Fits self := by cases self <;> exact trivial
  rw [asBytes_length] at hread
  rw [fromStream, hread]
  simp only [asBytes, Codec.fromBytes_encode codec hfits]

end SyncResponseHeader

end IrohExperiments.DagSync
