import IrohExperiments.Tracker.Protocol

/-!
# Records of the naming system

A record names some content.  It is published as a signed packet of the DHT: a DNS packet with one TXT
record, which has the text form of the content, signed with the key that the record belongs to.

Packets, their signatures, TXT data and the text form of content are those of other libraries.  `Pkarr` is
what is used of them, and `Pkarr.Lawful` what is relied upon.  With that, what is read from a packet is
what was put into it (`toRecord_of_toSignedPacket`).  A packet that somebody else has put together may have
any number of TXT records, and of these only the first counts (`toRecord_eq_ok_iff`): if it is not the text
form of some content, then the ones after it are not looked at.
-/

namespace IrohExperiments.Naming

open Tracker (Hash BlobFormat HashAndFormat)

/-! ## Packets -/

abbrev SecretKey := Bytes 32

abbrev PublicKey := Bytes 32

inductive CLASS where
  | IN
  | Other
  deriving DecidableEq

/-- The character strings of a TXT record. -/
abbrev TXT := List (List UInt8)

inductive RData where
  | TXT (txt : TXT)
  | Other
  deriving DecidableEq

structure ResourceRecord where
  name : String
  cls : CLASS
  ttl : UInt32
  rdata : RData
  deriving DecidableEq

/-- A packet with a valid signature. -/
structure SignedPacket where
  publicKey : PublicKey
  timestamp : UInt64
  answers : List ResourceRecord
  deriving DecidableEq

/-- What is used of the libraries. -/
class Pkarr where
  /-- `SecretKey::public`, and the key of `Keypair::from_secret_key`. -/
  publicKey : SecretKey → PublicKey
  /-- `pkarr::PublicKey::try_from` succeeds. -/
  isKey : PublicKey → Bool
  txtTryFrom : String → Except String TXT
  stringTryFrom : TXT → Option String
  toString : HashAndFormat → String
  fromStr : String → Except String HashAndFormat
  new : SecretKey → List ResourceRecord → UInt64 → Except String SignedPacket
  resourceRecords : SignedPacket → String → List ResourceRecord

/-- What is relied upon: text survives, and a packet has the records that it was made of, under names that
are relative to its key. -/
structure Pkarr.Lawful [Pkarr] : Prop where
  string : ∀ s txt, txtTryFrom s = .ok txt → stringTryFrom txt = some s
  content : ∀ content, fromStr (toString content) = .ok content
  isKey : ∀ sk, isKey (publicKey sk) = true
  publicKey : ∀ sk answers timestamp packet, new sk answers timestamp = .ok packet →
    packet.publicKey = publicKey sk
  timestamp : ∀ sk answers timestamp packet, new sk answers timestamp = .ok packet →
    packet.timestamp = timestamp
  resourceRecords : ∀ sk answers timestamp packet name, new sk answers timestamp = .ok packet →
    (∀ rr ∈ answers, rr.name = name) →
      (resourceRecords packet name).map (fun rr => { rr with name }) = answers

/-! ## Records -/

def CONTENT_KEY : String := "_content.iroh."

inductive Record where
  | Content (content : HashAndFormat)
  deriving DecidableEq

def Record.content : Record → Option HashAndFormat
  | .Content content => some content

section Packets

variable [Pkarr]

/-- `to_signed_packet`, at the time that the clock shows. -/
def toSignedPacket (secretKey : SecretKey) (record : Record) (ttl : UInt32) (now : UInt64) :
    Except String SignedPacket := do
  let answers ← match record.content with
    | some content => do
        let txt ← Pkarr.txtTryFrom (Pkarr.toString content)
        pure [⟨CONTENT_KEY, .IN, ttl, .TXT txt⟩]
    | none => pure []
  Pkarr.new secretKey answers now

def filterTxt (rr : ResourceRecord) : Option String :=
  if rr.cls ≠ .IN then none
  else match rr.rdata with
    | .TXT txt => Pkarr.stringTryFrom txt
    | .Other => none

def toRecord (packet : SignedPacket) : Except String Record :=
  match ((Pkarr.resourceRecords packet CONTENT_KEY).filterMap filterTxt).head? with
  | none => .error "no content found in IPNS record"
  | some url => (Pkarr.fromStr url).map .Content

/-! ## There and back -/

/-- Only the first TXT record counts. -/
theorem toRecord_eq_ok_iff (packet : SignedPacket) (record : Record) :
    toRecord packet = .ok record ↔ ∃ url urls content,
      (Pkarr.resourceRecords packet CONTENT_KEY).filterMap filterTxt = url :: urls ∧
        Pkarr.fromStr url = .ok content ∧ record = .Content content := by
  rw [toRecord]
  cases htexts : (Pkarr.resourceRecords packet CONTENT_KEY).filterMap filterTxt with
  | nil => simp
  | cons url urls => cases hurl : Pkarr.fromStr url <;> simp [Except.map, eq_comm, hurl]

variable {secretKey : SecretKey} {record : Record} {ttl : UInt32} {now : UInt64}
  {packet : SignedPacket}

theorem toSignedPacket_eq_ok (h : toSignedPacket secretKey record ttl now = .ok packet) :
    ∃ content txt, record = .Content content ∧
      Pkarr.txtTryFrom (Pkarr.toString content) = .ok txt ∧
      Pkarr.new secretKey [⟨CONTENT_KEY, .IN, ttl, .TXT txt⟩] now = .ok packet := by
  obtain ⟨content⟩ := record
  rw [toSignedPacket, Record.content] at h
  cases htxt : Pkarr.txtTryFrom (Pkarr.toString content) with
  | error e =>
      simp only [htxt] at h
      cases h
  | ok txt =>
      simp only [htxt] at h
      exact ⟨content, txt, rfl, htxt, h⟩

/-- The name of a TXT record makes no difference to its text. -/
theorem filterMap_filterTxt_rename (rrs : List ResourceRecord) (name : String) :
    (rrs.map fun rr => { rr with name }).filterMap filterTxt = rrs.filterMap filterTxt := by
  rw [List.filterMap_map]
  rfl

/-- **The round trip**: what is read from a packet is what was put into it, and it is signed with the key
and at the time that were given. -/
theorem toRecord_of_toSignedPacket (laws : Pkarr.Lawful)
    (h : toSignedPacket secretKey record ttl now = .ok packet) :
    toRecord packet = .ok record ∧ packet.publicKey = Pkarr.publicKey secretKey ∧
      packet.timestamp = now := by
  obtain ⟨content, txt, rfl, htxt, hnew⟩ := toSignedPacket_eq_ok h
  refine ⟨?_, laws.publicKey _ _ _ _ hnew, laws.timestamp _ _ _ _ hnew⟩
  have hrecords := laws.resourceRecords _ _ _ _ CONTENT_KEY hnew (by simp)
  have htext : (Pkarr.resourceRecords packet CONTENT_KEY).filterMap filterTxt
      = [Pkarr.toString content] := by
    rw [← filterMap_filterTxt_rename _ CONTENT_KEY, hrecords]
    simp [filterTxt, laws.string _ _ htxt]
  exact (toRecord_eq_ok_iff _ _).mpr ⟨_, [], content, htext, laws.content content, rfl⟩

end Packets

/-! ## Text as the libraries have it

A hash is written in hexadecimal digits, and one of a hash sequence has an `s` in front.  A short text is
one character string of a TXT record. -/

def hexDigit (n : ℕ) : Char := Char.ofNat (if n < 10 then 48 + n else 87 + n)

def hexValue (c : Char) : Option ℕ :=
  if 48 ≤ c.toNat ∧ c.toNat ≤ 57 then some (c.toNat - 48)
  else if 97 ≤ c.toNat ∧ c.toNat ≤ 102 then some (c.toNat - 87)
  else none

theorem hexValue_hexDigit {n : ℕ} (h : n < 16) : hexValue (hexDigit n) = some n := by
  have hall : ∀ n : Fin 16, hexValue (hexDigit n) = some n.val := by decide
  exact hall ⟨n, h⟩

def hexEncode (bytes : List UInt8) : List Char :=
  bytes.flatMap fun b => [hexDigit (b.toNat / 16), hexDigit (b.toNat % 16)]

def hexDecode : List Char → Option (List UInt8)
  | [] => some []
  | [_] => none
  | c :: d :: chars => do
      let hi ← hexValue c
      let lo ← hexValue d
      let bytes ← hexDecode chars
      return UInt8.ofNat (16 * hi + lo) :: bytes

theorem hexDecode_hexEncode (bytes : List UInt8) : hexDecode (hexEncode bytes) = some bytes := by
  induction bytes with
  | nil => rfl
  | cons b bytes ih =>
      have hb := b.toNat_lt
      rw [hexEncode, List.flatMap_cons, List.cons_append, List.cons_append, List.nil_append, hexDecode,
        hexValue_hexDigit (by omega), hexValue_hexDigit (Nat.mod_lt _ (by decide))]
      rw [hexEncode] at ih
      simp only [Option.bind_eq_bind, Option.bind_some, ih, Option.pure_def, Option.some.injEq,
        List.cons.injEq, and_true]
      rw [Nat.div_add_mod, UInt8.ofNat_toNat]

theorem length_hexEncode (bytes : List UInt8) : (hexEncode bytes).length = 2 * bytes.length := by
  induction bytes with
  | nil => rfl
  | cons b bytes ih =>
      rw [hexEncode] at ih ⊢
      rw [List.flatMap_cons, List.length_append, ih, List.length_cons]
      simp only [List.length_cons, List.length_nil]
      omega

def contentText (content : HashAndFormat) : List Char :=
  match content.format with
  | .Raw => hexEncode content.hash.toList
  | .HashSeq => 's' :: hexEncode content.hash.toList

def hashOfText (chars : List Char) : Option Hash := do
  let bytes ← hexDecode chars
  if h : bytes.length = 32 then some ⟨bytes, h⟩ else none

def contentOfText (chars : List Char) : Option HashAndFormat :=
  if chars.length = 64 then (hashOfText chars).map fun hash => ⟨hash, .Raw⟩
  else match chars with
    | 's' :: chars => (hashOfText chars).map fun hash => ⟨hash, .HashSeq⟩
    | _ => none

theorem hashOfText_hexEncode (hash : Hash) : hashOfText (hexEncode hash.toList) = some hash := by
  obtain ⟨bytes, hlen⟩ := hash
  rw [hashOfText, List.Vector.toList_mk, hexDecode_hexEncode]
  simp [hlen]

theorem contentOfText_contentText (content : HashAndFormat) :
    contentOfText (contentText content) = some content := by
  obtain ⟨hash, format⟩ := content
  have hlen : (hexEncode hash.toList).length = 64 := by
    rw [length_hexEncode, hash.toList_length]
  cases format with
  | Raw =>
      simp only [contentText, contentOfText, hlen, if_true, hashOfText_hexEncode, Option.map_some]
  | HashSeq =>
      rw [contentText, contentOfText, if_neg (by rw [List.length_cons, hlen]; decide)]
      simp only [hashOfText_hexEncode, Option.map_some]

/-- The libraries, with a scheme in which a secret key is its own public key. -/
@[reducible] def Pkarr.plain : Pkarr where
  publicKey sk := sk
  isKey _ := true
  txtTryFrom s :=
    if s.utf8ByteSize ≤ 255 then .ok [s.toUTF8.data.toList] else .error "InvalidCharacterString"
  stringTryFrom txt := String.fromUTF8? ⟨txt.flatten.toArray⟩
  toString content := String.ofList (contentText content)
  fromStr s :=
    match contentOfText s.toList with
    | some content => .ok content
    | none => .error "invalid hash and format"
  new sk answers timestamp := .ok ⟨sk, timestamp, answers⟩
  resourceRecords packet name := packet.answers.filter fun rr => rr.name = name

theorem Pkarr.plain_lawful : @Pkarr.Lawful Pkarr.plain :=
  letI := Pkarr.plain
  { string := by
      intro s txt h
      simp only [txtTryFrom] at h
      split_ifs at h
      cases h
      show String.fromUTF8? ⟨([s.toUTF8.data.toList] : TXT).flatten.toArray⟩ = some s
      have hbytes : (⟨([s.toUTF8.data.toList] : TXT).flatten.toArray⟩ : ByteArray) = s.toUTF8 := by
        rw [List.flatten_singleton]
      rw [hbytes]
      exact dif_pos s.isValidUTF8
    content := by
      intro content
      show (match contentOfText (String.ofList (contentText content)).toList with
        | some content => .ok content
        | none => .error "invalid hash and format") = Except.ok content
      rw [String.toList_ofList, contentOfText_contentText]
    isKey := fun _ => rfl
    publicKey := by
      rintro sk answers timestamp packet h
      cases h
      rfl
    timestamp := by
      rintro sk answers timestamp packet h
      cases h
      rfl
    resourceRecords := by
      rintro sk answers timestamp packet name h hname
      cases h
      show ((answers.filter fun rr => rr.name = name).map fun rr => { rr with name }) = answers
      rw [List.filter_eq_self.mpr fun rr hrr => decide_eq_true (hname rr hrr)]
      refine (List.map_congr_left fun rr hrr => ?_).trans (List.map_id _)
      rw [← hname rr hrr]
      rfl }

end IrohExperiments.Naming
