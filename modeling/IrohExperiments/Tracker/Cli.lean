import IrohExperiments.Tracker.Wire

/-!
# The query command

`iroh-content-discovery-cli query` asks a list of trackers for the hosts of a content and prints what
they answer.  The trackers are not trusted with announces of others: the command checks the signature
of each announce before it prints its host, and prints a line without a host if that fails.

Here the network is arbitrary.  A tracker may answer a request with any bytes, or not at all
(`Connection`), and what is assumed of the signatures is that they cannot be forged (`Unforgeable`).
`query_printed` is what the check is good for: a host that is printed has signed an announce with the
host and the kind on the line.  It is an announce that a tracker chose to return, and the command does
not compare it with its query; `replayed_announce_printed` is a run in which a tracker answers with an
announce for another content, of the other kind.
-/

namespace IrohExperiments.Tracker

/-! ## Arguments -/

/-- A ticket for a blob.  Its address is not used for a query. -/
structure BlobTicket where
  hash : Hash
  format : BlobFormat

/-- Various ways to specify content. -/
inductive ContentArg where
  | Hash (hash : Tracker.Hash)
  | HashAndFormat (haf : Tracker.HashAndFormat)
  | Ticket (ticket : BlobTicket)

def ContentArg.hashAndFormat : ContentArg → Tracker.HashAndFormat
  | .Hash hash => ⟨hash, .Raw⟩
  | .HashAndFormat haf => haf
  | .Ticket ticket => ⟨ticket.hash, ticket.format⟩

section Command

variable [KeyScheme]

structure QueryArgs where
  tracker : List EndpointId
  content : ContentArg
  isPartial : Bool
  verified : Bool

def QueryArgs.query (args : QueryArgs) : Query where
  content := args.content.hashAndFormat
  flags := { complete := !args.isPartial, verified := args.verified }

/-! ## Output -/

/-- What the command prints: a valid announce with its host and kind, the text `invalid announce`,
or that a tracker could not be queried. -/
inductive Line where
  | host (host : EndpointId) (kind : AnnounceKind)
  | invalidAnnounce
  | failed (tracker : EndpointId) (e : ClientError)

/-- A connection to a tracker: how it is established, and what comes back for a request. -/
structure Connection where
  connecting : Connecting
  answer : List UInt8 → Option (List UInt8)

namespace Cli

def printAnnounce (announce : SignedAnnounce) : Line :=
  match announce.verify with
  | .ok _ => .host announce.announce.host announce.announce.kind
  | .error _ => .invalidAnnounce

/-- What is printed for one tracker. -/
def queryTracker (query : Query) (tracker : EndpointId) (connection : Connection) : List Line :=
  match Tracker.query connection.connecting connection.answer query with
  | .ok announces => announces.map printAnnounce
  | .error e => [.failed tracker e]

/-- The command `query`.  The trackers are asked one after the other, the `i`-th over the `i`-th
connection. -/
def query (args : QueryArgs) (connections : ℕ → Connection) : List Line :=
  args.tracker.zipIdx.flatMap fun t => queryTracker args.query t.1 (connections t.2)

/-! ## What is printed -/

/-- The announce is in the response that one of the trackers gave. -/
def Received (args : QueryArgs) (connections : ℕ → Connection) (a : SignedAnnounce) : Prop :=
  ∃ i < args.tracker.length, ∃ announces,
    Tracker.query (connections i).connecting (connections i).answer args.query = .ok announces ∧
      a ∈ announces

theorem printAnnounce_eq_host (a : SignedAnnounce) (host : EndpointId) (kind : AnnounceKind) :
    printAnnounce a = .host host kind
      ↔ a.verify = .ok () ∧ a.announce.host = host ∧ a.announce.kind = kind := by
  rw [printAnnounce]
  cases a.verify with
  | ok u => simp
  | error e => simp

/-- Each announce received has its line. -/
theorem printAnnounce_mem_query {args : QueryArgs} {connections : ℕ → Connection} {a : SignedAnnounce}
    (h : Received args connections a) : printAnnounce a ∈ query args connections := by
  obtain ⟨i, hi, announces, hquery, ha⟩ := h
  refine List.mem_flatMap.mpr ⟨(args.tracker[i], i), ?_, ?_⟩
  · exact List.mk_mem_zipIdx_iff_getElem?.mpr (List.getElem?_eq_getElem hi)
  · simp only [queryTracker, hquery]
    exact List.mem_map_of_mem ha

theorem host_mem_queryTracker (q : Query) (tracker : EndpointId) (connection : Connection)
    (host : EndpointId) (kind : AnnounceKind) :
    Line.host host kind ∈ queryTracker q tracker connection
      ↔ ∃ announces, Tracker.query connection.connecting connection.answer q = .ok announces ∧
          ∃ a ∈ announces, a.verify = .ok () ∧ a.announce.host = host ∧ a.announce.kind = kind := by
  rw [queryTracker]
  cases Tracker.query connection.connecting connection.answer q with
  | error e => simp
  | ok announces => simp [List.mem_map, printAnnounce_eq_host]

/-- **The lines with a host** are the announces received that verify. -/
theorem host_mem_query (args : QueryArgs) (connections : ℕ → Connection) (host : EndpointId)
    (kind : AnnounceKind) :
    Line.host host kind ∈ query args connections
      ↔ ∃ a, Received args connections a ∧ a.verify = .ok () ∧ a.announce.host = host ∧
          a.announce.kind = kind := by
  constructor
  · simp only [query, List.mem_flatMap, host_mem_queryTracker]
    rintro ⟨⟨tracker, i⟩, hi, announces, hquery, a, ha, hverify, hfields⟩
    have hlt : i < args.tracker.length := by
      have hbound := List.snd_lt_of_mem_zipIdx hi
      simpa using hbound
    exact ⟨a, ⟨i, hlt, announces, hquery, ha⟩, hverify, hfields⟩
  · rintro ⟨a, hreceived, hfields⟩
    rw [← (printAnnounce_eq_host a host kind).mpr hfields]
    exact printAnnounce_mem_query hreceived

/-! ## Who has signed it -/

/-- **The assumption on the signature scheme**: a signature that verifies was made with the secret
key of the host.  `signed` are the messages that a host has signed. -/
structure Unforgeable (signed : EndpointId → List UInt8 → Prop) : Prop where
  signed_of_verify : ∀ host message signature,
    KeyScheme.verify host.asBytes message signature = true → signed host message

/-- The message that is signed determines the announce. -/
theorem toAllocvec_injective : Function.Injective (Announce.toAllocvec) := by
  intro a b h
  have hfits : ∀ a, announceCodec.Fits a := fun a => (signedAnnounce_fits ⟨a, default⟩).1
  have ha := announceCodec.fromBytes_encode (hfits a)
  have hb := announceCodec.fromBytes_encode (hfits b)
  rw [Announce.toAllocvec, Announce.toAllocvec] at h
  rw [h, hb] at ha
  exact (Option.some.inj ha).symm

theorem signed_of_verify {signed : EndpointId → List UInt8 → Prop} (hsigned : Unforgeable signed)
    {a : SignedAnnounce} (h : a.verify = .ok ()) : signed a.announce.host a.announce.toAllocvec := by
  rw [SignedAnnounce.verify] at h
  by_cases hverify : KeyScheme.verify a.announce.host.asBytes a.announce.toAllocvec a.signature = true
  · exact hsigned.signed_of_verify _ _ _ hverify
  · rw [if_neg hverify] at h
    cases h

/-- **A host that is printed has signed it.**  Whatever the trackers answer, a line with a host and a
kind stands for an announce in one of the answers that this host has signed, with this kind, and the
signed message is one of no other announce.  Of the announces in the answers exactly those that do not
verify are kept back, with a line that says so; what content they are for makes no difference. -/
theorem query_printed (signed : EndpointId → List UInt8 → Prop) (hsigned : Unforgeable signed)
    (args : QueryArgs) (connections : ℕ → Connection) :
    (∀ host kind, Line.host host kind ∈ query args connections →
        ∃ a, Received args connections a ∧ a.announce.host = host ∧ a.announce.kind = kind ∧
          signed host a.announce.toAllocvec ∧
          ∀ b : Announce, b.toAllocvec = a.announce.toAllocvec → b = a.announce) ∧
      (∀ a, Received args connections a → a.verify = .ok () →
        Line.host a.announce.host a.announce.kind ∈ query args connections) ∧
      (∀ a e, Received args connections a → a.verify = .error e →
        Line.invalidAnnounce ∈ query args connections) ∧
      ∀ a e, a.verify = .error e → printAnnounce a = .invalidAnnounce := by
  have hinvalid : ∀ a e, a.verify = .error e → printAnnounce a = .invalidAnnounce := by
    intro a e herror
    rw [printAnnounce, herror]
  refine ⟨fun host kind hline => ?_, fun a hreceived hverify => ?_, fun a e hreceived herror => ?_,
    hinvalid⟩
  · obtain ⟨a, hreceived, hverify, rfl, rfl⟩ := (host_mem_query args connections host kind).mp hline
    exact ⟨a, hreceived, rfl, rfl, signed_of_verify hsigned hverify,
      fun b hb => toAllocvec_injective hb⟩
  · exact (host_mem_query args connections _ _).mpr ⟨a, hreceived, hverify, rfl, rfl⟩
  · rw [← hinvalid a e herror]
    exact printAnnounce_mem_query hreceived

end Cli

end Command

/-! ## A replay -/

/-- The scheme in which the valid signatures are the ones that were issued. -/
abbrev KeyScheme.issuing (issued : List (Bytes 32 × List UInt8 × Bytes 64)) : KeyScheme where
  isKey := fun _ => true
  verify := fun key message signature => decide ((key, message, signature) ∈ issued)

section Runs

/-- The one message that was signed: that the host with the key of sevens has some of the blob whose
hash is all ones. -/
def replayedMessage : List UInt8 := List.replicate 32 7 ++ (List.replicate 32 1 ++ [0, 0, 5])

abbrev KeyScheme.replaying : KeyScheme :=
  KeyScheme.issuing [(List.Vector.replicate 32 7, replayedMessage, List.Vector.replicate 64 9)]

attribute [local instance] KeyScheme.replaying

def replayed : SignedAnnounce where
  announce :=
    { host := ⟨List.Vector.replicate 32 7, rfl⟩
      content := .filled 1 .Raw
      kind := .Partial
      timestamp := ⟨5⟩ }
  signature := List.Vector.replicate 64 9

/-- What was signed by whom. -/
def SignedReplayed (host : EndpointId) (message : List UInt8) : Prop :=
  host = replayed.announce.host ∧ message = replayedMessage

/-- A tracker that answers every request with the announce. -/
def replayingConnection : Connection where
  connecting := .OneRtt
  answer := fun _ => some (responseCodec.encode (.QueryResponse ⟨[replayed]⟩))

/-- The arguments of a query for complete data of another blob. -/
def otherArgs : QueryArgs where
  tracker := [⟨List.Vector.replicate 32 8, rfl⟩]
  content := .Hash (List.Vector.replicate 32 2)
  isPartial := false
  verified := false

namespace Cli

theorem unforgeable_replayed : Unforgeable SignedReplayed := by
  refine ⟨fun ⟨key, hkey⟩ message signature h => ?_⟩
  obtain ⟨hhost, hissued⟩ := Prod.mk.inj (List.mem_singleton.mp (of_decide_eq_true h))
  obtain ⟨hmessage, _⟩ := Prod.mk.inj hissued
  refine ⟨?_, hmessage⟩
  rw [EndpointId.asBytes] at hhost
  simp only at hhost
  subst hhost
  rfl

theorem received_replayed : Received otherArgs (fun _ => replayingConnection) replayed := by
  have hfits : responseCodec.Fits (.QueryResponse ⟨[replayed]⟩) :=
    ⟨by decide, fun a _ => signedAnnounce_fits a⟩
  have hread : readToEnd requestSizeLimit (responseCodec.encode (.QueryResponse ⟨[replayed]⟩))
      = some (responseCodec.encode (.QueryResponse ⟨[replayed]⟩)) :=
    if_pos (by decide +kernel)
  refine ⟨0, Nat.one_pos, [replayed], ?_, List.mem_singleton_self _⟩
  simp only [Tracker.query, replayingConnection, queryConn, readResponse, Option.bind_some, hread,
    Codec.fromBytes_encode _ hfits]
  rfl

theorem query_printed_replayed :
    Line.host replayed.announce.host .Partial ∈ query otherArgs (fun _ => replayingConnection) ∧
      ∃ a, Received otherArgs (fun _ => replayingConnection) a ∧
        a.announce.host = replayed.announce.host ∧ a.announce.kind = .Partial ∧
        SignedReplayed replayed.announce.host a.announce.toAllocvec := by
  have hprinted := query_printed SignedReplayed unforgeable_replayed otherArgs
    fun _ => replayingConnection
  have hline := hprinted.2.1 replayed received_replayed (by decide +kernel)
  obtain ⟨a, hreceived, hhost, hkind, hsigned, _⟩ := hprinted.1 _ _ hline
  exact ⟨hline, a, hreceived, hhost, hkind, hsigned⟩

/-- **A replayed announce is printed.**  The host of the line has signed no announce for the content
of the query, and none of kind complete, which the query asks for. -/
theorem replayed_announce_printed :
    Unforgeable SignedReplayed ∧
      Line.host replayed.announce.host .Partial ∈ query otherArgs (fun _ => replayingConnection) ∧
      otherArgs.query.flags.complete = true ∧
      ∀ a : Announce, SignedReplayed replayed.announce.host a.toAllocvec →
        a.content ≠ otherArgs.query.content ∧ a.kind ≠ .Complete := by
  refine ⟨unforgeable_replayed, ?_, rfl, fun a ha => ?_⟩
  · exact (host_mem_query _ _ _ _).mpr
      ⟨replayed, received_replayed, by decide +kernel, rfl, rfl⟩
  · have hmessage : replayed.announce.toAllocvec = replayedMessage := by decide +kernel
    obtain rfl := toAllocvec_injective (ha.2.trans hmessage.symm)
    exact ⟨by decide +kernel, by decide +kernel⟩

end Cli

end Runs

end IrohExperiments.Tracker
