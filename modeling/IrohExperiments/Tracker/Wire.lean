import IrohExperiments.Tracker.Writes

/-!
# A query over a connection

The client writes a request to a stream and reads the response from it; the tracker reads the
request, handles it and writes the response.  Both read a stream to its end with the same limit,
`requestSizeLimit`.  For a request that is plenty.  A response lists every host of a content, so its
size has no bound.

`encodedSize` is the size of a response in terms of its hosts, `queryConn_answer` says what the
client makes of it, and `query_agrees_iff` is the consequence: the client gets the response that the
tracker gave exactly when its size is within the limit.  `many_hosts_not_read` is a table with 126
hosts, whose response is not.
-/

namespace IrohExperiments.Tracker

section Wire

variable [KeyScheme]

/-! ## The two ends of a stream -/

/-- `RecvStream::read_to_end` on a stream that carries `data`. -/
def readToEnd (limit : ℕ) (data : List UInt8) : Option (List UInt8) :=
  if data.length ≤ limit then some data else none

inductive ConnectionError where
  | ReadRequest
  | DeserializeRequest
  | Verify (e : VerifyError)
  | Actor

/-- `Tracker::handle_connection`: what is written to the stream after reading `recv` from it, and
the tables after that. -/
def handleConnection (options : Options) (now : AbsoluteTime) (tables : Tables)
    (recv : List UInt8) : Except ConnectionError (List UInt8 × Tables) :=
  match readToEnd requestSizeLimit recv with
  | none => .error .ReadRequest
  | some request =>
      match requestCodec.fromBytes request with
      | none => .error .DeserializeRequest
      | some (.Announce announce) =>
          match handleAnnounce tables announce with
          | (.error e, _) => .error (.Verify e)
          | (.ok _, tables) => .ok ([], tables)
      | some (.Query query) =>
          match handleQuery options now query tables with
          | none => .error .Actor
          | some response => .ok (responseCodec.encode (.QueryResponse response), tables)

/-- What comes back from the tracker for a request. -/
def answer (options : Options) (now : AbsoluteTime) (tables : Tables) (request : List UInt8) :
    Option (List UInt8) :=
  match handleConnection options now tables request with
  | .ok (written, _) => some written
  | .error _ => none

inductive ClientError where
  | ReadResponse
  | DeserializeResponse

/-- Read and decode the response to a query. -/
def readResponse (recv : Option (List UInt8)) : Except ClientError QueryResponse :=
  match recv.bind (readToEnd requestSizeLimit) with
  | none => .error .ReadResponse
  | some response =>
      match responseCodec.fromBytes response with
      | none => .error .DeserializeResponse
      | some (.QueryResponse response) => .ok response

/-- `query_conn`, over a connection on which a request is answered by `answer`. -/
def queryConn (answer : List UInt8 → Option (List UInt8)) (args : Query) :
    Except ClientError QueryResponse :=
  readResponse (answer (requestCodec.encode (.Query args)))

/-- How a connection is established: with early data that is accepted, with early data that is
rejected, or without. -/
inductive Connecting where
  | Accepted
  | Rejected
  | OneRtt

/-- `query`. -/
def query (connecting : Connecting) (answer : List UInt8 → Option (List UInt8)) (args : Query) :
    Except ClientError (List SignedAnnounce) :=
  let request := requestCodec.encode (.Query args)
  let result := match connecting with
    | .Accepted => readResponse (answer request)
    -- the request is sent again, on a new stream
    | .Rejected => readResponse (answer request)
    | .OneRtt => queryConn answer args
  result.map QueryResponse.hosts

/-! ## Sizes -/

/-- The size of a response with these hosts: a tag, the number of hosts, and for each of them its
key, hash, format, kind, timestamp and signature. -/
def encodedSize (hosts : List SignedAnnounce) : ℕ :=
  1 + (Codec.varint 10 hosts.length).length +
    (hosts.map fun a => 130 + (Codec.varint 10 a.announce.timestamp.micros.toNat).length).sum

omit [KeyScheme] in
theorem blobFormat_encode_length (f : BlobFormat) : (blobFormatCodec.encode f).length = 1 := by
  cases f <;> rfl

omit [KeyScheme] in
theorem announceKind_encode_length (k : AnnounceKind) : (announceKindCodec.encode k).length = 1 := by
  cases k <;> rfl

omit [KeyScheme] in
theorem blobFormat_fits (f : BlobFormat) : blobFormatCodec.Fits f := by
  cases f <;> exact trivial

omit [KeyScheme] in
theorem announceKind_fits (k : AnnounceKind) : announceKindCodec.Fits k := by
  cases k <;> exact trivial

theorem signedAnnounce_fits (a : SignedAnnounce) : signedAnnounceCodec.Fits a :=
  ⟨⟨trivial, ⟨trivial, blobFormat_fits _⟩, announceKind_fits _, Codec.u64_fits _⟩, trivial⟩

omit [KeyScheme] in
theorem bool_encode_length (b : Bool) : (Codec.bool.encode b).length = 1 := by
  cases b <;> rfl

omit [KeyScheme] in
theorem hashAndFormat_encode_length (c : HashAndFormat) :
    (hashAndFormatCodec.encode c).length = 33 := by
  show (hashCodec.encode c.hash ++ blobFormatCodec.encode c.format).length = 33
  rw [List.length_append, blobFormat_encode_length]
  exact congrArg (· + 1) (Codec.bytes_encode_length 32 c.hash)

theorem signedAnnounce_encode_length (a : SignedAnnounce) :
    (signedAnnounceCodec.encode a).length
      = 130 + (Codec.varint 10 a.announce.timestamp.micros.toNat).length := by
  have hhost : (endpointIdCodec.encode a.announce.host).length = 32 :=
    Codec.bytes_encode_length 32 _
  have hsignature : ((Codec.bytes 64).encode a.signature).length = 64 :=
    Codec.bytes_encode_length 64 _
  show ((endpointIdCodec.encode a.announce.host ++ (hashAndFormatCodec.encode a.announce.content ++
    (announceKindCodec.encode a.announce.kind ++
      Codec.varint 10 a.announce.timestamp.micros.toNat))) ++
    (Codec.bytes 64).encode a.signature).length = _
  simp only [List.length_append, hhost, hsignature, hashAndFormat_encode_length,
    announceKind_encode_length]
  omega

/-- **The size of a response.** -/
theorem response_encode_length (response : QueryResponse) :
    (responseCodec.encode (.QueryResponse response)).length = encodedSize response.hosts := by
  show (Codec.varint 5 0 ++ signedAnnounceCodec.list.encode response.hosts).length = _
  rw [List.length_append, Codec.list_encode_length, encodedSize]
  simp only [signedAnnounce_encode_length]
  rw [show (Codec.varint 5 0).length = 1 from rfl, Nat.add_assoc]

/-- Every host takes at least 131 bytes. -/
theorem hosts_le_encodedSize (hosts : List SignedAnnounce) :
    131 * hosts.length ≤ encodedSize hosts := by
  have hsum : 131 * hosts.length ≤ (hosts.map fun a =>
      130 + (Codec.varint 10 a.announce.timestamp.micros.toNat).length).sum := by
    induction hosts with
    | nil => simp
    | cons a hosts ih =>
        have hpos : 0 < (Codec.varint 10 a.announce.timestamp.micros.toNat).length :=
          Codec.varint_length_pos 9 _
        rw [List.length_cons, List.map_cons, List.sum_cons]
        omega
  rw [encodedSize]
  omega

/-! ## What arrives -/

/-- The request for a query arrives as it was sent. -/
theorem requestCodec_query (args : Query) :
    readToEnd requestSizeLimit (requestCodec.encode (.Query args))
        = some (requestCodec.encode (.Query args)) ∧
      requestCodec.fromBytes (requestCodec.encode (.Query args)) = some (.Query args) := by
  have hlength : (requestCodec.encode (.Query args)).length = 36 := by
    show (Codec.varint 5 1 ++ (hashAndFormatCodec.encode args.content ++
      (Codec.bool.encode args.flags.complete ++ Codec.bool.encode args.flags.verified))).length = 36
    simp only [List.length_append, hashAndFormat_encode_length, bool_encode_length]
    rfl
  refine ⟨?_, Codec.fromBytes_encode _ ?_⟩
  · rw [readToEnd, hlength]
    rfl
  · exact ⟨⟨trivial, blobFormat_fits _⟩, trivial, trivial⟩

/-- **What the client makes of the answer to a query.** -/
theorem queryConn_answer {options : Options} {now : AbsoluteTime} {tables : Tables} {args : Query}
    {response : QueryResponse} (h : handleQuery options now args tables = some response) :
    queryConn (answer options now tables) args
      = if encodedSize response.hosts ≤ requestSizeLimit then .ok response
        else .error .ReadResponse := by
  obtain ⟨hread, hdecode⟩ := requestCodec_query args
  have hanswer : answer options now tables (requestCodec.encode (.Query args))
      = some (responseCodec.encode (.QueryResponse response)) := by
    rw [answer, handleConnection, hread]
    simp only [hdecode, h]
  rw [queryConn, hanswer, readResponse, Option.bind_some, readToEnd, response_encode_length]
  by_cases hsize : encodedSize response.hosts ≤ requestSizeLimit
  · have hhosts : response.hosts.length < 2 ^ 64 := by
      have hle := (hosts_le_encodedSize response.hosts).trans hsize
      rw [requestSizeLimit] at hle
      omega
    have hfits : responseCodec.Fits (.QueryResponse response) :=
      ⟨hhosts, fun a _ => signedAnnounce_fits a⟩
    rw [if_pos hsize, if_pos hsize]
    simp only [Codec.fromBytes_encode _ hfits]
  · rw [if_neg hsize, if_neg hsize]

theorem query_eq (connecting : Connecting) (answer : List UInt8 → Option (List UInt8))
    (args : Query) :
    query connecting answer args = (queryConn answer args).map QueryResponse.hosts := by
  cases connecting <;> rfl

/-- **When tracker and client agree.**  The client reads the response that the tracker gave, over an
existing connection or a new one, if and only if its encoding is within the limit for requests. -/
theorem query_agrees_iff (options : Options) (now : AbsoluteTime) (tables : Tables) (args : Query)
    (response : QueryResponse) (h : handleQuery options now args tables = some response) :
    (queryConn (answer options now tables) args = .ok response ∧
        ∀ connecting, query connecting (answer options now tables) args = .ok response.hosts)
      ↔ encodedSize response.hosts ≤ requestSizeLimit := by
  have hconn := queryConn_answer h
  constructor
  · rintro ⟨hok, _⟩
    by_contra hsize
    rw [hconn, if_neg hsize] at hok
    cases hok
  · intro hsize
    rw [if_pos hsize] at hconn
    refine ⟨hconn, fun connecting => ?_⟩
    rw [query_eq, hconn]
    rfl

/-! ## Many hosts -/

/-- **An announce of a new path**, if it verifies, is added to the table. -/
theorem handleAnnounce_of_new {tables : Tables} {a : SignedAnnounce} (hverify : a.verify = .ok ())
    (hnew : tables.announces.get (splitSignedAnnounce a).1 = none) :
    (handleAnnounce tables a).2 = tables.insertAnnounce (splitSignedAnnounce a).1
      (splitSignedAnnounce_canonical a) (splitSignedAnnounce a).2 := by
  rcases handleAnnounce_cases tables a with ⟨e, he, _⟩ | ⟨_, response, _, hhost, hcases⟩
  · rw [hverify] at he
    cases he
  · rcases hcases with ⟨_, hold⟩ | hinsert
    · have htrue := hhost.mpr hnew
      rw [hold] at htrue
      cases htrue
    · exact hinsert

theorem mem_announced_insertAnnounce {tables : Tables} {a : SignedAnnounce}
    (hnew : tables.announces.get (splitSignedAnnounce a).1 = none) (b : SignedAnnounce) :
    b ∈ (tables.insertAnnounce (splitSignedAnnounce a).1 (splitSignedAnnounce_canonical a)
        (splitSignedAnnounce a).2).announced
      ↔ b ∈ tables.announced ∨ b = a := by
  rw [Tables.mem_announced, Tables.mem_announced, Tables.insertAnnounce_announces,
    RecordTable.get_insert]
  by_cases heq : (splitSignedAnnounce b).1 = (splitSignedAnnounce a).1
  · rw [if_pos heq, heq, hnew]
    constructor
    · intro h
      refine Or.inr (splitSignedAnnounce_injective (Prod.ext heq ?_))
      exact (Option.some.inj h).symm
    · rintro (h | rfl)
      · cases h
      · rfl
  · rw [if_neg heq]
    constructor
    · exact Or.inl
    · rintro (h | rfl)
      · exact h
      · exact absurd rfl heq

/-- Announces of different paths that verify are all in the table in the end. -/
theorem mem_announced_foldl (announces : List SignedAnnounce) (tables : Tables)
    (hverify : ∀ a ∈ announces, a.verify = .ok ())
    (hnodup : (announces.map fun a => (splitSignedAnnounce a).1).Nodup)
    (hnew : ∀ a ∈ announces, tables.announces.get (splitSignedAnnounce a).1 = none) :
    let tables' := announces.foldl (fun tables a => (handleAnnounce tables a).2) tables
    tables'.probes = tables.probes ∧
      ∀ a, a ∈ tables'.announced ↔ a ∈ tables.announced ∨ a ∈ announces := by
  induction announces generalizing tables with
  | nil => simp
  | cons a announces ih =>
      rw [List.map_cons, List.nodup_cons] at hnodup
      obtain ⟨hfirst, hrest⟩ := hnodup
      have hnewa := hnew a List.mem_cons_self
      have htables := handleAnnounce_of_new (hverify a List.mem_cons_self) hnewa
      -- the paths of the others are new still
      have hnew' : ∀ b ∈ announces,
          (handleAnnounce tables a).2.announces.get (splitSignedAnnounce b).1 = none := by
        intro b hb
        have hpath : (splitSignedAnnounce b).1 ≠ (splitSignedAnnounce a).1 := fun heq =>
          hfirst (heq ▸ List.mem_map_of_mem hb)
        rw [htables, Tables.insertAnnounce_announces, RecordTable.get_insert, if_neg hpath]
        exact hnew b (List.mem_cons_of_mem _ hb)
      obtain ⟨hprobes, hmem⟩ := ih (handleAnnounce tables a).2
        (fun b hb => hverify b (List.mem_cons_of_mem _ hb)) hrest hnew'
      refine ⟨?_, fun b => ?_⟩
      · rw [List.foldl_cons, hprobes, htables, Tables.insertAnnounce_probes]
      · rw [List.foldl_cons, hmem, List.mem_cons, ← or_assoc, htables,
          mem_announced_insertAnnounce hnewa]

end Wire

section Runs

attribute [local instance] KeyScheme.doubling

/-- So many hosts that announce the same blob. -/
def manyHosts (n : ℕ) : List SignedAnnounce :=
  (List.range n).map fun i =>
    SignedAnnounce.doubling (UInt8.ofNat i) (.filled 1 .Raw) .Complete ⟨5⟩

/-- The tables after all of them have announced it. -/
def manyTables (n : ℕ) : Tables :=
  (manyHosts n).foldl (fun tables a => (handleAnnounce tables a).2) Tables.empty

/-- The condition can be met: a few hosts are within the limit. -/
theorem query_agrees_fewHosts :
    ∃ response, handleQuery Options.debug ⟨9⟩ rawQuery (manyTables 3) = some response ∧
      response.hosts.length = 3 ∧
      queryConn (answer Options.debug ⟨9⟩ (manyTables 3)) rawQuery = .ok response := by
  have hresponse : handleQuery Options.debug ⟨9⟩ rawQuery (manyTables 3) = some ⟨manyHosts 3⟩ := by
    decide +kernel
  exact ⟨_, hresponse, rfl, ((query_agrees_iff _ _ _ _ _ hresponse).mpr (by decide +kernel)).1⟩

theorem mem_manyHosts {n : ℕ} {a : SignedAnnounce} (h : a ∈ manyHosts n) :
    ∃ fill, a = SignedAnnounce.doubling fill (.filled 1 .Raw) .Complete ⟨5⟩ := by
  obtain ⟨i, _, rfl⟩ := List.mem_map.mp h
  exact ⟨_, rfl⟩

theorem manyHosts_paths_nodup {n : ℕ} (hn : n ≤ 256) :
    ((manyHosts n).map fun a => (splitSignedAnnounce a).1).Nodup := by
  rw [manyHosts, List.map_map]
  refine List.Nodup.map_on ?_ List.nodup_range
  intro i hi j hj heq
  -- the paths differ in their endpoints
  have hfill : UInt8.ofNat i = UInt8.ofNat j :=
    Option.some.inj (congrArg (fun p : AnnouncePath => p.endpoint.toList.head?) heq)
  have hnat := congrArg UInt8.toNat hfill
  rw [UInt8.toNat_ofNat', UInt8.toNat_ofNat'] at hnat
  rw [List.mem_range] at hi hj
  omega

/-- The tables hold the announces of all hosts, and no probe. -/
theorem mem_announced_manyTables {n : ℕ} (hn : n ≤ 256) :
    (manyTables n).probes = RecordTable.empty ∧
      ∀ a, a ∈ (manyTables n).announced ↔ a ∈ manyHosts n := by
  obtain ⟨hprobes, hmem⟩ := mem_announced_foldl (manyHosts n) Tables.empty (by
    intro a ha
    obtain ⟨fill, rfl⟩ := mem_manyHosts ha
    exact SignedAnnounce.verify_doubling fill _ _ _) (manyHosts_paths_nodup hn) (fun _ _ => rfl)
  refine ⟨hprobes, fun a => ?_⟩
  rw [manyTables, hmem]
  exact or_iff_right List.not_mem_nil

/-- **A response that is not read.**  All 126 hosts are in the answer of the tracker, and the client
gets none of them. -/
theorem many_hosts_not_read :
    ∃ response, handleQuery Options.debug ⟨9⟩ rawQuery (manyTables 126) = some response ∧
      queryConn (answer Options.debug ⟨9⟩ (manyTables 126)) rawQuery ≠ .ok response := by
  obtain ⟨hprobes, hmem⟩ := mem_announced_manyTables (n := 126) (by decide)
  have hnow : (manyTables 126).Before ⟨9⟩ := by
    refine ⟨?_, ?_⟩
    · intro r hr
      rw [← Tables.map_splitSignedAnnounce_announced] at hr
      obtain ⟨a, ha, rfl⟩ := List.mem_map.mp hr
      obtain ⟨fill, rfl⟩ := mem_manyHosts ((hmem a).mp ha)
      exact AbsoluteTime.le_iff.mpr (by decide : (5 : UInt64).toNat ≤ (9 : UInt64).toNat)
    · rw [hprobes]
      intro r hr
      exact absurd hr List.not_mem_nil
  obtain ⟨hosts, hresponse, hall⟩ : ∃ hosts,
      handleQuery Options.debug ⟨9⟩ rawQuery (manyTables 126) = some ⟨hosts⟩ ∧ manyHosts 126 ⊆ hosts := by
    refine ⟨_, handleQuery_eq Options.debug rawQuery hnow, fun a ha => ?_⟩
    refine List.mem_filter.mpr ⟨(hmem a).mpr ha, decide_eq_true ?_⟩
    obtain ⟨fill, rfl⟩ := mem_manyHosts ha
    refine ⟨rfl, fun _ => rfl, ?_, fun hverified => ?_⟩
    · exact (by decide : AbsoluteTime.age ⟨9⟩ ⟨5⟩ ≤ Options.debug.announceTimeout)
    · cases hverified
  have hlength : 126 ≤ hosts.length := by
    have hnodup := List.Nodup.of_map _ (manyHosts_paths_nodup (n := 126) (by decide))
    have hle := (List.subperm_of_subset hnodup hall).length_le
    rwa [manyHosts, List.length_map, List.length_range] at hle
  have hlarge : ¬ encodedSize hosts ≤ requestSizeLimit := by
    have hsize := hosts_le_encodedSize hosts
    rw [requestSizeLimit]
    omega
  refine ⟨_, hresponse, ?_⟩
  rw [queryConn_answer hresponse, if_neg hlarge]
  exact nofun

end Runs

end IrohExperiments.Tracker
