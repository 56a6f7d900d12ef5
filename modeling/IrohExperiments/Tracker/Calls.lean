import IrohExperiments.Lib.Linearizable
import IrohExperiments.Tracker.Wire

/-!
# Calls to a tracker

A client announces or queries with a call to `announce` or `query`.  The call connects to the tracker, with early
data if it can, sends its request again if the early data is rejected, and returns what it reads from
the stream.  The tracker accepts a stream of each connection when the handshake is complete, hands the request to
its actor, and writes the reply of the actor.

`Discovery` is a tracker with any number of calls, which overlap, and with a network that may lose a connection at
any time and may replay the first flight of a connection.

* `Discovery.Inv`: a request is in the queue of the actor or has been handled, and not twice, whether the
  early data was accepted or not, and if it is in a replay, it is neither.
* `Discovery.linearizable_of_run`: the calls are linearizable.  Each of them takes effect at most once, when
  the actor handles its message, and what it returns is what a tracker answers that deals with one message
  after the other.

There is one exception.  A handler that fails drops its stream, which ends it like `finish` does, and an announce
returns `Ok` at any end of the stream.  So an announce that was refused is not told from one that took effect
(`Discovery.Unconfirmed`).
-/

namespace IrohExperiments.Tracker

open SerialServer

section Calls

variable [KeyScheme]

/-! ## What is called -/

inductive Job where
  | Announce (signedAnnounce : SignedAnnounce)
  | Query (args : Query)
  /-- Another program, which may send anything. -/
  | Other (request : List UInt8)
  deriving DecidableEq

/-- The request that is sent. -/
def Job.request : Job → List UInt8
  | .Announce signedAnnounce => requestCodec.encode (.Announce signedAnnounce)
  | .Query args => requestCodec.encode (.Query args)
  | .Other request => request

inductive Answer where
  | Announced
  | Hosts (hosts : List SignedAnnounce)
  deriving DecidableEq

/-- What is returned for the bytes that come back: `recv_response`, or the end of `query`. -/
def Job.read (recv : List UInt8) : Job → Option Answer
  | .Announce _ => (readToEnd requestSizeLimit recv).map fun _ => .Announced
  | .Query _ =>
      match readResponse (some recv) with
      | .ok response => some (.Hosts response.hosts)
      | .error _ => none
  | .Other _ => none

/-- The message for the actor that `handle_connection` makes of a request. -/
def messageOf (recv : List UInt8) (tx : ReplyTo) : Option ActorMessage :=
  match (readToEnd requestSizeLimit recv).bind requestCodec.fromBytes with
  | some (.Announce announce) =>
      match announce.verify with
      | .ok _ => some (.Announce announce tx)
      | .error _ => none
  | some (.Query query) => some (.Query query tx)
  | none => none

/-- What `handle_connection` writes when the actor has replied. -/
def respond : Effect → Option (List UInt8)
  | .announce _ (.ok _) => some []
  | .query _ response => some (responseCodec.encode (.QueryResponse response))
  | _ => none

/-! ## Connections -/

inductive ClientPhase where
  | Connecting
  /-- The request is sent as early data. -/
  | Early
  | Handshaking
  /-- The request is sent on a stream that the tracker accepts. -/
  | Waiting
  | Returned
  deriving DecidableEq

/-- Where `handle_connection` stands. -/
inductive ServerPhase where
  | Accepting
  | Asked
  | Replied (effect : Effect)
  | Written (response : List UInt8)
  | Failed

/-- What a client reads up to the end of the stream, if there is one.  A handler that fails drops the stream, and
that finishes it.  The connection is closed soon after, so the client may also get an error. -/
def ServerPhase.response : ServerPhase → Option (List UInt8)
  | .Written response => some response
  | .Failed => some []
  | _ => none

def ServerPhase.hasFailed : ServerPhase → Bool
  | .Failed => true
  | _ => false

/-- A call, with its connection. -/
structure ClientCall where
  job : Job
  /-- There is no client that has the keys if the connection is a replay. -/
  client : Option ClientPhase
  early : Bool
  /-- Whether the tracker accepts early data, if it has got the first flight. -/
  hello : Option Bool
  finished : Bool
  /-- The request is sent after the handshake. -/
  sent : Bool
  server : ServerPhase

namespace ClientCall

def new (job : Job) : ClientCall := ⟨job, some .Connecting, false, none, false, false, .Accepting⟩

/-- The first flight once more. -/
def replay (self : ClientCall) : ClientCall :=
  { self with client := none, hello := none, finished := false, sent := false, server := .Accepting }

/-- The request is there on the stream that the tracker accepts.  Early data that is rejected is lost. -/
def arrived (self : ClientCall) : Bool := (self.hello == some true && self.early) || self.sent

end ClientCall

/-- What happens on a connection, and concerns nobody else. -/
inductive LocalMove where
  | Connect (zeroRtt : Bool)
  | Hello (accepted : Bool)
  /-- `handshake_completed` returns to the client, or `connecting.await`. -/
  | Handshake
  | Respond
  | Fail

/-- The next step of a client or a handler. -/
def ClientCall.next (self : ClientCall) : LocalMove → Option ClientCall
  | .Connect zeroRtt =>
      match self.client with
      | some .Connecting =>
          some { self with client := some (if zeroRtt then .Early else .Handshaking), early := zeroRtt }
      | _ => none
  | .Hello accepted =>
      match self.client, self.hello with
      | some .Connecting, _ => none
      | _, none => some { self with hello := some accepted }
      | _, _ => none
  | .Handshake =>
      match self.client, self.hello with
      | some .Early, some true => some { self with client := some .Waiting, finished := true }
      -- the request is sent again, on a new stream
      | some .Early, some false => some { self with client := some .Waiting, finished := true, sent := true }
      | some .Handshaking, some _ => some { self with client := some .Waiting, finished := true, sent := true }
      | _, _ => none
  | .Respond =>
      match self.server with
      | .Replied effect =>
          match respond effect with
          | some response => some { self with server := .Written response }
          | none => some { self with server := .Failed }
      | _ => none
  | .Fail =>
      match self.server with
      | .Written _ | .Failed => none
      | _ => some { self with server := .Failed }

/-! ## The system -/

deriving instance DecidableEq for ActorMessage

/-- A message that was handled, and when. -/
structure Handling where
  msg : ActorMessage
  now : AbsoluteTime
  deriving DecidableEq

/-- The messages that tasks of the tracker send. -/
def ActorMessage.isInternal : ActorMessage → Bool
  | .Announce .. | .Query .. | .Stop => false
  | _ => true

structure Discovery where
  calls : List ClientCall
  /-- The messages for the actor, with the call they are for. -/
  queue : List (Option ℕ × ActorMessage)
  state : State
  tables : Tables
  history : List (CallEvent (ℕ × Job) Handling Answer)

inductive CallMove where
  | Invoke (job : Job)
  | Replay (i : ℕ)
  | Local (i : ℕ) (move : LocalMove)
  /-- The tracker reads the request. -/
  | Read (i : ℕ)
  | Internal (msg : ActorMessage)
  /-- The actor handles the next message. -/
  | Handle (now : AbsoluteTime)
  /-- The client reads the response. -/
  | Receive (i : ℕ)
  /-- The client returns with an error. -/
  | GiveUp (i : ℕ)

namespace Discovery

/-- A tracker without calls. -/
def new (state : State) (tables : Tables) : Discovery := ⟨[], [], state, tables, []⟩

/-- A call as it stands in the history. -/
def caller (calls : List ClientCall) (i : ℕ) : Option (ℕ × Job) := calls[i]?.map fun call => (i, call.job)

/-- The reply of the actor arrives at the handler that asked, if it is still there. -/
def deliver (calls : List ClientCall) (origin : Option ℕ) (effects : List Effect) : List ClientCall :=
  match origin, effects with
  | some i, [effect] => calls.modify i fun call =>
      match call.server with
      | .Asked => { call with server := .Replied effect }
      | _ => call
  | _, _ => calls

def step (options : Options) (self : Discovery) : CallMove → Option Discovery
  | .Invoke job => some { self with
      calls := self.calls ++ [ClientCall.new job]
      history := self.history ++ [.Invoke (self.calls.length, job)] }
  | .Replay i => do
      let call ← self.calls[i]?
      if call.early then some { self with calls := self.calls ++ [call.replay] } else none
  | .Local i move => do
      let call ← self.calls[i]?
      let call' ← call.next move
      return { self with calls := self.calls.set i call' }
  | .Read i => do
      let call ← self.calls[i]?
      match call.server, call.finished && call.arrived with
      | .Accepting, true =>
          match messageOf call.job.request i with
          | some msg => some { self with
              calls := self.calls.set i { call with server := .Asked }
              queue := self.queue ++ [(some i, msg)] }
          | none => some { self with calls := self.calls.set i { call with server := .Failed } }
      | _, _ => none
  | .Internal msg => if msg.isInternal then some { self with queue := self.queue ++ [(none, msg)] } else none
  | .Handle now =>
      match self.queue with
      | [] => none
      | (origin, msg) :: queue => do
          let (state, tables, effects) ← dispatch options self.state now msg self.tables
          return ⟨deliver self.calls origin effects, queue, state, tables,
            self.history ++ [.Effect (origin.bind (caller self.calls)) ⟨msg, now⟩]⟩
  | .Receive i => do
      let call ← self.calls[i]?
      match call.client, call.server.response with
      | some .Waiting, some response => some { self with
          calls := self.calls.set i { call with client := some .Returned }
          history := self.history ++ [.Return (i, call.job) (call.job.read response)] }
      | _, _ => none
  | .GiveUp i => do
      let call ← self.calls[i]?
      match call.client with
      | none | some .Returned => none
      | some _ => some { self with
          calls := self.calls.set i { call with client := some .Returned }
          history := self.history ++ [.Return (i, call.job) none] }

end Discovery

/-! ## Messages -/

omit [KeyScheme] in
theorem varint_length_le_ten (n : UInt64) : (Codec.varint 10 n.toNat).length ≤ 10 :=
  Codec.varint_length_le 0 (by decide) (n.toNat_lt.trans (by decide))

/-- An announce that verifies is handed to the actor as it is. -/
theorem messageOf_announce (a : SignedAnnounce) (tx : ReplyTo) :
    messageOf (Job.Announce a).request tx
      = match a.verify with
        | .ok _ => some (.Announce a tx)
        | .error _ => none := by
  have hlength : (requestCodec.encode (.Announce a)).length ≤ requestSizeLimit := by
    show (Codec.varint 5 0 ++ signedAnnounceCodec.encode a).length ≤ requestSizeLimit
    rw [List.length_append, signedAnnounce_encode_length, show (Codec.varint 5 0).length = 1 from rfl]
    have hle := varint_length_le_ten a.announce.timestamp.micros
    rw [requestSizeLimit]
    omega
  have hfits : requestCodec.Fits (.Announce a) := signedAnnounce_fits a
  rw [messageOf, Job.request, readToEnd, if_pos hlength, Option.bind_some, Codec.fromBytes_encode _ hfits]

theorem messageOf_query (q : Query) (tx : ReplyTo) :
    messageOf (Job.Query q).request tx = some (.Query q tx) := by
  obtain ⟨hread, hdecode⟩ := requestCodec_query q
  rw [messageOf, Job.request, hread, Option.bind_some, hdecode]

/-- The client reads the response that was written, or none. -/
theorem readResponse_encode {response response' : QueryResponse}
    (h : readResponse (some (responseCodec.encode (.QueryResponse response))) = .ok response') :
    response' = response := by
  rw [readResponse, Option.bind_some, readToEnd] at h
  split_ifs at h with hsize
  · have hhosts : response.hosts.length < 2 ^ 64 := by
      rw [response_encode_length, requestSizeLimit] at hsize
      have hle := (hosts_le_encodedSize response.hosts).trans hsize
      omega
    have hfits : responseCodec.Fits (.QueryResponse response) :=
      ⟨hhosts, fun a _ => signedAnnounce_fits a⟩
    simp only [Codec.fromBytes_encode _ hfits] at h
    exact (Except.ok.inj h).symm

/-! ## One message after the other -/

/-- What a call may return whose message is handled with these tables. -/
def MayReturn (options : Options) (tables : Tables) : Handling → Answer → Prop
  | ⟨.Announce announce _, _⟩, .Announced => announce.verify = .ok ()
  | ⟨.Query query _, now⟩, .Hosts hosts => handleQuery options now query tables = some ⟨hosts⟩
  | _, _ => False

/-- The tracker that deals with one message after the other. -/
def sequential (options : Options) (state : State) (tables : Tables) :
    SerialServer (State × Tables) (ℕ × Job) Handling Answer where
  start := (state, tables)
  apply s handling :=
    (dispatch options s.1 handling.now handling.msg s.2).map fun r => (r.1, r.2.1)
  asks call handling := messageOf call.2.request call.1 = some handling.msg
  answers s := MayReturn options s.2

/-- The message is the one of the call, and this is what the actor replies to it. -/
def Replies (options : Options) (i : ℕ) (job : Job) (effect : Effect) (s : State × Tables)
    (handling : Handling) : Prop :=
  messageOf job.request i = some handling.msg ∧
    ∃ r, dispatch options s.1 handling.now handling.msg s.2 = some r ∧ r.2.2 = [effect]

/-- **What a client returns is the answer of the tracker.** -/
theorem answers_of_read {options : Options} {i : ℕ} {job : Job} {effect : Effect} {s : State × Tables}
    {handling : Handling} {response : List UInt8} {answer : Answer}
    (hreplies : Replies options i job effect s handling) (hrespond : respond effect = some response)
    (hread : job.read response = some answer) : MayReturn options s.2 handling answer := by
  obtain ⟨hmessage, r, hdispatch, heffects⟩ := hreplies
  obtain ⟨msg, now⟩ := handling
  cases job with
  | Announce a =>
      obtain ⟨_, _, rfl⟩ := Option.map_eq_some_iff.mp hread
      rw [messageOf_announce] at hmessage
      cases hverify : a.verify with
      | error e =>
          rw [hverify] at hmessage
          cases hmessage
      | ok =>
          rw [hverify] at hmessage
          obtain rfl := Option.some.inj hmessage
          exact hverify
  | Query q =>
      rw [messageOf_query] at hmessage
      obtain rfl := Option.some.inj hmessage
      rcases dispatch_eq_some.mp hdispatch with ⟨hcat, _⟩ | ⟨_, _, _, hhandle⟩
      · cases hcat
      · obtain ⟨response', hresponse, heq⟩ := Option.bind_eq_some_iff.mp hhandle
        have heffect : effect = .query i response' := by
          have heffects' := Except.ok.inj (Option.some.inj heq)
          rw [heffects] at heffects'
          exact (List.singleton_inj.mp heffects').symm
        rw [heffect] at hrespond
        obtain rfl := Option.some.inj hrespond
        rw [Job.read] at hread
        cases hok : readResponse (some (responseCodec.encode (.QueryResponse response'))) with
        | error e =>
            rw [hok] at hread
            cases hread
        | ok read =>
            rw [hok] at hread
            obtain rfl := Option.some.inj hread
            rw [readResponse_encode hok]
            exact hresponse
  | Other request => cases hread

/-! ## What is known of a call -/

abbrev History := List (CallEvent (ℕ × Job) Handling Answer)

section Invariant

variable {options : Options} {state₀ : State} {tables₀ : Tables} {history : History}
  {queue queue' : List (Option ℕ × ActorMessage)} {i : ℕ} {call call' : ClientCall}

/-- The request of a call is in the queue or was handled, but not both, and not before the tracker read it.  A
reply is the one of the actor. -/
structure CallInv (options : Options) (server : SerialServer (State × Tables) (ℕ × Job) Handling Answer)
    (history : History) (queue : List (Option ℕ × ActorMessage)) (i : ℕ) (call : ClientCall) : Prop where
  invoked : call.client ≠ none → .Invoke (i, call.job) ∈ history
  unreturned : ∀ phase, call.client = some phase → phase ≠ .Returned →
    ∀ job answer, .Return (i, job) answer ∉ history
  finished : call.finished = true → call.client ≠ none
  accepting : call.server = .Accepting →
    (∀ msg, (some i, msg) ∉ queue) ∧ ∀ job handling, .Effect (some (i, job)) handling ∉ history
  queued : ∀ msg, (some i, msg) ∈ queue → call.client ≠ none ∧ messageOf call.job.request i = some msg ∧
    ∀ job handling, .Effect (some (i, job)) handling ∉ history
  replied : ∀ effect, call.server = .Replied effect →
    server.Took history (i, call.job) (Replies options i call.job effect)
  written : ∀ response, call.server = .Written response →
    server.Took history (i, call.job) fun s handling =>
      ∃ effect, Replies options i call.job effect s handling ∧ respond effect = some response

variable {server : SerialServer (State × Tables) (ℕ × Job) Handling Answer}

/-- What happens to other calls is of no concern. -/
theorem CallInv.mono (h : CallInv options server history queue i call) {events : History}
    (hqueue : ∀ msg, (some i, msg) ∈ queue' → (some i, msg) ∈ queue)
    (hreturn : ∀ job answer, .Return (i, job) answer ∉ events)
    (heffect : ∀ job handling, .Effect (some (i, job)) handling ∉ events) :
    CallInv options server (history ++ events) queue' i call where
  invoked hclient := List.mem_append_left _ (h.invoked hclient)
  unreturned phase hphase hne job answer hmem := by
    rcases List.mem_append.mp hmem with hmem | hmem
    · exact h.unreturned phase hphase hne job answer hmem
    · exact hreturn job answer hmem
  finished := h.finished
  accepting hserver := by
    refine ⟨fun msg hmem => (h.accepting hserver).1 msg (hqueue msg hmem), fun job handling hmem => ?_⟩
    rcases List.mem_append.mp hmem with hmem | hmem
    · exact (h.accepting hserver).2 job handling hmem
    · exact heffect job handling hmem
  queued msg hmem := by
    obtain ⟨hclient, hmessage, hnone⟩ := h.queued msg (hqueue msg hmem)
    refine ⟨hclient, hmessage, fun job handling hmem => ?_⟩
    rcases List.mem_append.mp hmem with hmem | hmem
    · exact hnone job handling hmem
    · exact heffect job handling hmem
  replied effect hserver := (h.replied effect hserver).append events
  written response hserver := (h.written response hserver).append events

/-- Messages of other calls are of no concern. -/
theorem CallInv.mono_queue (h : CallInv options server history queue i call)
    (hqueue : ∀ msg, (some i, msg) ∈ queue' → (some i, msg) ∈ queue) :
    CallInv options server history queue' i call := by
  have hmono := h.mono hqueue (fun _ _ => List.not_mem_nil) (fun _ _ => List.not_mem_nil)
  rwa [List.append_nil] at hmono

/-- What a client or a handler does on its own. -/
theorem ClientCall.next_cases {move : LocalMove} (h : call.next move = some call') :
    call'.job = call.job ∧ (call'.client = none ↔ call.client = none) ∧
      (call.client = some .Returned → call'.client = some .Returned) ∧
      (call'.finished = true → call.finished = true ∨ call.client ≠ none) ∧
      (call'.server = call.server ∨ call'.server = .Failed ∨
        ∃ effect response, call.server = .Replied effect ∧ respond effect = some response ∧
          call'.server = .Written response) := by
  cases move with
  | Connect zeroRtt =>
      rw [ClientCall.next] at h
      split at h
      · rename_i hclient
        obtain rfl := Option.some.inj h
        exact ⟨rfl, by simp [hclient], by simp [hclient], .inl, .inl rfl⟩
      · cases h
  | Hello accepted =>
      rw [ClientCall.next] at h
      split at h
      · cases h
      · obtain rfl := Option.some.inj h
        exact ⟨rfl, Iff.rfl, id, .inl, .inl rfl⟩
      · cases h
  | Handshake =>
      rw [ClientCall.next] at h
      split at h
      · rename_i hclient _
        obtain rfl := Option.some.inj h
        exact ⟨rfl, by simp [hclient], by simp [hclient], fun _ => .inr (by simp [hclient]), .inl rfl⟩
      · rename_i hclient _
        obtain rfl := Option.some.inj h
        exact ⟨rfl, by simp [hclient], by simp [hclient], fun _ => .inr (by simp [hclient]), .inl rfl⟩
      · rename_i hclient _
        obtain rfl := Option.some.inj h
        exact ⟨rfl, by simp [hclient], by simp [hclient], fun _ => .inr (by simp [hclient]), .inl rfl⟩
      · cases h
  | Respond =>
      rw [ClientCall.next] at h
      split at h
      · rename_i effect hserver
        split at h
        · rename_i response hrespond
          obtain rfl := Option.some.inj h
          exact ⟨rfl, Iff.rfl, id, .inl, .inr (.inr ⟨effect, response, hserver, hrespond, rfl⟩)⟩
        · obtain rfl := Option.some.inj h
          exact ⟨rfl, Iff.rfl, id, .inl, .inr (.inl rfl)⟩
      · cases h
  | Fail =>
      rw [ClientCall.next] at h
      split at h
      · cases h
      · cases h
      · obtain rfl := Option.some.inj h
        exact ⟨rfl, Iff.rfl, id, .inl, .inr (.inl rfl)⟩

/-- A step of a client or a handler on its own. -/
theorem CallInv.next (h : CallInv options server history queue i call) {move : LocalMove}
    (hnext : call.next move = some call') : CallInv options server history queue i call' := by
  obtain ⟨hjob, hclient, hreturned, hfinished, hserver⟩ := ClientCall.next_cases hnext
  refine ⟨fun hsome => ?_, fun phase hphase hne => ?_, fun hfin => ?_, fun haccepting => ?_, ?_, ?_, ?_⟩
  · rw [hjob]
    exact h.invoked (mt hclient.mpr hsome)
  · cases hold : call.client with
    | none =>
        rw [hclient.mpr hold] at hphase
        cases hphase
    | some phase' =>
        refine h.unreturned phase' hold fun heq => hne ?_
        rw [hreturned (by rw [hold, heq])] at hphase
        exact (Option.some.inj hphase).symm
  · refine mt hclient.mp ?_
    rcases hfinished hfin with hold | hold
    · exact h.finished hold
    · exact hold
  · rcases hserver with hserver | hserver | ⟨_, _, _, _, hserver⟩
    · exact h.accepting (hserver.symm.trans haccepting)
    · cases hserver.symm.trans haccepting
    · cases hserver.symm.trans haccepting
  · rw [hjob]
    intro msg hmem
    obtain ⟨hsome, hrest⟩ := h.queued msg hmem
    exact ⟨mt hclient.mp hsome, hrest⟩
  · rw [hjob]
    intro effect hreplied
    rcases hserver with hserver | hserver | ⟨_, _, _, _, hserver⟩
    · exact h.replied effect (hserver.symm.trans hreplied)
    · cases hserver.symm.trans hreplied
    · cases hserver.symm.trans hreplied
  · rw [hjob]
    intro response hwritten
    rcases hserver with hserver | hserver | ⟨effect, response', hreplied, hrespond, hserver⟩
    · exact h.written response (hserver.symm.trans hwritten)
    · cases hserver.symm.trans hwritten
    · obtain rfl := ServerPhase.Written.inj (hserver.symm.trans hwritten)
      exact (h.replied effect hreplied).mono fun s handling hreplies => ⟨effect, hreplies, hrespond⟩

/-! ## All calls -/

namespace Discovery

variable {state₀ : State} {tables₀ : Tables} {s s' : Discovery} {move : CallMove}
  {excused excused' : ℕ × Job → Prop}

theorem getElem?_deliver {calls : List ClientCall} {origin : Option ℕ} {effects : List Effect} {j : ℕ}
    (hcall : (deliver calls origin effects)[j]? = some call') :
    ∃ call, calls[j]? = some call ∧ (call' = call ∨ ∃ effect, origin = some j ∧ effects = [effect] ∧
      call.server = .Asked ∧ call' = { call with server := .Replied effect }) := by
  unfold deliver at hcall
  split at hcall
  · rename_i i effect
    rw [List.getElem?_modify] at hcall
    obtain ⟨call, hcalls, heq⟩ := Option.map_eq_some_iff.mp hcall
    refine ⟨call, hcalls, ?_⟩
    split_ifs at heq with hj
    · obtain rfl := hj
      split at heq
      · exact .inr ⟨effect, rfl, rfl, by assumption, heq.symm⟩
      · exact .inl heq.symm
    · exact .inl heq.symm
  · exact ⟨call', hcall, .inl rfl⟩

theorem getElem?_deliver_of_some {calls : List ClientCall} {j : ℕ} (hcall : calls[j]? = some call)
    (origin : Option ℕ) (effects : List Effect) :
    ∃ call', (deliver calls origin effects)[j]? = some call' ∧ call'.job = call.job := by
  unfold deliver
  split
  · rename_i i effect
    rw [List.getElem?_modify, hcall]
    refine ⟨_, rfl, ?_⟩
    split_ifs
    · simp only
      split
      · rfl
      · rfl
    · rfl
  · exact ⟨call, hcall, rfl⟩

theorem length_deliver (calls : List ClientCall) (origin : Option ℕ) (effects : List Effect) :
    (deliver calls origin effects).length = calls.length := by
  unfold deliver
  split
  · exact List.length_modify _ _ _
  · rfl

/-- An announce whose handler has failed. -/
def Unconfirmed (self : Discovery) (c : ℕ × Job) : Prop :=
  (∃ a, c.2 = .Announce a) ∧ ∃ call, self.calls[c.1]? = some call ∧ call.server = .Failed

/-- Other calls than announces notice it. -/
theorem announce_of_read_nil {job : Job} {answer : Answer} (h : job.read [] = some answer) :
    ∃ a, job = .Announce a := by
  cases job with
  | Announce a => exact ⟨a, rfl⟩
  | Query q => cases h
  | Other request => cases h

/-- A handler that has failed stays so. -/
theorem unconfirmed_of_step (hstep : step options s move = some s') (c : ℕ × Job) (h : s.Unconfirmed c) :
    s'.Unconfirmed c := by
  obtain ⟨hjob, call, hcall, hfailed⟩ := h
  refine ⟨hjob, ?_⟩
  obtain ⟨hlt, _⟩ := List.getElem?_eq_some_iff.mp hcall
  have hset : ∀ {j callj call'}, s.calls[j]? = some callj → (callj.server = .Failed → call'.server = .Failed) →
      ∃ call, (s.calls.set j call')[c.1]? = some call ∧ call.server = .Failed := by
    intro j callj call' hcallj hkeep
    by_cases hj : j = c.1
    · subst hj
      obtain rfl := Option.some.inj (hcall.symm.trans hcallj)
      exact ⟨call', List.getElem?_set_self hlt, hkeep hfailed⟩
    · exact ⟨call, (List.getElem?_set_ne hj).trans hcall, hfailed⟩
  cases move with
  | Invoke job => exact Option.some.inj hstep ▸ ⟨call, (List.getElem?_append_left hlt).trans hcall, hfailed⟩
  | Replay i =>
      obtain ⟨_, _, hstep⟩ := Option.bind_eq_some_iff.mp hstep
      split_ifs at hstep
      exact Option.some.inj hstep ▸ ⟨call, (List.getElem?_append_left hlt).trans hcall, hfailed⟩
  | Local i move =>
      obtain ⟨calli, hcalli, hstep⟩ := Option.bind_eq_some_iff.mp hstep
      obtain ⟨call', hnext, hs⟩ := Option.bind_eq_some_iff.mp hstep
      obtain rfl := Option.some.inj hs
      refine hset hcalli fun hi => ?_
      rcases (ClientCall.next_cases hnext).2.2.2.2 with hserver | hserver | ⟨_, _, hserver, _⟩
      · exact hserver.trans hi
      · exact hserver
      · cases hi.symm.trans hserver
  | Read i =>
      obtain ⟨calli, hcalli, hstep⟩ := Option.bind_eq_some_iff.mp hstep
      split at hstep
      · rename_i haccepting _
        split at hstep
        all_goals
          obtain rfl := Option.some.inj hstep
          exact hset hcalli fun hi => by cases hi.symm.trans haccepting
      · cases hstep
  | Internal msg =>
      rw [step] at hstep
      split_ifs at hstep
      exact Option.some.inj hstep ▸ ⟨call, hcall, hfailed⟩
  | Handle now =>
      rw [step] at hstep
      split at hstep
      · cases hstep
      · rename_i origin msg rest _
        obtain ⟨r, _, hs⟩ := Option.bind_eq_some_iff.mp hstep
        obtain rfl := Option.some.inj hs
        obtain ⟨call', hcall', _⟩ := getElem?_deliver_of_some hcall origin r.2.2
        obtain ⟨_, hold, heq⟩ := getElem?_deliver hcall'
        obtain rfl := Option.some.inj (hcall.symm.trans hold)
        rcases heq with rfl | ⟨_, _, _, hasked, _⟩
        · exact ⟨_, hcall', hfailed⟩
        · cases hfailed.symm.trans hasked
  | Receive i =>
      obtain ⟨calli, hcalli, hstep⟩ := Option.bind_eq_some_iff.mp hstep
      split at hstep
      · exact Option.some.inj hstep ▸ hset hcalli id
      · cases hstep
  | GiveUp i =>
      obtain ⟨calli, hcalli, hstep⟩ := Option.bind_eq_some_iff.mp hstep
      split at hstep
      · cases hstep
      · cases hstep
      · exact Option.some.inj hstep ▸ hset hcalli id

/-- The messages of the calls are each there once, and the effects are those of one message after the other. -/
structure Inv (options : Options) (state₀ : State) (tables₀ : Tables) (excused : ℕ × Job → Prop)
    (s : Discovery) : Prop where
  calls : ∀ (i : ℕ) call, s.calls[i]? = some call →
    CallInv options (sequential options state₀ tables₀) s.history s.queue i call
  known : ∀ (i : ℕ) job, .Invoke (i, job) ∈ s.history → ∃ call, s.calls[i]? = some call ∧ call.job = job
  owned : ∀ i msg, (some i, msg) ∈ s.queue → i < s.calls.length
  once : (s.queue.filterMap Prod.fst).Nodup
  after : (sequential options state₀ tables₀).after s.history = some (s.state, s.tables)
  history : (sequential options state₀ tables₀).Linearizable excused s.history

theorem inv_new (options : Options) (state₀ : State) (tables₀ : Tables) (excused : ℕ × Job → Prop) :
    (new state₀ tables₀).Inv options state₀ tables₀ excused where
  calls _ _ h := by cases h
  known _ _ h := absurd h List.not_mem_nil
  owned _ _ h := absurd h List.not_mem_nil
  once := List.nodup_nil
  after := rfl
  history := Transition.Always.nil

namespace Inv

theorem mono (h : s.Inv options state₀ tables₀ excused) (hsub : ∀ c, excused c → excused' c) :
    s.Inv options state₀ tables₀ excused' := { h with history := h.history.mono hsub }

/-- The number of a new call is not in use. -/
theorem fresh (h : s.Inv options state₀ tables₀ excused) :
    (∀ job, .Invoke (s.calls.length, job) ∉ s.history) ∧
      (∀ job handling, .Effect (some (s.calls.length, job)) handling ∉ s.history) ∧
      ∀ job answer, .Return (s.calls.length, job) answer ∉ s.history := by
  have hinvoke : ∀ job, .Invoke (s.calls.length, job) ∉ s.history := by
    intro job hmem
    obtain ⟨call, hcall, _⟩ := h.known _ job hmem
    exact absurd (List.getElem?_eq_some_iff.mp hcall).1 (Nat.lt_irrefl _)
  exact ⟨hinvoke, fun job handling hmem => hinvoke job (h.history.invoke_of_effect hmem),
    fun job answer hmem => hinvoke job (h.history.invoke_of_return hmem)⟩

/-- Calls that were there before are as they were, and there is one more. -/
theorem getElem?_concat {calls : List ClientCall} {new call : ClientCall} {i : ℕ}
    (h : (calls ++ [new])[i]? = some call) : calls[i]? = some call ∨ i = calls.length ∧ call = new := by
  rw [List.getElem?_append] at h
  split_ifs at h with hlt
  · exact .inl h
  · obtain ⟨hlast, _⟩ := List.getElem?_eq_some_iff.mp h
    rw [List.length_singleton] at hlast
    exact .inr ⟨by omega, List.mem_singleton.mp (List.mem_of_getElem? h)⟩

theorem invoke (h : s.Inv options state₀ tables₀ excused) (job : Job) :
    Inv options state₀ tables₀ excused { s with
      calls := s.calls ++ [ClientCall.new job]
      history := s.history ++ [.Invoke (s.calls.length, job)] } := by
  obtain ⟨hinvoke, heffect, hreturn⟩ := h.fresh
  have hqueue : ∀ msg, (some s.calls.length, msg) ∉ s.queue := fun msg hmem =>
    absurd (h.owned _ msg hmem) (Nat.lt_irrefl _)
  refine ⟨fun i call hcall => ?_, fun i job' hmem => ?_, fun i msg hmem => ?_, h.once, ?_, ?_⟩
  · rcases getElem?_concat hcall with hcall | ⟨rfl, rfl⟩
    · exact (h.calls i call hcall).mono (fun _ => id) (by simp) (by simp)
    · refine ⟨fun _ => List.mem_append_right _ (List.mem_singleton_self _), fun _ _ _ job' answer hmem => ?_,
        fun hfin => (by cases hfin), fun _ => ⟨hqueue, fun job' handling hmem => ?_⟩,
        fun msg hmem => absurd hmem (hqueue msg), fun _ heq => (by cases heq), fun _ heq => (by cases heq)⟩
      · exact hreturn job' answer (by simpa using hmem)
      · exact heffect job' handling (by simpa using hmem)
  · rcases List.mem_append.mp hmem with hmem | hmem
    · obtain ⟨call, hcall, hjob⟩ := h.known i job' hmem
      exact ⟨call, (List.getElem?_append_left (List.getElem?_eq_some_iff.mp hcall).1).trans hcall, hjob⟩
    · obtain ⟨rfl, rfl⟩ := Prod.mk.inj (CallEvent.Invoke.inj (List.mem_singleton.mp hmem))
      exact ⟨_, List.getElem?_concat_length, rfl⟩
  · exact (h.owned i msg hmem).trans (by simp)
  · rw [after_concat_of_ne _ _ rfl]
    exact h.after
  · exact h.history.concat (hinvoke job)

theorem replay (h : s.Inv options state₀ tables₀ excused) (call : ClientCall) :
    Inv options state₀ tables₀ excused { s with calls := s.calls ++ [call.replay] } := by
  obtain ⟨hinvoke, heffect, hreturn⟩ := h.fresh
  have hqueue : ∀ msg, (some s.calls.length, msg) ∉ s.queue := fun msg hmem =>
    absurd (h.owned _ msg hmem) (Nat.lt_irrefl _)
  refine ⟨fun i call' hcall => ?_, fun i job hmem => ?_, fun i msg hmem => ?_, h.once, h.after, h.history⟩
  · rcases getElem?_concat hcall with hcall | ⟨rfl, rfl⟩
    · exact h.calls i call' hcall
    · exact ⟨fun hclient => absurd rfl hclient, fun _ heq => (by cases heq), fun hfin => (by cases hfin),
        fun _ => ⟨hqueue, heffect⟩, fun msg hmem => absurd hmem (hqueue msg), fun _ heq => (by cases heq),
        fun _ heq => (by cases heq)⟩
  · obtain ⟨call', hcall, hjob⟩ := h.known i job hmem
    exact ⟨call', (List.getElem?_append_left (List.getElem?_eq_some_iff.mp hcall).1).trans hcall, hjob⟩
  · exact (h.owned i msg hmem).trans (by simp)

/-- A call is replaced by one with the same job, that fits to the events and messages so far. -/
theorem set (h : s.Inv options state₀ tables₀ excused) (hcall : s.calls[i]? = some call)
    (hjob : call'.job = call.job)
    (hinv : CallInv options (sequential options state₀ tables₀) s.history s.queue i call') :
    Inv options state₀ tables₀ excused { s with calls := s.calls.set i call' } := by
  obtain ⟨hlt, _⟩ := List.getElem?_eq_some_iff.mp hcall
  refine ⟨fun j callj hcallj => ?_, fun j job hmem => ?_, fun j msg hmem => ?_, h.once, h.after, h.history⟩
  · by_cases hj : i = j
    · obtain rfl := hj
      rw [List.getElem?_set_self hlt] at hcallj
      exact Option.some.inj hcallj ▸ hinv
    · rw [List.getElem?_set_ne hj] at hcallj
      exact h.calls j callj hcallj
  · obtain ⟨callj, hcallj, hjobj⟩ := h.known j job hmem
    by_cases hj : i = j
    · obtain rfl := hj
      obtain rfl := Option.some.inj (hcall.symm.trans hcallj)
      exact ⟨call', List.getElem?_set_self hlt, hjob.trans hjobj⟩
    · exact ⟨callj, (List.getElem?_set_ne hj).trans hcallj, hjobj⟩
  · rw [List.length_set]
    exact h.owned j msg hmem

/-- The tracker hands a request to its actor. -/
theorem enqueue (h : s.Inv options state₀ tables₀ excused) (hcall : s.calls[i]? = some call)
    (haccepting : call.server = .Accepting) (hfinished : call.finished = true) {msg : ActorMessage}
    (hmessage : messageOf call.job.request i = some msg) :
    Inv options state₀ tables₀ excused { s with
      calls := s.calls.set i { call with server := .Asked }
      queue := s.queue ++ [(some i, msg)] } := by
  obtain ⟨hlt, _⟩ := List.getElem?_eq_some_iff.mp hcall
  have hinv := h.calls i call hcall
  obtain ⟨hqueue, heffect⟩ := hinv.accepting haccepting
  refine ⟨fun j callj hcallj => ?_, fun j job hmem => ?_, fun j msg' hmem => ?_, ?_, h.after, h.history⟩
  · by_cases hj : i = j
    · obtain rfl := hj
      rw [List.getElem?_set_self hlt] at hcallj
      rw [← Option.some.inj hcallj]
      refine ⟨hinv.invoked, hinv.unreturned, hinv.finished, fun heq => (by cases heq), fun msg' hmem => ?_,
        fun _ heq => (by cases heq), fun _ heq => (by cases heq)⟩
      rcases List.mem_append.mp hmem with hmem | hmem
      · exact absurd hmem (hqueue msg')
      · obtain ⟨_, rfl⟩ := Prod.mk.inj (List.mem_singleton.mp hmem)
        exact ⟨hinv.finished hfinished, hmessage, heffect⟩
    · rw [List.getElem?_set_ne hj] at hcallj
      refine (h.calls j callj hcallj).mono_queue fun msg' hmem => ?_
      rcases List.mem_append.mp hmem with hmem | hmem
      · exact hmem
      · exact absurd (Option.some.inj (Prod.mk.inj (List.mem_singleton.mp hmem)).1).symm hj
  · obtain ⟨callj, hcallj, hjobj⟩ := h.known j job hmem
    by_cases hj : i = j
    · obtain rfl := hj
      obtain rfl := Option.some.inj (hcall.symm.trans hcallj)
      exact ⟨_, List.getElem?_set_self hlt, hjobj⟩
    · exact ⟨callj, (List.getElem?_set_ne hj).trans hcallj, hjobj⟩
  · rw [List.length_set]
    rcases List.mem_append.mp hmem with hmem | hmem
    · exact h.owned j msg' hmem
    · obtain ⟨heq, _⟩ := Prod.mk.inj (List.mem_singleton.mp hmem)
      exact Option.some.inj heq ▸ hlt
  · rw [List.filterMap_append]
    refine List.nodup_append.mpr ⟨h.once, List.nodup_singleton i, fun j hj k hk => ?_⟩
    obtain ⟨⟨_, msg'⟩, hmem, rfl⟩ := List.mem_filterMap.mp hj
    rintro rfl
    obtain rfl := List.mem_singleton.mp hk
    exact hqueue msg' hmem

/-- A task of the tracker sends a message. -/
theorem internal (h : s.Inv options state₀ tables₀ excused) (msg : ActorMessage) :
    Inv options state₀ tables₀ excused { s with queue := s.queue ++ [(none, msg)] } := by
  have hqueue : ∀ i msg', (some i, msg') ∈ s.queue ++ [(none, msg)] → (some i, msg') ∈ s.queue := by
    intro i msg' hmem
    rcases List.mem_append.mp hmem with hmem | hmem
    · exact hmem
    · cases List.mem_singleton.mp hmem
  refine ⟨fun j call hcall => (h.calls j call hcall).mono_queue (hqueue j), h.known,
    fun i msg' hmem => h.owned i msg' (hqueue i msg' hmem), ?_, h.after, h.history⟩
  rw [List.filterMap_append]
  simpa using h.once

/-- **The actor handles a message**, and it is the effect of the call that the message is for. -/
theorem handle (h : s.Inv options state₀ tables₀ excused) {origin : Option ℕ} {msg : ActorMessage}
    {rest : List (Option ℕ × ActorMessage)} (hqueue : s.queue = (origin, msg) :: rest) {now : AbsoluteTime}
    {r : State × Tables × List Effect} (hdispatch : dispatch options s.state now msg s.tables = some r) :
    Inv options state₀ tables₀ excused ⟨deliver s.calls origin r.2.2, rest, r.1, r.2.1,
      s.history ++ [.Effect (origin.bind (caller s.calls)) ⟨msg, now⟩]⟩ := by
  have hrest : ∀ i msg', (some i, msg') ∈ rest → (some i, msg') ∈ s.queue := fun i msg' hmem => by
    rw [hqueue]
    exact List.mem_cons_of_mem _ hmem
  have honce := h.once
  rw [hqueue, List.filterMap_cons] at honce
  -- what is known of the call that the message is for
  have horigin : ∀ i, origin = some i → ∃ call, s.calls[i]? = some call ∧
      caller s.calls i = some (i, call.job) ∧ (∀ msg', (some i, msg') ∉ rest) ∧ call.client ≠ none ∧
      messageOf call.job.request i = some msg ∧
      ∀ job handling, .Effect (some (i, job)) handling ∉ s.history := by
    rintro i rfl
    have hmem : (some i, msg) ∈ s.queue := by
      rw [hqueue]
      exact List.mem_cons_self
    have hcall := List.getElem?_eq_getElem (h.owned i msg hmem)
    refine ⟨_, hcall, by rw [caller, hcall, Option.map_some], fun msg' hmem' => ?_,
      (h.calls i _ hcall).queued msg hmem⟩
    exact (List.nodup_cons.mp honce).1 (List.mem_filterMap.mpr ⟨_, hmem', rfl⟩)
  have hcaller : ∀ i job, origin.bind (caller s.calls) = some (i, job) → origin = some i := by
    intro i job heq
    obtain ⟨j, rfl, hj⟩ := Option.bind_eq_some_iff.mp heq
    obtain ⟨_, _, heq⟩ := Option.map_eq_some_iff.mp hj
    rw [(Prod.mk.inj heq).1]
  have hafter : (sequential options state₀ tables₀).after (s.history ++
      [.Effect (origin.bind (caller s.calls)) ⟨msg, now⟩]) = some (r.1, r.2.1) := by
    rw [after_concat_effect, h.after, Option.bind_some]
    show (dispatch options s.state now msg s.tables).map _ = _
    rw [hdispatch, Option.map_some]
  refine ⟨fun j callj hcallj => ?_, fun j job hmem => ?_, fun j msg' hmem => ?_, ?_, hafter, ?_⟩
  · obtain ⟨call, hcall, hcases⟩ := getElem?_deliver hcallj
    by_cases hj : origin = some j
    · obtain ⟨call', hcall', hcallerj, hgone, hclient, hmessage, hnone⟩ := horigin j hj
      obtain rfl := Option.some.inj (hcall.symm.trans hcall')
      have hinv := h.calls j call hcall
      have hfields : callj.job = call.job ∧ callj.client = call.client ∧ callj.finished = call.finished := by
        rcases hcases with rfl | ⟨_, _, _, _, rfl⟩
        · exact ⟨rfl, rfl, rfl⟩
        · exact ⟨rfl, rfl, rfl⟩
      have htook : (sequential options state₀ tables₀).Took (s.history ++
          [.Effect (origin.bind (caller s.calls)) ⟨msg, now⟩]) (j, call.job) fun s' handling =>
            s' = (s.state, s.tables) ∧ handling = ⟨msg, now⟩ := by
        refine ⟨s.history, ⟨msg, now⟩, [], _, ?_, h.after, rfl, rfl⟩
        rw [hj, Option.bind_some, hcallerj]
      refine ⟨fun hsome => ?_, fun phase hphase hne job answer hmem => ?_, fun hfin => ?_,
        fun haccepting => ?_, fun msg' hmem => absurd hmem (hgone msg'), fun effect hreplied => ?_,
        fun response hwritten => ?_⟩
      · rw [hfields.1]
        exact List.mem_append_left _ (hinv.invoked hclient)
      · rw [hfields.2.1] at hphase
        rcases List.mem_append.mp hmem with hmem | hmem
        · exact hinv.unreturned phase hphase hne job answer hmem
        · cases List.mem_singleton.mp hmem
      · rw [hfields.2.1]
        exact hclient
      · rcases hcases with rfl | ⟨_, _, _, _, rfl⟩
        · have hmem : (some j, msg) ∈ s.queue := by
            rw [hqueue, hj]
            exact List.mem_cons_self
          exact absurd hmem ((hinv.accepting haccepting).1 msg)
        · cases haccepting
      · rw [hfields.1]
        rcases hcases with rfl | ⟨effect', _, heffects, _, rfl⟩
        · exact (hinv.replied effect hreplied).append _
        · obtain rfl := ServerPhase.Replied.inj hreplied
          refine htook.mono fun s' handling heq => ?_
          obtain ⟨rfl, rfl⟩ := heq
          exact ⟨hmessage, r, hdispatch, heffects⟩
      · rw [hfields.1]
        rcases hcases with rfl | ⟨_, _, _, _, rfl⟩
        · exact (hinv.written response hwritten).append _
        · cases hwritten
    · have hsame : callj = call := by
        rcases hcases with heq | ⟨_, heq, _⟩
        · exact heq
        · exact absurd heq hj
      rw [hsame]
      refine (h.calls j call hcall).mono (hrest j) (fun job answer hmem => ?_) fun job handling hmem => ?_
      · cases List.mem_singleton.mp hmem
      · exact hj (hcaller j job (CallEvent.Effect.inj (List.mem_singleton.mp hmem)).1.symm)
  · rcases List.mem_append.mp hmem with hmem | hmem
    · obtain ⟨call, hcall, hjob⟩ := h.known j job hmem
      obtain ⟨call', hcall', hjob'⟩ := getElem?_deliver_of_some hcall origin r.2.2
      exact ⟨call', hcall', hjob'.trans hjob⟩
    · cases List.mem_singleton.mp hmem
  · rw [length_deliver]
    exact h.owned j msg' (hrest j msg' hmem)
  · cases origin with
    | none => exact honce
    | some i => exact (List.nodup_cons.mp honce).2
  · refine h.history.concat ⟨⟨_, (r.1, r.2.1), h.after, ?_⟩, ?_⟩
    · show (dispatch options s.state now msg s.tables).map _ = _
      rw [hdispatch, Option.map_some]
    · rintro ⟨i, job⟩ heq
      obtain ⟨call, hcall, hcalleri, _, hclient, hmessage, hnone⟩ := horigin i (hcaller i job heq)
      rw [hcaller i job heq, Option.bind_some, hcalleri] at heq
      obtain ⟨_, rfl⟩ := Prod.mk.inj (Option.some.inj heq)
      exact ⟨hmessage, (h.calls i call hcall).invoked hclient, hnone call.job⟩

/-- **A call returns.** -/
theorem giveBack (h : s.Inv options state₀ tables₀ excused) (hcall : s.calls[i]? = some call) {phase : ClientPhase}
    (hphase : call.client = some phase) (hne : phase ≠ .Returned) {answer : Option Answer}
    (hanswer : ∀ a, answer = some a → excused (i, call.job) ∨
      (sequential options state₀ tables₀).Took s.history (i, call.job) fun s handling =>
        MayReturn options s.2 handling a) :
    Inv options state₀ tables₀ excused { s with
      calls := s.calls.set i { call with client := some .Returned }
      history := s.history ++ [.Return (i, call.job) answer] } := by
  obtain ⟨hlt, _⟩ := List.getElem?_eq_some_iff.mp hcall
  have hinv := h.calls i call hcall
  have hinvoked := hinv.invoked (by rw [hphase]; exact Option.some_ne_none _)
  refine ⟨fun j callj hcallj => ?_, fun j job hmem => ?_, fun j msg hmem => ?_, h.once, ?_, ?_⟩
  · by_cases hj : i = j
    · obtain rfl := hj
      rw [List.getElem?_set_self hlt] at hcallj
      rw [← Option.some.inj hcallj]
      refine ⟨fun _ => List.mem_append_left _ hinvoked, fun phase' heq hne' => ?_,
        fun _ => Option.some_ne_none _, fun haccepting => ?_, fun msg hmem => ?_,
        fun effect hreplied => (hinv.replied effect hreplied).append _,
        fun response hwritten => (hinv.written response hwritten).append _⟩
      · exact absurd (Option.some.inj heq).symm hne'
      · refine ⟨(hinv.accepting haccepting).1, fun job handling hmem => ?_⟩
        exact (hinv.accepting haccepting).2 job handling (by simpa using hmem)
      · obtain ⟨_, hmessage, hnone⟩ := hinv.queued msg hmem
        exact ⟨Option.some_ne_none _, hmessage, fun job handling hmem => hnone job handling (by simpa using hmem)⟩
    · rw [List.getElem?_set_ne hj] at hcallj
      refine (h.calls j callj hcallj).mono (fun _ => id) (fun job answer' hmem => ?_) (by simp)
      obtain ⟨heq, _⟩ := CallEvent.Return.inj (List.mem_singleton.mp hmem)
      exact hj (Prod.mk.inj heq).1.symm
  · rcases List.mem_append.mp hmem with hmem | hmem
    · obtain ⟨callj, hcallj, hjobj⟩ := h.known j job hmem
      by_cases hj : i = j
      · obtain rfl := hj
        obtain rfl := Option.some.inj (hcall.symm.trans hcallj)
        exact ⟨_, List.getElem?_set_self hlt, hjobj⟩
      · exact ⟨callj, (List.getElem?_set_ne hj).trans hcallj, hjobj⟩
    · cases List.mem_singleton.mp hmem
  · rw [List.length_set]
    exact h.owned j msg hmem
  · rw [after_concat_of_ne _ _ rfl]
    exact h.after
  · exact h.history.concat ⟨hinvoked, fun answer' => hinv.unreturned phase hphase hne call.job answer', hanswer⟩

/-- **Every step keeps the calls apart.** -/
theorem step (h : s.Inv options state₀ tables₀ s.Unconfirmed) (hstep : Discovery.step options s move = some s') :
    s'.Inv options state₀ tables₀ s'.Unconfirmed := by
  replace h := h.mono (unconfirmed_of_step hstep)
  cases move with
  | Invoke job => exact Option.some.inj hstep ▸ h.invoke job
  | Replay i =>
      obtain ⟨call, _, hstep⟩ := Option.bind_eq_some_iff.mp hstep
      split_ifs at hstep
      exact Option.some.inj hstep ▸ h.replay call
  | Local i move =>
      obtain ⟨call, hcall, hstep⟩ := Option.bind_eq_some_iff.mp hstep
      obtain ⟨call', hnext, hs⟩ := Option.bind_eq_some_iff.mp hstep
      obtain rfl := Option.some.inj hs
      exact h.set hcall (ClientCall.next_cases hnext).1 ((h.calls i call hcall).next hnext)
  | Read i =>
      obtain ⟨call, hcall, hstep⟩ := Option.bind_eq_some_iff.mp hstep
      split at hstep
      · rename_i haccepting hready
        split at hstep
        · rename_i msg hmessage
          obtain rfl := Option.some.inj hstep
          exact h.enqueue hcall haccepting (Bool.and_eq_true_iff.mp hready).1 hmessage
        · obtain rfl := Option.some.inj hstep
          have hinv := h.calls i call hcall
          exact h.set hcall rfl ⟨hinv.invoked, hinv.unreturned, hinv.finished, fun heq => (by cases heq),
            hinv.queued, fun _ heq => (by cases heq), fun _ heq => (by cases heq)⟩
      · cases hstep
  | Internal msg =>
      rw [Discovery.step] at hstep
      split_ifs at hstep
      exact Option.some.inj hstep ▸ h.internal msg
  | Handle now =>
      rw [Discovery.step] at hstep
      split at hstep
      · cases hstep
      · rename_i origin msg rest hqueue
        obtain ⟨r, hdispatch, hs⟩ := Option.bind_eq_some_iff.mp hstep
        obtain rfl := Option.some.inj hs
        exact h.handle hqueue hdispatch
  | Receive i =>
      obtain ⟨call, hcall, hstep⟩ := Option.bind_eq_some_iff.mp hstep
      split at hstep
      · rename_i response hclient hresponse
        obtain rfl := Option.some.inj hstep
        refine h.giveBack hcall hclient (fun heq => by cases heq) fun answer hread => ?_
        cases hserver : call.server with
        | Written response' =>
            rw [hserver] at hresponse
            obtain rfl := Option.some.inj hresponse
            refine .inr (((h.calls i call hcall).written response' hserver).mono ?_)
            rintro s' handling ⟨effect, hreplies, hrespond⟩
            exact answers_of_read hreplies hrespond hread
        | Failed =>
            rw [hserver] at hresponse
            obtain rfl := Option.some.inj hresponse
            exact .inl ⟨announce_of_read_nil hread, _,
              List.getElem?_set_self (List.getElem?_eq_some_iff.mp hcall).1, rfl⟩
        | Accepting | Asked | Replied effect =>
            rw [hserver] at hresponse
            cases hresponse
      · cases hstep
  | GiveUp i =>
      obtain ⟨call, hcall, hstep⟩ := Option.bind_eq_some_iff.mp hstep
      split at hstep
      · cases hstep
      · cases hstep
      · rename_i phase hne hclient
        obtain rfl := Option.some.inj hstep
        exact h.giveBack hcall hclient hne fun a heq => by cases heq

end Inv

/-- **Calls to a tracker are linearizable.**  Whatever becomes of early data and of connections, a call takes
effect at most once, when the actor handles the message of its request, a replay has no effect, and what a call
returns with is the answer of a tracker that deals with one message after the other, except for announces whose
handler has failed. -/
theorem linearizable_of_run {moves : List CallMove}
    (hrun : Transition.run (step options) (new state₀ tables₀) moves = some s) :
    (sequential options state₀ tables₀).Linearizable s.Unconfirmed s.history ∧
      (sequential options state₀ tables₀).after s.history = some (s.state, s.tables) := by
  have hinv : s.Inv options state₀ tables₀ s.Unconfirmed :=
    Transition.run_invariant (I := fun s => s.Inv options state₀ tables₀ s.Unconfirmed)
      (inv_new options state₀ tables₀ _) (fun _ _ _ h hstep => h.step hstep) hrun
  exact ⟨hinv.history, hinv.after⟩

end Discovery

end Invariant

end Calls

section Runs

attribute [local instance] KeyScheme.doubling

/-- The announce of a host, for a run. -/
def someAnnounce : SignedAnnounce := SignedAnnounce.doubling 7 (.filled 1 .Raw) .Complete ⟨5⟩

/-- An announce whose early data is replayed and then rejected, and a query that overlaps with it. -/
def resentMoves : List CallMove :=
  [.Invoke (.Announce someAnnounce), .Local 0 (.Connect true), .Replay 0,
    .Invoke (.Query ⟨.filled 1 .Raw, ⟨true, false⟩⟩), .Local 2 (.Connect false), .Local 1 (.Hello true),
    .Local 0 (.Hello false), .Local 2 (.Hello false), .Local 2 .Handshake, .Local 0 .Handshake, .Read 0,
    .Internal (.Gc 0), .Read 2, .Handle ⟨6⟩, .Handle ⟨7⟩, .Handle ⟨8⟩, .Local 2 .Respond, .Receive 2,
    .Local 0 .Respond, .Receive 0]

/-- The hosts that queries return. -/
def returnedHosts (history : History) : List (List SignedAnnounce) :=
  history.filterMap fun
    | .Return _ (some (.Hosts hosts)) => some hosts
    | _ => none

/-- The announce is sent twice and takes effect once, and the query returns it. -/
theorem Discovery.linearizable_of_run_resent :
    ∃ s, Transition.run (step Options.debug) (new State.default Tables.empty) resentMoves = some s ∧
      (sequential Options.debug State.default Tables.empty).Linearizable s.Unconfirmed s.history ∧
      (sequential Options.debug State.default Tables.empty).after s.history = some (s.state, s.tables) ∧
      returnedHosts s.history = [[someAnnounce]] := by
  have hhosts : (Transition.run (step Options.debug) (new State.default Tables.empty) resentMoves).map
      (fun s => returnedHosts s.history) = some [[someAnnounce]] := by
    decide +kernel
  obtain ⟨s, hrun, hhosts⟩ := Option.map_eq_some_iff.mp hhosts
  obtain ⟨hlinearizable, hafter⟩ := linearizable_of_run hrun
  exact ⟨s, hrun, hlinearizable, hafter, hhosts⟩

/-- The announce with the signature of another host. -/
def forgedAnnounce : SignedAnnounce := { someAnnounce with signature := List.Vector.replicate 64 8 }

-- the tracker refuses it, and the client is told nothing of it
example : (Transition.run (Discovery.step Options.debug) (Discovery.new State.default Tables.empty)
    [.Invoke (.Announce forgedAnnounce), .Local 0 (.Connect false), .Local 0 (.Hello true), .Local 0 .Handshake,
      .Read 0, .Receive 0]).map Discovery.history
    = some [.Invoke (0, .Announce forgedAnnounce), .Return (0, .Announce forgedAnnounce) (some .Announced)] := by
  decide +kernel

end Runs

end IrohExperiments.Tracker
