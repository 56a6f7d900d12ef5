import IrohExperiments.Lib.Register
import IrohExperiments.Naming.Publisher

/-!
# From the publishers to whoever resolves

Any number of publishers send their packets to the DHT, also for one key.  A packet arrives any time after
an attempt to publish it has begun, once, several times or not at all, and it may arrive after its task was
aborted.  `Naming.System` is all of this together.

`resolve` asks the client of pkarr, which has a cache and asks the DHT.  The client is a parameter, and so is
the DHT with it: `Client.Sound` says that an answer is a packet for the key that the client can have come
across, and no more.  So who resolves a key is told a record that a holder of its secret key has published, or
nothing, and `resolve` does not fail (`System.resolve_of_run`).  It can be an older record.  If the answer is as
recent as anything that the client can have come across (`Client.Fresh`), it is the record signed last.
-/

namespace IrohExperiments.Naming

/-- The publishers, and all packets that have arrived at the DHT. -/
structure System (ι : Type) where
  nodes : ι → IPNS
  arrived : List SignedPacket

inductive SystemEvent (ι : Type) where
  | Node (i : ι) (e : IpnsEvent)
  /-- The packet of an attempt arrives. -/
  | Arrive (i : ι) (attempt : ℕ)
  /-- A packet of another program arrives. -/
  | Other (packet : SignedPacket)

/-- The time of a packet. -/
def SignedPacket.time (packet : SignedPacket) : ℕ := packet.timestamp.toNat

/-! ## The client -/

/-- `pkarr::Client::resolve`: what is answered for a key by a client that can have come across these packets. -/
abbrev Client := List SignedPacket → PublicKey → Option SignedPacket

/-- What is relied on: a client checks the packets that it caches and answers with, so an answer is a packet for
the key.  There may be none, and there may be a more recent one. -/
structure Client.Sound (client : Client) : Prop where
  mem : ∀ packets key packet, client packets key = some packet → packet ∈ packets ∧ packet.publicKey = key

/-- The answer is as recent as any packet for the key: the client does not answer from its cache, and a node of
the DHT answers that has the packet. -/
def Client.Fresh (client : Client) (packets : List SignedPacket) (key : PublicKey) : Prop :=
  ∀ packet ∈ packets, packet.publicKey = key →
    ∃ answer, client packets key = some answer ∧ packet.time ≤ answer.time

/-- A client without a cache, with a DHT that keeps a packet of the greatest timestamp for each key. -/
def Client.latest : Client := fun packets key =>
  (packets.map fun packet => (packet.publicKey, packet)).foldl (Register.writeAt SignedPacket.time)
    (fun _ => none) key

theorem Client.isLatest (packets : List SignedPacket) (key : PublicKey) :
    Register.IsLatest SignedPacket.time {packet | packet ∈ packets ∧ packet.publicKey = key}
      (Client.latest packets key) := by
  have h := Register.isLatest_foldl SignedPacket.time (fun _ => none)
    (packets.map fun packet => (packet.publicKey, packet)) key
  have hhistory : Register.history (fun _ => none)
      (packets.map fun packet => (packet.publicKey, packet)) key
        = {packet | packet ∈ packets ∧ packet.publicKey = key} := by
    ext packet
    simp [Register.history, and_comm]
  rwa [hhistory] at h

theorem Client.latest_sound : Client.latest.Sound where
  mem packets key packet h := (Client.isLatest packets key).mem packet h

theorem Client.latest_fresh (packets : List SignedPacket) (key : PublicKey) :
    Client.latest.Fresh packets key :=
  fun packet hpacket hkey => (Client.isLatest packets key).latest packet ⟨hpacket, hkey⟩

section System

variable [Pkarr] {ι : Type} [DecidableEq ι]

namespace System

def new : System ι := ⟨fun _ => IPNS.new, []⟩

def step (self : System ι) : SystemEvent ι → Option (System ι)
  | .Node i e => do
      let node ← (self.nodes i).step e
      return { self with nodes := Function.update self.nodes i node }
  | .Arrive i attempt => do
      let a ← (self.nodes i).attempts[attempt]?
      return { self with arrived := self.arrived ++ [a.signedPacket] }
  | .Other packet => some { self with arrived := self.arrived ++ [packet] }

/-- What the client of a node can have come across: the packets that it has begun to publish, and those that
have arrived at the DHT. -/
def known (self : System ι) (i : ι) : List SignedPacket :=
  (self.nodes i).attempts.map Attempt.signedPacket ++ self.arrived

/-- `resolve`, with what the client answers. -/
def resolve (self : System ι) (client : Client) (i : ι) (publicKey : PublicKey) :
    Except String (Option Record) :=
  if Pkarr.isKey publicKey then
    match client (self.known i) publicKey with
    | some packet => (toRecord packet).map some
    | none => .ok none
  else .error "invalid public key"

/-! ## Where the packets are from -/

/-- A packet is one of a call. -/
def Published (self : System ι) (packet : SignedPacket) : Prop :=
  ∃ i, ∃ c ∈ (self.nodes i).calls, c.signedPacket = packet

/-- The publishers keep their invariant, and every packet for the key has been published by one. -/
structure Inv (key : PublicKey) (sys : System ι) : Prop where
  nodes : ∀ i, (sys.nodes i).Inv
  arrived : ∀ packet ∈ sys.arrived, packet.publicKey = key → sys.Published packet

variable {self after : System ι} {key : PublicKey}

omit [DecidableEq ι] in
theorem inv_new : (new : System ι).Inv key := ⟨fun _ => IPNS.inv_new, nofun⟩

/-- Calls are not forgotten. -/
theorem prefix_calls {self after : IPNS} {e : IpnsEvent} (hstep : self.step e = some after) :
    self.calls <+: after.calls := by
  cases e with
  | Publish secretKey record timestamp =>
      rw [IPNS.step] at hstep
      split at hstep
      next =>
        cases hstep
        exact List.prefix_rfl
      next =>
        cases hstep
        exact List.prefix_append _ _
  | Unpublish | Tick =>
      cases hstep
      exact List.prefix_rfl
  | Insert | Drop =>
      rw [IPNS.step] at hstep
      split_ifs at hstep
      cases hstep
      exact List.prefix_rfl
  | Attempt task =>
      rw [IPNS.step] at hstep
      split at hstep
      next =>
        split_ifs at hstep
        cases hstep
        exact List.prefix_rfl
      next => cases hstep
  | AttemptEnd task =>
      rw [IPNS.step] at hstep
      split at hstep
      next =>
        cases hstep
        exact List.prefix_rfl
      next => cases hstep

/-- **The step.** -/
theorem Inv.step (laws : Pkarr.Lawful) (h : self.Inv key) {e : SystemEvent ι}
    (hother : ∀ packet, e = .Other packet → packet.publicKey ≠ key)
    (hstep : self.step e = some after) : after.Inv key := by
  cases e with
  | Node i e =>
      obtain ⟨node, hnode, hstep⟩ := Option.bind_eq_some_iff.mp hstep
      cases hstep
      refine ⟨fun j => ?_, fun packet hpacket hkey => ?_⟩
      · show (Function.update self.nodes i node j).Inv
        by_cases hj : j = i
        · subst hj
          rw [Function.update_self]
          exact (h.nodes j).step laws hnode
        · rw [Function.update_of_ne hj]
          exact h.nodes j
      · obtain ⟨j, c, hc, hpacket⟩ := h.arrived packet hpacket hkey
        refine ⟨j, c, ?_, hpacket⟩
        show c ∈ (Function.update self.nodes i node j).calls
        by_cases hj : j = i
        · subst hj
          rw [Function.update_self]
          exact (prefix_calls hnode).subset hc
        · rw [Function.update_of_ne hj]
          exact hc
  | Arrive i attempt =>
      obtain ⟨a, ha, hstep⟩ := Option.bind_eq_some_iff.mp hstep
      cases hstep
      refine ⟨h.nodes, fun packet hpacket hkey => ?_⟩
      rcases List.mem_append.mp hpacket with hpacket | hpacket
      · exact h.arrived packet hpacket hkey
      · obtain ⟨c, hc, heq, _⟩ := (h.nodes i).attempt a (List.mem_of_getElem? ha)
        refine ⟨i, c, List.mem_of_getElem? hc, ?_⟩
        rw [List.mem_singleton.mp hpacket, heq]
  | Other packet =>
      cases hstep
      refine ⟨h.nodes, fun packet' hpacket hkey => ?_⟩
      rcases List.mem_append.mp hpacket with hpacket | hpacket
      · exact h.arrived packet' hpacket hkey
      · rw [List.mem_singleton.mp hpacket] at hkey
        exact absurd hkey (hother packet rfl)

/-- The run. -/
theorem inv_of_run (laws : Pkarr.Lawful) {events : List (SystemEvent ι)}
    (hother : ∀ packet, .Other packet ∈ events → packet.publicKey ≠ key)
    (hrun : Transition.run step new events = some self) : self.Inv key := by
  have hconforms : Transition.Conforms step
      (fun _ e => ∀ packet, e = SystemEvent.Other packet → packet.publicKey ≠ key)
      (new : System ι) events :=
    Transition.conforms_of_forall fun _ he _ packet heq => hother packet (heq ▸ he)
  exact Transition.run_invariant_of_conforms (I := Inv key) inv_new
    (fun _ _ _ hm hother hstep => hm.step laws hother hstep) hconforms hrun

/-! ## What is resolved -/

omit [DecidableEq ι] in
/-- What a client can have come across for the key has been published. -/
theorem Inv.published_of_known (h : self.Inv key) {i : ι} {packet : SignedPacket}
    (hpacket : packet ∈ self.known i) (hkey : packet.publicKey = key) : self.Published packet := by
  rcases List.mem_append.mp hpacket with hpacket | hpacket
  · obtain ⟨a, ha, rfl⟩ := List.mem_map.mp hpacket
    obtain ⟨c, hc, heq, _⟩ := (h.nodes i).attempt a ha
    exact ⟨i, c, List.mem_of_getElem? hc, heq.symm⟩
  · exact h.arrived packet hpacket hkey

/-- **What a key resolves to.**  In every run, of any number of publishers and with packets that arrive late,
out of order and several times, if no other program signs packets with the key: nothing, or the record of a
call of `publish` with its secret key of which the client can have come across the packet.

If the answer is fresh then there is nothing only if there is no packet for the key, and the record was signed
no earlier than those of all other calls of which the client can have come across the packet. -/
theorem resolve_of_run (laws : Pkarr.Lawful) {client : Client} (hclient : client.Sound)
    {events : List (SystemEvent ι)} {sys : System ι} (hrun : Transition.run step new events = some sys)
    {key : PublicKey} (hkey : Pkarr.isKey key = true)
    (hother : ∀ packet, .Other packet ∈ events → packet.publicKey ≠ key) (i : ι) :
    (sys.resolve client i key = .ok none ∧
        (client.Fresh (sys.known i) key → ∀ packet ∈ sys.known i, packet.publicKey ≠ key)) ∨
      ∃ j, ∃ c ∈ (sys.nodes j).calls, Pkarr.publicKey c.secretKey = key ∧
        c.signedPacket ∈ sys.known i ∧ sys.resolve client i key = .ok (some c.record) ∧
        (client.Fresh (sys.known i) key →
          ∀ j, ∀ d ∈ (sys.nodes j).calls, Pkarr.publicKey d.secretKey = key →
            d.signedPacket ∈ sys.known i → d.timestamp ≤ c.timestamp) := by
  have h := inv_of_run laws hother hrun
  have hmade : ∀ j, ∀ d ∈ (sys.nodes j).calls, toRecord d.signedPacket = .ok d.record ∧
      d.signedPacket.publicKey = Pkarr.publicKey d.secretKey ∧
      d.signedPacket.timestamp = d.timestamp :=
    fun j d hd => toRecord_of_toSignedPacket laws ((h.nodes j).made d hd).1
  cases hanswer : client (sys.known i) key with
  | none =>
      refine .inl ⟨by rw [resolve, if_pos hkey, hanswer], fun hfresh packet hpacket hpk => ?_⟩
      obtain ⟨_, hsome, _⟩ := hfresh packet hpacket hpk
      rw [hanswer] at hsome
      cases hsome
  | some packet =>
      obtain ⟨hknown, hpk⟩ := hclient.mem _ _ packet hanswer
      obtain ⟨j, c, hc, rfl⟩ := h.published_of_known hknown hpk
      obtain ⟨hrecord, hpublic, htime⟩ := hmade j c hc
      refine .inr ⟨j, c, hc, hpublic.symm.trans hpk, hknown, ?_, fun hfresh k d hd hdkey hdknown => ?_⟩
      · rw [resolve, if_pos hkey, hanswer]
        simp only [hrecord, Except.map]
      · obtain ⟨_, hdpublic, hdtime⟩ := hmade k d hd
        obtain ⟨answer, hsome, hle⟩ := hfresh d.signedPacket hdknown (hdpublic.trans hdkey)
        obtain rfl := Option.some.inj (hanswer.symm.trans hsome)
        rw [SignedPacket.time, SignedPacket.time, hdtime, htime] at hle
        exact UInt64.le_iff_toNat_le.mpr hle

end System

end System

/-! ## Two publishers with one key -/

section TwoPublishers

attribute [local instance] Pkarr.plain

namespace System

/-- The record that was signed first arrives last. -/
def outOfOrder : List (SystemEvent Bool) :=
  [.Node true (.Publish IPNS.someKey (IPNS.someRecord .Raw) 100),
    .Node true (.Insert IPNS.someKey (IPNS.someRecord .Raw) 0),
    .Node false (.Publish IPNS.someKey (IPNS.someRecord .HashSeq) 200), .Node true (.Tick 500),
    .Node true (.Attempt 0), .Node true (.Unpublish IPNS.someKey), .Node false (.Tick 700),
    .Node false (.Attempt 0), .Arrive false 0, .Arrive true 0]

/-- With fresh answers that is not the one that is resolved. -/
theorem resolve_of_run_outOfOrder :
    ∃ sys, Transition.run step new outOfOrder = some sys ∧
      ∃ i, ∃ c ∈ (sys.nodes i).calls, sys.resolve Client.latest true IPNS.someKey = .ok (some c.record) ∧
        200 ≤ c.timestamp := by
  have hsome : ((Transition.run step new outOfOrder).map fun sys => (sys.nodes false).calls.map fun c =>
      (c.secretKey, c.signedPacket.publicKey, c.timestamp, decide (c.signedPacket ∈ sys.known true)))
        = some [(IPNS.someKey, IPNS.someKey, 200, true)] := by
    decide +kernel
  obtain ⟨sys, hrun, hcalls⟩ := Option.map_eq_some_iff.mp hsome
  obtain ⟨d, hd, hdeq⟩ := List.mem_map.mp (hcalls ▸ List.mem_singleton_self _)
  simp only [Prod.mk.injEq, decide_eq_true_eq] at hdeq
  obtain ⟨hdkey, hdpacket, hdtime, hdknown⟩ := hdeq
  have hdpublic : Pkarr.publicKey d.secretKey = IPNS.someKey := hdkey
  have hfresh := Client.latest_fresh (sys.known true) IPNS.someKey
  rcases resolve_of_run Pkarr.plain_lawful Client.latest_sound hrun rfl (by simp [outOfOrder]) true with
    ⟨_, hnone⟩ | ⟨i, c, hc, _, _, hresolve, hlast⟩
  · exact absurd hdpacket (hnone hfresh _ hdknown)
  · exact ⟨sys, hrun, i, c, hc, hresolve, hdtime ▸ hlast hfresh false d hd hdpublic hdknown⟩

end System

end TwoPublishers

end IrohExperiments.Naming
