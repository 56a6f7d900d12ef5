import IrohExperiments.Tracker.Writes

/-!
# Probe tasks

The tracker keeps one probe task for every endpoint that has announced something.  Three parties
see to that.  The actor owns the tables; a call of `handle_announce` asks it to store the announce
and starts a task if the reply says that the path is new; and `gc_loop` collects, asks for the
endpoints that are left, and stops the tasks of all others.

`Server.step` is the system of the three, with their messages in one channel and any number of
calls.  The actor handles one message at a time; that its transactions make no difference is the
subject of `Run.lean`.  `Server.Inv` is what keeps it right: every endpoint with a row has a task, or a call that
is about to start one.  All moves keep it but one.  When `gc_loop` retains the tasks of a snapshot
that is out of date, it stops the task of an endpoint that announced itself in between
(`inv_retain_iff`, and `stale_retain_drops_task` for a run in which this happens).
`announced_endpoints_are_probed` is what holds of the runs in which it does not.
-/

namespace IrohExperiments.Tracker

/-! ## Task maps -/

/-- The keys of a map of long lived tasks. -/
abbrev TaskMap (T : Type) := Finset T

namespace TaskMap

variable {T : Type} [DecidableEq T]

def publish (self : TaskMap T) (key : T) : TaskMap T := insert key self

def retain (self : TaskMap T) (keep : Finset T) : TaskMap T := self.filter fun x => x ∈ keep

end TaskMap

section System

variable [KeyScheme]

/-! ## The parties -/

/-- A call of `handle_announce` that has sent its message: the channel for the reply, the announce,
and the reply once the actor has sent it. -/
structure Call where
  tx : ReplyTo
  announce : SignedAnnounce
  reply : Option (Except VerifyError AnnounceResponse)

/-- The call has been told to start a probe task. -/
def Call.newHost (self : Call) : Bool :=
  match self.reply with
  | some (.ok response) => response.newHostForContent
  | _ => false

/-- Where `gc_loop` is. -/
inductive GcLoop where
  | Sleep
  | AwaitGc (tx : ReplyTo)
  | GcEnd
  | AwaitDistinct (tx : ReplyTo)
  | Retain (distinct : GetDistinctContentResponse)

/-- The loop is between its snapshot and the tasks. -/
def GcLoop.hasSnapshot : GcLoop → Bool
  | .Retain _ => true
  | _ => false

/-- The tracker: the channel and the data of the actor, the calls of `handle_announce`, the maps of
tasks, and `gc_loop`.  `nextTx` is the next fresh channel for a reply. -/
structure Server where
  queue : List ActorMessage
  state : State
  tables : Tables
  calls : List Call
  nextTx : ReplyTo
  announceTasks : TaskMap HashAndFormat
  probeTasks : TaskMap EndpointId
  gcLoop : GcLoop

/-- The moves of the parties. -/
inductive Move where
  /-- A call of `handle_announce` begins. -/
  | Announce (announce : SignedAnnounce)
  /-- A message from elsewhere in the tracker. -/
  | Send (msg : ActorMessage)
  /-- The actor handles its next message at the given time. -/
  | Handle (now : AbsoluteTime)
  /-- A call of `handle_announce` receives its reply and ends. -/
  | Finish (tx : ReplyTo)
  /-- The loop wakes up and sends a request for a collection. -/
  | Gc
  /-- The loop asks for what is left. -/
  | GetDistinctContent
  /-- The loop stops the tasks that are not in its snapshot. -/
  | Retain

/-- The channel on which an announce is answered. -/
def ActorMessage.announceTx : ActorMessage → Option ReplyTo
  | .Announce _ tx => some tx
  | _ => none

/-- The messages that the rest of the tracker sends, for queries and for probing. -/
def ActorMessage.isBackground : ActorMessage → Bool
  | .Query .. | .GetSize .. | .GetSizes .. | .SetSize .. | .SetSizes .. | .GetContentForEndpoint ..
  | .StoreProbeResult .. | .Dump => true
  | _ => false

namespace Server

/-- `Tracker::new`: every endpoint in the database gets its probe task. -/
def new (tables : Tables) : Option Server := do
  let dc ← getDistinctContent tables
  return ⟨[], State.default, tables, [], 0, ∅, dc.endpoints, .Sleep⟩

def setupProbeTask (self : Server) (endpoint : EndpointId) : Server :=
  { self with probeTasks := self.probeTasks.publish endpoint }

/-- A reply of the actor arrives at the call or the loop that waits for it. -/
def deliver (self : Server) : Effect → Server
  | .announce tx response =>
      { self with
        calls := self.calls.map fun c => if c.tx = tx then { c with reply := some response } else c }
  | .gc tx =>
      match self.gcLoop with
      | .AwaitGc tx' => if tx' = tx then { self with gcLoop := .GcEnd } else self
      | _ => self
  | .distinctContent tx response =>
      match self.gcLoop with
      | .AwaitDistinct tx' => if tx' = tx then { self with gcLoop := .Retain response } else self
      | _ => self
  | _ => self

def step (options : Options) (self : Server) : Move → Option Server
  | .Announce announce =>
      match announce.verify with
      | .error _ => some self
      | .ok () => some { self with
          queue := self.queue ++ [.Announce announce self.nextTx]
          calls := self.calls ++ [⟨self.nextTx, announce, none⟩]
          nextTx := self.nextTx + 1 }
  | .Send msg => if msg.isBackground then some { self with queue := self.queue ++ [msg] } else none
  | .Handle now =>
      match self.queue with
      | [] => none
      | msg :: queue => do
          let (state, tables, effects) ← dispatch options self.state now msg self.tables
          return effects.foldl deliver
            { self with queue := queue, state := state, tables := tables }
  | .Finish tx =>
      match self.calls.find? fun c => c.tx = tx with
      | some ⟨_, announce, some (.ok response)⟩ =>
          let self := { self with calls := self.calls.filter fun c => c.tx ≠ tx }
          some (if response.newHostForContent then self.setupProbeTask announce.announce.host
            else self)
      | some ⟨_, _, some (.error _)⟩ =>
          some { self with calls := self.calls.filter fun c => c.tx ≠ tx }
      | _ => none
  | .Gc =>
      match self.gcLoop with
      | .Sleep => some { self with
          queue := self.queue ++ [.Gc self.nextTx]
          nextTx := self.nextTx + 1
          gcLoop := .AwaitGc self.nextTx }
      | _ => none
  | .GetDistinctContent =>
      match self.gcLoop with
      | .GcEnd => some { self with
          queue := self.queue ++ [.GetDistinctContent self.nextTx]
          nextTx := self.nextTx + 1
          gcLoop := .AwaitDistinct self.nextTx }
      | _ => none
  | .Retain =>
      match self.gcLoop with
      | .Retain distinct => some { self with
          announceTasks := self.announceTasks.retain distinct.content
          probeTasks := self.probeTasks.retain distinct.endpoints
          gcLoop := .Sleep }
      | _ => none

/-! ## The invariant -/

/-- The endpoint has a row in the announces table. -/
def HasRow (tables : Tables) (e : EndpointId) : Prop :=
  ∃ r ∈ tables.announces.iter, r.1.endpointId = some e

/-- A call is about to start a probe task for the endpoint. -/
def PendingSetup (self : Server) (e : EndpointId) : Prop :=
  ∃ c ∈ self.calls, c.announce.announce.host = e ∧ c.newHost = true

/-- The announces in the channel and the calls that wait for them match up. -/
structure CallsOk (server : Server) : Prop where
  fresh : ∀ c ∈ server.calls, c.tx < server.nextTx
  nodup : (server.calls.map Call.tx).Nodup
  queued : ∀ a tx, ActorMessage.Announce a tx ∈ server.queue → ⟨tx, a, none⟩ ∈ server.calls
  once : (server.queue.filterMap ActorMessage.announceTx).Nodup

/-- Every endpoint with a row has a probe task, or is about to get one. -/
structure Inv (server : Server) : Prop where
  calls : server.CallsOk
  probed : ∀ e, HasRow server.tables e → e ∈ server.probeTasks ∨ server.PendingSetup e

/-! ## Moves that keep the invariant -/

variable {options : Options} {self self' : Server}

/-- A channel belongs to one call. -/
theorem CallsOk.call_unique (h : self.CallsOk) {c c' : Call} (hc : c ∈ self.calls)
    (hc' : c' ∈ self.calls) (htx : c.tx = c'.tx) : c = c' :=
  List.inj_on_of_nodup_map h.nodup hc hc' htx

/-- Sending a message that is not an announce. -/
theorem CallsOk.send (h : self.CallsOk) {msg : ActorMessage} (hmsg : msg.announceTx = none)
    (hqueue : self'.queue = self.queue ++ [msg]) (hcalls : self'.calls = self.calls)
    (hnext : self.nextTx ≤ self'.nextTx) : self'.CallsOk := by
  refine ⟨?_, ?_, ?_, ?_⟩
  · intro c hc
    rw [hcalls] at hc
    exact lt_of_lt_of_le (h.fresh c hc) hnext
  · rw [hcalls]
    exact h.nodup
  · intro a tx hmem
    rw [hqueue] at hmem
    rw [hcalls]
    rcases List.mem_append.mp hmem with hmem | hmem
    · exact h.queued a tx hmem
    · rw [← List.mem_singleton.mp hmem] at hmsg
      cases hmsg
  · rw [hqueue, List.filterMap_append, List.filterMap_cons, hmsg, List.filterMap_nil,
      List.append_nil]
    exact h.once

/-- The beginning of a call of `handle_announce`. -/
theorem CallsOk.announce (h : self.CallsOk) (a : SignedAnnounce) :
    CallsOk { self with
      queue := self.queue ++ [.Announce a self.nextTx]
      calls := self.calls ++ [⟨self.nextTx, a, none⟩]
      nextTx := self.nextTx + 1 } := by
  have hfresh : ∀ c ∈ self.calls, c.tx ≠ self.nextTx := by
    intro c hc
    exact ne_of_lt (h.fresh c hc)
  refine ⟨?_, ?_, ?_, ?_⟩
  · intro c hc
    rcases List.mem_append.mp hc with hc | hc
    · exact lt_trans (h.fresh c hc) (Nat.lt_succ_self _)
    · rw [List.mem_singleton.mp hc]
      exact Nat.lt_succ_self _
  · rw [List.map_append, List.map_singleton]
    refine List.Nodup.append h.nodup (List.nodup_singleton _) ?_
    intro tx htx hlast
    obtain ⟨c, hc, rfl⟩ := List.mem_map.mp htx
    exact hfresh c hc (List.mem_singleton.mp hlast)
  · intro a' tx hmem
    rcases List.mem_append.mp hmem with hmem | hmem
    · exact List.mem_append_left _ (h.queued a' tx hmem)
    · cases List.mem_singleton.mp hmem
      exact List.mem_append_right _ List.mem_cons_self
  · rw [List.filterMap_append]
    refine List.Nodup.append h.once (List.nodup_singleton _) ?_
    intro tx htx hlast
    obtain ⟨msg, hmsg, htx⟩ := List.mem_filterMap.mp htx
    cases msg with
    | Announce a' tx' =>
        cases htx
        exact hfresh _ (h.queued a' tx hmsg) (List.mem_singleton.mp hlast)
    | _ => cases htx

/-- The call does not start a task yet. -/
theorem Inv.announce (h : self.Inv) (a : SignedAnnounce) :
    Inv { self with
      queue := self.queue ++ [.Announce a self.nextTx]
      calls := self.calls ++ [⟨self.nextTx, a, none⟩]
      nextTx := self.nextTx + 1 } := by
  refine ⟨h.calls.announce a, fun e he => ?_⟩
  rcases h.probed e he with hprobed | ⟨c, hc, hhost, hnew⟩
  · exact Or.inl hprobed
  · exact Or.inr ⟨c, List.mem_append_left _ hc, hhost, hnew⟩

/-- Replies that do not concern an announce leave everything but `gc_loop` as it is. -/
theorem foldl_deliver {effects : List Effect}
    (h : ∀ tx response, Effect.announce tx response ∉ effects) (self : Server) :
    ∃ g, effects.foldl deliver self = { self with gcLoop := g } := by
  induction effects generalizing self with
  | nil => exact ⟨self.gcLoop, rfl⟩
  | cons effect effects ih =>
      have hdeliver : ∃ g, self.deliver effect = { self with gcLoop := g } := by
        cases effect with
        | announce tx response => exact absurd List.mem_cons_self (h tx response)
        | gc tx =>
            rw [deliver]
            split
            · split
              · exact ⟨_, rfl⟩
              · exact ⟨_, rfl⟩
            · exact ⟨_, rfl⟩
        | distinctContent tx response =>
            rw [deliver]
            split
            · split
              · exact ⟨_, rfl⟩
              · exact ⟨_, rfl⟩
            · exact ⟨_, rfl⟩
        | _ => exact ⟨self.gcLoop, rfl⟩
      obtain ⟨g, hg⟩ := hdeliver
      obtain ⟨g', hg'⟩ := ih
        (fun tx response hmem => h tx response (List.mem_cons_of_mem _ hmem)) (self.deliver effect)
      refine ⟨g', ?_⟩
      rw [List.foldl_cons, hg', hg]

/-- The actor handles a message that is not an announce. -/
theorem Inv.handle_other (h : self.Inv) {msg : ActorMessage} {queue : List ActorMessage}
    (hqueue : self.queue = msg :: queue) (hmsg : ∀ a tx, msg ≠ .Announce a tx) {state : State}
    {tables : Tables} (hrows : ∀ r ∈ tables.announces.iter, r ∈ self.tables.announces.iter)
    (g : GcLoop) :
    Inv { self with queue := queue, state := state, tables := tables, gcLoop := g } := by
  refine ⟨⟨h.calls.fresh, h.calls.nodup, ?_, ?_⟩, ?_⟩
  · intro a tx hmem
    refine h.calls.queued a tx ?_
    rw [hqueue]
    exact List.mem_cons_of_mem _ hmem
  · have honce := h.calls.once
    rw [hqueue] at honce
    cases msg with
    | Announce a tx => exact absurd rfl (hmsg a tx)
    | _ => exact honce
  · rintro e ⟨r, hr, he⟩
    exact h.probed e ⟨r, hrows r hr, he⟩

/-- A reply changes the call that waits for it and no other. -/
theorem mem_calls_deliver {tx : ReplyTo} {response : Except VerifyError AnnounceResponse} {c : Call}
    (hc : c ∈ self.calls) :
    (c.tx ≠ tx → c ∈ (self.deliver (.announce tx response)).calls) ∧
      (c.tx = tx → { c with reply := some response } ∈ (self.deliver (.announce tx response)).calls) := by
  constructor
  · intro hne
    refine List.mem_map.mpr ⟨c, hc, ?_⟩
    rw [if_neg hne]
  · intro heq
    refine List.mem_map.mpr ⟨c, hc, ?_⟩
    rw [if_pos heq]

/-- The actor takes an announce from the channel and replies to its call. -/
theorem CallsOk.reply (h : self.CallsOk) {a : SignedAnnounce} {tx : ReplyTo}
    {queue : List ActorMessage} (hqueue : self.queue = .Announce a tx :: queue)
    (response : Except VerifyError AnnounceResponse) (state : State) (tables : Tables) :
    CallsOk (deliver { self with queue := queue, state := state, tables := tables }
      (.announce tx response)) := by
  have honce := h.once
  rw [hqueue, List.filterMap_cons] at honce
  obtain ⟨hnot, honce⟩ := List.nodup_cons.mp honce
  have htx : ∀ c : Call, (if c.tx = tx then { c with reply := some response } else c).tx = c.tx := by
    intro c
    split <;> rfl
  refine ⟨?_, ?_, ?_, honce⟩
  · intro c hc
    obtain ⟨c', hc', rfl⟩ := List.mem_map.mp hc
    rw [htx]
    exact h.fresh c' hc'
  · show ((self.calls.map _).map Call.tx).Nodup
    rw [List.map_map, show Call.tx ∘ _ = Call.tx from funext htx]
    exact h.nodup
  · intro a' tx' hmem
    have hcall : ⟨tx', a', none⟩ ∈ self.calls := by
      refine h.queued a' tx' ?_
      rw [hqueue]
      exact List.mem_cons_of_mem _ hmem
    refine (mem_calls_deliver hcall).1 ?_
    rintro rfl
    exact hnot (List.mem_filterMap.mpr ⟨_, hmem, rfl⟩)

/-- The actor handles an announce.  If it adds a row, the reply tells the call to start a task. -/
theorem Inv.handle_announce (h : self.Inv) {a : SignedAnnounce} {tx : ReplyTo}
    {queue : List ActorMessage} (hqueue : self.queue = .Announce a tx :: queue) {state : State} :
    Inv (deliver { self with
      queue := queue, state := state, tables := (handleAnnounce self.tables a).2 }
      (.announce tx (handleAnnounce self.tables a).1)) := by
  have hcall : ⟨tx, a, none⟩ ∈ self.calls := by
    refine h.calls.queued a tx ?_
    rw [hqueue]
    exact List.mem_cons_self
  -- a row that was there keeps its task, or the call that will start it
  have hold : ∀ e, HasRow self.tables e → e ∈ self.probeTasks ∨
      (deliver self (.announce tx (handleAnnounce self.tables a).1)).PendingSetup e := by
    intro e he
    rcases h.probed e he with hprobed | ⟨c, hc, hhost, hnew⟩
    · exact Or.inl hprobed
    · refine Or.inr ⟨c, (mem_calls_deliver hc).1 ?_, hhost, hnew⟩
      intro heq
      rw [h.calls.call_unique hc hcall heq] at hnew
      cases hnew
  refine ⟨h.calls.reply hqueue _ _ _, ?_⟩
  rintro e ⟨r, hr, he⟩
  rcases handleAnnounce_cases self.tables a with ⟨err, _, heq⟩ | ⟨_, response, hreply, hnew, htables⟩
  · refine hold e ⟨r, ?_, he⟩
    rw [show (handleAnnounce self.tables a).2 = self.tables by rw [heq]] at hr
    exact hr
  · rcases htables with ⟨htables, _⟩ | htables
    · refine hold e ⟨r, ?_, he⟩
      rwa [show (deliver _ _).tables = (handleAnnounce self.tables a).2 from rfl, htables] at hr
    · rw [show (deliver _ _).tables = (handleAnnounce self.tables a).2 from rfl, htables,
        Tables.insertAnnounce_announces, RecordTable.mem_iter_insert] at hr
      rcases hr with rfl | ⟨hr, _⟩
      · -- the row of the announce itself
        have hhost : a.announce.host = e :=
          Option.some.inj ((AnnouncePath.endpointId_new _ _ _).symm.trans he)
        cases hprev : self.tables.announces.get (splitSignedAnnounce a).1 with
        | none =>
            refine Or.inr ⟨_, (mem_calls_deliver hcall).2 rfl, hhost, ?_⟩
            rw [hreply]
            exact hnew.mpr hprev
        | some prev =>
            exact hold e ⟨_, (self.tables.announces.mem_iter_iff _ _).mpr hprev, he⟩
      · exact hold e ⟨r, hr, he⟩

/-- A call of `handle_announce` ends, and if it was told so it has started its task. -/
theorem Inv.finish (h : self.Inv) {c : Call} (hc : c ∈ self.calls) (hreply : c.reply ≠ none)
    {probeTasks : TaskMap EndpointId} (hsub : self.probeTasks ⊆ probeTasks)
    (hnew : c.newHost = true → c.announce.announce.host ∈ probeTasks) :
    Inv { self with
      calls := self.calls.filter fun c' => c'.tx ≠ c.tx, probeTasks := probeTasks } := by
  refine ⟨⟨?_, ?_, ?_, h.calls.once⟩, ?_⟩
  · intro c' hc'
    exact h.calls.fresh c' (List.mem_filter.mp hc').1
  · exact h.calls.nodup.sublist (List.filter_sublist.map _)
  · intro a tx hmem
    have hcall := h.calls.queued a tx hmem
    refine List.mem_filter.mpr ⟨hcall, decide_eq_true ?_⟩
    intro heq
    rw [← h.calls.call_unique hcall hc heq] at hreply
    exact hreply rfl
  · intro e he
    rcases h.probed e he with hprobed | ⟨c', hc', hhost, hnew'⟩
    · exact Or.inl (hsub hprobed)
    · by_cases heq : c'.tx = c.tx
      · obtain rfl := h.calls.call_unique hc' hc heq
        exact Or.inl (hhost ▸ hnew hnew')
      · exact Or.inr ⟨c', List.mem_filter.mpr ⟨hc', decide_eq_true heq⟩, hhost, hnew'⟩

theorem Inv.handle_step (h : self.Inv) {now : AbsoluteTime}
    (hstep : self.step options (.Handle now) = some self') : self'.Inv := by
  rw [step] at hstep
  cases hqueue : self.queue with
  | nil =>
      rw [hqueue] at hstep
      cases hstep
  | cons msg queue =>
      rw [hqueue] at hstep
      obtain ⟨⟨state, tables, effects⟩, hdispatch, hdeliver⟩ := Option.bind_eq_some_iff.mp hstep
      cases hdeliver
      rcases dispatch_cases hdispatch with ⟨a, tx, rfl, hr⟩ | ⟨hmsg, heffects, hrows⟩
      · cases hr
        exact h.handle_announce hqueue
      · obtain ⟨g, hg⟩ := foldl_deliver heffects
          { self with queue := queue, state := state, tables := tables }
        rw [hg]
        exact h.handle_other hqueue hmsg hrows g

theorem Inv.finish_step (h : self.Inv) {tx : ReplyTo}
    (hstep : self.step options (.Finish tx) = some self') : self'.Inv := by
  rw [step] at hstep
  split at hstep
  next a response hfind =>
      have htx := List.find?_some hfind
      simp only [decide_eq_true_eq] at htx
      subst htx
      have hc := List.mem_of_find?_eq_some hfind
      cases hstep
      cases hnew : response.newHostForContent with
      | true =>
          refine h.finish hc (by simp) (Finset.subset_insert _ _) fun _ => ?_
          exact Finset.mem_insert_self _ _
      | false =>
          refine h.finish hc (by simp) (Finset.Subset.refl _) fun hnew' => ?_
          exact absurd (hnew'.symm.trans hnew) (by simp)
  next a e hfind =>
      have htx := List.find?_some hfind
      simp only [decide_eq_true_eq] at htx
      subst htx
      cases hstep
      refine h.finish (List.mem_of_find?_eq_some hfind) (by simp) (Finset.Subset.refl _) ?_
      intro hnew
      cases hnew
  next => cases hstep

/-! ## Retaining the tasks of a snapshot -/

/-- If the move retains tasks, the snapshot is up to date: every endpoint with a row is in it, or
is about to get a task. -/
def SnapshotCurrent (self : Server) : Move → Prop
  | .Retain =>
      match self.gcLoop with
      | .Retain distinct => ∀ r ∈ self.tables.announces.iter, ∀ e ∈ r.1.endpointId,
          e ∈ distinct.endpoints ∨ self.PendingSetup e
      | _ => True
  | _ => True

instance (self : Server) (e : EndpointId) : Decidable (self.PendingSetup e) :=
  inferInstanceAs (Decidable (∃ c ∈ self.calls, c.announce.announce.host = e ∧ c.newHost = true))

instance (self : Server) : (move : Move) → Decidable (self.SnapshotCurrent move)
  | .Retain =>
      match h : self.gcLoop with
      | .Retain distinct => decidable_of_iff
          (∀ r ∈ self.tables.announces.iter, ∀ e ∈ r.1.endpointId,
            e ∈ distinct.endpoints ∨ self.PendingSetup e) (by rw [SnapshotCurrent, h])
      | .Sleep | .AwaitGc _ | .GcEnd | .AwaitDistinct _ => .isTrue (by rw [SnapshotCurrent, h]; trivial)
  | .Announce _ | .Send _ | .Handle _ | .Finish _ | .Gc | .GetDistinctContent => .isTrue trivial

/-- **Retaining is the move that matters.**  It keeps the invariant exactly when the snapshot is up
to date. -/
theorem inv_retain_iff (h : self.Inv) (hstep : self.step options .Retain = some self') :
    self'.Inv ↔ self.SnapshotCurrent .Retain := by
  rw [step] at hstep
  cases hgc : self.gcLoop with
  | Retain distinct =>
      rw [hgc] at hstep
      cases hstep
      rw [SnapshotCurrent, hgc]
      constructor
      · intro hinv r hr e he
        rcases hinv.probed e ⟨r, hr, he⟩ with hprobed | hpending
        · exact Or.inl (Finset.mem_filter.mp hprobed).2
        · exact Or.inr hpending
      · intro hcurrent
        refine ⟨⟨h.calls.fresh, h.calls.nodup, h.calls.queued, h.calls.once⟩, ?_⟩
        rintro e ⟨r, hr, he⟩
        rcases hcurrent r hr e he with hdistinct | hpending
        · rcases h.probed e ⟨r, hr, he⟩ with hprobed | hpending
          · exact Or.inl (Finset.mem_filter.mpr ⟨hprobed, hdistinct⟩)
          · exact Or.inr hpending
        · exact Or.inr hpending
  | _ =>
      rw [hgc] at hstep
      cases hstep

/-! ## Runs -/

/-- At the start every endpoint of the database has its task. -/
theorem inv_new {tables : Tables} (h : new tables = some self) : self.Inv := by
  obtain ⟨dc, hdc, hmem⟩ := exists_getDistinctContent tables
  rw [new, hdc] at h
  cases h
  refine ⟨⟨by simp, by simp, by simp, by simp⟩, ?_⟩
  intro e he
  exact Or.inl ((hmem e).mpr he)

/-- **The step**: every move keeps the invariant, if it does not retain the tasks of a snapshot that
is out of date. -/
theorem inv_step (h : self.Inv) (move : Move) (hok : self.SnapshotCurrent move)
    (hstep : self.step options move = some self') : self'.Inv := by
  cases move with
  | Announce a =>
      rw [step] at hstep
      cases hverify : a.verify with
      | error e =>
          rw [hverify] at hstep
          cases hstep
          exact h
      | ok _ =>
          rw [hverify] at hstep
          cases hstep
          exact h.announce a
  | Send msg =>
      rw [step] at hstep
      split at hstep
      next hback =>
          cases hstep
          refine ⟨h.calls.send ?_ rfl rfl le_rfl, h.probed⟩
          cases msg with
          | Announce a tx => cases hback
          | _ => rfl
      next => cases hstep
  | Handle now => exact h.handle_step hstep
  | Finish tx => exact h.finish_step hstep
  | Gc =>
      rw [step] at hstep
      split at hstep
      next =>
          cases hstep
          exact ⟨h.calls.send rfl rfl rfl (Nat.le_succ _), h.probed⟩
      next => cases hstep
  | GetDistinctContent =>
      rw [step] at hstep
      split at hstep
      next =>
          cases hstep
          exact ⟨h.calls.send rfl rfl rfl (Nat.le_succ _), h.probed⟩
      next => cases hstep
  | Retain => exact (inv_retain_iff h hstep).mpr hok

/-- No call of `handle_announce` is between its reply and its end, and `gc_loop` is not between its
snapshot and the tasks. -/
def Quiet (self : Server) : Prop :=
  (∀ c ∈ self.calls, c.reply.isNone = true) ∧ self.gcLoop.hasSnapshot = false

instance (self : Server) : Decidable self.Quiet := inferInstanceAs (Decidable (_ ∧ _))

/-- **Every announced endpoint is being probed**, in the quiet states of every run in which tasks are
only ever retained against a snapshot that is up to date. -/
theorem announced_endpoints_are_probed (options : Options) (tables : Tables) (start server : Server)
    (moves : List Move) (hnew : new tables = some start)
    (hok : Transition.Conforms (step options) SnapshotCurrent start moves)
    (hrun : Transition.run (step options) start moves = some server) (hquiet : server.Quiet) :
    ∀ e, HasRow server.tables e → e ∈ server.probeTasks := by
  have hinv : server.Inv := by
    refine Transition.run_invariant_of_conforms (inv_new hnew) ?_ hok hrun
    intro m move m' hm hcurrent hstep
    exact inv_step hm move hcurrent hstep
  intro e he
  rcases hinv.probed e he with hprobed | ⟨c, hc, _, hnewHost⟩
  · exact hprobed
  · -- a call that is about to start a task has its reply
    have hnone := hquiet.1 c hc
    rw [Option.isNone_iff_eq_none] at hnone
    rw [Call.newHost, hnone] at hnewHost
    cases hnewHost

end Server

end System

section Runs

attribute [local instance] KeyScheme.doubling

namespace Server

/-- The announce of a host that is new to the tracker. -/
def newAnnounce : SignedAnnounce := SignedAnnounce.doubling 7 (.filled 1 .Raw) .Complete ⟨5⟩

/-- One turn of `gc_loop` after the announce has been handled, and its task started. -/
def currentMoves : List Move :=
  [.Announce newAnnounce, .Handle ⟨6⟩, .Finish 0, .Gc, .Handle ⟨7⟩, .GetDistinctContent,
    .Handle ⟨8⟩, .Retain]

/-- The same announce, handled after the snapshot of `gc_loop`. -/
def staleMoves : List Move :=
  [.Gc, .Handle ⟨6⟩, .GetDistinctContent, .Handle ⟨7⟩, .Announce newAnnounce, .Handle ⟨8⟩,
    .Finish 2, .Retain]

/-- The condition can be met. -/
theorem announced_endpoints_are_probed_current :
    ∃ start server, new Tables.empty = some start ∧
      Transition.run (step Options.debug) start currentMoves = some server ∧
      ∀ e, HasRow server.tables e → e ∈ server.probeTasks := by
  have hexists : ∃ start ∈ new Tables.empty,
      Transition.Conforms (step Options.debug) SnapshotCurrent start currentMoves ∧
      ∃ server ∈ Transition.run (step Options.debug) start currentMoves, server.Quiet := by
    decide +kernel
  obtain ⟨start, hnew, hok, server, hrun, hquiet⟩ := hexists
  exact ⟨start, server, hnew, hrun,
    announced_endpoints_are_probed _ _ _ _ _ hnew hok hrun hquiet⟩

/-- **A task that is stopped too early.**  The announce is handled between the snapshot and the
retaining: in the end its host has a row, no call is pending, and there is no task. -/
theorem stale_retain_drops_task :
    ∃ start server, new Tables.empty = some start ∧
      Transition.run (step Options.debug) start staleMoves = some server ∧ server.Quiet ∧
      ∃ e, HasRow server.tables e ∧ e ∉ server.probeTasks := by
  have hexists : ∃ start ∈ new Tables.empty,
      ∃ server ∈ Transition.run (step Options.debug) start staleMoves, server.Quiet ∧
      ∃ r ∈ server.tables.announces.iter, ∃ e ∈ r.1.endpointId, e ∉ server.probeTasks := by
    decide +kernel
  obtain ⟨start, hnew, server, hrun, hquiet, r, hr, e, he, htask⟩ := hexists
  exact ⟨start, server, hnew, hrun, hquiet, e, ⟨r, hr, he⟩, htask⟩

end Server

end Runs

end IrohExperiments.Tracker
