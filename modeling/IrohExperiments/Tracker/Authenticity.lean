import IrohExperiments.Tracker.Run
import IrohExperiments.Tracker.Writes

/-!
# The tracker does not make up announces

An announce is taken apart into a key and a value when it is stored, and put together again when a
query finds it.  Between the two it may be overwritten, and any number of other messages may be
handled.  This file proves that what comes out of a query is, in every field, an announce that went
in before and whose signature was valid then, and so is still valid for the client.

The invariant is about the log of the actor (`Log.Authentic`): every row of the announces table
stands for an announce in the trace, with a valid signature.  `handleMessage_authentic` is the step,
and the theorem about the loop follows with the refinement of `Run.lean`.
-/

namespace IrohExperiments.Tracker

section Authenticity

variable [KeyScheme]

/-- The announce was submitted in one of these events, and its signature is valid. -/
def Submitted (earlier : List Event) (a : SignedAnnounce) : Prop :=
  (∃ e ∈ earlier, ∃ tx, e.msg = .Announce a tx) ∧ a.verify = .ok ()

theorem Submitted.append {earlier : List Event} {a : SignedAnnounce} (h : Submitted earlier a)
    (later : List Event) : Submitted (earlier ++ later) a := by
  obtain ⟨⟨e, he, htx⟩, hverify⟩ := h
  exact ⟨⟨e, List.mem_append_left _ he, htx⟩, hverify⟩

/-- The hosts of the query responses among the effects. -/
def Event.hosts (e : Event) : List SignedAnnounce :=
  e.effects.flatMap fun
    | .query _ response => response.hosts
    | _ => []

/-- Every host that a query of the trace was answered with was submitted earlier in the trace. -/
def AuthenticTrace (trace : List Event) : Prop :=
  ∀ earlier e later, trace = earlier ++ e :: later → ∀ a ∈ e.hosts, Submitted earlier a

theorem AuthenticTrace.concat {trace : List Event} (h : AuthenticTrace trace) {e : Event}
    (he : ∀ a ∈ e.hosts, Submitted trace a) : AuthenticTrace (trace ++ [e]) :=
  Transition.Always.concat (P := fun earlier (e : Event) => ∀ a ∈ e.hosts, Submitted earlier a) h he

/-- The rows of the announces table and the answers in the trace are submitted announces. -/
structure Log.Authentic (log : Log) : Prop where
  rows : ∀ a, splitSignedAnnounce a ∈ log.tables.announces.iter → Submitted log.trace a
  trace : AuthenticTrace log.trace

/-- A write transaction answers no queries. -/
theorem hosts_of_handleReadwrite {options : Options} {state : State} {now : AbsoluteTime}
    {msg : ActorMessage} {tables : Tables} {r : State × Tables × List Effect}
    (h : handleReadwrite options state now msg tables = .ok r) :
    Event.hosts ⟨.ReadWrite, msg, r.2.2⟩ = [] := by
  cases msg with
  | Announce | SetSize | SetSizes | StoreProbeResult | Gc =>
      cases h
      rfl
  | _ => cases h

/-- A read transaction answers a query with announces of the table. -/
theorem hosts_of_handleReadonly {options : Options} {state : State} {now : AbsoluteTime}
    {msg : ActorMessage} {tables : Tables} {effects : List Effect}
    (h : handleReadonly options state now msg tables = some (.ok effects)) :
    ∀ a ∈ Event.hosts ⟨.ReadOnly, msg, effects⟩, splitSignedAnnounce a ∈ tables.announces.iter := by
  intro a ha
  obtain ⟨effect, rfl, hanswers⟩ := answers_of_handleReadonly h
  rw [Event.hosts, List.flatMap_singleton] at ha
  cases hanswers with
  | query hquery =>
      obtain ⟨response, hresponse, hmem⟩ := exists_handleQuery options now _ tables
      obtain rfl := Option.some.inj (hquery.symm.trans hresponse)
      exact hmem a ha
  | size | sizes | contentForEndpoint | distinctContent | dump =>
      exact absurd ha List.not_mem_nil

/-- **The step**: handling a message keeps the log authentic. -/
theorem handleMessage_authentic {options : Options} {clock : ℕ → AbsoluteTime} {log log' : Log}
    {msg : ActorMessage} (hlog : log.Authentic)
    (h : handleMessage options clock log msg = some log') : log'.Authentic := by
  obtain ⟨⟨state, tables, effects⟩, hdispatch, rfl⟩ := handleMessage_eq_some.mp h
  rcases dispatch_eq_some.mp hdispatch with ⟨hcat, hhandle⟩ | ⟨hcat, rfl, rfl, hhandle⟩
  · refine ⟨fun a ha => ?_, hlog.trace.concat fun a ha => ?_⟩
    · rcases handleReadwrite_announces hhandle ha with hrow | ⟨a', tx, rfl, hverify, hsplit⟩
      · exact (hlog.rows a hrow).append _
      · -- the row is new, so the message is its announce
        obtain rfl := splitSignedAnnounce_injective hsplit
        exact ⟨⟨_, List.mem_append_right _ List.mem_cons_self, tx, rfl⟩, hverify⟩
    · rw [hcat, hosts_of_handleReadwrite hhandle] at ha
      exact absurd ha List.not_mem_nil
  · refine ⟨fun a ha => (hlog.rows a ha).append _, hlog.trace.concat fun a ha => ?_⟩
    rw [hcat] at ha
    exact hlog.rows a (hosts_of_handleReadonly hhandle a ha)

/-- **The run.** -/
theorem authentic_of_run {options : Options} {clock : ℕ → AbsoluteTime} {state : State}
    {msgs : List ActorMessage} {log : Log}
    (h : Transition.run (handleMessage options clock) ⟨[], state, Tables.empty⟩ msgs = some log) :
    log.Authentic := by
  refine Transition.run_invariant (I := Log.Authentic) ?_ ?_ h
  · exact ⟨fun a ha => absurd ha List.not_mem_nil, Transition.Always.nil⟩
  · intro log msg log' hlog hstep
    exact handleMessage_authentic hlog hstep

/-- **Every announce that the tracker returns was submitted to it**, in every field, and had a valid
signature.  An announce without a valid signature is refused and changes no table. -/
theorem run_authentic (options : Options) (clock : ℕ → AbsoluteTime) (state : State)
    (msgs : List ActorMessage) (ticks : List Tick) (actor : Actor)
    (hrun : Transition.run (Actor.step options clock) (Actor.start state Tables.empty msgs) ticks
      = some actor) :
    (∀ earlier e later, actor.trace = earlier ++ e :: later →
        ∀ tx response, Effect.query tx response ∈ e.effects → ∀ a ∈ response.hosts,
          (∃ e' ∈ earlier, ∃ tx', e'.msg = .Announce a tx') ∧ a.verify = .ok ()) ∧
      ∀ state now a tx tables, a.verify ≠ .ok () →
        ∃ e, handleReadwrite options state now (.Announce a tx) tables
          = .ok (state, tables, [.announce tx (.error e)]) := by
  obtain ⟨_, handled, _, _, hseq⟩ := Actor.exists_handled hrun
  have hlog := authentic_of_run hseq
  refine ⟨fun earlier e later heq tx response heffect a ha => ?_,
    fun state now a tx tables hverify => ?_⟩
  · refine hlog.trace earlier e later heq a ?_
    exact List.mem_flatMap.mpr ⟨_, heffect, ha⟩
  · rcases handleAnnounce_cases tables a with ⟨e, _, heq⟩ | ⟨hok, _⟩
    · refine ⟨e, ?_⟩
      rw [handleReadwrite, heq]
    · exact absurd hok hverify

end Authenticity

section Runs

attribute [local instance] KeyScheme.doubling

/-- A run in which a query is answered with the announce that was submitted before it. -/
theorem run_authentic_mixed :
    ∃ actor, Transition.run (Actor.step Options.debug fun n => ⟨n.toUInt64⟩)
        (Actor.start State.default Tables.empty Actor.mixedMessages) (List.replicate 8 ⟨false, false⟩)
          = some actor ∧
      ∀ earlier e later, actor.trace = earlier ++ e :: later →
        ∀ tx response, Effect.query tx response ∈ e.effects → ∀ a ∈ response.hosts,
          (∃ e' ∈ earlier, ∃ tx', e'.msg = .Announce a tx') ∧ a.verify = .ok () := by
  have hsome : (Transition.run (Actor.step Options.debug fun n => ⟨n.toUInt64⟩)
      (Actor.start State.default Tables.empty Actor.mixedMessages)
      (List.replicate 8 ⟨false, false⟩)).isSome = true := by
    decide +kernel
  obtain ⟨actor, hactor⟩ := Option.isSome_iff_exists.mp hsome
  exact ⟨actor, hactor, (run_authentic _ _ _ _ _ _ hactor).1⟩

end Runs

end IrohExperiments.Tracker
