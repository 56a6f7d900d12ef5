import IrohExperiments.Tracker.Authenticity

/-!
# Verified means probed

A query can ask for verified announces, which the tracker has probed itself a short time ago.  The
tracker remembers a probe by the row of the probes table, whose key packs content, kind and endpoint,
and which later probes overwrite and collections remove.

This file traces the rows back.  `Probed` is the history a row stands for: an earlier probe of that
endpoint, at the time in the row, with a success for that content and that kind.  Handling a message
keeps every row of a log probed (`handleMessage_probed`), so an announce in the answer to a verified
query was probed before (`run_verified`).  A probe result without such a success leaves all answers
about the announce as they are (`mem_handleQuery_storeProbeResult`).
-/

namespace IrohExperiments.Tracker

section Verified

variable [KeyScheme]

/-! ## Which announces a probe is about -/

/-- The fields of a path determine what it was built from. -/
theorem AnnouncePath.new_inj {c c' : HashAndFormat} {k k' : AnnounceKind} {e e' : EndpointId} :
    AnnouncePath.new c k e = AnnouncePath.new c' k' e' ↔ c = c' ∧ k = k' ∧ e = e' := by
  constructor
  · intro h
    have hcontent := congrArg AnnouncePath.content h
    have hkind := congrArg AnnouncePath.announceKind h
    have hendpoint := congrArg AnnouncePath.endpointId h
    simp only [AnnouncePath.content_new] at hcontent
    simp only [AnnouncePath.announceKind_new] at hkind
    simp only [AnnouncePath.endpointId_new, Option.some.injEq] at hendpoint
    exact ⟨hcontent, hkind, hendpoint⟩
  · rintro ⟨rfl, rfl, rfl⟩
    rfl

/-- **A success for an announce** is one of its host, its content and its kind. -/
theorem succeeded_iff (endpoint : EndpointId)
    (results : List (HashAndFormat × AnnounceKind × Except String Unit)) (a : SignedAnnounce) :
    Succeeded endpoint results (splitSignedAnnounce a).1
      ↔ endpoint = a.announce.host ∧ (a.announce.content, a.announce.kind, .ok ()) ∈ results := by
  constructor
  · rintro ⟨⟨content, kind, result⟩, hr, hok, hpath⟩
    obtain ⟨hcontent, hkind, hhost⟩ := AnnouncePath.new_inj.mp hpath
    simp only at hok
    subst hok hcontent hkind
    exact ⟨hhost.symm, hr⟩
  · rintro ⟨rfl, hr⟩
    exact ⟨_, hr, rfl, rfl⟩

/-- **Probes of something else.**  A probe result without a success for an announce does not change
whether a query is answered with it. -/
theorem mem_handleQuery_storeProbeResult {options : Options} {now : AbsoluteTime} {query : Query}
    {tables : Tables} {response response' : QueryResponse} {endpoint : EndpointId}
    {results : List (HashAndFormat × AnnounceKind × Except String Unit)} {t : AbsoluteTime}
    {a : SignedAnnounce}
    (hother : endpoint = a.announce.host →
      (a.announce.content, a.announce.kind, .ok ()) ∉ results)
    (h : handleQuery options now query tables = some response)
    (h' : handleQuery options now query (storeProbeResult tables endpoint results t)
      = some response') :
    a ∈ response'.hosts ↔ a ∈ response.hosts := by
  have hprobe : (storeProbeResult tables endpoint results t).probes.get (splitSignedAnnounce a).1
      = tables.probes.get (splitSignedAnnounce a).1 := by
    rcases get_storeProbeResult tables endpoint results t (splitSignedAnnounce a).1 with
      ⟨hsucceeded, _⟩ | ⟨_, hget⟩
    · obtain ⟨hhost, hr⟩ := (succeeded_iff endpoint results a).mp hsucceeded
      exact absurd hr (hother hhost)
    · exact hget
  have hannounced : (storeProbeResult tables endpoint results t).announced = tables.announced := by
    rw [Tables.announced, storeProbeResult_announces, Tables.announced]
  have hselects : Selects options now query (storeProbeResult tables endpoint results t).probes a
      ↔ Selects options now query tables.probes a := by
    constructor
    · rintro ⟨hcomplete, hage, hprobed⟩
      exact ⟨hcomplete, hage, hprobe ▸ hprobed⟩
    · rintro ⟨hcomplete, hage, hprobed⟩
      exact ⟨hcomplete, hage, hprobe.symm ▸ hprobed⟩
  rw [mem_handleQuery h, mem_handleQuery h', hannounced, hselects]

/-! ## What a row of the probes stands for -/

/-- A probe with a success for the path was recorded in one of these events, at that time. -/
def Probed (earlier : List Event) (path : AnnouncePath) (t : AbsoluteTime) : Prop :=
  ∃ e ∈ earlier, ∃ endpoint results,
    e.msg = .StoreProbeResult endpoint results t ∧ Succeeded endpoint results path

theorem Probed.append {earlier : List Event} {path : AnnouncePath} {t : AbsoluteTime}
    (h : Probed earlier path t) (later : List Event) : Probed (earlier ++ later) path t := by
  obtain ⟨e, he, hprobe⟩ := h
  exact ⟨e, List.mem_append_left _ he, hprobe⟩

/-- Every row of the probes table stands for a probe in the trace. -/
def Log.Probed (log : Log) : Prop :=
  ∀ r ∈ log.tables.probes.iter, Tracker.Probed log.trace r.1 r.2.timestamp

/-- **The step**: handling a message keeps the rows probed. -/
theorem handleMessage_probed {options : Options} {clock : ℕ → AbsoluteTime} {log log' : Log}
    {msg : ActorMessage} (hlog : log.Probed)
    (h : handleMessage options clock log msg = some log') : log'.Probed := by
  obtain ⟨⟨state, tables, effects⟩, hdispatch, rfl⟩ := handleMessage_eq_some.mp h
  intro r hr
  rcases dispatch_eq_some.mp hdispatch with ⟨_, hhandle⟩ | ⟨_, _, htables, _⟩
  · rcases handleReadwrite_probes hhandle hr with hrow | ⟨endpoint, results, rfl, hsucceeded⟩
    · exact (hlog r hrow).append _
    · exact ⟨_, List.mem_append_right _ List.mem_cons_self, endpoint, results, rfl, hsucceeded⟩
  · simp only at htables
    subst htables
    exact (hlog r hr).append _

/-- **The run.** -/
theorem probed_of_run {options : Options} {clock : ℕ → AbsoluteTime} {state : State}
    {msgs : List ActorMessage} {log : Log}
    (h : Transition.run (handleMessage options clock) ⟨[], state, Tables.empty⟩ msgs = some log) :
    log.Probed := by
  refine Transition.run_invariant (I := Log.Probed) ?_ ?_ h
  · exact fun r hr => absurd hr List.not_mem_nil
  · intro log msg log' hlog hstep
    exact handleMessage_probed hlog hstep

/-! ## Answers to verified queries -/

/-- **Verified means probed.**  Whatever the actor handled before it answers a verified query, for
every announce in the answer it handled the result of a probe of that host, with a success for that
content and kind, and stamped within the probe timeout.  The results of other probes do not matter
to the announce. -/
theorem run_verified (options : Options) (clock : ℕ → AbsoluteTime) (state : State)
    (msgs : List ActorMessage) (ticks : List Tick) (actor : Actor)
    (hrun : Transition.run (Actor.step options clock) (Actor.start state Tables.empty msgs) ticks
      = some actor) :
    (∀ earlier e later, actor.trace = earlier ++ e :: later →
        ∀ query tx, e.msg = .Query query tx → query.flags.verified = true →
        (∀ e' ∈ earlier, ∀ endpoint results t, e'.msg = .StoreProbeResult endpoint results t →
          (∃ r ∈ results, r.2.2 = .ok ()) → t ≤ clock earlier.length) →
        ∀ tx' response, Effect.query tx' response ∈ e.effects → ∀ a ∈ response.hosts,
          ∃ e' ∈ earlier, ∃ results t, e'.msg = .StoreProbeResult a.announce.host results t ∧
            (a.announce.content, a.announce.kind, .ok ()) ∈ results ∧
            (clock earlier.length).age t ≤ options.probeTimeout) ∧
      ∀ now query tables response response' endpoint results t (a : SignedAnnounce),
        (endpoint = a.announce.host →
          (a.announce.content, a.announce.kind, .ok ()) ∉ results) →
        handleQuery options now query tables = some response →
        handleQuery options now query (storeProbeResult tables endpoint results t) = some response' →
          (a ∈ response'.hosts ↔ a ∈ response.hosts) := by
  refine ⟨?_, fun now query tables response response' endpoint results t a hother h h' =>
    mem_handleQuery_storeProbeResult hother h h'⟩
  intro earlier e later htrace query tx hmsg hverified htime tx' response heffect a ha
  obtain ⟨log, query', hlog, rfl, hmsg', hquery⟩ :=
    (Actor.handledAfter_of_run hrun htrace).query heffect
  obtain ⟨rfl, rfl⟩ := ActorMessage.Query.inj (hmsg.symm.trans hmsg')
  -- the row that the handler found, and the probe it stands for
  obtain ⟨_, _, hselects⟩ := (mem_handleQuery hquery a).mp ha
  obtain ⟨p, hp, hage⟩ := hselects.probed hverified
  have hrow := (log.tables.probes.mem_iter_iff _ p).mpr hp
  obtain ⟨e', he', endpoint, results, hstore, hsucceeded⟩ := probed_of_run hlog _ hrow
  have hle : p.timestamp ≤ clock log.trace.length := by
    obtain ⟨r, hr, hok, _⟩ := hsucceeded
    exact htime e' he' endpoint results p.timestamp hstore ⟨r, hr, hok⟩
  obtain ⟨rfl, hr⟩ := (succeeded_iff endpoint results a).mp hsucceeded
  refine ⟨e', he', results, p.timestamp, hstore, hr, ?_⟩
  rw [← AbsoluteTime.sub_of_le hle]
  exact hage

end Verified

section Runs

attribute [local instance] KeyScheme.doubling

/-- An announce, a probe of its host with a success for its content, and a verified query. -/
def probedMessages : List ActorMessage :=
  [.Announce (SignedAnnounce.doubling 7 (.filled 1 .Raw) .Complete ⟨1⟩) 0,
    .StoreProbeResult (EndpointId.doubling 7) [(.filled 1 .Raw, .Complete, .ok ())] ⟨2⟩,
    .Query ⟨.filled 1 .Raw, ⟨true, true⟩⟩ 1]

/-- The run over these messages. -/
theorem exists_probedRun :
    ∃ actor announced probed queried, Transition.run (Actor.step Options.debug fun n => ⟨n.toUInt64⟩)
        (Actor.start State.default Tables.empty probedMessages)
        (List.replicate 7 ⟨false, false⟩) = some actor ∧
      actor.trace = [announced, probed, queried] ∧
      [announced.msg, probed.msg, queried.msg] = probedMessages ∧
      queried.hosts = [SignedAnnounce.doubling 7 (.filled 1 .Raw) .Complete ⟨1⟩] := by
  have hsome : ((Transition.run (Actor.step Options.debug fun n => ⟨n.toUInt64⟩)
      (Actor.start State.default Tables.empty probedMessages)
      (List.replicate 7 ⟨false, false⟩)).map fun actor => actor.trace.map Event.hosts)
        = some [[], [], [SignedAnnounce.doubling 7 (.filled 1 .Raw) .Complete ⟨1⟩]] := by
    decide +kernel
  obtain ⟨actor, hactor, hhosts⟩ := Option.map_eq_some_iff.mp hsome
  have hhandled := (Actor.run_refines _ _ _ _ _ _ _ hactor).1.handled
  obtain ⟨announced, l, htrace, _, hl⟩ := List.map_eq_cons_iff.mp hhosts
  obtain ⟨probed, l, rfl, _, hl⟩ := List.map_eq_cons_iff.mp hl
  obtain ⟨queried, l, rfl, hqueried, hl⟩ := List.map_eq_cons_iff.mp hl
  obtain rfl := List.map_eq_nil_iff.mp hl
  rw [htrace] at hhandled
  exact ⟨actor, announced, probed, queried, hactor, htrace, hhandled.eq_of_length rfl, hqueried⟩

/-- The query is answered with the announce, and the probe is the one before it. -/
theorem run_verified_probed :
    ∃ actor, Transition.run (Actor.step Options.debug fun n => ⟨n.toUInt64⟩)
        (Actor.start State.default Tables.empty probedMessages)
        (List.replicate 7 ⟨false, false⟩) = some actor ∧
      ∃ earlier e later, actor.trace = earlier ++ e :: later ∧
        ∃ query tx tx' response, e.msg = .Query query tx ∧ query.flags.verified = true ∧
          Effect.query tx' response ∈ e.effects ∧
          ∃ a ∈ response.hosts, ∃ e' ∈ earlier, ∃ results t,
            e'.msg = .StoreProbeResult a.announce.host results t ∧
            (a.announce.content, a.announce.kind, .ok ()) ∈ results ∧
            AbsoluteTime.age ⟨earlier.length.toUInt64⟩ t ≤ Options.debug.probeTimeout := by
  obtain ⟨actor, announced, probed, queried, hactor, htrace, hmsgs, hqueried⟩ := exists_probedRun
  refine ⟨actor, hactor, ?_⟩
  injection hmsgs with hannounce hmsgs
  injection hmsgs with hprobe hmsgs
  injection hmsgs with hquery _
  -- the effect that has the announce in it
  have ha : SignedAnnounce.doubling 7 (.filled 1 .Raw) .Complete ⟨1⟩ ∈ queried.hosts := by
    rw [hqueried]
    exact List.mem_cons_self
  obtain ⟨effect, heffect, hmem⟩ := List.mem_flatMap.mp ha
  obtain ⟨tx', response, rfl, hmem⟩ : ∃ tx' response, effect = .query tx' response ∧
      SignedAnnounce.doubling 7 (.filled 1 .Raw) .Complete ⟨1⟩ ∈ response.hosts := by
    cases effect with
    | query tx' response => exact ⟨tx', response, rfl, hmem⟩
    | _ => exact absurd hmem List.not_mem_nil
  refine ⟨[announced, probed], queried, [], htrace, _, _, tx', response, hquery, rfl, heffect, _,
    hmem, ?_⟩
  refine (run_verified _ _ _ _ _ _ hactor).1 [announced, probed] queried [] htrace _ _ hquery rfl ?_
    tx' response heffect _ hmem
  intro e' he' endpoint results t hstore _
  rcases List.mem_cons.mp he' with rfl | he'
  · rw [hannounce] at hstore
    cases hstore
  · rw [List.mem_singleton.mp he', hprobe] at hstore
    cases hstore
    exact le_refl _

end Runs

end IrohExperiments.Tracker
