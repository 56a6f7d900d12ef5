import IrohExperiments.Tracker.Verified
import IrohExperiments.Lib.U64

/-!
# The subtractions of times

Queries and collections subtract stored times from the time they read.  The stored times of announces
were chosen by the hosts that signed them, and nothing keeps them from lying ahead of the clock of the
tracker.  The subtraction of such a time underflows: a build with overflow checks panics, another one
goes on with an age that is far too large.

`handleQueryIn` and `gcIn` are the two handlers with the build as a parameter.  Without the checks
they are the handlers of `Actor.lean` (`handleQueryIn_release`, `gcIn_release`), and with the checks
they are too as long as no subtraction underflows (`queryLoopIn_eq`, `gcToRemoveIn_eq`).  The main
result is about the messages of a run: no subtraction underflows if and only if the rows that the
message looks at are stamped before it (`run_noUnderflow`).
-/

namespace IrohExperiments.Tracker

/-! ## Both builds -/

/-- The subtraction of times in a build. -/
def AbsoluteTime.subIn (build : U64.Build) (self rhs : AbsoluteTime) : Option Duration :=
  (U64.sub build self.micros rhs.micros).map Duration.fromMicros

/-- The subtraction does not underflow in this build. -/
def AbsoluteTime.SubOk (build : U64.Build) (now t : AbsoluteTime) : Prop :=
  now.subIn build t = some (now - t)

theorem AbsoluteTime.subOk_release (now t : AbsoluteTime) : SubOk .Release now t := rfl

/-- A subtraction that does not panic is the one of a build without overflow checks. -/
theorem AbsoluteTime.subOk_of_eq_some {build : U64.Build} {now t : AbsoluteTime} {age : Duration}
    (h : now.subIn build t = some age) : SubOk build now t := by
  cases build with
  | Release => exact subOk_release now t
  | Debug =>
      rw [SubOk, subIn, U64.sub]
      rw [subIn, U64.sub] at h
      split_ifs with hle
      · rfl
      · rw [if_neg hle] at h
        cases h

/-- **With overflow checks** a subtraction of times is one of an earlier time. -/
theorem AbsoluteTime.subOk_debug_iff (now t : AbsoluteTime) : SubOk .Debug now t ↔ t ≤ now := by
  rw [SubOk, subIn, U64.sub, le_iff]
  split_ifs with h
  · exact iff_of_true rfl h
  · exact iff_of_false nofun h

section Handlers

variable [KeyScheme]

/-- Whether the last probe is good enough for the query.  It is only looked at for a verified one. -/
def probeTestIn (build : U64.Build) (options : Options) (now : AbsoluteTime) (query : Query)
    (lastProbed : Option AbsoluteTime) : Option Bool :=
  if query.flags.verified then
    match lastProbed with
    | some t => (now.subIn build t).map fun age => decide (age ≤ options.probeTimeout)
    | none => some false
  else some true

def queryLoopIn (build : U64.Build) (options : Options) (now : AbsoluteTime) (query : Query)
    (probes : RecordTable AnnouncePath ProbeValue) :
    List (AnnouncePath × AnnounceValue) → Option (List SignedAnnounce)
  | [] => some []
  | (path, value) :: rest =>
      let kind := AnnounceKind.fromComplete query.flags.complete
      if kind = .Complete ∧ path.announceKind = .Partial then
        queryLoopIn build options now query probes rest
      else do
        let age ← now.subIn build value.timestamp
        if ¬ age ≤ options.announceTimeout then queryLoopIn build options now query probes rest
        else
          let recentlyProbed ← probeTestIn build options now query
            ((probes.get path).map ProbeValue.timestamp)
          if ¬ recentlyProbed then queryLoopIn build options now query probes rest
          else do
            let signedAnnounce ← joinSignedAnnounce path value
            let announces ← queryLoopIn build options now query probes rest
            return signedAnnounce :: announces

def handleQueryIn (build : U64.Build) (options : Options) (now : AbsoluteTime) (query : Query)
    (tables : Tables) : Option QueryResponse := do
  let announces ← queryLoopIn build options now query tables.probes
    (tables.announces.range (AnnouncePath.contentMin query.content)
      (AnnouncePath.contentMax query.content))
  return ⟨announces⟩

def gcToRemoveIn (build : U64.Build) (options : Options) (now : AbsoluteTime)
    (probes : RecordTable AnnouncePath ProbeValue) :
    List (AnnouncePath × ProbeValue) → Option (List AnnouncePath)
  | [] => some []
  | (path, value) :: rest => do
      let announceAge ← now.subIn build value.timestamp
      if announceAge ≤ options.announceExpiry then gcToRemoveIn build options now probes rest
      else
        match (probes.get path).map ProbeValue.timestamp with
        | some lastProbe => do
            let age ← now.subIn build lastProbe
            if age ≤ options.probeExpiry then gcToRemoveIn build options now probes rest
            else do
              let toRemove ← gcToRemoveIn build options now probes rest
              return path :: toRemove
        | none => do
            let toRemove ← gcToRemoveIn build options now probes rest
            return path :: toRemove

def gcIn (build : U64.Build) (options : Options) (now : AbsoluteTime) (tables : Tables) :
    Option Tables := do
  let toRemove ← gcToRemoveIn build options now tables.probes tables.probes.iter
  return toRemove.foldl Tables.remove tables

/-! ## Without underflow -/

open AbsoluteTime

omit [KeyScheme] in
theorem probeTestIn_eq {build : U64.Build} {options : Options} {now : AbsoluteTime} {query : Query}
    {probe : Option ProbeValue}
    (h : query.flags.verified = true → ∀ p ∈ probe, SubOk build now p.timestamp) :
    probeTestIn build options now query (probe.map ProbeValue.timestamp)
      = some (decide ¬ (query.flags.verified ∧ ¬ ((probe.map ProbeValue.timestamp).map
          fun t => decide (now - t ≤ options.probeTimeout)).getD false)) := by
  cases hverified : query.flags.verified with
  | false => simp [probeTestIn, hverified]
  | true =>
      cases probe with
      | none => simp [probeTestIn, hverified]
      | some p =>
          have hsub : now.subIn build p.timestamp = some (now - p.timestamp) := h hverified p rfl
          simp [probeTestIn, hverified, hsub]

/-- The subtractions of the loop for one row do not underflow. -/
def RowOk (build : U64.Build) (options : Options) (now : AbsoluteTime) (query : Query)
    (probes : RecordTable AnnouncePath ProbeValue) (r : AnnouncePath × AnnounceValue) : Prop :=
  (query.flags.complete = true → r.1.announceKind = .Complete) →
    SubOk build now r.2.timestamp ∧
      (query.flags.verified = true → now - r.2.timestamp ≤ options.announceTimeout →
        ∀ p ∈ probes.get r.1, SubOk build now p.timestamp)

/-- **The loop of a query**, when none of its subtractions underflows. -/
theorem queryLoopIn_eq {build : U64.Build} {options : Options} {now : AbsoluteTime} {query : Query}
    {probes : RecordTable AnnouncePath ProbeValue} {rows : List (AnnouncePath × AnnounceValue)}
    (h : ∀ r ∈ rows, RowOk build options now query probes r) :
    queryLoopIn build options now query probes rows = queryLoop options now query probes rows := by
  induction rows with
  | nil => rfl
  | cons r rows ih =>
      obtain ⟨path, value⟩ := r
      have ih' := ih fun r' hr' => h r' (List.mem_cons_of_mem _ hr')
      rw [queryLoopIn, queryLoop]
      simp only [ih']
      by_cases hkind : AnnounceKind.fromComplete query.flags.complete = .Complete ∧
          path.announceKind = .Partial
      · rw [if_pos hkind, if_pos hkind]
      rw [if_neg hkind, if_neg hkind]
      obtain ⟨hsub, hprobe⟩ := h _ List.mem_cons_self ((kind_test_iff query _).mp hkind)
      simp only at hsub hprobe
      rw [hsub, Option.bind_eq_bind, Option.bind_some]
      by_cases hage : now - value.timestamp ≤ options.announceTimeout
      · rw [if_neg (not_not.mpr hage), if_neg (not_not.mpr hage)]
        rw [probeTestIn_eq fun hverified => hprobe hverified hage, Option.bind_eq_bind,
          Option.bind_some]
        simp only [decide_eq_true_eq, not_not]
      · rw [if_pos hage, if_pos hage]

/-- If the loop does not panic, none of its subtractions underflows. -/
theorem rowOk_of_queryLoopIn {build : U64.Build} {options : Options} {now : AbsoluteTime}
    {query : Query} {probes : RecordTable AnnouncePath ProbeValue}
    {rows : List (AnnouncePath × AnnounceValue)} {announces : List SignedAnnounce}
    (h : queryLoopIn build options now query probes rows = some announces) :
    ∀ r ∈ rows, RowOk build options now query probes r := by
  induction rows generalizing announces with
  | nil => exact fun r hr => absurd hr List.not_mem_nil
  | cons r rows ih =>
      obtain ⟨path, value⟩ := r
      -- what is left to show is about the first row, and that the rest of the loop does not panic
      suffices hfirst : RowOk build options now query probes (path, value) ∧
          ∃ announces', queryLoopIn build options now query probes rows = some announces' by
        obtain ⟨hrow, announces', hrest⟩ := hfirst
        intro r hr
        rcases List.mem_cons.mp hr with rfl | hr
        · exact hrow
        · exact ih hrest r hr
      rw [queryLoopIn] at h
      by_cases hkind : AnnounceKind.fromComplete query.flags.complete = .Complete ∧
          path.announceKind = .Partial
      · simp only [if_pos hkind] at h
        exact ⟨fun hc => absurd hkind ((kind_test_iff query _).mpr hc), announces, h⟩
      simp only [if_neg hkind] at h
      obtain ⟨age, hsub, h⟩ := Option.bind_eq_some_iff.mp h
      have hok := subOk_of_eq_some hsub
      obtain rfl := Option.some.inj (hsub.symm.trans hok)
      by_cases hage : now - value.timestamp ≤ options.announceTimeout
      · rw [if_neg (not_not.mpr hage)] at h
        obtain ⟨recent, hrecent, h⟩ := Option.bind_eq_some_iff.mp h
        refine ⟨fun _ => ⟨hok, fun hverified _ p hp => ?_⟩, ?_⟩
        · rw [show probes.get path = some p from hp] at hrecent
          unfold probeTestIn at hrecent
          rw [if_pos hverified] at hrecent
          obtain ⟨_, hprobe, _⟩ := Option.map_eq_some_iff.mp hrecent
          exact subOk_of_eq_some hprobe
        · split_ifs at h
          · obtain ⟨_, _, h⟩ := Option.bind_eq_some_iff.mp h
            obtain ⟨rest, hrest, _⟩ := Option.bind_eq_some_iff.mp h
            exact ⟨rest, hrest⟩
          · exact ⟨_, h⟩
      · rw [if_pos hage] at h
        exact ⟨fun _ => ⟨hok, fun _ hle => absurd hle hage⟩, _, h⟩

omit [KeyScheme] in
/-- **The loop of a collection**, when none of its subtractions underflows. -/
theorem gcToRemoveIn_eq {build : U64.Build} {options : Options} {now : AbsoluteTime}
    {probes : RecordTable AnnouncePath ProbeValue} {rows : List (AnnouncePath × ProbeValue)}
    (hrows : ∀ r ∈ rows, SubOk build now r.2.timestamp)
    (hprobes : ∀ path, ∀ p ∈ probes.get path, SubOk build now p.timestamp) :
    gcToRemoveIn build options now probes rows = some (gcToRemove options now probes rows) := by
  induction rows with
  | nil => rfl
  | cons r rows ih =>
      obtain ⟨path, value⟩ := r
      have ih' := ih fun r' hr' => hrows r' (List.mem_cons_of_mem _ hr')
      have hsub : now.subIn build value.timestamp = some (now - value.timestamp) :=
        hrows _ List.mem_cons_self
      rw [gcToRemoveIn, gcToRemove]
      simp only [hsub, ih', Option.bind_eq_bind, Option.bind_some]
      by_cases hage : now - value.timestamp ≤ options.announceExpiry
      · rw [if_pos hage, if_pos hage]
      rw [if_neg hage, if_neg hage]
      cases hprobe : probes.get path with
      | none => rfl
      | some p =>
          have hlast : now.subIn build p.timestamp = some (now - p.timestamp) :=
            hprobes path p hprobe
          simp only [Option.map_some, hlast, Option.bind_some]
          split_ifs
          · rfl
          · rfl

omit [KeyScheme] in
/-- If the loop does not panic, none of its subtractions underflows. -/
theorem subOk_of_gcToRemoveIn {build : U64.Build} {options : Options} {now : AbsoluteTime}
    {probes : RecordTable AnnouncePath ProbeValue} {rows : List (AnnouncePath × ProbeValue)}
    {toRemove : List AnnouncePath}
    (h : gcToRemoveIn build options now probes rows = some toRemove) :
    ∀ r ∈ rows, SubOk build now r.2.timestamp := by
  induction rows generalizing toRemove with
  | nil => exact fun r hr => absurd hr List.not_mem_nil
  | cons r rows ih =>
      obtain ⟨path, value⟩ := r
      rw [gcToRemoveIn] at h
      obtain ⟨age, hsub, h⟩ := Option.bind_eq_some_iff.mp h
      obtain ⟨rest, hrest⟩ : ∃ rest, gcToRemoveIn build options now probes rows = some rest := by
        split_ifs at h
        · exact ⟨_, h⟩
        · cases hprobe : (probes.get path).map ProbeValue.timestamp with
          | none =>
              rw [hprobe] at h
              obtain ⟨rest, hrest, _⟩ := Option.bind_eq_some_iff.mp h
              exact ⟨rest, hrest⟩
          | some lastProbe =>
              rw [hprobe] at h
              obtain ⟨_, _, h⟩ := Option.bind_eq_some_iff.mp h
              split_ifs at h
              · exact ⟨_, h⟩
              · obtain ⟨rest, hrest, _⟩ := Option.bind_eq_some_iff.mp h
                exact ⟨rest, hrest⟩
      intro r hr
      rcases List.mem_cons.mp hr with rfl | hr
      · exact subOk_of_eq_some hsub
      · exact ih hrest r hr

/-- Without overflow checks the handler is the one of the actor. -/
theorem handleQueryIn_release (options : Options) (now : AbsoluteTime) (query : Query)
    (tables : Tables) :
    handleQueryIn .Release options now query tables = handleQuery options now query tables := by
  rw [handleQueryIn, handleQuery, queryLoopIn_eq]
  exact fun r _ _ => ⟨subOk_release _ _, fun _ _ p _ => subOk_release _ _⟩

/-- **A query that is answered**, in any build, is answered as without the checks. -/
theorem handleQuery_of_handleQueryIn {build : U64.Build} {options : Options} {now : AbsoluteTime}
    {query : Query} {tables : Tables} {response : QueryResponse}
    (h : handleQueryIn build options now query tables = some response) :
    handleQuery options now query tables = some response := by
  obtain ⟨announces, hloop, _⟩ := Option.bind_eq_some_iff.mp h
  rw [← h, handleQueryIn, handleQuery, queryLoopIn_eq (rowOk_of_queryLoopIn hloop)]

theorem gcIn_release (options : Options) (now : AbsoluteTime) (tables : Tables) :
    gcIn .Release options now tables = some (gc options now tables) := by
  rw [gcIn, gc, gcToRemoveIn_eq (fun r _ => subOk_release _ _) fun _ p _ => subOk_release _ _]
  rfl

/-! ## Messages -/

/-- No subtraction underflows while the message is handled: with overflow checks the handlers do not
panic, and do what they do without. -/
def NoUnderflow (options : Options) (now : AbsoluteTime) (tables : Tables) : ActorMessage → Prop
  | .Query query _ => ∃ response, handleQueryIn .Debug options now query tables = some response ∧
      handleQueryIn .Release options now query tables = some response
  | .Gc _ => ∃ tables', gcIn .Debug options now tables = some tables' ∧
      gcIn .Release options now tables = some tables'
  | _ => True

/-- The rows that the message looks at are stamped before it.  For a query these are the announces of
its hash, of a kind it asks for, and if it is a verified query the probes of those that are recent;
for a collection they are all probes. -/
def StampedBefore (options : Options) (now : AbsoluteTime) (tables : Tables) : ActorMessage → Prop
  | .Query query _ => ∀ a ∈ tables.announced, a.announce.content.hash = query.content.hash →
      (query.flags.complete = true → a.announce.kind = .Complete) →
        a.announce.timestamp ≤ now ∧
          (query.flags.verified = true → now.age a.announce.timestamp ≤ options.announceTimeout →
            ∀ p ∈ tables.probes.get (splitSignedAnnounce a).1, p.timestamp ≤ now)
  | .Gc _ => ∀ r ∈ tables.probes.iter, r.2.timestamp ≤ now
  | _ => True

/-- The scan of a query finds announces of its hash, and the subtractions for a row are those of the
announce it stands for. -/
theorem rowOk_debug_iff (options : Options) (now : AbsoluteTime) (query : Query) (tables : Tables) :
    (∀ r ∈ tables.announces.range (AnnouncePath.contentMin query.content)
        (AnnouncePath.contentMax query.content), RowOk .Debug options now query tables.probes r)
      ↔ ∀ tx, StampedBefore options now tables (.Query query tx) := by
  have hrow : ∀ a : SignedAnnounce,
      RowOk .Debug options now query tables.probes (splitSignedAnnounce a)
        ↔ ((query.flags.complete = true → a.announce.kind = .Complete) →
          a.announce.timestamp ≤ now ∧
            (query.flags.verified = true → now.age a.announce.timestamp ≤ options.announceTimeout →
              ∀ p ∈ tables.probes.get (splitSignedAnnounce a).1, p.timestamp ≤ now)) := by
    intro a
    rw [RowOk]
    simp only [subOk_debug_iff, splitSignedAnnounce, AnnouncePath.announceKind_new]
    refine imp_congr_right fun _ => and_congr_right fun hle => ?_
    rw [AbsoluteTime.sub_of_le hle]
  constructor
  · intro h _ a ha hhash
    refine (hrow a).mp (h _ ((AnnouncePath.mem_range_iff _ _ _).mpr ⟨?_, hhash⟩))
    rw [← tables.map_splitSignedAnnounce_announced]
    exact List.mem_map_of_mem ha
  · intro h r hr
    obtain ⟨hr, hhash⟩ := (AnnouncePath.mem_range_iff _ _ r).mp hr
    rw [← tables.map_splitSignedAnnounce_announced] at hr
    obtain ⟨a, ha, rfl⟩ := List.mem_map.mp hr
    exact (hrow a).mpr (h 0 a ha hhash)

/-- **When a message is handled without underflow.** -/
theorem noUnderflow_iff (options : Options) (now : AbsoluteTime) (tables : Tables)
    (msg : ActorMessage) :
    NoUnderflow options now tables msg ↔ StampedBefore options now tables msg := by
  cases msg with
  | Query query tx =>
      have hrows := rowOk_debug_iff options now query tables
      constructor
      · rintro ⟨response, hdebug, _⟩
        obtain ⟨announces, hloop, _⟩ := Option.bind_eq_some_iff.mp hdebug
        exact hrows.mp (rowOk_of_queryLoopIn hloop) tx
      · intro h
        obtain ⟨response, hresponse, _⟩ := exists_handleQuery options now query tables
        refine ⟨response, ?_, by rw [handleQueryIn_release, hresponse]⟩
        rw [← hresponse, handleQueryIn, handleQuery, queryLoopIn_eq (hrows.mpr fun _ => h)]
  | Gc tx =>
      constructor
      · rintro ⟨tables', hdebug, _⟩
        obtain ⟨toRemove, hloop, _⟩ := Option.bind_eq_some_iff.mp hdebug
        exact fun r hr => (subOk_debug_iff _ _).mp (subOk_of_gcToRemoveIn hloop r hr)
      · intro h
        have hall : ∀ r ∈ tables.probes.iter, SubOk .Debug now r.2.timestamp := fun r hr =>
          (subOk_debug_iff _ _).mpr (h r hr)
        refine ⟨_, ?_, gcIn_release options now tables⟩
        rw [gcIn, gc, gcToRemoveIn_eq hall fun path p hp =>
          hall _ ((tables.probes.mem_iter_iff path p).mpr hp)]
        rfl
  | _ => exact Iff.rfl

/-- Rows stand for announces and probes that were handled before.  If those are all stamped before a
message, so is what it looks at. -/
theorem stampedBefore_of_handled {options : Options} {now : AbsoluteTime} {log : Log}
    (hrows : ∀ a, splitSignedAnnounce a ∈ log.tables.announces.iter → Submitted log.trace a)
    (hprobed : log.Probed) (hannounces : ∀ a, Submitted log.trace a → a.announce.timestamp ≤ now)
    (hprobes : ∀ path t, Probed log.trace path t → t ≤ now) (msg : ActorMessage) :
    StampedBefore options now log.tables msg := by
  have hprobe : ∀ r ∈ log.tables.probes.iter, r.2.timestamp ≤ now := fun r hr =>
    hprobes r.1 r.2.timestamp (hprobed r hr)
  cases msg with
  | Query query tx =>
      intro a ha _ _
      refine ⟨hannounces a (hrows a ?_), fun _ _ p hp => ?_⟩
      · rw [← log.tables.map_splitSignedAnnounce_announced]
        exact List.mem_map_of_mem ha
      · exact hprobe _ ((log.tables.probes.mem_iter_iff _ p).mpr hp)
  | Gc tx => exact hprobe
  | _ => exact trivial

/-! ## Runs -/

/-- **When ages can be computed.**  Whatever the actor has handled before, a query or a collection is
handled without underflow if and only if the rows it looks at are stamped before it.  This is the case
if all valid announces and all successful probes before it are. -/
theorem run_noUnderflow (options : Options) (clock : ℕ → AbsoluteTime) (state : State)
    (msgs : List ActorMessage) (ticks : List Tick) (actor : Actor)
    (hrun : Transition.run (Actor.step options clock) (Actor.start state Tables.empty msgs) ticks
      = some actor) :
    ∀ earlier e later, actor.trace = earlier ++ e :: later →
      ∃ log, Transition.run (handleMessage options clock) ⟨[], state, Tables.empty⟩
          (earlier.map Event.msg) = some log ∧
        (NoUnderflow options (clock earlier.length) log.tables e.msg
          ↔ StampedBefore options (clock earlier.length) log.tables e.msg) ∧
        ((∀ a, Submitted earlier a → a.announce.timestamp ≤ clock earlier.length) →
          (∀ path t, Probed earlier path t → t ≤ clock earlier.length) →
            NoUnderflow options (clock earlier.length) log.tables e.msg) := by
  intro earlier e later htrace
  obtain ⟨log, log', hlog, rfl, _⟩ := Actor.handledAfter_of_run hrun htrace
  refine ⟨log, hlog, noUnderflow_iff _ _ _ _, fun hannounces hprobes => ?_⟩
  exact (noUnderflow_iff _ _ _ _).mpr (stampedBefore_of_handled (authentic_of_run hlog).rows
    (probed_of_run hlog) hannounces hprobes e.msg)

end Handlers

section Runs

attribute [local instance] KeyScheme.doubling

/-- A query after an announce and a probe that were stamped before it. -/
theorem run_noUnderflow_probed :
    ∃ actor, Transition.run (Actor.step Options.debug fun n => ⟨n.toUInt64⟩)
        (Actor.start State.default Tables.empty probedMessages)
        (List.replicate 7 ⟨false, false⟩) = some actor ∧
      ∃ earlier e later log, actor.trace = earlier ++ e :: later ∧
        (∃ query tx, e.msg = .Query query tx) ∧
        Transition.run (handleMessage Options.debug fun n => ⟨n.toUInt64⟩)
          ⟨[], State.default, Tables.empty⟩ (earlier.map Event.msg) = some log ∧
        NoUnderflow Options.debug ⟨earlier.length.toUInt64⟩ log.tables e.msg := by
  obtain ⟨actor, announced, probed, queried, hactor, htrace, hmsgs, _⟩ := exists_probedRun
  injection hmsgs with hannounce hmsgs
  injection hmsgs with hprobe hmsgs
  injection hmsgs with hquery _
  obtain ⟨log, hlog, _, hsafe⟩ := run_noUnderflow _ _ _ _ _ _ hactor [announced, probed] queried []
    htrace
  refine ⟨actor, hactor, _, _, _, log, htrace, ⟨_, _, hquery⟩, hlog, hsafe ?_ ?_⟩
  · rintro a ⟨⟨e, he, tx, hmsg⟩, _⟩
    rcases List.mem_cons.mp he with rfl | he
    · rw [hannounce] at hmsg
      cases hmsg
      exact show AbsoluteTime.mk 1 ≤ AbsoluteTime.mk 2 by decide
    · rw [List.mem_singleton.mp he, hprobe] at hmsg
      cases hmsg
  · rintro path t ⟨e, he, endpoint, results, hmsg, _⟩
    rcases List.mem_cons.mp he with rfl | he
    · rw [hannounce] at hmsg
      cases hmsg
    · rw [List.mem_singleton.mp he, hprobe] at hmsg
      cases hmsg
      exact le_refl _

/-- An announce that is stamped a millisecond ahead of the clock, and a query. -/
def aheadMessages : List ActorMessage :=
  [.Announce (SignedAnnounce.doubling 7 (.filled 1 .Raw) .Complete ⟨1000⟩) 0,
    .Query ⟨.filled 1 .Raw, ⟨true, false⟩⟩ 1]

/-- **An age that cannot be computed.**  The announce is accepted, and the query subtracts its time
from an earlier one. -/
theorem ahead_announce_underflows :
    ∃ actor, Transition.run (Actor.step Options.debug fun n => ⟨n.toUInt64⟩)
        (Actor.start State.default Tables.empty aheadMessages)
        (List.replicate 5 ⟨false, false⟩) = some actor ∧
      ∃ earlier e later log, actor.trace = earlier ++ e :: later ∧
        Transition.run (handleMessage Options.debug fun n => ⟨n.toUInt64⟩)
          ⟨[], State.default, Tables.empty⟩ (earlier.map Event.msg) = some log ∧
        ¬ NoUnderflow Options.debug ⟨earlier.length.toUInt64⟩ log.tables e.msg := by
  have hlength : ((Transition.run (Actor.step Options.debug fun n => ⟨n.toUInt64⟩)
      (Actor.start State.default Tables.empty aheadMessages)
      (List.replicate 5 ⟨false, false⟩)).map fun actor => actor.trace.length) = some 2 := by
    decide +kernel
  obtain ⟨actor, hactor, hlength⟩ := Option.map_eq_some_iff.mp hlength
  have hhandled := (Actor.run_refines _ _ _ _ _ _ _ hactor).1.handled
  obtain ⟨announced, queried, htrace⟩ := List.length_eq_two.mp hlength
  rw [htrace] at hhandled
  have hmsgs : [announced.msg, queried.msg] = aheadMessages := hhandled.eq_of_length rfl
  injection hmsgs with hannounce hmsgs
  injection hmsgs with hquery _
  -- the announce is in the table when the query is handled
  have hannounced : ((Transition.run (handleMessage Options.debug fun n => ⟨n.toUInt64⟩)
      ⟨[], State.default, Tables.empty⟩ (aheadMessages.take 1)).map fun log =>
        log.tables.announced)
          = some [SignedAnnounce.doubling 7 (.filled 1 .Raw) .Complete ⟨1000⟩] := by
    decide +kernel
  obtain ⟨log, hlog, hannounced⟩ := Option.map_eq_some_iff.mp hannounced
  refine ⟨actor, hactor, [announced], queried, [], log, htrace, ?_, ?_⟩
  · rw [List.map_singleton, hannounce]
    exact hlog
  · rw [noUnderflow_iff, hquery]
    intro h
    obtain ⟨hle, _⟩ := h _ (hannounced ▸ List.mem_cons_self) rfl fun _ => rfl
    exact absurd (show AbsoluteTime.mk 1000 ≤ AbsoluteTime.mk 1 from hle) (by decide)

end Runs

end IrohExperiments.Tracker
