import IrohExperiments.Tracker.Run

/-!
# What a crash loses

The actor answers a message while the write transaction that the message is handled in is still open.
The transaction is committed when it ends, after many messages, so a process that is killed before that has
sent replies whose effect is gone when it is started again.

A `Life` is a run of the actor from the start of the process until it is killed, which can also be in
the middle of a step, after the reply was sent and before the commit.  The caches do not survive, and do
not need to: they have no influence on the tables (`exists_dispatch_tables`).

* `Actor.Split` is the invariant of the loop: the committed tables are the outcome of an initial part of
  what was handled, and the rest is the open transaction.
* `Life.exists_keeps` says what is left of one life, and `crash_refines` what is left of any number of
  them.  The tables are those of handling messages one at a time; missing are, for each life, at most
  1002 messages at its end, as many as a write transaction can take, and all of them are writes.
* `crash_refines_doubling` is a run in which this is the announce that the tracker has just accepted.
-/

namespace IrohExperiments.Tracker

section Durability

variable [KeyScheme]

/-! ## Messages and tables -/

/-- Handle a message at a time, as far as the tables go. -/
def handleTables (options : Options) (tables : Tables) (m : AbsoluteTime × ActorMessage) :
    Option Tables :=
  (dispatch options State.default m.1 m.2 tables).map fun r => r.2.1

/-- **The caches have no influence on the tables.** -/
theorem exists_dispatch_tables {options : Options} {state : State} {now : AbsoluteTime}
    {msg : ActorMessage} {tables : Tables} {r : State × Tables × List Effect}
    (h : dispatch options state now msg tables = some r) (state' : State) :
    ∃ r', dispatch options state' now msg tables = some r' ∧ r'.2.1 = r.2.1 := by
  rcases dispatch_eq_some.mp h with ⟨hcat, hhandle⟩ | ⟨hcat, _, htables, hhandle⟩
  · cases msg with
    | Announce | SetSize | SetSizes | StoreProbeResult | Gc =>
        cases hhandle
        exact ⟨_, dispatch_eq_some.mpr (Or.inl ⟨hcat, rfl⟩), rfl⟩
    | _ => cases hcat
  · have hstop : msg.isStop = false := by
      cases msg with
      | Stop => cases hhandle
      | _ => rfl
    obtain ⟨effects, heffects⟩ := exists_handleReadonly options state' now hcat hstop tables
    refine ⟨(state', tables, effects), ?_, htables.symm⟩
    exact dispatch_eq_some.mpr (Or.inr ⟨hcat, rfl, rfl, heffects⟩)

/-- What a life has handled, with the times at which it did. -/
def stamped {α : Type} (clock : ℕ → AbsoluteTime) (handled : List α) : List (AbsoluteTime × α) :=
  handled.mapIdx fun i a => (clock i, a)

/-- **The tables of a log** are those of handling its messages. -/
theorem handleTables_of_run {options : Options} {clock : ℕ → AbsoluteTime} {state : State}
    {db : Tables} {msgs : List ActorMessage} {log : Log}
    (h : Transition.run (handleMessage options clock) ⟨[], state, db⟩ msgs = some log) :
    Transition.run (handleTables options) db (stamped clock msgs) = some log.tables := by
  have hrun : log.trace.length = msgs.length ∧
      Transition.run (handleTables options) db (stamped clock msgs) = some log.tables := by
    refine Transition.run_induction (P := fun msgs (log : Log) =>
      log.trace.length = msgs.length ∧
        Transition.run (handleTables options) db (stamped clock msgs) = some log.tables)
      ⟨rfl, rfl⟩ ?_ h
    rintro msgs log msg log' _ ⟨hlength, htables⟩ hstep
    obtain ⟨r, hdispatch, rfl⟩ := handleMessage_eq_some.mp hstep
    refine ⟨by rw [List.length_append, hlength, List.length_append]; rfl, ?_⟩
    obtain ⟨r', hdispatch', htables'⟩ := exists_dispatch_tables hdispatch State.default
    rw [stamped, List.mapIdx_concat]
    refine Transition.run_concat_eq_some.mpr ⟨log.tables, htables, ?_⟩
    rw [handleTables, ← hlength, hdispatch', Option.map_some, htables']
  exact hrun.2

/-! ## What is committed -/

namespace Actor

/-- The number of messages that the open write transaction has handled. -/
def uncommitted (self : Actor) : ℕ :=
  match self.phase with
  | .Write _ n => n
  | _ => 0

/-- What a step does to the committed tables, and to what is not committed. -/
inductive StepDb (self self' : Actor) : Prop
  /-- No transaction writes. -/
  | idle (hphase : ∀ tables n, self.phase ≠ .Write tables n) (hdb : self'.db = self.db)
      (htables : self'.tables = self'.db) (hnone : self'.uncommitted = 0)
  /-- A write transaction goes on. -/
  | write (e : Event) (hhandler : e.handler = .ReadWrite) (hle : self.uncommitted ≤ 1000)
      (hdb : self'.db = self.db) (htrace : self'.trace = self.trace ++ [e])
      (hnext : self'.uncommitted = self.uncommitted + 1)
  /-- A write transaction is committed, perhaps with one more message. -/
  | commit (htables : self'.tables = self'.db) (hnone : self'.uncommitted = 0)
      (htrace : self'.trace = self.trace ∨
        ∃ e : Event, e.handler = .ReadWrite ∧ self'.trace = self.trace ++ [e])

variable {options : Options} {clock : ℕ → AbsoluteTime} {tick : Tick} {self self' : Actor}

/-- In a write transaction. -/
theorem stepDb_of_write {tables : Tables} {n : ℕ} (hp : self.phase = .Write tables n)
    (h : self.step options clock tick = some self') : StepDb self self' := by
  have hn : self.uncommitted = n := by rw [uncommitted, hp]
  rw [step, hp] at h
  simp only at h
  split at h
  · cases h
    exact .commit rfl rfl (Or.inl rfl)
  · split at h
    · cases h
      exact .commit rfl rfl (Or.inl rfl)
    · split at h
      · -- the message is handed back
        split at h
        · cases h
          exact .commit rfl rfl (Or.inl rfl)
        · cases h
          exact .commit rfl rfl (Or.inl rfl)
      · split_ifs at h with hend
        · cases h
          exact .commit rfl rfl (Or.inr ⟨_, rfl, rfl⟩)
        · cases h
          refine .write _ rfl ?_ rfl rfl (congrArg (· + 1) hn.symm)
          rw [hn]
          exact Nat.not_lt.mp fun hlt => hend (Or.inl hlt)

/-- **What a step does to the committed tables.** -/
theorem stepDb_of_step (h : self.step options clock tick = some self') : StepDb self self' := by
  cases hp : self.phase with
  | Write tables n => exact stepDb_of_write hp h
  | Peek =>
      have hphase : ∀ tables n, self.phase ≠ .Write tables n := by
        rw [hp]
        intro tables n hw
        cases hw
      rw [step, hp] at h
      simp only at h
      repeat' split at h
      all_goals
        cases h
        exact .idle hphase rfl rfl rfl
  | Read tables n =>
      have hphase : ∀ tables n, self.phase ≠ .Write tables n := by
        rw [hp]
        intro tables n hw
        cases hw
      rw [step, hp] at h
      simp only at h
      repeat' split at h
      all_goals
        cases h
        exact .idle hphase rfl rfl rfl
  | Done =>
      rw [step, hp] at h
      cases h
  | Panicked =>
      rw [step, hp] at h
      cases h

/-- The committed tables are those of the events `kept`.  The others are in the open transaction. -/
structure Split (options : Options) (clock : ℕ → AbsoluteTime) (db : Tables) (actor : Actor)
    (kept lost : List Event) : Prop where
  trace : actor.trace = kept ++ lost
  tables : Transition.run (handleTables options) db (stamped clock (kept.map Event.msg))
    = some actor.db
  length : lost.length = actor.uncommitted
  handler : ∀ e ∈ lost, e.handler = .ReadWrite
  bound : actor.uncommitted ≤ 1001

/-- If nothing is open, everything that was handled is committed. -/
theorem split_of_committed {state : State} {db : Tables} {msgs : List ActorMessage}
    {ticks : List Tick}
    (h : Transition.run (step options clock) (start state db msgs) ticks = some self)
    (htables : self.tables = self.db) (hnone : self.uncommitted = 0) :
    Split options clock db self self.trace [] := by
  obtain ⟨_, handled, _, _, hseq⟩ := exists_handled h
  obtain ⟨hmsgs, _⟩ := trace_of_run_handleMessage hseq
  have hkept := handleTables_of_run hseq
  rw [← hmsgs] at hkept
  refine ⟨(List.append_nil _).symm, ?_, hnone.symm, fun e he => absurd he List.not_mem_nil, ?_⟩
  · rw [← htables]
    exact hkept
  · rw [hnone]
    exact Nat.zero_le _

/-- **Along a run of the loop** the committed tables are those of an initial part of the trace. -/
theorem exists_split {state : State} {db : Tables} {msgs : List ActorMessage} {ticks : List Tick}
    (h : Transition.run (step options clock) (start state db msgs) ticks = some self) :
    ∃ kept lost, Split options clock db self kept lost := by
  refine Transition.run_induction (P := fun _ (self : Actor) =>
    ∃ kept lost, Split options clock db self kept lost) ?_ ?_ h
  · exact ⟨[], [], rfl, rfl, rfl, fun e he => absurd he List.not_mem_nil, Nat.zero_le _⟩
  · rintro ticks self tick self' hrun ⟨kept, lost, hsplit⟩ hstep
    have hrun' := Transition.run_concat_eq_some.mpr ⟨_, hrun, hstep⟩
    cases stepDb_of_step hstep with
    | idle _ _ htables hnone => exact ⟨_, _, split_of_committed hrun' htables hnone⟩
    | commit htables hnone _ => exact ⟨_, _, split_of_committed hrun' htables hnone⟩
    | write e hhandler hle hdb htrace hnext =>
        refine ⟨kept, lost ++ [e], ?_, ?_, ?_, ?_, ?_⟩
        · rw [htrace, hsplit.trace, List.append_assoc]
        · rw [hdb, hsplit.tables]
        · rw [List.length_append, hsplit.length, hnext, List.length_singleton]
        · intro e' he'
          rcases List.mem_append.mp he' with he' | he'
          · exact hsplit.handler e' he'
          · rw [List.mem_singleton.mp he']
            exact hhandler
        · rw [hnext]
          exact Nat.succ_le_succ hle

end Actor

/-! ## Lives -/

/-- The process from a start until it is killed: what the actor is sent, how its transactions are cut,
and the step in the middle of which it is killed, if it is not killed between two steps. -/
structure Life where
  msgs : List ActorMessage
  clock : ℕ → AbsoluteTime
  ticks : List Tick
  killed : Option Tick

/-- What is on disk, and for each life what was handled in it. -/
structure Disk where
  db : Tables
  history : List (List (AbsoluteTime × Event))

/-- What the actor has handled in its life, and the tables that it leaves behind.  A message handled
in the step that is cut short is answered, but the step commits nothing. -/
def Life.run (options : Options) (db : Tables) (life : Life) : Option (List Event × Tables) := do
  let actor ← Transition.run (Actor.step options life.clock)
    (Actor.start State.default db life.msgs) life.ticks
  match life.killed with
  | none => return (actor.trace, actor.db)
  | some tick =>
      let actor' ← actor.step options life.clock tick
      return (actor'.trace, actor.db)

/-- One more life, on the tables that the one before it has left behind. -/
def Disk.step (options : Options) (disk : Disk) (life : Life) : Option Disk := do
  let (trace, db) ← life.run options disk.db
  return ⟨db, disk.history ++ [stamped life.clock trace]⟩

/-- What is kept of the events of a life: all but a number of writes at its end. -/
def Keeps (handled : List (AbsoluteTime × Event)) (kept : List (AbsoluteTime × ActorMessage)) :
    Prop :=
  ∃ before lost : List (AbsoluteTime × Event), handled = before ++ lost ∧
    kept = before.map (Prod.map id Event.msg) ∧
    lost.length ≤ 1002 ∧ ∀ e ∈ lost, e.2.handler = .ReadWrite

omit [KeyScheme] in
theorem stamped_map {α β : Type} (clock : ℕ → AbsoluteTime) (f : α → β) (handled : List α) :
    stamped clock (handled.map f) = (stamped clock handled).map (Prod.map id f) := by
  refine List.ext_getElem (by simp [stamped]) fun i _ _ => ?_
  simp [stamped]

/-- A trace that was cut in two. -/
theorem keeps_of_append {clock : ℕ → AbsoluteTime} {trace kept lost : List Event}
    (htrace : trace = kept ++ lost) (hlength : lost.length ≤ 1002)
    (hhandler : ∀ e ∈ lost, e.handler = .ReadWrite) :
    Keeps (stamped clock trace) (stamped clock (kept.map Event.msg)) := by
  refine ⟨stamped clock kept, stamped (fun i => clock (i + kept.length)) lost, ?_,
    stamped_map clock Event.msg kept, ?_, ?_⟩
  · rw [htrace, stamped, List.mapIdx_append]
    rfl
  · rw [stamped, List.length_mapIdx]
    exact hlength
  · intro e he
    obtain ⟨i, hi, rfl⟩ := List.mem_mapIdx.mp he
    exact hhandler _ (List.getElem_mem hi)

/-- What the open transaction has handled is lost. -/
theorem keeps_of_split {options : Options} {clock : ℕ → AbsoluteTime} {db : Tables} {actor : Actor}
    {kept lost : List Event} (h : Actor.Split options clock db actor kept lost) :
    Keeps (stamped clock actor.trace) (stamped clock (kept.map Event.msg)) := by
  refine keeps_of_append h.trace ?_ h.handler
  rw [h.length]
  exact h.bound.trans (Nat.le_succ _)

/-- And perhaps one more message, if the step that handles it is cut short. -/
theorem keeps_of_split_of_concat {options : Options} {clock : ℕ → AbsoluteTime} {db : Tables}
    {actor actor' : Actor} {kept lost : List Event} {e : Event}
    (h : Actor.Split options clock db actor kept lost) (he : e.handler = .ReadWrite)
    (htrace : actor'.trace = actor.trace ++ [e]) :
    Keeps (stamped clock actor'.trace) (stamped clock (kept.map Event.msg)) := by
  have hcut : actor'.trace = kept ++ (lost ++ [e]) := by
    rw [htrace, h.trace, List.append_assoc]
  refine keeps_of_append hcut ?_ ?_
  · rw [List.length_append, h.length, List.length_singleton]
    exact Nat.succ_le_succ h.bound
  · intro e' he'
    rcases List.mem_append.mp he' with he' | he'
    · exact h.handler e' he'
    · rw [List.mem_singleton.mp he']
      exact he

/-- **What is left of one life.** -/
theorem Life.exists_keeps {options : Options} {db db' : Tables} {life : Life} {trace : List Event}
    (h : life.run options db = some (trace, db')) :
    ∃ kept, Keeps (stamped life.clock trace) kept ∧
      Transition.run (handleTables options) db kept = some db' := by
  obtain ⟨actor, hrun, h⟩ := Option.bind_eq_some_iff.mp h
  obtain ⟨kept, lost, hsplit⟩ := Actor.exists_split hrun
  cases hkilled : life.killed with
  | none =>
      simp only [hkilled] at h
      cases h
      exact ⟨_, keeps_of_split hsplit, hsplit.tables⟩
  | some tick =>
      simp only [hkilled] at h
      obtain ⟨actor', hstep, h⟩ := Option.bind_eq_some_iff.mp h
      cases h
      cases Actor.stepDb_of_step hstep with
      | idle _ hdb htables hnone =>
          -- there was nothing to commit, so that the step was not finished makes no difference
          have hrun' := Transition.run_concat_eq_some.mpr ⟨_, hrun, hstep⟩
          have hsplit' := Actor.split_of_committed hrun' htables hnone
          refine ⟨_, keeps_of_split hsplit', ?_⟩
          rw [hsplit'.tables, hdb]
      | write e hhandler _ _ htrace _ =>
          exact ⟨_, keeps_of_split_of_concat hsplit hhandler htrace, hsplit.tables⟩
      | commit _ _ htrace =>
          rcases htrace with htrace | ⟨e, hhandler, htrace⟩
          · refine ⟨_, ?_, hsplit.tables⟩
            rw [htrace]
            exact keeps_of_split hsplit
          · exact ⟨_, keeps_of_split_of_concat hsplit hhandler htrace, hsplit.tables⟩

/-- **A crash loses the writes at the end of a life**, no more of them than a write transaction can take,
and nothing else. -/
theorem crash_refines (options : Options) (db : Tables) (lives : List Life) (disk : Disk)
    (h : Transition.run (Disk.step options) ⟨db, []⟩ lives = some disk) :
    ∃ kept, List.Forall₂ Keeps disk.history kept ∧
      Transition.run (handleTables options) db kept.flatten = some disk.db := by
  refine Transition.run_invariant (I := fun disk : Disk =>
    ∃ kept, List.Forall₂ Keeps disk.history kept ∧
      Transition.run (handleTables options) db kept.flatten = some disk.db) ?_ ?_ h
  · exact ⟨[], List.Forall₂.nil, rfl⟩
  · rintro disk life disk' ⟨kept, hkeeps, hdb⟩ hstep
    obtain ⟨⟨trace, db'⟩, hrun, hdisk⟩ := Option.bind_eq_some_iff.mp hstep
    cases hdisk
    obtain ⟨kept', hkept', hdb'⟩ := Life.exists_keeps hrun
    refine ⟨kept ++ [kept'], List.rel_append hkeeps (.cons hkept' .nil), ?_⟩
    rw [List.flatten_append, List.flatten_singleton, Transition.run_append, hdb]
    exact hdb'

end Durability

section Crashes

attribute [local instance] KeyScheme.doubling

/-- Two lives.  The first is killed when it has accepted an announce, the second when it has answered a query. -/
def Life.doubling : List Life :=
  [⟨Actor.mixedMessages, fun n => ⟨n.toUInt64⟩, [⟨false, false⟩], some ⟨false, false⟩⟩,
    ⟨Actor.mixedMessages.tail, fun n => ⟨n.toUInt64⟩, [⟨false, false⟩, ⟨false, false⟩], none⟩]

/-- The announce is accepted, and the tracker knows nothing of it when it is started again. -/
theorem crash_refines_doubling :
    ∃ disk, Transition.run (Disk.step Options.debug) ⟨Tables.empty, []⟩ Life.doubling = some disk ∧
      disk.history.map (fun handled => (handled.map fun e => e.2.effects).flatten)
        = [[.announce 0 (.ok ⟨true, true⟩)], [.query 1 ⟨[]⟩]] ∧
      ∃ kept, List.Forall₂ Keeps disk.history kept ∧
        Transition.run (handleTables Options.debug) Tables.empty kept.flatten = some disk.db := by
  have hhistory : (Transition.run (Disk.step Options.debug) ⟨Tables.empty, []⟩ Life.doubling).map
      (fun disk => disk.history.map fun handled => (handled.map fun e => e.2.effects).flatten)
        = some [[.announce 0 (.ok ⟨true, true⟩)], [.query 1 ⟨[]⟩]] := by
    rfl
  obtain ⟨disk, hdisk, heffects⟩ := Option.map_eq_some_iff.mp hhistory
  exact ⟨disk, hdisk, heffects, crash_refines _ _ _ _ hdisk⟩

end Crashes

end IrohExperiments.Tracker
