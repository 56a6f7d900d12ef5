import IrohExperiments.Tracker.ProbeOne
import IrohExperiments.Tracker.Run
import IrohExperiments.Tracker.Writes

/-!
# Probe results that come back late

A probe task asks the actor for the content of its endpoint, probes it over the network, and sends back
the results.  The actor stores a success without a look at the announces, so if the path was collected
in between, then a probe is stored for a path that is not announced.

`ProbeSystem` is the actor with any number of such tasks.  Announces and collections keep every probe
with its announce, and a store does if and only if the paths it has a success for are still announced
(`probesAnnounced_step_iff`).  So `probes_announced_iff` says exactly in which runs a probe always
refers to an announce.
-/

namespace IrohExperiments.Tracker

section WriteBack

variable [KeyScheme]

/-! ## The system -/

/-- What a probe task is doing: it sleeps, it probes the content it got from the actor, or it has sent
the results. -/
inductive ProbePhase where
  | Sleep
  | Probe (content : SortedTable AnnounceKind HashAndFormat) (now : AbsoluteTime)
  | ApplyResult (results : List (HashAndFormat × AnnounceKind × Except String Unit))
      (now : AbsoluteTime)

structure ProbeTask where
  endpoint : EndpointId
  phase : ProbePhase

/-- The data of the actor, and the probe tasks. -/
structure ProbeSystem where
  state : State
  tables : Tables
  tasks : List ProbeTask

inductive ProbeMove where
  /-- A task is set up. -/
  | SetupProbeTask (endpoint : EndpointId)
  /-- The actor handles a message that is not about the results of a probe. -/
  | Handle (msg : ActorMessage) (now : AbsoluteTime)
  /-- The actor handles the request of a task for its content; the task reads the clock. -/
  | GetContent (task : ℕ) (now : AbsoluteTime)
  /-- A task probes its content. -/
  | ProbeOne (task : ℕ) (env : ProbeEnv)
  /-- The actor handles the results of a task. -/
  | StoreProbeResult (task : ℕ)

/-- The message is the result of a probe. -/
def ActorMessage.isProbeResult : ActorMessage → Bool
  | .StoreProbeResult .. => true
  | _ => false

namespace ProbeSystem

def new : ProbeSystem := ⟨State.default, Tables.empty, []⟩

/-- A task goes on to another phase. -/
def setPhase (self : ProbeSystem) (task : ℕ) (t : ProbeTask) (phase : ProbePhase) : ProbeSystem :=
  { self with tasks := self.tasks.set task { t with phase } }

def step (options : Options) (self : ProbeSystem) : ProbeMove → Option ProbeSystem
  | .SetupProbeTask endpoint => some { self with tasks := self.tasks ++ [⟨endpoint, .Sleep⟩] }
  | .Handle msg now =>
      if msg.isProbeResult then none
      else do
        let (state, tables, _) ← dispatch options self.state now msg self.tables
        return { self with state, tables }
  | .GetContent task now =>
      match self.tasks[task]? with
      | some ⟨endpoint, .Sleep⟩ => do
          let content ← getContentForEndpoint self.tables endpoint
          return self.setPhase task ⟨endpoint, .Sleep⟩ (.Probe content now)
      | _ => none
  | .ProbeOne task env =>
      match self.tasks[task]? with
      | some ⟨endpoint, .Probe content now⟩ =>
          match probeOne env content with
          | .ok results => self.setPhase task ⟨endpoint, .Sleep⟩ (.ApplyResult results now)
          | .error _ => self.setPhase task ⟨endpoint, .Sleep⟩ .Sleep
      | _ => none
  | .StoreProbeResult task =>
      match self.tasks[task]? with
      | some ⟨endpoint, .ApplyResult results now⟩ =>
          some { self.setPhase task ⟨endpoint, .Sleep⟩ .Sleep with
            tables := storeProbeResult self.tables endpoint results now }
      | _ => none

end ProbeSystem

/-! ## Probes and announces -/

/-- A path is announced. -/
def Tables.Announced (tables : Tables) (path : AnnouncePath) : Prop :=
  ∃ v, tables.announces.get path = some v

/-- Every path with a probe is announced. -/
def Tables.ProbesAnnounced (tables : Tables) : Prop :=
  ∀ path p, tables.probes.get path = some p → tables.Announced path

theorem handleAnnounce_probesAnnounced {tables : Tables} (h : tables.ProbesAnnounced)
    (a : SignedAnnounce) : (handleAnnounce tables a).2.ProbesAnnounced := by
  rcases handleAnnounce_cases tables a with ⟨e, _, heq⟩ | ⟨_, _, _, _, htables⟩
  · rw [heq]
    exact h
  · rcases htables with ⟨htables, _⟩ | htables
    · rw [htables]
      exact h
    · rw [htables]
      intro path p hp
      obtain ⟨v, hv⟩ := h path p hp
      rw [Tables.Announced, Tables.insertAnnounce_announces, RecordTable.get_insert]
      split_ifs
      · exact ⟨_, rfl⟩
      · exact ⟨v, hv⟩

/-- **A collection removes both rows of a path**, or none. -/
theorem gc_probesAnnounced {tables : Tables} (h : tables.ProbesAnnounced) (options : Options)
    (now : AbsoluteTime) : (gc options now tables).ProbesAnnounced := by
  intro path p hp
  obtain ⟨hannounces, hprobes⟩ := mem_foldl_remove tables
    (gcToRemove options now tables.probes tables.probes.iter)
  obtain ⟨hrow, hkept⟩ := (hprobes (path, p)).mp ((RecordTable.mem_iter_iff _ path p).mpr hp)
  obtain ⟨v, hv⟩ := h path p ((RecordTable.mem_iter_iff _ path p).mp hrow)
  refine ⟨v, (RecordTable.mem_iter_iff _ path v).mp ?_⟩
  exact (hannounces (path, v)).mpr ⟨(RecordTable.mem_iter_iff _ path v).mpr hv, hkept⟩

/-- **Other messages** keep every probe with its announce. -/
theorem dispatch_probesAnnounced {options : Options} {state : State} {now : AbsoluteTime}
    {msg : ActorMessage} {tables : Tables} {r : State × Tables × List Effect}
    (h : tables.ProbesAnnounced) (hmsg : msg.isProbeResult = false)
    (hdispatch : dispatch options state now msg tables = some r) : r.2.1.ProbesAnnounced := by
  rcases dispatch_eq_some.mp hdispatch with ⟨_, hhandle⟩ | ⟨_, _, htables, _⟩
  · cases msg with
    | Announce a tx =>
        cases hhandle
        exact handleAnnounce_probesAnnounced h a
    | SetSize | SetSizes =>
        cases hhandle
        exact h
    | StoreProbeResult => cases hmsg
    | Gc tx =>
        cases hhandle
        exact gc_probesAnnounced h options now
    | _ => cases hhandle
  · rw [htables]
    exact h

/-- **A store of results** does if and only if the paths of the successes are announced. -/
theorem storeProbeResult_probesAnnounced_iff {tables : Tables} (h : tables.ProbesAnnounced)
    (endpoint : EndpointId) (results : List (HashAndFormat × AnnounceKind × Except String Unit))
    (now : AbsoluteTime) :
    (storeProbeResult tables endpoint results now).ProbesAnnounced
      ↔ ∀ path, Succeeded endpoint results path → tables.Announced path := by
  have hannounced : ∀ path, (storeProbeResult tables endpoint results now).Announced path
      ↔ tables.Announced path := by
    intro path
    rw [Tables.Announced, storeProbeResult_announces, Tables.Announced]
  constructor
  · intro hafter path hsucceeded
    rcases get_storeProbeResult tables endpoint results now path with ⟨_, hget⟩ | ⟨hnot, _⟩
    · exact (hannounced path).mp (hafter path _ hget)
    · exact absurd hsucceeded hnot
  · intro hall path p hp
    rw [hannounced]
    rcases get_storeProbeResult tables endpoint results now path with
      ⟨hsucceeded, _⟩ | ⟨_, hget⟩
    · exact hall path hsucceeded
    · exact h path p (hget.symm.trans hp)

/-! ## Runs -/

namespace ProbeSystem

/-- The results that the actor stores are for paths that are still announced. -/
def StillAnnounced (self : ProbeSystem) : ProbeMove → Prop
  | .StoreProbeResult task => ∀ endpoint results now,
      self.tasks[task]? = some ⟨endpoint, .ApplyResult results now⟩ →
        ∀ path, Succeeded endpoint results path → self.tables.Announced path
  | _ => True

/-- Only the task that has results matters. -/
theorem stillAnnounced_storeProbeResult {self : ProbeSystem} {task : ℕ} {endpoint : EndpointId}
    {results : List (HashAndFormat × AnnounceKind × Except String Unit)} {now : AbsoluteTime}
    (htask : self.tasks[task]? = some ⟨endpoint, .ApplyResult results now⟩) :
    self.StillAnnounced (.StoreProbeResult task)
      ↔ ∀ path, Succeeded endpoint results path → self.tables.Announced path := by
  constructor
  · intro h
    exact h endpoint results now htask
  · intro h endpoint' results' now' htask'
    cases htask.symm.trans htask'
    exact h

/-- **The step.** -/
theorem probesAnnounced_step_iff {options : Options} {self self' : ProbeSystem} {move : ProbeMove}
    (h : self.tables.ProbesAnnounced) (hstep : self.step options move = some self') :
    self'.tables.ProbesAnnounced ↔ self.StillAnnounced move := by
  cases move with
  | SetupProbeTask endpoint =>
      cases hstep
      exact iff_of_true h trivial
  | Handle msg now =>
      rw [step] at hstep
      split_ifs at hstep with hmsg
      obtain ⟨r, hdispatch, hr⟩ := Option.bind_eq_some_iff.mp hstep
      cases hr
      exact iff_of_true (dispatch_probesAnnounced h (Bool.not_eq_true _ ▸ hmsg) hdispatch) trivial
  | GetContent task now =>
      rw [step] at hstep
      split at hstep
      · obtain ⟨content, _, hr⟩ := Option.bind_eq_some_iff.mp hstep
        cases hr
        exact iff_of_true h trivial
      · cases hstep
  | ProbeOne task env =>
      rw [step] at hstep
      split at hstep
      · split at hstep
        · cases hstep
          exact iff_of_true h trivial
        · cases hstep
          exact iff_of_true h trivial
      · cases hstep
  | StoreProbeResult task =>
      rw [step] at hstep
      split at hstep
      · rename_i endpoint results now htask
        cases hstep
        rw [stillAnnounced_storeProbeResult htask]
        exact storeProbeResult_probesAnnounced_iff h endpoint results now
      · cases hstep

/-- **When probes refer to announced content.**  In every state of a run of announces, collections and
probe tasks, however they interleave, if and only if at each store the paths of the successes are still
announced. -/
theorem probes_announced_iff {options : Options} {moves : List ProbeMove} {s : ProbeSystem}
    (hrun : Transition.run (step options) new moves = some s) :
    (∀ earlier later, moves = earlier ++ later →
        ∀ m, Transition.run (step options) new earlier = some m → m.tables.ProbesAnnounced)
      ↔ Transition.Conforms (step options) StillAnnounced new moves := by
  refine Transition.always_iff_conforms (I := fun s : ProbeSystem => s.tables.ProbesAnnounced) ?_
    (fun m move _ m' hm hstep => probesAnnounced_step_iff hm hstep) hrun
  intro path p hp
  cases hp

end ProbeSystem

end WriteBack

section Runs

attribute [local instance] KeyScheme.doubling

/-- A connection over which everything works. -/
def ProbeEnv.working : ProbeEnv := ⟨.ok (), .ok (), fun _ _ => .ok (), fun _ _ => .ok ()⟩

/-- The path that is announced in the runs below. -/
def probedPath : AnnouncePath := AnnouncePath.new (.filled 1 .Raw) .Complete (EndpointId.doubling 7)

/-- A task whose endpoint announces content, and probes it. -/
def firstProbe : List ProbeMove :=
  [.SetupProbeTask (EndpointId.doubling 7),
    .Handle (.Announce (SignedAnnounce.doubling 7 (.filled 1 .Raw) .Complete ⟨1⟩) 0) ⟨1⟩,
    .GetContent 0 ⟨2⟩, .ProbeOne 0 .working]

/-- The result of the first probe, and a second one during which the content is collected. -/
def collectedMeanwhile : List ProbeMove :=
  firstProbe ++ [.StoreProbeResult 0, .GetContent 0 ⟨3⟩, .Handle (.Gc 1) ⟨3600000000⟩,
    .ProbeOne 0 .working, .StoreProbeResult 0]

/-- After the first probe. -/
theorem exists_firstProbe :
    ∃ s, Transition.run (ProbeSystem.step Options.debug) ProbeSystem.new firstProbe = some s ∧
      s.tasks = [⟨EndpointId.doubling 7, .ApplyResult [(.filled 1 .Raw, .Complete, .ok ())] ⟨2⟩⟩] ∧
      s.tables.Announced probedPath := by
  refine ⟨_, rfl, rfl, ?_⟩
  exact Option.isSome_iff_exists.mp (by decide +kernel)

/-- The condition can be met: the content is still announced. -/
theorem probes_announced_first :
    ∃ s, Transition.run (ProbeSystem.step Options.debug) ProbeSystem.new
        (firstProbe ++ [.StoreProbeResult 0]) = some s ∧
      s.tables.ProbesAnnounced := by
  obtain ⟨s, hs, htasks, hannounced⟩ := exists_firstProbe
  have htask : s.tasks[0]?
      = some ⟨EndpointId.doubling 7, .ApplyResult [(.filled 1 .Raw, .Complete, .ok ())] ⟨2⟩⟩ := by
    rw [htasks]
    rfl
  have hsome : (Transition.run (ProbeSystem.step Options.debug) ProbeSystem.new
      (firstProbe ++ [.StoreProbeResult 0])).isSome = true := by
    decide +kernel
  obtain ⟨s', hrun⟩ := Option.isSome_iff_exists.mp hsome
  refine ⟨s', hrun, ?_⟩
  refine (ProbeSystem.probes_announced_iff hrun).mpr ?_ _ [] (List.append_nil _).symm s' hrun
  refine Transition.conforms_concat_iff.mpr ⟨?_, fun m hm => ?_⟩
  · exact ⟨trivial, fun _ _ => ⟨trivial, fun _ _ => ⟨trivial, fun _ _ => ⟨trivial, fun _ _ => trivial⟩⟩⟩⟩
  · obtain rfl := Option.mem_unique hs hm
    rw [ProbeSystem.stillAnnounced_storeProbeResult htask]
    rintro path ⟨r, hr, _, rfl⟩
    rw [List.mem_singleton.mp hr]
    exact hannounced

/-- **A probe of what is not announced.**  The collection removes the announce and the probe while the
second probe is on its way, and its result puts the probe back. -/
theorem probe_written_back :
    ∃ s, Transition.run (ProbeSystem.step Options.debug) ProbeSystem.new collectedMeanwhile = some s ∧
      ¬ s.tables.ProbesAnnounced := by
  have hrows : (Transition.run (ProbeSystem.step Options.debug) ProbeSystem.new
      collectedMeanwhile).map (fun s => ((s.tables.announces.get probedPath).isSome,
        (s.tables.probes.get probedPath).isSome)) = some (false, true) := by
    decide +kernel
  obtain ⟨s, hrun, hrow⟩ := Option.map_eq_some_iff.mp hrows
  obtain ⟨hannounce, hprobe⟩ := Prod.mk.inj hrow
  refine ⟨s, hrun, fun h => ?_⟩
  obtain ⟨p, hp⟩ := Option.isSome_iff_exists.mp hprobe
  obtain ⟨v, hv⟩ := h probedPath p hp
  rw [hv] at hannounce
  cases hannounce

end Runs

end IrohExperiments.Tracker
