import IrohExperiments.Lib.OwnedTasks
import IrohExperiments.Lib.Transition
import IrohExperiments.Tracker.Probing

/-!
# The tasks behind a task map

In `Probing.lean` a task map is the set of its keys.  Behind each key there is a task that runs, started by
`setup_probe_task` before its handle is put into the map, and a task holds a clone of the tracker itself.
The tracker is dropped, and the actor told to stop, when the last clone is gone.

`Tasks.step` is a task map with its tasks and all clones of the tracker.  What was a set of keys is one
still (`keys_insert`, `keys_retain`), and what runs is no more than that: no two tasks for one key, once the
calls are over that started them (`Tasks.tasks_of_run`).  But the tasks keep the tracker, and the tracker
keeps the map, which keeps the tasks.  So when all other clones are dropped the actor is told to stop if no
task runs then, and otherwise not before each of the tasks has panicked.

As in `OwnedTasks`, an abort is immediate: a task that is aborted drops its clone at once.
-/

namespace IrohExperiments.Tracker

variable {T : Type} [LinearOrder T]

/-- The keys of a map of owned tasks. -/
def keys (tasks : OwnedTasks T Unit T) : TaskMap T := (tasks.entries.rows.map Prod.fst).toFinset

theorem mem_keys {tasks : OwnedTasks T Unit T} {key : T} :
    key ∈ keys tasks ↔ ∃ id, tasks.entries.get? key = some ((), id) := by
  simp only [keys, List.mem_toFinset, List.mem_map, Prod.exists, exists_and_right, exists_eq_right]
  exact ⟨fun ⟨_, id, hrow⟩ => ⟨id, (SortedTable.mem_rows_iff _ _ _).mp hrow⟩,
    fun ⟨id, hk⟩ => ⟨(), id, (SortedTable.mem_rows_iff _ _ _).mpr hk⟩⟩

/-- `publish`. -/
theorem keys_insert (tasks : OwnedTasks T Unit T) (key : T) (id : ℕ) :
    keys (tasks.insert key () id) = TaskMap.publish (keys tasks) key := by
  ext k
  rw [TaskMap.publish, Finset.mem_insert, mem_keys, mem_keys]
  by_cases hk : k = key
  · subst hk
    exact iff_of_true ⟨id, OwnedTasks.entries_insert_self⟩ (.inl rfl)
  · rw [or_iff_right hk]
    exact exists_congr fun _ => OwnedTasks.entries_insert_of_ne hk

/-- `retain`. -/
theorem keys_retain (tasks : OwnedTasks T Unit T) (keep : Finset T) :
    keys (tasks.retain fun k => decide (k ∈ keep)) = TaskMap.retain (keys tasks) keep := by
  ext k
  rw [TaskMap.retain, Finset.mem_filter, mem_keys, mem_keys]
  simp only [OwnedTasks.entries_retain, decide_eq_true_eq, exists_and_right]

/-! ## Clones of the tracker -/

/-- The clones of the tracker that are not those of tasks, the tasks with their map, and whether the actor
was told to stop. -/
structure Tasks (T : Type) [LinearOrder T] where
  clones : ℕ
  tasks : OwnedTasks T Unit T
  stopped : Bool

inductive TasksEvent (T : Type) where
  /-- The first half of `setup_probe_task`. -/
  | Spawn (key : T)
  /-- The other half: `publish` of the map. -/
  | Publish (key : T) (task : ℕ)
  | Retain (keep : Finset T)
  | Clone
  | Drop
  /-- A task ends, which it only does by a panic. -/
  | Panic (task : ℕ)

/-- What an event does to the set of keys. -/
def TaskMap.apply (self : TaskMap T) : TasksEvent T → TaskMap T
  | .Publish key _ => self.publish key
  | .Retain keep => self.retain keep
  | _ => self

namespace Tasks

def new : Tasks T := ⟨1, .empty, false⟩

/-- `Inner::drop`, if this was the last clone. -/
def dropInner (self : Tasks T) : Tasks T :=
  if self.clones = 0 ∧ self.tasks.running.rows = [] then { self with stopped := true } else self

/-- A call on the tracker needs a clone, which it keeps until it is over. -/
def step (self : Tasks T) : TasksEvent T → Option (Tasks T)
  | .Spawn key =>
      if 0 < self.clones then some { self with tasks := self.tasks.spawn key () key } else none
  | .Publish key task =>
      if (key, (), task) ∈ self.tasks.loose then
        some { self with tasks := self.tasks.insert key () task }
      else none
  | .Retain keep =>
      if 0 < self.clones then
        some { self with tasks := self.tasks.retain fun k => decide (k ∈ keep) }
      else none
  | .Clone => if 0 < self.clones then some { self with clones := self.clones + 1 } else none
  | .Drop =>
      if 1 < self.clones ∨ self.clones = 1 ∧ self.tasks.loose = [] then
        some { self with clones := self.clones - 1 }.dropInner
      else none
  | .Panic task =>
      match self.tasks.running.get? task with
      | some _ => some { self with tasks := self.tasks.finish task }.dropInner
      | none => none

/-- The task probes the endpoint of its key. -/
def fits (key : T) (_ : Unit) (task : T) : Prop := task = key

structure Inv (sys : Tasks T) : Prop where
  owned : sys.tasks.Owned fits
  calls : sys.tasks.loose ≠ [] → 0 < sys.clones
  stopped : sys.stopped = true ↔ sys.clones = 0 ∧ sys.tasks.running.rows = []

variable {self after : Tasks T}

theorem inv_new : (new : Tasks T).Inv where
  owned := OwnedTasks.owned_empty
  calls h := absurd rfl h
  stopped := by simp [new]

/-- A step that is made with a clone at hand. -/
theorem Inv.of_clone (h : self.Inv) (hpos : 0 < self.clones) {clones : ℕ} (hclones : 0 < clones)
    {tasks : OwnedTasks T Unit T} (howned : tasks.Owned fits) :
    Inv { self with clones, tasks } where
  owned := howned
  calls _ := hclones
  stopped := by
    have hnot : ¬ (clones = 0 ∧ tasks.running.rows = []) :=
      fun hzero => absurd hzero.1 (Nat.ne_of_gt hclones)
    refine iff_of_false (fun hstopped => ?_) hnot
    exact absurd (h.stopped.mp hstopped).1 (Nat.ne_of_gt hpos)

/-- A step that may have dropped the last clone. -/
theorem Inv.dropInner (howned : self.tasks.Owned fits)
    (hcalls : self.tasks.loose ≠ [] → 0 < self.clones)
    (hstopped : self.stopped = true → self.clones = 0 ∧ self.tasks.running.rows = []) :
    self.dropInner.Inv := by
  rw [Tasks.dropInner]
  split_ifs with hlast
  · exact ⟨howned, hcalls, iff_of_true rfl hlast⟩
  · exact ⟨howned, hcalls, hstopped, fun h => absurd h hlast⟩

/-- **The step.** -/
theorem Inv.step (h : self.Inv) {e : TasksEvent T} (hstep : self.step e = some after) :
    after.Inv := by
  cases e with
  | Spawn key =>
      rw [Tasks.step] at hstep
      split_ifs at hstep with hpos
      cases hstep
      exact h.of_clone hpos hpos (h.owned.spawn rfl)
  | Publish key task =>
      rw [Tasks.step] at hstep
      split_ifs at hstep with hloose
      cases hstep
      have hpos := h.calls (List.ne_nil_of_mem hloose)
      exact h.of_clone hpos hpos (h.owned.insert hloose)
  | Retain keep =>
      rw [Tasks.step] at hstep
      split_ifs at hstep with hpos
      cases hstep
      exact h.of_clone hpos hpos (h.owned.retain _)
  | Clone =>
      rw [Tasks.step] at hstep
      split_ifs at hstep with hpos
      cases hstep
      exact h.of_clone hpos (Nat.succ_pos _) h.owned
  | Drop =>
      rw [Tasks.step] at hstep
      split_ifs at hstep with hdrop
      cases hstep
      refine Inv.dropInner h.owned (fun hloose => ?_) fun hstopped => ?_
      · rcases hdrop with hmore | ⟨_, hnil⟩
        · exact Nat.sub_pos_of_lt hmore
        · exact absurd hnil hloose
      · have hzero := (h.stopped.mp hstopped).1
        omega
  | Panic task =>
      rw [Tasks.step] at hstep
      split at hstep
      next hget =>
        cases hstep
        refine Inv.dropInner (h.owned.finish task) h.calls fun hstopped => ?_
        obtain ⟨hzero, hnil⟩ := h.stopped.mp hstopped
        refine ⟨hzero, ?_⟩
        show self.tasks.running.rows.filter _ = []
        rw [hnil, List.filter_nil]
      next => cases hstep

theorem inv_of_run {events : List (TasksEvent T)}
    (hrun : Transition.run step new events = some self) : self.Inv :=
  Transition.run_invariant (I := Inv) inv_new (fun _ _ _ hm hstep => hm.step hstep) hrun

/-- The map is the set of its keys. -/
theorem keys_step {e : TasksEvent T} (hstep : self.step e = some after) :
    keys after.tasks = TaskMap.apply (keys self.tasks) e := by
  have hdrop : ∀ sys : Tasks T, sys.dropInner.tasks = sys.tasks := by
    intro sys
    rw [dropInner]
    split_ifs <;> rfl
  cases e with
  | Spawn | Clone =>
      rw [step] at hstep
      split_ifs at hstep
      cases hstep
      rfl
  | Publish key task =>
      rw [step] at hstep
      split_ifs at hstep
      cases hstep
      exact keys_insert _ key task
  | Retain keep =>
      rw [step] at hstep
      split_ifs at hstep
      cases hstep
      exact keys_retain _ keep
  | Drop =>
      rw [step] at hstep
      split_ifs at hstep
      cases hstep
      rw [hdrop]
      rfl
  | Panic task =>
      rw [step] at hstep
      split at hstep
      next =>
        cases hstep
        rw [hdrop]
        rfl
      next => cases hstep

/-! ## After the last clone -/

/-- Only panics are left, each of which ends a task. -/
theorem exists_panic (h : self.Inv) (hzero : self.clones = 0) {e : TasksEvent T}
    (hstep : self.step e = some after) :
    ∃ task, e = .Panic task ∧ after.clones = 0 ∧
      after.tasks.running.rows.length + 1 = self.tasks.running.rows.length := by
  have hnot : ¬ 0 < self.clones := hzero ▸ Nat.lt_irrefl 0
  cases e with
  | Spawn | Retain | Clone =>
      rw [step, if_neg hnot] at hstep
      cases hstep
  | Publish key task =>
      rw [step] at hstep
      split_ifs at hstep with hloose
      exact absurd (h.calls (List.ne_nil_of_mem hloose)) hnot
  | Drop =>
      rw [step] at hstep
      split_ifs at hstep with hdrop
      omega
  | Panic task =>
      rw [step] at hstep
      split at hstep
      next key hget =>
        cases hstep
        have hlen := SortedTable.length_remove hget
        refine ⟨task, rfl, ?_, ?_⟩
        · rw [dropInner]
          split_ifs <;> exact hzero
        · rw [dropInner]
          split_ifs <;> exact hlen
      next => cases hstep

theorem exists_panics (h : self.Inv) (hzero : self.clones = 0) {later : List (TasksEvent T)}
    (hrun : Transition.run step self later = some after) :
    ∃ ended : List ℕ, later = ended.map .Panic ∧
      (after.stopped = true ↔ ended.length = self.tasks.running.rows.length) := by
  have hall : (after.Inv ∧ after.clones = 0) ∧ ∃ ended : List ℕ, later = ended.map .Panic ∧
      after.tasks.running.rows.length + ended.length = self.tasks.running.rows.length := by
    refine Transition.run_induction (P := fun later m => (m.Inv ∧ m.clones = 0) ∧
      ∃ ended : List ℕ, later = ended.map .Panic ∧
        m.tasks.running.rows.length + ended.length = self.tasks.running.rows.length)
      ⟨⟨h, hzero⟩, [], rfl, rfl⟩ ?_ hrun
    rintro labels m e m' _ ⟨⟨hinv, hclones⟩, ended, rfl, hlen⟩ hstep
    obtain ⟨task, rfl, hclones', hlen'⟩ := exists_panic hinv hclones hstep
    refine ⟨⟨hinv.step hstep, hclones'⟩, ended ++ [task], ?_, ?_⟩
    · rw [List.map_append, List.map_singleton]
    · rw [List.length_append, List.length_singleton]
      omega
  obtain ⟨⟨hinv, hclones⟩, ended, rfl, hlen⟩ := hall
  refine ⟨ended, rfl, ?_⟩
  rw [hinv.stopped, and_iff_right hclones, ← List.length_eq_zero_iff]
  omega

/-- **What runs, and until when.**  In every run, with calls that overlap in any way, the map is what the
publications and the retentions make of a set of keys.  A task that runs is one of a key in it, or of a call
that has just started it; and once no call for a key is under way there is at most one task for it.  When the
last clone of the tracker is dropped that is not one of a task, then nothing can happen any more but that
tasks panic, and the actor is told to stop when as many have as were running. -/
theorem tasks_of_run {events : List (TasksEvent T)} {sys : Tasks T}
    (hrun : Transition.run step new events = some sys) :
    keys sys.tasks = events.foldl TaskMap.apply ∅ ∧
      (∀ id key, sys.tasks.running.get? id = some key →
        key ∈ keys sys.tasks ∨ (key, (), id) ∈ sys.tasks.loose) ∧
      (∀ key, (∀ task, (key, (), task) ∉ sys.tasks.loose) → ∀ id id',
        sys.tasks.running.get? id = some key → sys.tasks.running.get? id' = some key → id = id') ∧
      (sys.clones = 0 → ∀ later after, Transition.run step sys later = some after →
        ∃ ended : List ℕ, later = ended.map .Panic ∧
          (after.stopped = true ↔ ended.length = sys.tasks.running.rows.length)) := by
  have h := inv_of_run hrun
  have hhandle : ∀ {id key}, sys.tasks.running.get? id = some key →
      sys.tasks.Handle key () id := by
    intro id key hget
    obtain ⟨k, v, hhandle, rfl⟩ := h.owned.handle id key hget
    exact hhandle
  refine ⟨?_, fun id key hget => ?_, fun key hsettled id id' hget hget' => ?_,
    fun hzero later after hafter => exists_panics h hzero hafter⟩
  · refine Transition.run_induction (P := fun events (m : Tasks T) =>
      keys m.tasks = events.foldl TaskMap.apply ∅) rfl ?_ hrun
    intro labels m e m' _ hm hstep
    rw [keys_step hstep, hm, List.foldl_append, List.foldl_cons, List.foldl_nil]
  · exact (hhandle hget).elim .inr fun hk => .inl (mem_keys.mpr ⟨id, hk⟩)
  · have hk := (hhandle hget).resolve_left (hsettled id)
    have hk' := (hhandle hget').resolve_left (hsettled id')
    rw [hk] at hk'
    exact (Prod.mk.inj (Option.some.inj hk')).2

/-- Two calls for one endpoint overlap, and then all clones are dropped while a task runs. -/
def twoCalls : List (TasksEvent ℕ) :=
  [.Clone, .Spawn 7, .Spawn 7, .Publish 7 1, .Publish 7 0, .Spawn 8, .Publish 8 2, .Retain {7}, .Drop,
    .Drop]

/-- The conditions can be met: the task that is left has to panic before the actor is told to stop. -/
theorem tasks_of_run_twoCalls :
    ∃ sys, Transition.run step new twoCalls = some sys ∧ sys.tasks.running.get? 0 = some 7 ∧
      sys.stopped = false ∧
      ∀ later after, Transition.run step sys later = some after → after.stopped = true →
        ∃ task, later = [.Panic task] := by
  have hsome : ((Transition.run step new twoCalls).map fun sys =>
      (sys.clones, sys.tasks.running.rows, sys.stopped)) = some (0, [(0, 7)], false) := by
    decide +kernel
  obtain ⟨sys, hrun, heq⟩ := Option.map_eq_some_iff.mp hsome
  obtain ⟨hclones, heq⟩ := Prod.mk.inj heq
  obtain ⟨hrows, hstopped⟩ := Prod.mk.inj heq
  refine ⟨sys, hrun, ?_, hstopped, fun later after hafter hafterStopped => ?_⟩
  · rw [← SortedTable.mem_rows_iff, hrows]
    exact List.mem_singleton.mpr rfl
  · obtain ⟨_, _, _, hlast⟩ := tasks_of_run hrun
    obtain ⟨ended, rfl, hiff⟩ := hlast hclones later after hafter
    have hlen := hiff.mp hafterStopped
    rw [hrows] at hlen
    obtain ⟨task, rfl⟩ := List.length_eq_one_iff.mp hlen
    exact ⟨task, rfl⟩

end Tasks

end IrohExperiments.Tracker
