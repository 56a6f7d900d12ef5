import IrohExperiments.Lib.SortedTable

/-!
# Tasks that are owned by the entries of a map

A program that starts tasks which never end keeps their handles in a map.  A handle aborts its task when it
is dropped, so a task is aborted when its entry is replaced or removed.  Between the start of a task and
the entry for it the handle is loose: it is held by the call that has started the task, with the key and
the value it is going to be stored with.

`OwnedTasks` has the tasks that run, the loose handles and the map.  `Owned` says that each running task has
exactly one handle, and fits it.  All operations keep it, so there is never more than one task for an entry.
If no task ends by itself then every handle has its task, too (`AllRun`), so the handles tell which tasks run
(`Owned.running_iff`) and how many (`Owned.length_running`).

**Immediate abort** is assumed: a task whose handle is dropped does nothing any more.  A task that is just being
polled would go on up to its next await point, and keep until then what it has.
-/

structure OwnedTasks (K V T : Type*) [LinearOrder K] where
  nextId : ℕ
  running : SortedTable ℕ T
  loose : List (K × V × ℕ)
  entries : SortedTable K (V × ℕ)

namespace OwnedTasks

variable {K V T : Type*} [LinearOrder K]

def empty : OwnedTasks K V T := ⟨0, .empty, [], .empty⟩

/-- Start a task.  Its handle is loose. -/
def spawn (self : OwnedTasks K V T) (k : K) (v : V) (t : T) : OwnedTasks K V T :=
  { self with
    nextId := self.nextId + 1
    running := self.running.insert self.nextId t
    loose := (k, v, self.nextId) :: self.loose }

/-- Keep the entries whose keys satisfy a predicate.  The handles of the others are dropped. -/
def retain (self : OwnedTasks K V T) (keep : K → Bool) : OwnedTasks K V T :=
  { self with
    running := self.running.filter fun r =>
      self.entries.rows.all fun e => keep e.1 || decide (e.2.2 ≠ r.1)
    entries := self.entries.filter fun e => keep e.1 }

def remove (self : OwnedTasks K V T) (k : K) : OwnedTasks K V T :=
  self.retain fun k' => decide (k' ≠ k)

/-- Put a loose handle into the map.  The handle that was there before is dropped. -/
def insert (self : OwnedTasks K V T) (k : K) (v : V) (id : ℕ) : OwnedTasks K V T :=
  { self.remove k with
    loose := self.loose.filter fun c => decide (c.2.2 ≠ id)
    entries := (self.remove k).entries.insert k (v, id) }

/-- A task ends by itself.  Its handle stays. -/
def finish (self : OwnedTasks K V T) (id : ℕ) : OwnedTasks K V T :=
  { self with running := self.running.remove id }

/-- A task goes on. -/
def setTask (self : OwnedTasks K V T) (id : ℕ) (t : T) : OwnedTasks K V T :=
  { self with running := self.running.insert id t }

/-! ## Lookups -/

variable {self : OwnedTasks K V T} {keep : K → Bool} {k k' : K} {v v' : V} {id id' : ℕ} {t t' : T}

theorem entries_retain : (self.retain keep).entries.get? k = some (v, id)
    ↔ self.entries.get? k = some (v, id) ∧ keep k = true := by
  rw [← SortedTable.mem_rows_iff, ← SortedTable.mem_rows_iff]
  exact List.mem_filter

theorem running_retain : (self.retain keep).running.get? id = some t
    ↔ self.running.get? id = some t ∧
      ∀ k v, self.entries.get? k = some (v, id) → keep k = true := by
  rw [← SortedTable.mem_rows_iff, ← SortedTable.mem_rows_iff]
  simp only [retain, SortedTable.filter, List.mem_filter, List.all_eq_true, Bool.or_eq_true,
    decide_eq_true_eq, ← SortedTable.mem_rows_iff]
  refine and_congr_right fun _ => ⟨fun h k v hrow => ?_, fun h r hr => ?_⟩
  · exact (h (k, v, id) hrow).resolve_right fun hne => hne rfl
  · by_cases hid : r.2.2 = id
    · subst hid
      exact .inl (h r.1 r.2.1 hr)
    · exact .inr hid

theorem entries_insert_self : (self.insert k v id).entries.get? k = some (v, id) :=
  SortedTable.get?_insert_self _ _ _

theorem entries_insert_of_ne (hk : k' ≠ k) :
    (self.insert k v id).entries.get? k' = some (v', id')
      ↔ self.entries.get? k' = some (v', id') := by
  rw [insert, SortedTable.get?_insert_of_ne _ _ hk, remove, entries_retain, decide_eq_true_eq]
  exact and_iff_left hk

theorem running_of_insert (hget : (self.insert k v id).running.get? id' = some t) :
    self.running.get? id' = some t := by
  have hremove : (self.retain fun k' => decide (k' ≠ k)).running.get? id' = some t := hget
  exact (running_retain.mp hremove).1

/-! ## Handles -/

/-- There is a handle of the task, loose or in the map. -/
def Handle (self : OwnedTasks K V T) (k : K) (v : V) (id : ℕ) : Prop :=
  (k, v, id) ∈ self.loose ∨ self.entries.get? k = some (v, id)

theorem handle_spawn :
    (self.spawn k v t).Handle k' v' id'
      ↔ (k' = k ∧ v' = v ∧ id' = self.nextId) ∨ self.Handle k' v' id' := by
  simp [Handle, spawn, or_assoc]

theorem handle_retain : (self.retain keep).Handle k v id
    ↔ (k, v, id) ∈ self.loose ∨ self.entries.get? k = some (v, id) ∧ keep k = true := by
  rw [Handle, entries_retain]
  rfl

theorem mem_loose_insert :
    (k', v', id') ∈ (self.insert k v id).loose ↔ (k', v', id') ∈ self.loose ∧ id' ≠ id := by
  simp [insert]

/-! ## Ownership -/

/-- **Ownership.**  Each running task has exactly one handle, and fits it. -/
structure Owned (fits : K → V → T → Prop) (tasks : OwnedTasks K V T) : Prop where
  handle : ∀ id t, tasks.running.get? id = some t → ∃ k v, tasks.Handle k v id ∧ fits k v t
  unique : ∀ k v k' v' id, tasks.Handle k v id → tasks.Handle k' v' id → k = k' ∧ v = v'
  apart : ∀ k v id, (k, v, id) ∈ tasks.loose → tasks.entries.get? k ≠ some (v, id)
  nodup : (tasks.loose.map fun c => c.2.2).Nodup
  fresh : ∀ k v id, tasks.Handle k v id → id < tasks.nextId

/-- Every handle is one of a task that runs. -/
def AllRun (tasks : OwnedTasks K V T) : Prop :=
  ∀ k v id, tasks.Handle k v id → ∃ t, tasks.running.get? id = some t

variable {fits : K → V → T → Prop}

theorem owned_empty : (empty : OwnedTasks K V T).Owned fits where
  handle := nofun
  unique := by rintro k v k' v' id (h | h) <;> cases h
  apart := nofun
  nodup := List.nodup_nil
  fresh := by rintro k v id (h | h) <;> cases h

theorem allRun_empty : (empty : OwnedTasks K V T).AllRun := by
  rintro k v id (h | h) <;> cases h

namespace Owned

/-- The handle tells which entry a task fits. -/
theorem fits_of_handle (h : self.Owned fits) (hhandle : self.Handle k v id)
    (hget : self.running.get? id = some t) : fits k v t := by
  obtain ⟨k', v', hhandle', hfits⟩ := h.handle id t hget
  obtain ⟨rfl, rfl⟩ := h.unique k v k' v' id hhandle hhandle'
  exact hfits

theorem lt_nextId (h : self.Owned fits) (hget : self.running.get? id = some t) :
    id < self.nextId := by
  obtain ⟨k, v, hhandle, _⟩ := h.handle id t hget
  exact h.fresh k v id hhandle

theorem running_spawn (h : self.Owned fits) :
    (self.spawn k v t).running.get? id = some t'
      ↔ id = self.nextId ∧ t' = t ∨ self.running.get? id = some t' := by
  rw [OwnedTasks.spawn, SortedTable.get?_insert]
  split_ifs with hid
  · have hnone : self.running.get? id ≠ some t' :=
      fun hget => absurd (h.lt_nextId hget) (hid ▸ lt_irrefl _)
    rw [or_iff_left hnone]
    simp [hid, eq_comm]
  · simp [hid]

theorem spawn (h : self.Owned fits) (hfits : fits k v t) : (self.spawn k v t).Owned fits where
  handle id t' hget := by
    rcases h.running_spawn.mp hget with ⟨hid, rfl⟩ | hget
    · exact ⟨k, v, handle_spawn.mpr (.inl ⟨rfl, rfl, hid⟩), hfits⟩
    · obtain ⟨k', v', hhandle, hfits'⟩ := h.handle id t' hget
      exact ⟨k', v', handle_spawn.mpr (.inr hhandle), hfits'⟩
  unique k₁ v₁ k₂ v₂ id h₁ h₂ := by
    rcases handle_spawn.mp h₁ with ⟨rfl, rfl, hid⟩ | hold₁ <;>
      rcases handle_spawn.mp h₂ with ⟨rfl, rfl, hid'⟩ | hold₂
    · exact ⟨rfl, rfl⟩
    · exact absurd hid (Nat.ne_of_lt (h.fresh k₂ v₂ id hold₂))
    · exact absurd hid' (Nat.ne_of_lt (h.fresh k₁ v₁ id hold₁))
    · exact h.unique k₁ v₁ k₂ v₂ id hold₁ hold₂
  apart k' v' id hloose hentry := by
    rcases List.mem_cons.mp hloose with heq | hloose
    · cases heq
      exact absurd (h.fresh _ _ _ (.inr hentry)) (lt_irrefl _)
    · exact h.apart k' v' id hloose hentry
  nodup := by
    refine List.nodup_cons.mpr ⟨fun hid => ?_, h.nodup⟩
    obtain ⟨⟨k', v', id⟩, hloose, heq⟩ := List.mem_map.mp hid
    exact absurd heq (Nat.ne_of_lt (h.fresh k' v' id (.inl hloose)))
  fresh k' v' id hhandle := by
    rcases handle_spawn.mp hhandle with ⟨_, _, rfl⟩ | hhandle
    · exact Nat.lt_succ_self _
    · exact Nat.lt_succ_of_lt (h.fresh k' v' id hhandle)

/-- **Entries that go take their tasks with them**, and no others. -/
theorem retain (h : self.Owned fits) (keep : K → Bool) : (self.retain keep).Owned fits := by
  have hsub : ∀ {k v id}, (self.retain keep).Handle k v id → self.Handle k v id :=
    fun hhandle => (handle_retain.mp hhandle).imp_right And.left
  refine ⟨fun id t hget => ?_, ?_, ?_, h.nodup, fun k v id hhandle => h.fresh k v id (hsub hhandle)⟩
  · obtain ⟨hget, hkeep⟩ := running_retain.mp hget
    obtain ⟨k, v, hhandle, hfits⟩ := h.handle id t hget
    refine ⟨k, v, handle_retain.mpr (hhandle.imp_right fun hk => ?_), hfits⟩
    exact ⟨hk, hkeep k v hk⟩
  · exact fun k v k' v' id h₁ h₂ => h.unique k v k' v' id (hsub h₁) (hsub h₂)
  · exact fun k v id hloose hk => h.apart k v id hloose (entries_retain.mp hk).1

theorem remove (h : self.Owned fits) (k : K) : (self.remove k).Owned fits := h.retain _

/-- The handles after an insertion. -/
theorem handle_insert (h : self.Owned fits) (hloose : (k, v, id) ∈ self.loose) :
    (self.insert k v id).Handle k' v' id'
      ↔ (k' = k ∧ v' = v ∧ id' = id) ∨ (self.remove k).Handle k' v' id' ∧ id' ≠ id := by
  have hnot : ∀ {k' v' id'}, self.entries.get? k' = some (v', id') → id' ≠ id := by
    rintro k' v' id' hk' rfl
    obtain ⟨rfl, rfl⟩ := h.unique k v k' v' id' (.inl hloose) (.inr hk')
    exact h.apart k v id' hloose hk'
  constructor
  · rintro (hloose' | hk')
    · obtain ⟨hloose', hne⟩ := mem_loose_insert.mp hloose'
      exact .inr ⟨.inl hloose', hne⟩
    · by_cases hk : k' = k
      · subst hk
        rw [entries_insert_self] at hk'
        cases hk'
        exact .inl ⟨rfl, rfl, rfl⟩
      · rw [entries_insert_of_ne hk] at hk'
        exact .inr ⟨.inr (entries_retain.mpr ⟨hk', decide_eq_true hk⟩), hnot hk'⟩
  · rintro (⟨rfl, rfl, rfl⟩ | ⟨hloose' | hk', hne⟩)
    · exact .inr entries_insert_self
    · exact .inl (mem_loose_insert.mpr ⟨hloose', hne⟩)
    · obtain ⟨hk', hk⟩ := entries_retain.mp hk'
      exact .inr ((entries_insert_of_ne (of_decide_eq_true hk)).mpr hk')

/-- **A loose handle that is put into the map.** -/
theorem insert (h : self.Owned fits) (hloose : (k, v, id) ∈ self.loose) :
    (self.insert k v id).Owned fits := by
  have hrem := h.remove k
  refine ⟨fun id' t hget => ?_, fun k₁ v₁ k₂ v₂ id' h₁ h₂ => ?_, fun k' v' id' hloose' hk' => ?_,
    h.nodup.sublist (List.filter_sublist.map _), fun k' v' id' hhandle => ?_⟩
  · by_cases heq : id' = id
    · subst heq
      refine ⟨k, v, (h.handle_insert hloose).mpr (.inl ⟨rfl, rfl, rfl⟩), ?_⟩
      exact h.fits_of_handle (.inl hloose) (running_of_insert hget)
    · obtain ⟨k', v', hhandle, hfits⟩ := hrem.handle id' t hget
      exact ⟨k', v', (h.handle_insert hloose).mpr (.inr ⟨hhandle, heq⟩), hfits⟩
  · rcases (h.handle_insert hloose).mp h₁ with ⟨rfl, rfl, hid⟩ | ⟨h₁, hne⟩ <;>
      rcases (h.handle_insert hloose).mp h₂ with ⟨rfl, rfl, hid'⟩ | ⟨h₂, hne'⟩
    · exact ⟨rfl, rfl⟩
    · exact absurd hid hne'
    · exact absurd hid' hne
    · exact hrem.unique k₁ v₁ k₂ v₂ id' h₁ h₂
  · obtain ⟨hloose', hne⟩ := mem_loose_insert.mp hloose'
    by_cases hk : k' = k
    · subst hk
      rw [entries_insert_self] at hk'
      cases hk'
      exact hne rfl
    · exact h.apart k' v' id' hloose' ((entries_insert_of_ne hk).mp hk')
  · rcases (h.handle_insert hloose).mp hhandle with ⟨rfl, rfl, rfl⟩ | ⟨hhandle, _⟩
    · exact h.fresh _ _ _ (.inl hloose)
    · exact hrem.fresh k' v' id' hhandle

theorem finish (h : self.Owned fits) (id : ℕ) : (self.finish id).Owned fits := by
  refine { h with handle := fun id' t hget => ?_ }
  rw [OwnedTasks.finish, SortedTable.get?_remove] at hget
  split_ifs at hget
  exact h.handle id' t hget

theorem setTask (h : self.Owned fits) (hget : self.running.get? id = some t)
    (hfits : ∀ k v, fits k v t → fits k v t') : (self.setTask id t').Owned fits := by
  refine { h with handle := fun id' u hget' => ?_ }
  rw [OwnedTasks.setTask, SortedTable.get?_insert] at hget'
  split_ifs at hget' with heq
  · cases hget'
    obtain ⟨k, v, hhandle, hfit⟩ := h.handle id t hget
    exact ⟨k, v, heq ▸ hhandle, hfits k v hfit⟩
  · exact h.handle id' u hget'

end Owned

/-! ## Tasks that do not end -/

theorem Owned.allRun_spawn (h : self.Owned fits) (hall : self.AllRun) :
    (self.spawn k v t).AllRun := by
  intro k' v' id hhandle
  rcases handle_spawn.mp hhandle with ⟨_, _, hid⟩ | hhandle
  · exact ⟨t, h.running_spawn.mpr (.inl ⟨hid, rfl⟩)⟩
  · obtain ⟨t', hget⟩ := hall k' v' id hhandle
    exact ⟨t', h.running_spawn.mpr (.inr hget)⟩

theorem Owned.allRun_retain (h : self.Owned fits) (hall : self.AllRun) (keep : K → Bool) :
    (self.retain keep).AllRun := by
  intro k v id hhandle
  have hhandle' := handle_retain.mp hhandle
  obtain ⟨t, hget⟩ := hall k v id (hhandle'.imp_right And.left)
  refine ⟨t, running_retain.mpr ⟨hget, fun k' v' hk' => ?_⟩⟩
  obtain ⟨rfl, rfl⟩ := h.unique k v k' v' id (hhandle'.imp_right And.left) (.inr hk')
  rcases hhandle' with hloose | ⟨_, hkeep⟩
  · exact absurd hk' (h.apart k v id hloose)
  · exact hkeep

theorem Owned.allRun_insert (h : self.Owned fits) (hall : self.AllRun)
    (hloose : (k, v, id) ∈ self.loose) : (self.insert k v id).AllRun := by
  have hrem : (self.remove k).AllRun := h.allRun_retain hall _
  intro k' v' id' hhandle
  rcases (h.handle_insert hloose).mp hhandle with ⟨_, _, rfl⟩ | ⟨hhandle, _⟩
  · exact hrem k v id' (.inl hloose)
  · exact hrem k' v' id' hhandle

theorem AllRun.setTask (hall : self.AllRun) : (self.setTask id t).AllRun := by
  intro k' v' id' hhandle
  rw [OwnedTasks.setTask, SortedTable.get?_insert]
  split_ifs
  · exact ⟨t, rfl⟩
  · exact hall k' v' id' hhandle

/-! ## Counting -/

namespace Owned

/-- The numbers of all handles. -/
def handleIds (self : OwnedTasks K V T) : List ℕ :=
  self.loose.map (fun c => c.2.2) ++ self.entries.rows.map fun e => e.2.2

theorem mem_handleIds : id ∈ handleIds self ↔ ∃ k v, self.Handle k v id := by
  rw [handleIds, List.mem_append, List.mem_map, List.mem_map]
  constructor
  · rintro (⟨c, hc, rfl⟩ | ⟨e, he, rfl⟩)
    · exact ⟨c.1, c.2.1, .inl hc⟩
    · exact ⟨e.1, e.2.1, .inr ((SortedTable.mem_rows_iff _ _ _).mp he)⟩
  · rintro ⟨k, v, hloose | hk⟩
    · exact .inl ⟨(k, v, id), hloose, rfl⟩
    · exact .inr ⟨(k, v, id), (SortedTable.mem_rows_iff _ _ _).mpr hk, rfl⟩

theorem nodup_handleIds (h : self.Owned fits) : (handleIds self).Nodup := by
  have hrow : ∀ {e}, e ∈ self.entries.rows → self.Handle e.1 e.2.1 e.2.2 :=
    fun he => .inr ((SortedTable.mem_rows_iff _ _ _).mp he)
  refine List.nodup_append'.mpr ⟨h.nodup, ?_, fun id hid hmem => ?_⟩
  · refine List.Nodup.map_on ?_ (List.Nodup.of_map Prod.fst self.entries.keys_nodup)
    intro e he e' he' heq
    refine self.entries.row_unique he he' ?_
    exact (h.unique e.1 e.2.1 e'.1 e'.2.1 e.2.2 (hrow he) (heq ▸ hrow he')).1
  · obtain ⟨c, hc, rfl⟩ := List.mem_map.mp hid
    obtain ⟨e, he, heq⟩ := List.mem_map.mp hmem
    obtain ⟨hk, hv⟩ := h.unique e.1 e.2.1 c.1 c.2.1 e.2.2 (hrow he) (heq ▸ .inl hc)
    refine h.apart c.1 c.2.1 c.2.2 hc ?_
    rw [← hk, ← hv, ← heq]
    exact (SortedTable.mem_rows_iff _ _ _).mp he

/-- **The tasks that run are those of the handles**, if none ends by itself. -/
theorem running_iff (h : self.Owned fits) (hall : self.AllRun) :
    (∃ t, self.running.get? id = some t) ↔ ∃ k v, self.Handle k v id := by
  constructor
  · rintro ⟨t, hget⟩
    obtain ⟨k, v, hhandle, _⟩ := h.handle id t hget
    exact ⟨k, v, hhandle⟩
  · rintro ⟨k, v, hhandle⟩
    exact hall k v id hhandle

/-- There are as many. -/
theorem length_running (h : self.Owned fits) (hall : self.AllRun) :
    self.running.rows.length = self.loose.length + self.entries.rows.length := by
  have hperm : (self.running.rows.map Prod.fst).Perm (handleIds self) := by
    refine (List.perm_ext_iff_of_nodup self.running.keys_nodup h.nodup_handleIds).mpr fun id => ?_
    rw [mem_handleIds, ← h.running_iff hall, List.mem_map]
    constructor
    · rintro ⟨⟨_, t⟩, hrow, rfl⟩
      exact ⟨t, (SortedTable.mem_rows_iff _ _ _).mp hrow⟩
    · rintro ⟨t, hget⟩
      exact ⟨(id, t), (SortedTable.mem_rows_iff _ _ _).mpr hget, rfl⟩
  have hlen := hperm.length_eq
  rwa [List.length_map, handleIds, List.length_append, List.length_map, List.length_map] at hlen

end Owned

end OwnedTasks
