import IrohExperiments.Lib.OwnedTasks
import IrohExperiments.Lib.Transition
import IrohExperiments.Naming.Record

/-!
# The publisher

`publish` with a record signs a packet, starts a task that publishes it over and over, and puts the task into
the map of the keys; `publish` without one takes the entry of the key out.  Any number of calls can be under
way at once, so between the start of a task and its entry in the map others may come in.

`IPNS.step` has the two halves of a call apart, and time.  The tasks are owned by the map as in
`OwnedTasks`, so a key has one task, with the packet of the record that is there (`fits`).
`IPNS.attempts_of_run` is what follows for the tasks and their attempts: which of them run, when attempts are
made, and that there are none for what has been replaced or taken out.

A task that is aborted makes no attempt after that, as assumed in `OwnedTasks`: one that has just woken up while
it is aborted may still begin an attempt in the program.
-/

namespace IrohExperiments.Naming

/-- Milliseconds. -/
def REPUBLISH_DELAY : ℕ := 60 * 60 * 1000

def INITIAL_PUBLISH_DELAY : ℕ := 500

/-! ## The state -/

/-- A task sleeps until a time, or an attempt of it is under way. -/
inductive Phase where
  | Sleep (wake : ℕ)
  | Publish
  deriving DecidableEq

structure PublishTask where
  signedPacket : SignedPacket
  phase : Phase
  deriving DecidableEq

/-- A call of `publish` that has started a task. -/
structure PublishCall where
  time : ℕ
  secretKey : SecretKey
  record : Record
  timestamp : UInt64
  signedPacket : SignedPacket
  deriving DecidableEq

/-- A task has begun to publish its packet. -/
structure Attempt where
  time : ℕ
  task : ℕ
  signedPacket : SignedPacket
  deriving DecidableEq

/-- The clock and the map, with all calls and all attempts so far.  The number of a task is that of its
call. -/
structure IPNS where
  now : ℕ
  packets : OwnedTasks PublicKey Record PublishTask
  calls : List PublishCall
  attempts : List Attempt

inductive IpnsEvent where
  /-- The first half of `publish` with a record, at the time that the clock shows. -/
  | Publish (secretKey : SecretKey) (record : Record) (timestamp : UInt64)
  /-- The other half: the call puts the handle of its task into the map. -/
  | Insert (key : PublicKey) (record : Record) (task : ℕ)
  /-- `publish` without a record. -/
  | Unpublish (secretKey : SecretKey)
  | Tick (ms : ℕ)
  | Attempt (task : ℕ)
  /-- An attempt is over, whether it has succeeded or not. -/
  | AttemptEnd (task : ℕ)
  /-- The publisher is dropped. -/
  | Drop

section Publisher

variable [Pkarr]

/-- The event is a call of `publish` with a record for the key. -/
def IpnsEvent.Publishes (key : PublicKey) : IpnsEvent → Prop
  | .Publish secretKey _ _ => Pkarr.publicKey secretKey = key
  | _ => False

namespace IPNS

def new : IPNS := ⟨0, .empty, [], []⟩

def step (self : IPNS) : IpnsEvent → Option IPNS
  | .Publish secretKey record timestamp =>
      match toSignedPacket secretKey record 0 timestamp with
      | .error _ => some self
      | .ok signedPacket => some { self with
          packets := self.packets.spawn (Pkarr.publicKey secretKey) record
            ⟨signedPacket, .Sleep (self.now + INITIAL_PUBLISH_DELAY)⟩
          calls := self.calls ++ [⟨self.now, secretKey, record, timestamp, signedPacket⟩] }
  | .Insert key record task =>
      if (key, record, task) ∈ self.packets.loose then
        some { self with packets := self.packets.insert key record task }
      else none
  | .Unpublish secretKey =>
      some { self with packets := self.packets.remove (Pkarr.publicKey secretKey) }
  | .Tick ms => some { self with now := self.now + ms }
  | .Attempt task =>
      match self.packets.running.get? task with
      | some ⟨signedPacket, .Sleep wake⟩ =>
          if wake ≤ self.now then some { self with
            packets := self.packets.setTask task ⟨signedPacket, .Publish⟩
            attempts := self.attempts ++ [⟨self.now, task, signedPacket⟩] }
          else none
      | _ => none
  | .AttemptEnd task =>
      match self.packets.running.get? task with
      | some ⟨signedPacket, .Publish⟩ => some { self with
          packets := self.packets.setTask task
            ⟨signedPacket, .Sleep (self.now + REPUBLISH_DELAY)⟩ }
      | _ => none
  | .Drop =>
      if self.packets.loose = [] then
        some { self with packets := self.packets.retain fun _ => false }
      else none

/-! ## The invariant -/

/-- The packet of a task is one of the record, under the key. -/
def fits (key : PublicKey) (record : Record) (t : PublishTask) : Prop :=
  toRecord t.signedPacket = .ok record ∧ t.signedPacket.publicKey = key

/-- A call has made its packet. -/
def Made (c : PublishCall) : Prop :=
  toSignedPacket c.secretKey c.record 0 c.timestamp = .ok c.signedPacket

/-- The attempts of one task are at least this far apart. -/
def Spaced (a b : Attempt) : Prop := a.task = b.task → a.time + REPUBLISH_DELAY ≤ b.time

/-- An attempt is one of a call, and not too early. -/
def Attempted (calls : List PublishCall) (a : Attempt) : Prop :=
  ∃ c, calls[a.task]? = some c ∧ a.signedPacket = c.signedPacket ∧
    c.time + INITIAL_PUBLISH_DELAY ≤ a.time

structure Inv (ipns : IPNS) : Prop where
  owned : ipns.packets.Owned fits
  allRun : ipns.packets.AllRun
  ids : ipns.packets.nextId = ipns.calls.length
  made : ∀ c ∈ ipns.calls, Made c ∧ c.time ≤ ipns.now
  task : ∀ id t, ipns.packets.running.get? id = some t →
    ∃ c, ipns.calls[id]? = some c ∧ t.signedPacket = c.signedPacket ∧
      ∀ wake, t.phase = .Sleep wake → c.time + INITIAL_PUBLISH_DELAY ≤ wake ∧
        ∀ a ∈ ipns.attempts, a.task = id → a.time + REPUBLISH_DELAY ≤ wake
  attempt : ∀ a ∈ ipns.attempts, Attempted ipns.calls a
  past : ∀ a ∈ ipns.attempts, a.time ≤ ipns.now
  spaced : ipns.attempts.Pairwise Spaced

variable {self after : IPNS}

theorem inv_new : new.Inv where
  owned := OwnedTasks.owned_empty
  allRun := OwnedTasks.allRun_empty
  ids := rfl
  made := nofun
  task := nofun
  attempt := nofun
  past := nofun
  spaced := .nil

/-- Tasks that are aborted. -/
theorem Inv.abort (h : self.Inv) {packets : OwnedTasks PublicKey Record PublishTask}
    (howned : packets.Owned fits) (hall : packets.AllRun) (hnextId : packets.nextId = self.packets.nextId)
    (hrunning : ∀ id t, packets.running.get? id = some t →
      self.packets.running.get? id = some t) : Inv { self with packets } :=
  { h with
    owned := howned
    allRun := hall
    ids := hnextId.trans h.ids
    task := fun id t hget => h.task id t (hrunning id t hget) }

/-- A new task has no attempts. -/
theorem Inv.publish (laws : Pkarr.Lawful) (h : self.Inv) {secretKey : SecretKey} {record : Record}
    {timestamp : UInt64} (hstep : self.step (.Publish secretKey record timestamp) = some after) :
    after.Inv := by
  rw [step] at hstep
  split at hstep
  next =>
    cases hstep
    exact h
  next signedPacket hmade =>
    cases hstep
    obtain ⟨hrecord, hkey, _⟩ := toRecord_of_toSignedPacket laws hmade
    have hold : ∀ {id c}, self.calls[id]? = some c → ∀ d, (self.calls ++ [d])[id]? = some c :=
      fun hc d => (List.getElem?_append_left (List.getElem?_eq_some_iff.mp hc).1).trans hc
    refine ⟨h.owned.spawn ⟨hrecord, hkey⟩, h.owned.allRun_spawn h.allRun, ?_, ?_, ?_, ?_, h.past,
      h.spaced⟩
    · rw [List.length_append, ← h.ids]
      rfl
    · intro c hc
      rcases List.mem_append.mp hc with hc | hc
      · exact h.made c hc
      · rw [List.mem_singleton.mp hc]
        exact ⟨hmade, Nat.le_refl _⟩
    · intro id t hget
      rcases h.owned.running_spawn.mp hget with ⟨hid, rfl⟩ | hget
      · refine ⟨⟨self.now, secretKey, record, timestamp, signedPacket⟩, ?_, rfl, fun wake hwake => ?_⟩
        · rw [hid, h.ids]
          exact List.getElem?_concat_length
        · cases hwake
          refine ⟨Nat.le_refl _, fun a ha htask => ?_⟩
          -- an attempt has a call of its own, and this one comes after all of them
          obtain ⟨c, hc, _⟩ := h.attempt a ha
          have hlt := (List.getElem?_eq_some_iff.mp hc).1
          rw [htask, hid, h.ids] at hlt
          exact absurd hlt (Nat.lt_irrefl _)
      · obtain ⟨c, hc, hrest⟩ := h.task id t hget
        exact ⟨c, hold hc _, hrest⟩
    · intro a ha
      obtain ⟨c, hc, hrest⟩ := h.attempt a ha
      exact ⟨c, hold hc _, hrest⟩

/-- An attempt that is due. -/
theorem Inv.begin (h : self.Inv) {task : ℕ} (hstep : self.step (.Attempt task) = some after) :
    after.Inv := by
  rw [step] at hstep
  split at hstep
  next signedPacket wake hget =>
    split_ifs at hstep with hwake
    cases hstep
    obtain ⟨c, hc, hpacket, hphase⟩ := h.task task _ hget
    obtain ⟨hinitial, hlast⟩ := hphase wake rfl
    refine ⟨h.owned.setTask hget fun _ _ hfits => hfits, h.allRun.setTask, h.ids, h.made, ?_, ?_, ?_, ?_⟩
    · intro id t hget'
      by_cases hid : id = task
      · subst hid
        obtain rfl := Option.some.inj ((SortedTable.get?_insert_self _ _ _).symm.trans hget')
        exact ⟨c, hc, hpacket, nofun⟩
      · obtain ⟨c', hc', hpacket', hphase'⟩ :=
          h.task id t ((SortedTable.get?_insert_of_ne _ _ hid).symm.trans hget')
        refine ⟨c', hc', hpacket', fun wake' hwake' => ⟨(hphase' wake' hwake').1, ?_⟩⟩
        intro a ha htask
        rcases List.mem_append.mp ha with ha | ha
        · exact (hphase' wake' hwake').2 a ha htask
        · rw [List.mem_singleton.mp ha] at htask
          exact absurd htask.symm hid
    · intro a ha
      rcases List.mem_append.mp ha with ha | ha
      · exact h.attempt a ha
      · rw [List.mem_singleton.mp ha]
        exact ⟨c, hc, hpacket, Nat.le_trans hinitial hwake⟩
    · intro a ha
      rcases List.mem_append.mp ha with ha | ha
      · exact h.past a ha
      · rw [List.mem_singleton.mp ha]
    · refine List.pairwise_append.mpr ⟨h.spaced, List.pairwise_singleton _ _, fun a ha b hb => ?_⟩
      rw [List.mem_singleton.mp hb]
      exact fun htask => Nat.le_trans (hlast a ha htask) hwake
  next => cases hstep

/-- A task goes to sleep after an attempt. -/
theorem Inv.finish (h : self.Inv) {task : ℕ} (hstep : self.step (.AttemptEnd task) = some after) :
    after.Inv := by
  rw [step] at hstep
  split at hstep
  next signedPacket hget =>
    cases hstep
    obtain ⟨c, hc, hpacket, _⟩ := h.task task _ hget
    refine { h with
      owned := h.owned.setTask hget fun _ _ hfits => hfits
      allRun := h.allRun.setTask
      task := ?_ }
    intro id t hget'
    by_cases hid : id = task
    · subst hid
      obtain rfl := Option.some.inj ((SortedTable.get?_insert_self _ _ _).symm.trans hget')
      refine ⟨c, hc, hpacket, fun wake hwake => ?_⟩
      cases hwake
      refine ⟨?_, fun a ha _ => Nat.add_le_add_right (h.past a ha) _⟩
      have hcall := (h.made c (List.mem_of_getElem? hc)).2
      show c.time + INITIAL_PUBLISH_DELAY ≤ self.now + REPUBLISH_DELAY
      exact Nat.add_le_add hcall (by decide)
    · exact h.task id t ((SortedTable.get?_insert_of_ne _ _ hid).symm.trans hget')
  next => cases hstep

/-- **The step.** -/
theorem Inv.step (laws : Pkarr.Lawful) (h : self.Inv) {e : IpnsEvent}
    (hstep : self.step e = some after) : after.Inv := by
  have hretain : ∀ keep, ∀ id t, (self.packets.retain keep).running.get? id = some t →
      self.packets.running.get? id = some t :=
    fun keep id t hget => (OwnedTasks.running_retain.mp hget).1
  cases e with
  | Publish secretKey record timestamp => exact h.publish laws hstep
  | Insert key record task =>
      rw [IPNS.step] at hstep
      split_ifs at hstep with hloose
      cases hstep
      exact h.abort (h.owned.insert hloose) (h.owned.allRun_insert h.allRun hloose) rfl
        fun _ _ => OwnedTasks.running_of_insert
  | Unpublish secretKey =>
      cases hstep
      exact h.abort (h.owned.remove _) (h.owned.allRun_retain h.allRun _) rfl (hretain _)
  | Tick ms =>
      cases hstep
      exact { h with
        made := fun c hc => ⟨(h.made c hc).1, Nat.le_add_right_of_le (h.made c hc).2⟩
        past := fun a ha => Nat.le_add_right_of_le (h.past a ha) }
  | Attempt task => exact h.begin hstep
  | AttemptEnd task => exact h.finish hstep
  | Drop =>
      rw [IPNS.step] at hstep
      split_ifs at hstep
      cases hstep
      exact h.abort (h.owned.retain _) (h.owned.allRun_retain h.allRun _) rfl (hretain _)

theorem inv_of_run (laws : Pkarr.Lawful) {events : List IpnsEvent}
    (hrun : Transition.run step new events = some self) : self.Inv :=
  Transition.run_invariant (I := Inv) inv_new (fun _ _ _ hm hstep => hm.step laws hstep) hrun

/-! ## Attempts of a key -/

/-- No call for the key is between the start of its task and the map. -/
def Settled (self : IPNS) (key : PublicKey) : Prop :=
  ∀ record task, (key, record, task) ∉ self.packets.loose

/-- What may have happened to a key since a state in which it was settled, without a call for it: its entry
may be gone, and the attempts for it are all of the task it had then. -/
structure Since (key : PublicKey) (before after : IPNS) : Prop where
  settled : after.Settled key
  entry : ∀ record task, after.packets.entries.get? key = some (record, task) →
    before.packets.entries.get? key = some (record, task)
  attempts : ∃ newer, after.attempts = before.attempts ++ newer ∧
    ∀ a ∈ newer, a.signedPacket.publicKey = key → ∃ record,
      before.packets.entries.get? key = some (record, a.task) ∧
        toRecord a.signedPacket = .ok record

variable {key : PublicKey} {m : IPNS}

theorem Since.refl (h : self.Settled key) : Since key self self :=
  ⟨h, fun _ _ hentry => hentry, [], (List.append_nil _).symm, nofun⟩

/-- **The step**: an attempt for the key is one of the task in its entry. -/
theorem Since.step (h : Since key self m) (hinv : m.Inv) {e : IpnsEvent} (he : ¬ e.Publishes key)
    (hstep : m.step e = some after) : Since key self after := by
  cases e with
  | Publish secretKey record timestamp =>
      rw [IPNS.step] at hstep
      split at hstep
      next =>
        cases hstep
        exact h
      next =>
        cases hstep
        refine ⟨fun record' task hloose => ?_, h.entry, h.attempts⟩
        rcases List.mem_cons.mp hloose with heq | hloose
        · cases heq
          exact he rfl
        · exact h.settled record' task hloose
  | Insert key' record task =>
      rw [IPNS.step] at hstep
      split_ifs at hstep with hloose
      cases hstep
      have hne : key ≠ key' := by
        rintro rfl
        exact h.settled record task hloose
      refine ⟨fun record' task' hloose' => ?_, fun record' task' hentry => ?_, h.attempts⟩
      · exact h.settled record' task' (OwnedTasks.mem_loose_insert.mp hloose').1
      · exact h.entry record' task' ((OwnedTasks.entries_insert_of_ne hne).mp hentry)
  | Unpublish secretKey =>
      cases hstep
      exact ⟨h.settled, fun record task hentry =>
        h.entry record task (OwnedTasks.entries_retain.mp hentry).1, h.attempts⟩
  | Tick ms =>
      cases hstep
      exact ⟨h.settled, h.entry, h.attempts⟩
  | Attempt task =>
      rw [IPNS.step] at hstep
      split at hstep
      next signedPacket wake hget =>
        split_ifs at hstep with hwake
        cases hstep
        obtain ⟨newer, hnewer, hall⟩ := h.attempts
        refine ⟨h.settled, h.entry, newer ++ [⟨m.now, task, signedPacket⟩], ?_, ?_⟩
        · rw [hnewer, List.append_assoc]
        · intro a ha hkey
          rcases List.mem_append.mp ha with ha | ha
          · exact hall a ha hkey
          · rw [List.mem_singleton.mp ha] at hkey ⊢
            -- the task has a handle, and that is not loose
            obtain ⟨key', record, hhandle, hrecord, hkey'⟩ := hinv.owned.handle task _ hget
            rw [← hkey', hkey] at hhandle
            have hentry := hhandle.resolve_left (h.settled record task)
            exact ⟨record, h.entry record task hentry, hrecord⟩
      next => cases hstep
  | AttemptEnd task =>
      rw [IPNS.step] at hstep
      split at hstep
      next =>
        cases hstep
        exact ⟨h.settled, h.entry, h.attempts⟩
      next => cases hstep
  | Drop =>
      rw [IPNS.step] at hstep
      split_ifs at hstep
      cases hstep
      exact ⟨h.settled, fun record task hentry =>
        h.entry record task (OwnedTasks.entries_retain.mp hentry).1, h.attempts⟩

/-- The run. -/
theorem since_of_run (laws : Pkarr.Lawful) (hinv : self.Inv) (hsettled : self.Settled key)
    {later : List IpnsEvent} (hlater : ∀ e ∈ later, ¬ e.Publishes key)
    (hrun : Transition.run step self later = some after) : Since key self after := by
  exact (Transition.run_invariant_of_conforms (I := fun m => m.Inv ∧ Since key self m)
    ⟨hinv, .refl hsettled⟩
    (fun m e m' hm he hstep => ⟨hm.1.step laws hstep, hm.2.step hm.1 he hstep⟩)
    (Transition.conforms_of_forall fun e he _ => hlater e he) hrun).2

/-- **When what is published.**  In every run, with calls that overlap in any way, the tasks that run are
those in the map and those of calls that are just under way, and each of them is there once.  An attempt is
one of a call, with the packet that was signed then, and not before the initial delay has passed; two attempts
of one task are at least the republish delay apart.  And from a state on in which no call for a key is under
way, as long as there is none, the attempts for it are all of the task that is in the map then, and of the
record that is there: there are none for a record that was replaced, nor for a key that was taken out. -/
theorem attempts_of_run (laws : Pkarr.Lawful) {events : List IpnsEvent}
    (hrun : Transition.run step new events = some self) :
    (∀ task, (∃ t, self.packets.running.get? task = some t) ↔
        (∃ key record, (key, record, task) ∈ self.packets.loose) ∨
          ∃ key record, self.packets.entries.get? key = some (record, task)) ∧
      self.packets.running.rows.length
        = self.packets.loose.length + self.packets.entries.rows.length ∧
      (∀ a ∈ self.attempts, Attempted self.calls a) ∧
      self.attempts.Pairwise Spaced ∧
      ∀ key, self.Settled key → ∀ later after, (∀ e ∈ later, ¬ e.Publishes key) →
        Transition.run step self later = some after →
          ∃ newer, after.attempts = self.attempts ++ newer ∧
            ∀ a ∈ newer, a.signedPacket.publicKey = key → ∃ record,
              self.packets.entries.get? key = some (record, a.task) ∧
                toRecord a.signedPacket = .ok record := by
  have h := inv_of_run laws hrun
  refine ⟨fun task => ?_, h.owned.length_running h.allRun, h.attempt, h.spaced,
    fun key hsettled later after hlater hafter => ?_⟩
  · rw [h.owned.running_iff h.allRun]
    simp only [OwnedTasks.Handle, exists_or]
  · exact (since_of_run laws h hsettled hlater hafter).attempts

end IPNS

end Publisher

/-! ## A record that is replaced -/

section Replaced

attribute [local instance] Pkarr.plain

namespace IPNS

def someKey : SecretKey := ⟨List.replicate 32 1, by decide⟩

def someRecord (format : Tracker.BlobFormat) : Record := .Content ⟨⟨List.replicate 32 7, by decide⟩, format⟩

/-- A record is replaced while an attempt for it is under way. -/
def replaced : List IpnsEvent :=
  [.Publish someKey (someRecord .Raw) 100, .Insert someKey (someRecord .Raw) 0, .Tick 500, .Attempt 0,
    .Publish someKey (someRecord .HashSeq) 200, .Insert someKey (someRecord .HashSeq) 1]

/-- Time goes on for two hours. -/
def republished : List IpnsEvent :=
  [.Tick 500, .Attempt 1, .AttemptEnd 1, .Tick 3600000, .Attempt 1, .AttemptEnd 1, .Tick 3600000]

/-- The conditions can be met. -/
theorem attempts_of_run_replaced :
    ∃ self after, Transition.run step new replaced = some self ∧
      Transition.run step self republished = some after ∧
      ∀ a ∈ after.attempts.drop self.attempts.length, a.signedPacket.publicKey = someKey →
        toRecord a.signedPacket = .ok (someRecord .HashSeq) := by
  have hsome : ((Transition.run step new replaced).map fun self =>
      (self.packets.loose, self.packets.entries.get? someKey, (Transition.run step self republished).isSome))
        = some ([], some (someRecord .HashSeq, 1), true) := by
    decide +kernel
  obtain ⟨self, hrun, heq⟩ := Option.map_eq_some_iff.mp hsome
  obtain ⟨hloose, heq⟩ := Prod.mk.inj heq
  obtain ⟨hentry, hafter⟩ := Prod.mk.inj heq
  obtain ⟨after, hafter⟩ := Option.isSome_iff_exists.mp hafter
  refine ⟨self, after, hrun, hafter, ?_⟩
  obtain ⟨_, _, _, _, hsince⟩ := attempts_of_run Pkarr.plain_lawful hrun
  obtain ⟨newer, hnewer, hall⟩ := hsince someKey (by rw [Settled, hloose]; nofun) republished after
    (by simp [republished, IpnsEvent.Publishes]) hafter
  intro a ha hkey
  rw [hnewer, List.drop_left] at ha
  obtain ⟨record, hrecord, hto⟩ := hall a ha hkey
  rw [hentry] at hrecord
  rw [hto, (Prod.mk.inj (Option.some.inj hrecord)).1]

end IPNS

end Replaced

end IrohExperiments.Naming
