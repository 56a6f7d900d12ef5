import IrohExperiments.Tracker.Actor

/-!
# The message loop of the actor

`Actor::run` handles its messages in transactions.  It peeks at the next message, opens a
transaction of the message's category, and takes messages until one of them belongs into the other
kind of transaction, until a timeout, or until the transaction has become too long; a message that
was taken too early is pushed back.

`Actor.step` is one step of this loop.  What the loop does not decide is in the `Tick` of the step:
whether a receive loses against the timeout, and whether the time is up after a message.  The clock
that the handlers read is a function of the number of messages handled before.

The specification is `handleMessage`, which handles one message on its own.  `Actor.step_cases` says
that a step of the loop either handles the next message like `handleMessage` does or none at all,
and `Actor.run_refines` that batching makes no difference: what a run has handled is always an
initial part of the messages up to the first `Stop`, with the same trace, state and tables as one
message at a time, and it is all of them, and committed, when the run is over.
-/

namespace IrohExperiments.Tracker

section Loop

variable [KeyScheme]

/-! ## The receiver -/

/-- The receiver of the actor's channel, with room for one message that was peeked at or pushed
back.  `rx` are the messages that will come out of the channel before it is closed. -/
structure PeekableReceiver where
  msg : Option ActorMessage
  rx : List ActorMessage

namespace PeekableReceiver

def new (rx : List ActorMessage) : PeekableReceiver := ⟨none, rx⟩

def peek (self : PeekableReceiver) : Option ActorMessage × PeekableReceiver :=
  match self.msg, self.rx with
  | some msg, _ => (some msg, self)
  | none, [] => (none, self)
  | none, msg :: rx => (some msg, ⟨some msg, rx⟩)

def recv (self : PeekableReceiver) : Option ActorMessage × PeekableReceiver :=
  match self.msg, self.rx with
  | some msg, rx => (some msg, ⟨none, rx⟩)
  | none, [] => (none, self)
  | none, msg :: rx => (some msg, ⟨none, rx⟩)

/-- Push back a message.  This only works if there is room for it. -/
def pushBack (self : PeekableReceiver) (msg : ActorMessage) : Except ActorMessage PeekableReceiver :=
  match self.msg with
  | none => .ok ⟨some msg, self.rx⟩
  | some _ => .error msg

/-- The messages that are still to be received, in order. -/
def pending (self : PeekableReceiver) : List ActorMessage := self.msg.toList ++ self.rx

/-- Peeking shows the next message and changes nothing about what is received. -/
theorem peek_spec (self : PeekableReceiver) :
    self.peek.1 = self.pending.head? ∧ self.peek.2.pending = self.pending := by
  obtain ⟨msg, rx⟩ := self
  cases msg with
  | some msg => exact ⟨rfl, rfl⟩
  | none => cases rx <;> exact ⟨rfl, rfl⟩

/-- Receiving takes the next message, and leaves room for a message to be pushed back. -/
theorem recv_spec (self : PeekableReceiver) :
    self.recv.1 = self.pending.head? ∧ self.recv.2.pending = self.pending.tail ∧
      self.recv.2.msg = none := by
  obtain ⟨msg, rx⟩ := self
  cases msg with
  | some msg => exact ⟨rfl, rfl, rfl⟩
  | none => cases rx <;> exact ⟨rfl, rfl, rfl⟩

theorem pending_of_recv_none {self self' : PeekableReceiver} (h : self.recv = (none, self')) :
    self.pending = [] ∧ self'.pending = [] := by
  obtain ⟨hmsg, htail, _⟩ := self.recv_spec
  rw [h] at hmsg htail
  have hnil : self.pending = [] := List.head?_eq_none_iff.mp hmsg.symm
  rw [hnil] at htail
  exact ⟨hnil, htail⟩

theorem pending_of_recv_some {self self' : PeekableReceiver} {msg : ActorMessage}
    (h : self.recv = (some msg, self')) : self.pending = msg :: self'.pending := by
  obtain ⟨hmsg, htail, _⟩ := self.recv_spec
  rw [h] at hmsg htail
  rw [show self'.pending = self.pending.tail from htail]
  exact (List.cons_head?_tail hmsg.symm).symm

/-- **A message that was just received can be pushed back**, and is then the next one again. -/
theorem pushBack_recv {self self' : PeekableReceiver} {msg : ActorMessage}
    (h : self.recv = (some msg, self')) :
    ∃ self'', self'.pushBack msg = .ok self'' ∧ self''.pending = self.pending := by
  have hpending := pending_of_recv_some h
  obtain ⟨_, _, hroom⟩ := self.recv_spec
  rw [h] at hroom
  obtain ⟨_, rx⟩ := self'
  cases hroom
  exact ⟨⟨some msg, rx⟩, rfl, hpending.symm⟩

end PeekableReceiver

/-! ## One message at a time -/

/-- A message that was handled: by which of the two handlers, and with what effects. -/
structure Event where
  handler : MessageCategory
  msg : ActorMessage
  effects : List Effect

/-- What handling messages has led to so far. -/
structure Log where
  trace : List Event
  state : State
  tables : Tables

/-- Handle one message with the handler of its category.  The clock is read at the time that
belongs to the number of messages handled before. -/
def handleMessage (options : Options) (clock : ℕ → AbsoluteTime) (log : Log) (msg : ActorMessage) :
    Option Log := do
  let (state, tables, effects) ←
    dispatch options log.state (clock log.trace.length) msg log.tables
  return ⟨log.trace ++ [⟨msg.category, msg, effects⟩], state, tables⟩

theorem handleMessage_eq_some {options : Options} {clock : ℕ → AbsoluteTime} {log log' : Log}
    {msg : ActorMessage} :
    handleMessage options clock log msg = some log'
      ↔ ∃ r, dispatch options log.state (clock log.trace.length) msg log.tables = some r ∧
          log' = ⟨log.trace ++ [⟨msg.category, msg, r.2.2⟩], r.1, r.2.1⟩ := by
  rw [handleMessage]
  cases dispatch options log.state (clock log.trace.length) msg log.tables with
  | none => simp
  | some r => simp [eq_comm]

/-- The messages up to the first `Stop`. -/
def untilStop (msgs : List ActorMessage) : List ActorMessage :=
  msgs.takeWhile fun msg => !msg.isStop

/-! ## The loop -/

/-- Where the loop is: at the top, in a transaction with its tables and counter, or at its end. -/
inductive Phase where
  | Peek
  | Write (tables : Tables) (n : ℕ)
  | Read (tables : Tables) (n : ℕ)
  | Done
  | Panicked

/-- What the loop does not decide in a step: whether the timeout fires before a message is received,
and whether the transaction has lasted too long after one was handled. -/
structure Tick where
  timeout : Bool
  elapsed : Bool

/-- The actor and the loop it runs.  `db` are the committed tables. -/
structure Actor where
  msgs : PeekableReceiver
  state : State
  db : Tables
  trace : List Event
  phase : Phase

namespace Actor

/-- The actor at the start of `run`. -/
def start (state : State) (db : Tables) (msgs : List ActorMessage) : Actor :=
  ⟨PeekableReceiver.new msgs, state, db, [], .Peek⟩

/-- The end of a write transaction. -/
def commit (self : Actor) (tables : Tables) : Actor := { self with db := tables, phase := .Peek }

/-- One step of `run`. -/
def step (options : Options) (clock : ℕ → AbsoluteTime) (self : Actor) (tick : Tick) :
    Option Actor :=
  match self.phase with
  | .Peek =>
      match self.msgs.peek with
      | (none, msgs) => some { self with msgs := msgs, phase := .Done }
      | (some msg, msgs) =>
          if msg.isStop then some { self with msgs := msgs, phase := .Done }
          else
            match msg.category with
            | .ReadWrite => some { self with msgs := msgs, phase := .Write self.db 0 }
            | .ReadOnly => some { self with msgs := msgs, phase := .Read self.db 0 }
  | .Write tables n =>
      if tick.timeout then some (self.commit tables)
      else
        match self.msgs.recv with
        | (none, msgs) => some ({ self with msgs := msgs }.commit tables)
        | (some msg, msgs) =>
            match handleReadwrite options self.state (clock self.trace.length) msg tables with
            | .error msg =>
                match msgs.pushBack msg with
                | .ok msgs => some ({ self with msgs := msgs }.commit tables)
                | .error _ => some { self with msgs := msgs, phase := .Panicked }
            | .ok (state, tables, effects) =>
                let trace := self.trace ++ [⟨.ReadWrite, msg, effects⟩]
                if n > 1000 ∨ tick.elapsed then
                  some ({ self with msgs := msgs, state := state, trace := trace }.commit tables)
                else
                  some { self with
                    msgs := msgs, state := state, trace := trace, phase := .Write tables (n + 1) }
  | .Read tables n =>
      if tick.timeout then some { self with phase := .Peek }
      else
        match self.msgs.recv with
        | (none, msgs) => some { self with msgs := msgs, phase := .Peek }
        | (some msg, msgs) =>
            match handleReadonly options self.state (clock self.trace.length) msg tables with
            | none => some { self with msgs := msgs, phase := .Panicked }
            | some (.error msg) =>
                match msgs.pushBack msg with
                | .ok msgs => some { self with msgs := msgs, phase := .Peek }
                | .error _ => some { self with msgs := msgs, phase := .Panicked }
            | some (.ok effects) =>
                let trace := self.trace ++ [⟨.ReadOnly, msg, effects⟩]
                if n > 1000 ∨ tick.elapsed then
                  some { self with msgs := msgs, trace := trace, phase := .Peek }
                else
                  some { self with msgs := msgs, trace := trace, phase := .Read tables (n + 1) }
  | .Done => none
  | .Panicked => none

/-- The tables with everything written so far, also by a transaction that is not committed. -/
def tables (self : Actor) : Tables :=
  match self.phase with
  | .Write tables _ => tables
  | _ => self.db

/-- What the messages handled so far have led to. -/
def log (self : Actor) : Log := ⟨self.trace, self.state, self.tables⟩

/-! ## One step of the loop -/

/-- What is known of each phase.  A transaction that has not handled a message yet finds one of its
category: this is why the loop cannot spin. -/
def PhaseOk (self : Actor) : Prop :=
  match self.phase with
  | .Peek => True
  | .Write _ n => n = 0 → ∃ msg rest, self.msgs.pending = msg :: rest ∧ msg.category = .ReadWrite
  | .Read tables n => tables = self.db ∧
      (n = 0 → ∃ msg rest, self.msgs.pending = msg :: rest ∧
        msg.category = .ReadOnly ∧ msg.isStop = false)
  | .Done => untilStop self.msgs.pending = []
  | .Panicked => False

/-- The steps that the loop has still to take if no timeout fires. -/
def potential (self : Actor) : ℕ :=
  match self.phase with
  | .Peek => 3 * self.msgs.pending.length + 1
  | .Write _ n | .Read _ n => 3 * self.msgs.pending.length + (if n = 0 then 0 else 2)
  | .Done | .Panicked => 0

/-- A timeout costs the step it takes, and one to open a new transaction. -/
def cost (tick : Tick) : ℕ := if tick.timeout then 2 else 0

/-- What one step does: it handles the next message as `handleMessage` does, or none. -/
structure StepSpec (options : Options) (clock : ℕ → AbsoluteTime) (tick : Tick)
    (actor actor' : Actor) : Prop where
  phase : actor'.PhaseOk
  handles : (actor'.log = actor.log ∧ actor'.msgs.pending = actor.msgs.pending) ∨
    ∃ msg, msg.isStop = false ∧ actor.msgs.pending = msg :: actor'.msgs.pending ∧
      handleMessage options clock actor.log msg = some actor'.log
  potential : actor'.potential + 1 ≤ actor.potential + cost tick

variable {options : Options} {clock : ℕ → AbsoluteTime} {tick : Tick} {self self' : Actor}

/-- **The end of the loop.** -/
theorem StepSpec.of_done (hp : self'.phase = .Done) (hnone : untilStop self'.msgs.pending = [])
    (hlog : self'.log = self.log) (hpending : self'.msgs.pending = self.msgs.pending)
    (hpays : 1 ≤ self.potential) : StepSpec options clock tick self self' where
  phase := by
    rw [PhaseOk, hp]
    exact hnone
  handles := Or.inl ⟨hlog, hpending⟩
  potential := by
    rw [Actor.potential, hp]
    exact le_trans hpays (Nat.le_add_right _ _)

/-- At the top of the loop the next message decides what happens. -/
theorem step_of_peek (hp : self.phase = .Peek) (h : self.step options clock tick = some self') :
    StepSpec options clock tick self self' := by
  obtain ⟨hhead, hpending⟩ := self.msgs.peek_spec
  have hpot : self.potential = 3 * self.msgs.pending.length + 1 := by rw [potential, hp]
  have hpays : 1 ≤ self.potential := hpot ▸ Nat.le_add_left _ _
  have hlog : self.log = ⟨self.trace, self.state, self.db⟩ := by rw [log, tables, hp]
  rw [step, hp] at h
  rcases hpeek : self.msgs.peek with ⟨_ | msg, msgs⟩
  · -- the channel is closed
    simp only [hpeek] at h hhead hpending
    have hnil : msgs.pending = [] := by
      rw [hpending]
      exact List.head?_eq_none_iff.mp hhead.symm
    have hnone : untilStop msgs.pending = [] := by
      rw [hnil]
      rfl
    cases h
    exact .of_done rfl hnone hlog.symm hpending hpays
  · simp only [hpeek] at h hhead hpending
    obtain ⟨rest, hrest⟩ : ∃ rest, msgs.pending = msg :: rest := by
      rw [hpending]
      exact ⟨_, (List.cons_head?_tail hhead.symm).symm⟩
    cases hstop : msg.isStop with
    | true =>
        have hnone : untilStop msgs.pending = [] := by
          rw [hrest, untilStop, List.takeWhile_cons_of_neg (by simp [hstop])]
        simp only [hstop, if_true] at h
        cases h
        exact .of_done rfl hnone hlog.symm hpending hpays
    | false =>
        rw [hstop] at h
        cases hcat : msg.category with
        | ReadWrite =>
            simp only [hcat] at h
            cases h
            refine ⟨fun _ => ⟨msg, rest, hrest, hcat⟩, Or.inl ⟨hlog.symm, hpending⟩, ?_⟩
            rw [hpot]
            simp [potential, hpending]
        | ReadOnly =>
            simp only [hcat] at h
            cases h
            refine ⟨⟨rfl, fun _ => ⟨msg, rest, hrest, hcat, hstop⟩⟩,
              Or.inl ⟨hlog.symm, hpending⟩, ?_⟩
            rw [hpot]
            simp [potential, hpending]

/-- Committing keeps the tables that were written. -/
theorem log_commit (self : Actor) (tables : Tables) :
    (self.commit tables).log = ⟨self.trace, self.state, tables⟩ := rfl

theorem log_of_write {tables : Tables} {n : ℕ} (hp : self.phase = .Write tables n) :
    self.log = ⟨self.trace, self.state, tables⟩ := by
  rw [log, Actor.tables, hp]

theorem log_of_read {tables : Tables} {n : ℕ} (hp : self.phase = .Read tables n) :
    self.log = ⟨self.trace, self.state, self.db⟩ := by
  rw [log, Actor.tables, hp]

/-- A transaction pays for its end in advance, unless a timeout does. -/
theorem pays_for_end {n : ℕ}
    (hpot : self.potential = 3 * self.msgs.pending.length + if n = 0 then 0 else 2)
    (h : n ≠ 0 ∨ tick.timeout = true) :
    3 * self.msgs.pending.length + 2 ≤ self.potential + cost tick := by
  rw [hpot]
  rcases h with hn | htimeout
  · rw [if_neg hn]
    exact Nat.le_add_right _ _
  · simp only [cost, htimeout, if_true]
    omega

/-- **The end of a transaction**, in a step that handles nothing. -/
theorem StepSpec.of_end (hp : self'.phase = .Peek) (hlog : self'.log = self.log)
    (hpending : self'.msgs.pending = self.msgs.pending)
    (hpays : 3 * self.msgs.pending.length + 2 ≤ self.potential + cost tick) :
    StepSpec options clock tick self self' where
  phase := by
    rw [PhaseOk, hp]
    trivial
  handles := Or.inl ⟨hlog, hpending⟩
  potential := by
    rw [Actor.potential, hp, hpending]
    exact hpays

/-- **A message that is handled**, in a transaction that goes on or ends. -/
theorem StepSpec.of_handled {msg : ActorMessage} (hok : self'.PhaseOk)
    (hstop : msg.isStop = false) (hcons : self.msgs.pending = msg :: self'.msgs.pending)
    (hmsg : handleMessage options clock self.log msg = some self'.log)
    (hpot : 3 * self.msgs.pending.length ≤ self.potential)
    (hpot' : self'.potential ≤ 3 * self'.msgs.pending.length + 2) :
    StepSpec options clock tick self self' where
  phase := hok
  handles := Or.inr ⟨msg, hstop, hcons, hmsg⟩
  potential := by
    rw [hcons, List.length_cons] at hpot
    omega

/-- A transaction that has handled nothing is still to handle the message that it was opened for, so the
channel is not closed. -/
theorem ne_zero_of_closed {P : ActorMessage → Prop} {n : ℕ}
    (hfirst : n = 0 → ∃ msg rest, self.msgs.pending = msg :: rest ∧ P msg)
    (hnil : self.msgs.pending = []) : n ≠ 0 := by
  intro h0
  obtain ⟨msg, rest, hcons, _⟩ := hfirst h0
  rw [hnil] at hcons
  cases hcons

/-- And the next message is not one that it hands back. -/
theorem ne_zero_of_back {P : ActorMessage → Prop} {n : ℕ} {msg : ActorMessage}
    {rest : List ActorMessage}
    (hfirst : n = 0 → ∃ msg rest, self.msgs.pending = msg :: rest ∧ P msg)
    (hcons : self.msgs.pending = msg :: rest) (hback : ¬ P msg) : n ≠ 0 := by
  intro h0
  obtain ⟨msg', rest', hcons', hmsg⟩ := hfirst h0
  obtain ⟨rfl, _⟩ := List.cons.inj (hcons.symm.trans hcons')
  exact hback hmsg

/-- In a write transaction. -/
theorem step_of_write {tables : Tables} {n : ℕ} (hp : self.phase = .Write tables n)
    (hok : self.PhaseOk) (h : self.step options clock tick = some self') :
    StepSpec options clock tick self self' := by
  have hlog := log_of_write hp
  have hpot : self.potential = 3 * self.msgs.pending.length + (if n = 0 then 0 else 2) := by
    rw [potential, hp]
  have hle : 3 * self.msgs.pending.length ≤ self.potential := hpot ▸ Nat.le_add_right _ _
  have hfirst : n = 0 → ∃ msg rest, self.msgs.pending = msg :: rest ∧
      msg.category = .ReadWrite := by
    rw [PhaseOk, hp] at hok
    exact hok
  rw [step, hp] at h
  cases htimeout : tick.timeout with
  | true =>
      simp only [htimeout, if_true] at h
      cases h
      exact .of_end rfl ((log_commit _ _).trans hlog.symm) rfl (pays_for_end hpot (.inr htimeout))
  | false =>
      rw [htimeout] at h
      rcases hrecv : self.msgs.recv with ⟨_ | msg, msgs⟩
      · -- the channel is closed
        obtain ⟨hnil, hnil'⟩ := PeekableReceiver.pending_of_recv_none hrecv
        simp only [hrecv] at h
        cases h
        exact .of_end rfl ((log_commit _ _).trans hlog.symm) (hnil'.trans hnil.symm)
          (pays_for_end hpot (.inl (ne_zero_of_closed hfirst hnil)))
      · have hcons := PeekableReceiver.pending_of_recv_some hrecv
        simp only [hrecv] at h
        cases hcat : msg.category with
        | ReadOnly =>
            -- handed back, so it goes back into the receiver
            have hback : ¬ msg.category = .ReadWrite := by
              rw [hcat]
              exact MessageCategory.noConfusion
            have hn := ne_zero_of_back hfirst hcons hback
            obtain ⟨msgs', hpush, hpending⟩ := PeekableReceiver.pushBack_recv hrecv
            simp only [handleReadwrite_eq_error options self.state _ hcat, hpush] at h
            cases h
            exact .of_end rfl ((log_commit _ _).trans hlog.symm) hpending
              (pays_for_end hpot (.inl hn))
        | ReadWrite =>
            obtain ⟨⟨state, tables', effects⟩, hhandle⟩ :=
              exists_handleReadwrite options self.state (clock self.trace.length) hcat tables
            have hstop : msg.isStop = false := by
              cases msg with
              | Stop => cases hcat
              | _ => rfl
            have hmsg : handleMessage options clock self.log msg
                = some ⟨self.trace ++ [⟨.ReadWrite, msg, effects⟩], state, tables'⟩ := by
              rw [hlog, handleMessage_eq_some]
              exact ⟨_, dispatch_eq_some.mpr (Or.inl ⟨hcat, hhandle⟩), by rw [hcat]⟩
            simp only [hhandle] at h
            by_cases hend : n > 1000 ∨ tick.elapsed = true
            · rw [if_neg (by simp), if_pos hend] at h
              cases h
              exact .of_handled trivial hstop hcons hmsg hle (Nat.le_succ _)
            · rw [if_neg (by simp), if_neg hend] at h
              cases h
              exact .of_handled (fun h0 => absurd h0 (Nat.succ_ne_zero n)) hstop hcons hmsg hle
                le_rfl

/-- In a read transaction.  Its tables are the committed ones, since nothing is written meanwhile. -/
theorem step_of_read {tables : Tables} {n : ℕ} (hp : self.phase = .Read tables n)
    (hok : self.PhaseOk) (h : self.step options clock tick = some self') :
    StepSpec options clock tick self self' := by
  have hlog := log_of_read hp
  have hpot : self.potential = 3 * self.msgs.pending.length + (if n = 0 then 0 else 2) := by
    rw [potential, hp]
  have hle : 3 * self.msgs.pending.length ≤ self.potential := hpot ▸ Nat.le_add_right _ _
  rw [PhaseOk, hp] at hok
  obtain ⟨rfl, hfirst⟩ := hok
  rw [step, hp] at h
  cases htimeout : tick.timeout with
  | true =>
      simp only [htimeout, if_true] at h
      cases h
      exact .of_end rfl hlog.symm rfl (pays_for_end hpot (.inr htimeout))
  | false =>
      rw [htimeout] at h
      rcases hrecv : self.msgs.recv with ⟨_ | msg, msgs⟩
      · -- the channel is closed
        obtain ⟨hnil, hnil'⟩ := PeekableReceiver.pending_of_recv_none hrecv
        simp only [hrecv] at h
        cases h
        exact .of_end rfl hlog.symm (hnil'.trans hnil.symm)
          (pays_for_end hpot (.inl (ne_zero_of_closed hfirst hnil)))
      · have hcons := PeekableReceiver.pending_of_recv_some hrecv
        simp only [hrecv] at h
        by_cases hback : msg.category = .ReadWrite ∨ msg.isStop = true
        · -- handed back, so it goes back into the receiver
          have hno : ¬ (msg.category = .ReadOnly ∧ msg.isStop = false) := by
            rintro ⟨hcat, hstop⟩
            rw [hcat, hstop] at hback
            simp at hback
          have hn := ne_zero_of_back hfirst hcons hno
          obtain ⟨msgs', hpush, hpending⟩ := PeekableReceiver.pushBack_recv hrecv
          simp only [handleReadonly_eq_error options self.state _ hback, hpush] at h
          cases h
          exact .of_end rfl hlog.symm hpending (pays_for_end hpot (.inl hn))
        · obtain ⟨hcat, hstop⟩ := not_or.mp hback
          have hcat : msg.category = .ReadOnly := by
            cases hc : msg.category with
            | ReadOnly => rfl
            | ReadWrite => exact absurd hc hcat
          have hstop : msg.isStop = false := Bool.eq_false_iff.mpr hstop
          obtain ⟨effects, hhandle⟩ :=
            exists_handleReadonly options self.state (clock self.trace.length) hcat hstop self.db
          have hmsg : handleMessage options clock self.log msg
              = some ⟨self.trace ++ [⟨.ReadOnly, msg, effects⟩], self.state, self.db⟩ := by
            rw [hlog, handleMessage_eq_some]
            exact ⟨(self.state, self.db, effects),
              dispatch_eq_some.mpr (Or.inr ⟨hcat, rfl, rfl, hhandle⟩), by rw [hcat]⟩
          simp only [hhandle] at h
          by_cases hend : n > 1000 ∨ tick.elapsed = true
          · rw [if_neg (by simp), if_pos hend] at h
            cases h
            exact .of_handled trivial hstop hcons hmsg hle (Nat.le_succ _)
          · rw [if_neg (by simp), if_neg hend] at h
            cases h
            have hok' : PhaseOk { self with
                msgs, trace := self.trace ++ [⟨.ReadOnly, msg, effects⟩]
                phase := .Read self.db (n + 1) } :=
              ⟨rfl, fun h0 => absurd h0 (Nat.succ_ne_zero n)⟩
            exact .of_handled hok' hstop hcons hmsg hle le_rfl

/-- **What a step of the loop does.** -/
theorem step_cases (hok : self.PhaseOk) (h : self.step options clock tick = some self') :
    StepSpec options clock tick self self' := by
  cases hp : self.phase with
  | Peek => exact step_of_peek hp h
  | Write tables n => exact step_of_write hp hok h
  | Read tables n => exact step_of_read hp hok h
  | Done =>
      rw [step, hp] at h
      cases h
  | Panicked =>
      rw [step, hp] at h
      cases h

/-! ## Whole runs -/

/-- Along a run, an initial part of the messages has been handled, none of them a `Stop`, and has
led to what handling them one at a time leads to. -/
theorem exists_handled {state : State} {db : Tables} {msgs : List ActorMessage}
    {ticks : List Tick} {actor : Actor}
    (h : Transition.run (step options clock) (start state db msgs) ticks = some actor) :
    actor.PhaseOk ∧ ∃ handled, (∀ msg ∈ handled, msg.isStop = false) ∧
      msgs = handled ++ actor.msgs.pending ∧
      Transition.run (handleMessage options clock) ⟨[], state, db⟩ handled = some actor.log := by
  refine Transition.run_invariant (I := fun actor : Actor => actor.PhaseOk ∧
    ∃ handled, (∀ msg ∈ handled, msg.isStop = false) ∧ msgs = handled ++ actor.msgs.pending ∧
      Transition.run (handleMessage options clock) ⟨[], state, db⟩ handled = some actor.log) ?_ ?_ h
  · exact ⟨trivial, [], by simp, rfl, rfl⟩
  · rintro actor tick actor' ⟨hok, handled, hstop, hmsgs, hrun⟩ hstep
    obtain ⟨hok', hhandles, _⟩ := step_cases hok hstep
    refine ⟨hok', ?_⟩
    rcases hhandles with ⟨hlog, hpending⟩ | ⟨msg, hmsg, hpending, hnext⟩
    · exact ⟨handled, hstop, by rw [hpending, hmsgs], by rw [hlog, hrun]⟩
    · refine ⟨handled ++ [msg], ?_, ?_, Transition.run_concat_eq_some.mpr ⟨_, hrun, hnext⟩⟩
      · intro m hm
        rcases List.mem_append.mp hm with hm | hm
        · exact hstop m hm
        · rw [List.mem_singleton.mp hm]
          exact hmsg
      · rw [hmsgs, hpending, List.append_assoc, List.singleton_append]

end Actor

/-- The trace of handling messages one at a time: the messages in order, each with the handler of
its category. -/
theorem trace_of_run_handleMessage {options : Options} {clock : ℕ → AbsoluteTime} {state : State}
    {db : Tables} {msgs : List ActorMessage} {log : Log}
    (h : Transition.run (handleMessage options clock) ⟨[], state, db⟩ msgs = some log) :
    log.trace.map Event.msg = msgs ∧ ∀ e ∈ log.trace, e.handler = e.msg.category := by
  refine Transition.run_induction (P := fun msgs (log : Log) =>
    log.trace.map Event.msg = msgs ∧ ∀ e ∈ log.trace, e.handler = e.msg.category) ?_ ?_ h
  · exact ⟨rfl, fun e he => absurd he List.not_mem_nil⟩
  · rintro msgs log msg log' _ ⟨hmsgs, hhandler⟩ hstep
    obtain ⟨r, _, rfl⟩ := handleMessage_eq_some.mp hstep
    refine ⟨by rw [List.map_append, hmsgs, List.map_singleton], fun e he => ?_⟩
    rcases List.mem_append.mp he with he | he
    · exact hhandler e he
    · rw [List.mem_singleton.mp he]

/-- The event is the outcome of handling its message after the ones of the earlier events. -/
def HandledAfter (options : Options) (clock : ℕ → AbsoluteTime) (state : State) (db : Tables)
    (earlier : List Event) (e : Event) : Prop :=
  ∃ log log', Transition.run (handleMessage options clock) ⟨[], state, db⟩ (earlier.map Event.msg)
      = some log ∧ log.trace = earlier ∧
    handleMessage options clock log e.msg = some log' ∧ log'.trace = earlier ++ [e]

/-- Every event of a trace came about so. -/
theorem always_handledAfter {options : Options} {clock : ℕ → AbsoluteTime} {state : State}
    {db : Tables} {msgs : List ActorMessage} {log : Log}
    (h : Transition.run (handleMessage options clock) ⟨[], state, db⟩ msgs = some log) :
    Transition.Always (HandledAfter options clock state db) log.trace := by
  refine Transition.run_induction (P := fun _ (log : Log) =>
    Transition.Always (HandledAfter options clock state db) log.trace) Transition.Always.nil ?_ h
  intro msgs log msg log' hrun ih hstep
  obtain ⟨r, _, hlog'⟩ := handleMessage_eq_some.mp hstep
  have htrace : log'.trace = log.trace ++ [⟨msg.category, msg, r.2.2⟩] := by rw [hlog']
  rw [htrace]
  refine ih.concat ⟨log, log', ?_, rfl, hstep, htrace⟩
  rw [(trace_of_run_handleMessage hrun).1, hrun]

/-- An event that answers a query is the one of a query, answered from the tables before it. -/
theorem HandledAfter.query {options : Options} {clock : ℕ → AbsoluteTime} {state : State}
    {db : Tables} {earlier : List Event} {e : Event}
    (h : HandledAfter options clock state db earlier e) {tx : ReplyTo} {response : QueryResponse}
    (he : Effect.query tx response ∈ e.effects) :
    ∃ log query, Transition.run (handleMessage options clock) ⟨[], state, db⟩
        (earlier.map Event.msg) = some log ∧ log.trace = earlier ∧ e.msg = .Query query tx ∧
      handleQuery options (clock earlier.length) query log.tables = some response := by
  obtain ⟨log, log', hrun, htrace, hstep, htrace'⟩ := h
  obtain ⟨r, hdispatch, hlog'⟩ := handleMessage_eq_some.mp hstep
  -- the event that was added is `e`
  have happend : earlier ++ [⟨e.msg.category, e.msg, r.2.2⟩] = earlier ++ [e] := by
    rw [← htrace', hlog', htrace]
  have heffects : e.effects = r.2.2 := by
    have hlast := List.append_cancel_left happend
    exact (congrArg Event.effects (List.cons.inj hlast).1).symm
  rw [heffects] at he
  refine ⟨log, ?_⟩
  rcases dispatch_eq_some.mp hdispatch with ⟨_, hhandle⟩ | ⟨_, _, _, hhandle⟩
  · cases hmsg : e.msg with
    | Announce | SetSize | SetSizes | StoreProbeResult | Gc =>
        rw [hmsg] at hhandle
        cases hhandle
        simp at he
    | _ =>
        rw [hmsg] at hhandle
        cases hhandle
  · obtain ⟨effect, heffect, hanswers⟩ := answers_of_handleReadonly hhandle
    rw [heffect, List.mem_singleton] at he
    subst he
    cases hmsg : e.msg with
    | Query query tx' =>
        rw [hmsg] at hanswers
        cases hanswers with
        | query hquery =>
            rw [htrace] at hquery
            exact ⟨query, hrun, htrace, rfl, hquery⟩
    | _ =>
        rw [hmsg] at hanswers
        cases hanswers

namespace Actor

/-- The events of a run of the actor came about so too. -/
theorem handledAfter_of_run {options : Options} {clock : ℕ → AbsoluteTime} {state : State}
    {db : Tables} {msgs : List ActorMessage} {ticks : List Tick} {actor : Actor}
    (hrun : Transition.run (step options clock) (start state db msgs) ticks = some actor)
    {earlier later : List Event} {e : Event} (h : actor.trace = earlier ++ e :: later) :
    HandledAfter options clock state db earlier e := by
  obtain ⟨_, _, _, _, hseq⟩ := exists_handled hrun
  exact always_handledAfter hseq earlier e later h

/-- Where a run of the actor stands, compared with handling the messages one at a time. -/
structure Refines (options : Options) (clock : ℕ → AbsoluteTime) (state : State) (db : Tables)
    (msgs : List ActorMessage) (actor : Actor) : Prop where
  /-- No handler panics, and pushing back a message does not fail. -/
  panicFree : actor.phase ≠ .Panicked
  /-- The messages are handled in order, each of them once, and none after a `Stop`. -/
  handled : actor.trace.map Event.msg <+: untilStop msgs
  /-- Each message is handled by the handler of its category. -/
  handler : ∀ e ∈ actor.trace, e.handler = e.msg.category
  /-- Effects, state and tables are those of handling the messages one at a time. -/
  sequential : Transition.run (handleMessage options clock) ⟨[], state, db⟩
    (actor.trace.map Event.msg) = some actor.log
  /-- At the end everything is handled, and all that was written is committed. -/
  done : actor.phase = .Done → Transition.run (handleMessage options clock) ⟨[], state, db⟩
    (untilStop msgs) = some ⟨actor.trace, actor.state, actor.db⟩
  /-- The loop does not get stuck. -/
  progress : actor.phase ≠ .Done → ∀ tick, ∃ actor', actor.step options clock tick = some actor'

theorem exists_step {options : Options} {clock : ℕ → AbsoluteTime} {self : Actor}
    (hok : self.PhaseOk) (hp : self.phase ≠ .Done) (tick : Tick) :
    ∃ self', self.step options clock tick = some self' := by
  apply Option.isSome_iff_exists.mp
  rw [step]
  cases hphase : self.phase with
  | Peek =>
      simp only
      repeat' split
      all_goals rfl
  | Write tables n =>
      simp only
      repeat' split
      all_goals rfl
  | Read tables n =>
      simp only
      repeat' split
      all_goals rfl
  | Done => exact absurd hphase hp
  | Panicked =>
      rw [PhaseOk, hphase] at hok
      exact hok.elim

omit [KeyScheme] in
theorem sum_cost (ticks : List Tick) : (ticks.map cost).sum = 2 * ticks.countP Tick.timeout := by
  induction ticks with
  | nil => rfl
  | cons tick ticks ih =>
      rw [List.map_cons, List.sum_cons, ih, List.countP_cons, cost]
      cases tick.timeout with
      | false => simp
      | true =>
          simp only [if_true]
          omega

/-- **Batching makes no difference.**  Every run of the loop, however its transactions are cut,
refines handling the messages one at a time; and it is over after three steps a message and two
more for every timeout that fires. -/
theorem run_refines (options : Options) (clock : ℕ → AbsoluteTime) (state : State) (db : Tables)
    (msgs : List ActorMessage) (ticks : List Tick) (actor : Actor)
    (hrun : Transition.run (step options clock) (start state db msgs) ticks = some actor) :
    actor.Refines options clock state db msgs ∧
      ticks.length ≤ 3 * msgs.length + 1 + 2 * ticks.countP Tick.timeout := by
  obtain ⟨hok, handled, hstop, hmsgs, hseq⟩ := exists_handled hrun
  obtain ⟨htrace, hhandler⟩ := trace_of_run_handleMessage hseq
  have huntil : untilStop msgs = handled ++ untilStop actor.msgs.pending := by
    rw [hmsgs, untilStop, List.takeWhile_append_of_pos]
    · rfl
    · intro msg hmsg
      rw [hstop msg hmsg]
      rfl
  refine ⟨⟨?_, ?_, hhandler, ?_, ?_, exists_step hok⟩, ?_⟩
  · intro hp
    rw [PhaseOk, hp] at hok
    exact hok
  · rw [show actor.trace.map Event.msg = handled from htrace, huntil]
    exact List.prefix_append _ _
  · rw [show actor.trace.map Event.msg = handled from htrace, hseq]
  · intro hp
    have hend : untilStop actor.msgs.pending = [] := by
      rw [PhaseOk, hp] at hok
      exact hok
    have hlog : actor.log = ⟨actor.trace, actor.state, actor.db⟩ := by
      rw [log, tables, hp]
    rw [huntil, hend, List.append_nil, hseq, hlog]
  · have hstep : ∀ m tick m', PhaseOk m → step options clock m tick = some m' →
        m'.PhaseOk ∧ m'.potential + 1 ≤ m.potential + cost tick := by
      intro m tick m' hm h
      obtain ⟨hphase, _, hpot⟩ := step_cases hm h
      exact ⟨hphase, hpot⟩
    have hbound := Transition.length_le_of_potential potential cost
      (show (start state db msgs).PhaseOk from trivial) hstep hrun
    rw [sum_cost] at hbound
    exact hbound

end Actor

end Loop

section Runs

namespace Actor

attribute [local instance] KeyScheme.doubling

/-- Two announces, a query between them, and a message after the `Stop`. -/
def mixedMessages : List ActorMessage :=
  [.Announce (SignedAnnounce.doubling 7 (.filled 1 .Raw) .Complete ⟨5⟩) 0,
    .Query ⟨.filled 1 .Raw, ⟨true, false⟩⟩ 1,
    .Announce (SignedAnnounce.doubling 8 (.filled 1 .Raw) .Partial ⟨6⟩) 2, .Stop, .Gc 3]

/-- A run over these messages, to the end.  The timeout fires once, before the query is received. -/
theorem run_refines_mixed :
    ∃ actor, Transition.run (step Options.debug fun n => ⟨n.toUInt64⟩)
        (start State.default Tables.empty mixedMessages)
        ([⟨false, false⟩, ⟨false, false⟩, ⟨true, false⟩] ++ List.replicate 7 ⟨false, false⟩)
          = some actor ∧
      actor.Refines Options.debug (fun n => ⟨n.toUInt64⟩) State.default Tables.empty
        mixedMessages := by
  have hsome : (Transition.run (step Options.debug fun n => ⟨n.toUInt64⟩)
      (start State.default Tables.empty mixedMessages)
      ([⟨false, false⟩, ⟨false, false⟩, ⟨true, false⟩]
        ++ List.replicate 7 ⟨false, false⟩)).isSome = true := by
    decide +kernel
  obtain ⟨actor, hactor⟩ := Option.isSome_iff_exists.mp hsome
  exact ⟨actor, hactor, (run_refines _ _ _ _ _ _ _ hactor).1⟩

end Actor

end Runs

end IrohExperiments.Tracker
