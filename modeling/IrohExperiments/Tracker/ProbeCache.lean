import IrohExperiments.Tracker.ProbeCall

/-!
# The sizes that probes share

The first probe of a hash asks the host that is probed for the sizes, and the actor keeps the answer for the
probes of all other hosts.  So a host that lies about a size could make the probes of other hosts fail, or
ask for chunks that are not there.

`CacheSystem` is the actor with its queue and any number of calls of `probe`, each of which may be aborted
at any time.

* `CacheSystem.Inv`: what is kept, and what is on its way to be kept, are the sizes of the content.
* `CacheSystem.probes_of_run`: whatever other hosts send, a probe that succeeds asked for a part of the
  content and got it, a host that has the content passes, and nothing panics but a draw from no chunks.
-/

namespace IrohExperiments.Tracker

/-! ## The system -/

/-- Where a call stands.  It waits for the actor, asks the host for the sizes, sends them to the actor, or
asks the host for a chunk. -/
inductive CallPhase where
  | GetSizes
  | Fetch
  | SetSizes (sizes : Sizes)
  | Probe (sizes : Sizes)
  | Done (result : Except Failure Asked)
  | Aborted

abbrev Calls := List (ProbeCall × CallPhase)

/-- A call goes on when it has its reply.  Without sizes, it asks the host for them. -/
def CallPhase.ofReply : Option Sizes → CallPhase
  | some sizes => .Probe sizes
  | none => .Fetch

/-- Calls stay what they are, and go on. -/
def Calls.Onto (calls calls' : Calls) : Prop :=
  ∀ (tx : ReplyTo) call phase, calls[tx]? = some (call, phase) → ∃ phase', calls'[tx]? = some (call, phase')

theorem Calls.onto_set {calls : Calls} {tx : ReplyTo} {call : ProbeCall} {phase : CallPhase}
    (h : calls[tx]? = some (call, phase)) (phase' : CallPhase) :
    calls.Onto (calls.set tx (call, phase')) := by
  intro tx' call' phase'' hcall'
  obtain ⟨hlt, _⟩ := List.getElem?_eq_some_iff.mp hcall'
  by_cases htx : tx = tx'
  · obtain rfl := htx
    obtain ⟨rfl, rfl⟩ := Prod.mk.inj (Option.some.inj (h.symm.trans hcall'))
    exact ⟨phase', List.getElem?_set_self hlt⟩
  · exact ⟨phase'', (List.getElem?_set_ne htx).trans hcall'⟩

theorem Calls.onto_append (calls new : Calls) : calls.Onto (calls ++ new) := by
  intro tx call phase hcall
  exact ⟨phase, List.getElem?_append_left (List.getElem?_eq_some_iff.mp hcall).1 ▸ hcall⟩

section System

variable [KeyScheme]

/-- `get_size` or `get_sizes`. -/
def ProbeCall.getMessage (self : ProbeCall) (tx : ReplyTo) : ActorMessage :=
  match self.content.format with
  | .Raw => .GetSize self.content.hash tx
  | .HashSeq => .GetSizes self.content.hash tx

/-- `set_size` or `set_sizes`. -/
def ProbeCall.setMessage (self : ProbeCall) : Sizes → ActorMessage
  | .Raw size => .SetSize self.content.hash size
  | .HashSeq hs sizes => .SetSizes self.content.hash (hs, sizes)

def ActorMessage.isAboutSizes : ActorMessage → Bool
  | .GetSize .. | .GetSizes .. | .SetSize .. | .SetSizes .. => true
  | _ => false

/-- The sizes that are replied to a call. -/
def Effect.reply? : Effect → Option (ReplyTo × Option Sizes)
  | .size tx kept => some (tx, kept.map .Raw)
  | .sizes tx kept => some (tx, kept.map fun hs => .HashSeq hs.1 hs.2)
  | _ => none

/-- A reply is for a call that still waits. -/
def Calls.resume (self : Calls) (effect : Effect) : Calls :=
  match effect.reply? with
  | none => self
  | some (tx, sizes) =>
      match self[tx]? with
      | some (call, .GetSizes) => self.set tx (call, .ofReply sizes)
      | _ => self

/-- **What a message does to the sizes that are kept**, and to whom they are sent. -/
theorem dispatch_sizes {handlers : Options} {state : State} {now : AbsoluteTime} {msg : ActorMessage}
    {tables : Tables} {r : State × Tables × List Effect}
    (h : dispatch handlers state now msg tables = some r) :
    (∃ hash tx, msg = .GetSize hash tx ∧ r = (state, tables, [.size tx (state.sizes.get? hash)])) ∨
    (∃ hash tx, msg = .GetSizes hash tx ∧
        r = (state, tables, [.sizes tx (state.collections.get? hash)])) ∨
    (∃ hash size, msg = .SetSize hash size ∧
        r = ({ state with sizes := state.sizes.insert hash size }, tables, [])) ∨
    (∃ hash sizes, msg = .SetSizes hash sizes ∧
        r = ({ state with collections := state.collections.insert hash sizes }, tables, [])) ∨
    msg.isAboutSizes = false ∧ r.1 = state ∧ ∀ effect ∈ r.2.2, effect.reply? = none := by
  rcases dispatch_eq_some.mp h with ⟨_, hhandle⟩ | ⟨_, hstate, htables, hhandle⟩
  · cases msg with
    | Announce | Gc =>
        cases hhandle
        refine .inr (.inr (.inr (.inr ⟨rfl, rfl, fun effect heffect => ?_⟩)))
        rw [List.mem_singleton.mp heffect]
        rfl
    | StoreProbeResult =>
        cases hhandle
        exact .inr (.inr (.inr (.inr ⟨rfl, rfl, fun _ heffect => absurd heffect List.not_mem_nil⟩)))
    | SetSize hash size =>
        cases hhandle
        exact .inr (.inr (.inl ⟨hash, size, rfl, rfl⟩))
    | SetSizes hash sizes =>
        cases hhandle
        exact .inr (.inr (.inr (.inl ⟨hash, sizes, rfl, rfl⟩)))
    | _ => cases hhandle
  · obtain ⟨state', tables', effects⟩ := r
    obtain rfl : state' = state := hstate
    obtain rfl : tables' = tables := htables
    cases msg with
    | GetSize hash tx =>
        obtain rfl := Except.ok.inj (Option.some.inj hhandle)
        exact .inl ⟨hash, tx, rfl, rfl⟩
    | GetSizes hash tx =>
        obtain rfl := Except.ok.inj (Option.some.inj hhandle)
        exact .inr (.inl ⟨hash, tx, rfl, rfl⟩)
    | Query | GetContentForEndpoint | GetDistinctContent | Dump =>
        obtain ⟨_, _, hr⟩ := Option.bind_eq_some_iff.mp hhandle
        obtain rfl := Except.ok.inj (Option.some.inj hr)
        refine .inr (.inr (.inr (.inr ⟨rfl, rfl, fun effect heffect => ?_⟩)))
        rw [List.mem_singleton.mp heffect]
        rfl
    | _ => cases hhandle

/-- The request of a call says which call it is. -/
theorem getMessage_tx {call : ProbeCall} {tx tx' : ReplyTo} {hash : Hash}
    (h : call.getMessage tx' = .GetSize hash tx ∨ call.getMessage tx' = .GetSizes hash tx) : tx' = tx := by
  rw [ProbeCall.getMessage] at h
  split at h
  · rcases h with h | h
    · exact (ActorMessage.GetSize.inj h).2
    · cases h
  · rcases h with h | h
    · cases h
    · exact (ActorMessage.GetSizes.inj h).2

/-- It is not a message with sizes, or about something else. -/
theorem getMessage_isAboutSizes (call : ProbeCall) (tx : ReplyTo) :
    (call.getMessage tx).isAboutSizes = true ∧ (∀ hash size, call.getMessage tx ≠ .SetSize hash size) ∧
      ∀ hash sizes, call.getMessage tx ≠ .SetSizes hash sizes := by
  rw [ProbeCall.getMessage]
  split
  · exact ⟨rfl, fun _ _ h => (by cases h), fun _ _ h => (by cases h)⟩
  · exact ⟨rfl, fun _ _ h => (by cases h), fun _ _ h => (by cases h)⟩

/-- Other effects are not for the calls. -/
theorem foldl_resume_of_none {effects : List Effect} (h : ∀ effect ∈ effects, effect.reply? = none)
    (calls : Calls) : effects.foldl Calls.resume calls = calls := by
  induction effects with
  | nil => rfl
  | cons effect effects ih =>
      rw [List.foldl_cons, Calls.resume, h effect List.mem_cons_self]
      exact ih fun effect' heffect' => h effect' (List.mem_cons_of_mem _ heffect')

section Step

variable [BlobsFsm]

structure CacheSystem where
  state : State
  tables : Tables
  queue : List ActorMessage
  calls : Calls

inductive CacheMove where
  /-- `probe` is called. -/
  | Start (call : ProbeCall)
  /-- Anybody sends a message that is not about sizes. -/
  | Send (msg : ActorMessage)
  /-- The actor handles the first message of its queue. -/
  | Handle (now : AbsoluteTime)
  | Advance (tx : ReplyTo)
  /-- The task of the call is aborted. -/
  | Abort (tx : ReplyTo)

namespace CacheSystem

def new (tables : Tables) : CacheSystem := ⟨State.default, tables, [], []⟩

def setPhase (self : CacheSystem) (tx : ReplyTo) (call : ProbeCall) (phase : CallPhase) : CacheSystem :=
  { self with calls := self.calls.set tx (call, phase) }

def step (options : ProbeOptions) (handlers : Options) (self : CacheSystem) :
    CacheMove → Option CacheSystem
  | .Start call =>
      match call.kind with
      | .Incomplete => some { self with calls := self.calls ++ [(call, .Done call.probeHeader)] }
      | .Complete => some { self with
          queue := self.queue ++ [call.getMessage self.calls.length]
          calls := self.calls ++ [(call, .GetSizes)] }
  | .Send msg => if msg.isAboutSizes then none else some { self with queue := self.queue ++ [msg] }
  | .Handle now =>
      match self.queue with
      | [] => none
      | msg :: queue => do
          let (state, tables, effects) ← dispatch handlers self.state now msg self.tables
          return ⟨state, tables, queue, effects.foldl Calls.resume self.calls⟩
  | .Advance tx =>
      match self.calls[tx]? with
      | some (call, .Fetch) =>
          match call.fetch options with
          | .ok sizes => some (self.setPhase tx call (.SetSizes sizes))
          | .error e => some (self.setPhase tx call (.Done (.error e)))
      | some (call, .SetSizes sizes) => some { self.setPhase tx call (.Probe sizes) with
          queue := self.queue ++ [call.setMessage sizes] }
      | some (call, .Probe sizes) => some (self.setPhase tx call (.Done (call.probeWith options sizes)))
      | _ => none
  | .Abort tx =>
      match self.calls[tx]? with
      | some (call, _) => some (self.setPhase tx call .Aborted)
      | none => none

end CacheSystem

end Step

/-! ## The invariant -/

section Invariant

variable [Blobs]

/-- The actor keeps the sizes of the content. -/
structure State.SizesRight (options : ProbeOptions) (state : State) : Prop where
  sizes : ∀ hash size, state.sizes.get? hash = some size → (Sizes.Raw size).Right options ⟨hash, .Raw⟩
  collections : ∀ hash hs, state.collections.get? hash = some hs →
    (Sizes.HashSeq hs.1 hs.2).Right options ⟨hash, .HashSeq⟩

/-- A message about sizes is the request of a call, or has the sizes of the content. -/
def ActorMessage.SizesRight (options : ProbeOptions) (calls : Calls) : ActorMessage → Prop
  | .GetSize hash tx => ∃ call phase, calls[tx]? = some (call, phase) ∧ call.content = ⟨hash, .Raw⟩
  | .GetSizes hash tx =>
      ∃ call phase, calls[tx]? = some (call, phase) ∧ call.content = ⟨hash, .HashSeq⟩
  | .SetSize hash size => (Sizes.Raw size).Right options ⟨hash, .Raw⟩
  | .SetSizes hash hs => (Sizes.HashSeq hs.1 hs.2).Right options ⟨hash, .HashSeq⟩
  | _ => True

theorem ActorMessage.SizesRight.onto {options : ProbeOptions} {calls calls' : Calls} {msg : ActorMessage}
    (h : msg.SizesRight options calls) (honto : calls.Onto calls') : msg.SizesRight options calls' := by
  cases msg with
  | GetSize | GetSizes =>
      obtain ⟨call, phase, hcall, hcontent⟩ := h
      obtain ⟨phase', hcall'⟩ := honto _ call phase hcall
      exact ⟨call, phase', hcall', hcontent⟩
  | _ => exact h

theorem setMessage_right {options : ProbeOptions} {calls : Calls} {call : ProbeCall} {sizes : Sizes}
    (h : sizes.Right options call.content) : (call.setMessage sizes).SizesRight options calls := by
  obtain ⟨⟨hash, format⟩, kind, connection, rng⟩ := call
  cases sizes with
  | Raw size =>
      obtain rfl : format = .Raw := h.of.1
      exact h
  | HashSeq hs sizes =>
      obtain rfl : format = .HashSeq := h.of.1
      exact h

theorem getMessage_right {options : ProbeOptions} {calls : Calls} {call : ProbeCall} {phase : CallPhase}
    {tx : ReplyTo} (h : calls[tx]? = some (call, phase)) :
    (call.getMessage tx).SizesRight options calls := by
  obtain ⟨⟨hash, format⟩, kind, connection, rng⟩ := call
  cases format <;> exact ⟨_, phase, h, rfl⟩

variable [BlobsFsm]

/-- What is known about a call where it stands. -/
def CallPhase.Right (options : ProbeOptions) (queue : List ActorMessage) (tx : ReplyTo)
    (call : ProbeCall) : CallPhase → Prop
  | .GetSizes => call.kind = .Complete ∧ call.getMessage tx ∈ queue
  | .Fetch => call.kind = .Complete
  | .SetSizes sizes => call.kind = .Complete ∧ sizes.Right options call.content
  | .Probe sizes => call.kind = .Complete ∧ sizes.Right options call.content
  | .Done result => call.Explained options result
  | .Aborted => True

/-- A queue that has all of the requests of another one will do for the calls. -/
theorem CallPhase.Right.mono {options : ProbeOptions} {queue queue' : List ActorMessage} {tx : ReplyTo}
    {call : ProbeCall} {phase : CallPhase} (h : phase.Right options queue tx call)
    (hqueue : phase = .GetSizes → call.getMessage tx ∈ queue → call.getMessage tx ∈ queue') :
    phase.Right options queue' tx call := by
  cases phase with
  | GetSizes => exact ⟨h.1, hqueue rfl h.2⟩
  | _ => exact h

namespace CacheSystem

structure Inv (options : ProbeOptions) (sys : CacheSystem) : Prop where
  state : sys.state.SizesRight options
  queue : ∀ msg ∈ sys.queue, msg.SizesRight options sys.calls
  genuine : ∀ (tx : ReplyTo) (call : ProbeCall) phase, sys.calls[tx]? = some (call, phase) → call.Genuine
  phase : ∀ (tx : ReplyTo) call (phase : CallPhase), sys.calls[tx]? = some (call, phase) →
    phase.Right options sys.queue tx call

variable {options : ProbeOptions} {handlers : Options} {sys sys' : CacheSystem}

theorem inv_new (options : ProbeOptions) (tables : Tables) : (new tables).Inv options where
  state := ⟨fun _ _ h => (by cases h), fun _ _ h => (by cases h)⟩
  queue := fun _ h => absurd h List.not_mem_nil
  genuine := fun _ _ _ h => by cases h
  phase := fun _ _ _ h => by cases h

/-- **A call goes on** to where what is known about it holds. -/
theorem Inv.setPhase (h : sys.Inv options) {tx : ReplyTo} {call : ProbeCall} {phase phase' : CallPhase}
    (hcall : sys.calls[tx]? = some (call, phase)) (hright : phase'.Right options sys.queue tx call) :
    (sys.setPhase tx call phase').Inv options := by
  obtain ⟨hlt, _⟩ := List.getElem?_eq_some_iff.mp hcall
  have hset : ∀ tx' call' phase'', (sys.calls.set tx (call, phase'))[tx']? = some (call', phase'') →
      tx' = tx ∧ call' = call ∧ phase'' = phase' ∨ sys.calls[tx']? = some (call', phase'') := by
    intro tx' call' phase'' hget
    by_cases htx : tx = tx'
    · obtain rfl := htx
      rw [List.getElem?_set_self hlt] at hget
      obtain ⟨rfl, rfl⟩ := Prod.mk.inj (Option.some.inj hget)
      exact .inl ⟨rfl, rfl, rfl⟩
    · rw [List.getElem?_set_ne htx] at hget
      exact .inr hget
  refine ⟨h.state, fun msg hmsg => (h.queue msg hmsg).onto (Calls.onto_set hcall phase'), ?_, ?_⟩
  · intro tx' call' phase'' hget
    rcases hset tx' call' phase'' hget with ⟨rfl, rfl, rfl⟩ | hget
    · exact h.genuine _ _ _ hcall
    · exact h.genuine _ _ _ hget
  · intro tx' call' phase'' hget
    rcases hset tx' call' phase'' hget with ⟨rfl, rfl, rfl⟩ | hget
    · exact hright
    · exact h.phase _ _ _ hget

/-- **A message is sent.** -/
theorem Inv.send (h : sys.Inv options) {msg : ActorMessage} (hmsg : msg.SizesRight options sys.calls) :
    { sys with queue := sys.queue ++ [msg] }.Inv options where
  state := h.state
  queue := fun msg' hmsg' => by
    rcases List.mem_append.mp hmsg' with hmsg' | hmsg'
    · exact h.queue msg' hmsg'
    · rw [List.mem_singleton.mp hmsg']
      exact hmsg
  genuine := h.genuine
  phase := fun tx call phase hcall =>
    (h.phase tx call phase hcall).mono fun _ hget => List.mem_append_left _ hget

/-- **A message is taken** that is not a request of a call that waits. -/
theorem Inv.take (h : sys.Inv options) {msg : ActorMessage} {queue : List ActorMessage}
    (hqueue : sys.queue = msg :: queue)
    (hother : ∀ (tx : ReplyTo) (call : ProbeCall), sys.calls[tx]? = some (call, .GetSizes) →
      call.getMessage tx ≠ msg) :
    { sys with queue := queue }.Inv options where
  state := h.state
  queue := fun msg' hmsg' => h.queue msg' (hqueue ▸ List.mem_cons_of_mem _ hmsg')
  genuine := h.genuine
  phase := fun tx call phase hcall => by
    refine (h.phase tx call phase hcall).mono fun hphase hget => ?_
    obtain rfl := hphase
    rw [hqueue] at hget
    exact (List.mem_cons.mp hget).resolve_left (hother tx call hcall)

/-- **A reply is sent** to the call whose request is taken. -/
theorem Inv.reply (h : sys.Inv options) {msg : ActorMessage} {queue : List ActorMessage}
    (hqueue : sys.queue = msg :: queue) {effect : Effect} {tx : ReplyTo} {kept : Option Sizes}
    (heffect : effect.reply? = some (tx, kept))
    (hother : ∀ tx' (call : ProbeCall), call.getMessage tx' = msg → tx' = tx)
    (hkept : ∀ (call : ProbeCall) phase (sizes : Sizes), sys.calls[tx]? = some (call, phase) → kept = some sizes →
      sizes.Right options call.content) :
    { sys with queue := queue, calls := sys.calls.resume effect }.Inv options := by
  rw [Calls.resume, heffect]
  dsimp only
  split
  · rename_i call hcall
    have hright : (CallPhase.ofReply kept).Right options sys.queue tx call := by
      have hkind := (h.phase tx call _ hcall).1
      cases kept with
      | none => exact hkind
      | some sizes => exact ⟨hkind, hkept call _ sizes hcall rfl⟩
    refine (h.setPhase hcall hright).take hqueue fun tx' call' hcall' hget => ?_
    -- the call of the request does not wait any longer
    obtain rfl := hother tx' call' hget
    obtain ⟨hlt, _⟩ := List.getElem?_eq_some_iff.mp hcall
    rw [CacheSystem.setPhase, List.getElem?_set_self hlt] at hcall'
    cases kept <;> cases hcall'
  · rename_i hnot
    refine h.take hqueue fun tx' call' hcall' hget => ?_
    obtain rfl := hother tx' call' hget
    exact hnot call' hcall'

/-- **A call is started.**  Its request may be sent. -/
theorem Inv.start (h : sys.Inv options) {call : ProbeCall} {phase : CallPhase} {queue : List ActorMessage}
    (hgenuine : call.Genuine) (hsubset : sys.queue ⊆ queue)
    (hqueue : ∀ msg ∈ queue, msg ∈ sys.queue ∨ msg = call.getMessage sys.calls.length)
    (hphase : phase.Right options queue sys.calls.length call) :
    { sys with queue := queue, calls := sys.calls ++ [(call, phase)] }.Inv options := by
  have honto := Calls.onto_append sys.calls [(call, phase)]
  have hlast : (sys.calls ++ [(call, phase)])[sys.calls.length]? = some (call, phase) :=
    List.getElem?_concat_length
  have hget : ∀ tx call' phase', (sys.calls ++ [(call, phase)])[tx]? = some (call', phase') →
      tx = sys.calls.length ∧ call' = call ∧ phase' = phase ∨ sys.calls[tx]? = some (call', phase') := by
    intro tx call' phase' hcall'
    rcases Nat.lt_trichotomy tx sys.calls.length with hlt | rfl | hgt
    · rw [List.getElem?_append_left hlt] at hcall'
      exact .inr hcall'
    · obtain ⟨rfl, rfl⟩ := Prod.mk.inj (Option.some.inj (hcall'.symm.trans hlast))
      exact .inl ⟨rfl, rfl, rfl⟩
    · rw [List.getElem?_eq_none (by rw [List.length_append, List.length_singleton]; omega)] at hcall'
      cases hcall'
  refine ⟨h.state, fun msg hmsg => ?_, fun tx call' phase' hcall' => ?_, fun tx call' phase' hcall' => ?_⟩
  · rcases hqueue msg hmsg with hmsg | rfl
    · exact (h.queue msg hmsg).onto honto
    · exact getMessage_right hlast
  · rcases hget tx call' phase' hcall' with ⟨rfl, rfl, rfl⟩ | hcall'
    · exact hgenuine
    · exact h.genuine tx call' phase' hcall'
  · rcases hget tx call' phase' hcall' with ⟨rfl, rfl, rfl⟩ | hcall'
    · exact hphase
    · exact (h.phase tx call' phase' hcall').mono fun _ hmem => hsubset hmem

/-- **Whatever the actor handles**, it keeps the sizes of the content, and replies with them. -/
theorem Inv.handle (h : sys.Inv options) {msg : ActorMessage} {queue : List ActorMessage}
    (hqueue : sys.queue = msg :: queue) {now : AbsoluteTime} {r : State × Tables × List Effect}
    (hdispatch : dispatch handlers sys.state now msg sys.tables = some r) :
    (CacheSystem.mk r.1 r.2.1 queue (r.2.2.foldl Calls.resume sys.calls)).Inv options := by
  have hmsg := h.queue msg (hqueue ▸ List.mem_cons_self)
  rcases dispatch_sizes hdispatch with ⟨hash, tx, rfl, rfl⟩ | ⟨hash, tx, rfl, rfl⟩ |
    ⟨hash, size, rfl, rfl⟩ | ⟨hash, hs, rfl, rfl⟩ | ⟨hother, hstate, heffects⟩
  · have hreply : (Effect.size tx (sys.state.sizes.get? hash)).reply?
        = some (tx, (sys.state.sizes.get? hash).map .Raw) := rfl
    refine h.reply hqueue hreply (fun tx' call hget => getMessage_tx (.inl hget)) ?_
    rintro call phase sizes hcall hsizes
    obtain ⟨call', phase', hcall', hcontent⟩ := hmsg
    obtain ⟨rfl, _⟩ := Prod.mk.inj (Option.some.inj (hcall.symm.trans hcall'))
    obtain ⟨size, hsize, rfl⟩ := Option.map_eq_some_iff.mp hsizes
    rw [hcontent]
    exact h.state.sizes hash size hsize
  · have hreply : (Effect.sizes tx (sys.state.collections.get? hash)).reply?
        = some (tx, (sys.state.collections.get? hash).map fun hs => .HashSeq hs.1 hs.2) := rfl
    refine h.reply hqueue hreply (fun tx' call hget => getMessage_tx (.inr hget)) ?_
    rintro call phase sizes hcall hsizes
    obtain ⟨call', phase', hcall', hcontent⟩ := hmsg
    obtain ⟨rfl, _⟩ := Prod.mk.inj (Option.some.inj (hcall.symm.trans hcall'))
    obtain ⟨hs, hhs, rfl⟩ := Option.map_eq_some_iff.mp hsizes
    rw [hcontent]
    exact h.state.collections hash hs hhs
  · have htake := h.take hqueue fun tx call _ => (getMessage_isAboutSizes call tx).2.1 hash size
    refine { htake with state := ⟨fun hash' size' hget => ?_, h.state.collections⟩ }
    rw [SortedTable.get?_insert] at hget
    split_ifs at hget with heq
    · rw [heq, ← Option.some.inj hget]
      exact hmsg
    · exact h.state.sizes hash' size' hget
  · have htake := h.take hqueue fun tx call _ => (getMessage_isAboutSizes call tx).2.2 hash hs
    refine { htake with state := ⟨h.state.sizes, fun hash' hs' hget => ?_⟩ }
    rw [SortedTable.get?_insert] at hget
    split_ifs at hget with heq
    · rw [heq, ← Option.some.inj hget]
      exact hmsg
    · exact h.state.collections hash' hs' hget
  · have htake := h.take hqueue fun tx call _ hget => by
      have habout := (getMessage_isAboutSizes call tx).1
      rw [hget, hother] at habout
      cases habout
    rw [hstate, foldl_resume_of_none heffects]
    exact { htake with }

/-- **The step.** -/
theorem Inv.step (hfits : options.maxHashSeqSize.toNat ≤ options.usizeMax) (h : sys.Inv options)
    {move : CacheMove} (hgenuine : ∀ call, move = .Start call → call.Genuine)
    (hstep : sys.step options handlers move = some sys') : sys'.Inv options := by
  cases move with
  | Start call =>
      rw [CacheSystem.step] at hstep
      split at hstep
      · rename_i hkind
        obtain rfl := Option.some.inj hstep
        exact h.start (hgenuine call rfl) (List.Subset.refl _) (fun _ hmsg => .inl hmsg)
          (ProbeCall.explained_probeHeader options hkind)
      · rename_i hkind
        obtain rfl := Option.some.inj hstep
        refine h.start (hgenuine call rfl) (List.subset_append_left _ _) (fun msg hmsg => ?_)
          ⟨hkind, List.mem_append_right _ List.mem_cons_self⟩
        exact (List.mem_append.mp hmsg).imp_right List.mem_singleton.mp
  | Send msg =>
      rw [CacheSystem.step] at hstep
      split_ifs at hstep with hmsg
      obtain rfl := Option.some.inj hstep
      refine h.send ?_
      cases msg <;> trivial
  | Handle now =>
      rw [CacheSystem.step] at hstep
      split at hstep
      · cases hstep
      · rename_i msg queue hqueue
        obtain ⟨r, hdispatch, hr⟩ := Option.bind_eq_some_iff.mp hstep
        obtain rfl := Option.some.inj hr
        exact h.handle hqueue hdispatch
  | Advance tx =>
      rw [CacheSystem.step] at hstep
      split at hstep
      · rename_i call hcall
        split at hstep
        · rename_i sizes hfetch
          obtain rfl := Option.some.inj hstep
          exact h.setPhase hcall
            ⟨h.phase _ _ _ hcall, ProbeCall.right_of_fetch (h.genuine _ _ _ hcall) hfetch⟩
        · rename_i e hfetch
          obtain rfl := Option.some.inj hstep
          refine h.setPhase hcall (.inr ⟨h.phase _ _ _ hcall, .inl ⟨fun sizes hok => ?_, ?_⟩⟩)
          · cases hok.symm.trans hfetch
          · rw [ProbeCall.fetch_eq_error hfetch]
      · rename_i call sizes hcall
        obtain rfl := Option.some.inj hstep
        have hright : (CallPhase.SetSizes sizes).Right options sys.queue tx call := h.phase _ _ _ hcall
        have hprobe : (CallPhase.Probe sizes).Right options sys.queue tx call := hright
        exact (h.setPhase hcall hprobe).send (setMessage_right hright.2)
      · rename_i call sizes hcall
        obtain rfl := Option.some.inj hstep
        obtain ⟨hkind, hright⟩ : (CallPhase.Probe sizes).Right options sys.queue tx call :=
          h.phase _ _ _ hcall
        exact h.setPhase hcall (ProbeCall.explained_probeWith hfits hkind hright)
      · cases hstep
  | Abort tx =>
      rw [CacheSystem.step] at hstep
      split at hstep
      · rename_i call phase hcall
        obtain rfl := Option.some.inj hstep
        exact h.setPhase hcall trivial
      · cases hstep

/-- **What comes of a probe does not depend on what other hosts send.**  In every state of a run of calls,
however they interleave and whatever messages the actor gets besides, it keeps the sizes of the content
only, and a call that waits has its request in the queue.  A probe that succeeded asked for a part of the
content and got it.  A panic is one of `random_range`, and then the sizes of the content are not choosable.  If
they are, a host that has the content passes. -/
theorem probes_of_run (hfree : Blobs.CollisionFree)
    (hfits : options.maxHashSeqSize.toNat ≤ options.usizeMax) {tables : Tables} {moves : List CacheMove}
    (hgenuine : ∀ call, .Start call ∈ moves → call.Genuine)
    (hrun : Transition.run (step options handlers) (new tables) moves = some sys) :
    sys.state.SizesRight options ∧
    ∀ (tx : ReplyTo) call phase, sys.calls[tx]? = some (call, phase) →
      (phase = .GetSizes → call.getMessage tx ∈ sys.queue) ∧
      ∀ result, phase = .Done result →
        (∀ asked, result = .ok asked → asked.kind = call.kind ∧ asked.Inside call.content ∧
          call.connection.Answers asked) ∧
        (∀ panic, result = .error (.Panic panic) →
          panic = .RandomRanges ∧ ∃ sizes : Sizes, sizes.Of call.content ∧ ¬ sizes.Choosable) ∧
        (call.Provides options →
          (call.kind = .Complete → ∃ sizes : Sizes, sizes.Of call.content ∧ sizes.Choosable) →
          ∃ asked, result = .ok asked) := by
  have hinv : sys.Inv options := by
    have hconforms : Transition.Conforms (step options handlers)
        (fun _ move => ∀ call, move = .Start call → call.Genuine) (new tables) moves :=
      Transition.conforms_of_forall fun move hmove _ call heq => hgenuine call (heq ▸ hmove)
    exact Transition.run_invariant_of_conforms (inv_new options tables)
      (fun _ _ _ h hok hstep => h.step hfits hok hstep) hconforms hrun
  refine ⟨hinv.state, fun tx call phase hcall => ⟨fun hphase => ?_, fun result hphase => ?_⟩⟩
  · subst hphase
    exact (hinv.phase tx call _ hcall).2
  · subst hphase
    have hexplained : call.Explained options result := hinv.phase tx call _ hcall
    rcases hexplained with ⟨asked, hkind, hinside, ⟨hanswers, rfl⟩ | ⟨hanswers, rfl⟩⟩ |
      ⟨hkind, ⟨hfetch, rfl⟩ | ⟨sizes, hof, hchoosable, rfl⟩⟩
    · refine ⟨fun asked' hok => ?_, fun panic hpanic => (by cases hpanic), fun _ _ => ⟨asked, rfl⟩⟩
      rw [← Except.ok.inj hok]
      exact ⟨hkind, hinside, hanswers⟩
    · exact ⟨fun _ hok => (by cases hok), fun _ hpanic => (by cases hpanic),
        fun hprovides _ => absurd (hprovides.answers asked hkind hinside) hanswers⟩
    · refine ⟨fun _ hok => (by cases hok), fun _ hpanic => (by cases hpanic), fun hprovides _ => ?_⟩
      obtain ⟨sizes, hok⟩ := hprovides.fetch hkind
      exact absurd hok (hfetch sizes)
    · refine ⟨fun _ hok => (by cases hok), fun panic hpanic => ?_, fun _ hsome => ?_⟩
      · cases hpanic
        exact ⟨rfl, sizes, hof, hchoosable⟩
      · obtain ⟨sizes', hof', hchoosable'⟩ := hsome hkind
        exact absurd (hof.unique hfree hof' ▸ hchoosable') hchoosable

end CacheSystem

end Invariant

end System

/-! ## A host that lies -/

/-- There are three bytes of data, and all hashes are alike. -/
abbrev Blobs.threeBytes : Blobs where
  blake3 _ := List.Vector.replicate 32 5
  Known data := data = [1, 2, 3]

section Liar

attribute [local instance] KeyScheme.doubling BlobsFsm.standard Blobs.threeBytes

def BlobRemote.ofSize (size : UInt64) : BlobRemote := ⟨some (), some size, [some ()], some ()⟩

/-- A probe of a host that has the three bytes. -/
def honestCall : ProbeCall where
  content := .filled 5 .Raw
  kind := .Complete
  connection :=
    ⟨.ofSize 3, .ofSize 3, ⟨none, none, none, fun _ _ => none, none⟩, fun _ => .ofSize 3,
      fun _ => ⟨none, none, none, fun _ _ => none, none⟩⟩
  rng := ⟨fun _ => 0, fun _ h => h⟩

/-- A probe of a host that claims another size.  What it sends does not pass the check. -/
def lyingCall : ProbeCall :=
  { honestCall with connection :=
    { honestCall.connection with lastChunk := ⟨some (), some 4096, [none], some ()⟩ } }

def probeOptions : ProbeOptions := ⟨1024, .Release, 2 ^ 32⟩

/-- Both hosts are asked for the size.  A later call has it from the actor. -/
def lyingMoves : List CacheMove :=
  [.Start lyingCall, .Start honestCall, .Handle ⟨0⟩, .Handle ⟨0⟩, .Advance 0, .Advance 1, .Advance 1,
    .Start honestCall, .Handle ⟨0⟩, .Handle ⟨0⟩, .Advance 2]

theorem honestCall_genuine : honestCall.Genuine where
  size size hheader _ := by
    obtain rfl := Option.some.inj hheader
    exact ⟨[1, 2, 3], rfl, rfl, rfl⟩
  hashSeq _ h := by cases h
  seqSize _ _ h := by cases h
  child _ _ _ h := by cases h

theorem lyingCall_genuine : lyingCall.Genuine where
  size _ _ hanswers := by cases hanswers
  hashSeq _ h := by cases h
  seqSize _ _ h := by cases h
  child _ _ _ h := by cases h

theorem honestCall_provides : honestCall.Provides probeOptions where
  fetch _ := ⟨.Raw 3, rfl⟩
  answers asked hkind hinside := by
    cases asked with
    | Header => cases hkind
    | Chunk => rfl
    | Child =>
        obtain ⟨_, _, _, _, hof, _⟩ := hinside
        cases hof.1

/-- **The host that has the data passes** after another one has lied. -/
theorem CacheSystem.probes_of_run_liar :
    ∃ sys result, Transition.run (step probeOptions Options.default) (new Tables.empty) lyingMoves
        = some sys ∧
      sys.calls[2]? = some (honestCall, .Done result) ∧ ∃ asked, result = .ok asked := by
  have hfree : Blobs.CollisionFree := fun _ _ hdata hdata' _ => hdata.trans hdata'.symm
  have hgenuine : ∀ call, CacheMove.Start call ∈ lyingMoves → call.Genuine := by
    intro call hcall
    simp only [lyingMoves, List.mem_cons, CacheMove.Start.injEq, reduceCtorEq, List.not_mem_nil,
      false_or, or_false] at hcall
    rcases hcall with rfl | rfl | rfl
    · exact lyingCall_genuine
    · exact honestCall_genuine
    · exact honestCall_genuine
  have hchoosable : ∃ sizes : Sizes, sizes.Of honestCall.content ∧ sizes.Choosable :=
    ⟨.Raw 3, ⟨rfl, [1, 2, 3], rfl, rfl, rfl⟩, (by decide : (3 : UInt64) ≠ 0)⟩
  obtain ⟨sys, result, hrun, hcall⟩ : ∃ sys result,
      Transition.run (step probeOptions Options.default) (new Tables.empty) lyingMoves = some sys ∧
        sys.calls[2]? = some (honestCall, .Done result) := ⟨_, _, rfl, rfl⟩
  have hresult := ((probes_of_run hfree (by decide) hgenuine hrun).2 2 _ _ hcall).2 result rfl
  exact ⟨sys, result, hrun, hcall, hresult.2.2 honestCall_provides fun _ => hchoosable⟩

end Liar

end IrohExperiments.Tracker
