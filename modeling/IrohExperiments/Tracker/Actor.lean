import IrohExperiments.Tracker.AnnouncePath
import IrohExperiments.Lib.Transition
import Mathlib.Data.Finset.Basic

/-!
# The state of the tracker and its message handlers

The tracker's data is owned by one actor.  This file has what the actor holds, the messages it is
sent, and the handler of each message, as functions of the tables the handler is given and of the
time it reads.  How messages are grouped into transactions is the subject of `Run.lean`.

* `Tables` are the two tables of the database.  Their keys are canonical paths, which is all that
  the handlers ever write, and that is a field of the structure.
* A handler that reads the endpoint out of a stored path could panic; such handlers return an
  `Option`, with `none` for the panic.
* The operations of the database are taken to succeed, and log output is left out.
-/

namespace IrohExperiments.Tracker

/-! ## Options -/

/-- The options that the handlers read. -/
structure Options where
  announceTimeout : Duration
  announceExpiry : Duration
  probeTimeout : Duration
  probeExpiry : Duration

/-- `Options::default`. -/
def Options.default : Options where
  announceTimeout := Duration.fromSecs (60 * 60 * 12)
  announceExpiry := Duration.fromSecs (60 * 60 * 12 * 7)
  probeTimeout := Duration.fromSecs (60 * 60 * 12)
  probeExpiry := Duration.fromSecs (60 * 60 * 12 * 7)

/-- `Options::debug`. -/
def Options.debug : Options where
  announceTimeout := Duration.fromSecs 60
  announceExpiry := Duration.fromSecs (60 * 2)
  probeTimeout := Duration.fromSecs 60
  probeExpiry := Duration.fromSecs (60 * 3)

instance : LinearOrder AnnounceKind :=
  LinearOrder.lift' AnnounceKind.toU8 fun a b h => by
    cases a <;> cases b <;> first | rfl | exact absurd h (by decide)

variable [KeyScheme]

/-! ## Tables -/

/-- The tables of the tracker's database. -/
structure Tables where
  announces : RecordTable AnnouncePath AnnounceValue
  probes : RecordTable AnnouncePath ProbeValue
  announces_canonical : ∀ r ∈ announces.iter, r.1.Canonical
  probes_canonical : ∀ r ∈ probes.iter, r.1.Canonical

namespace Tables

def empty : Tables where
  announces := RecordTable.empty
  probes := RecordTable.empty
  announces_canonical := fun _ h => by simp at h
  probes_canonical := fun _ h => by simp at h

def insertAnnounce (t : Tables) (path : AnnouncePath) (h : path.Canonical) (v : AnnounceValue) :
    Tables :=
  { t with
    announces := t.announces.insert path v
    announces_canonical := fun r hr => by
      rcases (t.announces.mem_iter_insert path v r).mp hr with rfl | ⟨hr, _⟩
      · exact h
      · exact t.announces_canonical r hr }

def insertProbe (t : Tables) (path : AnnouncePath) (h : path.Canonical) (v : ProbeValue) :
    Tables :=
  { t with
    probes := t.probes.insert path v
    probes_canonical := fun r hr => by
      rcases (t.probes.mem_iter_insert path v r).mp hr with rfl | ⟨hr, _⟩
      · exact h
      · exact t.probes_canonical r hr }

/-- Remove a path from both tables. -/
def remove (t : Tables) (path : AnnouncePath) : Tables where
  announces := t.announces.remove path
  probes := t.probes.remove path
  announces_canonical := fun r hr =>
    t.announces_canonical r ((t.announces.mem_iter_remove path r).mp hr).1
  probes_canonical := fun r hr =>
    t.probes_canonical r ((t.probes.mem_iter_remove path r).mp hr).1

@[simp] theorem insertAnnounce_announces (t : Tables) (path : AnnouncePath) (h : path.Canonical)
    (v : AnnounceValue) : (t.insertAnnounce path h v).announces = t.announces.insert path v := rfl

@[simp] theorem insertAnnounce_probes (t : Tables) (path : AnnouncePath) (h : path.Canonical)
    (v : AnnounceValue) : (t.insertAnnounce path h v).probes = t.probes := rfl

@[simp] theorem remove_announces (t : Tables) (path : AnnouncePath) :
    (t.remove path).announces = t.announces.remove path := rfl

@[simp] theorem remove_probes (t : Tables) (path : AnnouncePath) :
    (t.remove path).probes = t.probes.remove path := rfl

/-- No timestamp in the tables lies after `now`. -/
structure Before (t : Tables) (now : AbsoluteTime) : Prop where
  announces : ∀ r ∈ t.announces.iter, r.2.timestamp ≤ now
  probes : ∀ r ∈ t.probes.iter, r.2.timestamp ≤ now

end Tables

/-! ## Messages -/

/-- The children of a hash sequence. -/
abbrev HashSeq := List Hash

/-- The sender half of the channel on which a reply is awaited. -/
abbrev ReplyTo := ℕ

inductive ActorMessage where
  | Announce (announce : SignedAnnounce) (tx : ReplyTo)
  | Query (query : Query) (tx : ReplyTo)
  | GetSize (hash : Hash) (tx : ReplyTo)
  | GetSizes (hash : Hash) (tx : ReplyTo)
  | SetSize (hash : Hash) (size : UInt64)
  | SetSizes (hash : Hash) (sizes : HashSeq × List UInt64)
  | GetContentForEndpoint (endpoint : EndpointId) (tx : ReplyTo)
  /-- Of the result of a probe only whether it succeeded is read. -/
  | StoreProbeResult (endpoint : EndpointId)
      (results : List (HashAndFormat × AnnounceKind × Except String Unit)) (now : AbsoluteTime)
  | GetDistinctContent (tx : ReplyTo)
  | Gc (tx : ReplyTo)
  | Dump
  | Stop

inductive MessageCategory where
  | ReadWrite
  | ReadOnly
  deriving DecidableEq

def ActorMessage.category : ActorMessage → MessageCategory
  | .Announce .. | .SetSize .. | .SetSizes .. | .StoreProbeResult .. | .Gc .. => .ReadWrite
  | .Dump | .Stop | .Query .. | .GetContentForEndpoint .. | .GetDistinctContent .. | .GetSize ..
  | .GetSizes .. => .ReadOnly

def ActorMessage.isStop : ActorMessage → Bool
  | .Stop => true
  | _ => false

structure GetDistinctContentResponse where
  content : Finset HashAndFormat
  endpoints : Finset EndpointId

structure AnnounceResponse where
  newContent : Bool
  newHostForContent : Bool
  deriving DecidableEq

/-- What a dump prints about one row. -/
structure DumpLine (V : Type) where
  content : HashAndFormat
  kind : AnnounceKind
  endpoint : EndpointId
  value : V

/-- What the handler of a message sends to its caller, or prints. -/
inductive Effect where
  | announce (tx : ReplyTo) (response : Except VerifyError AnnounceResponse)
  | query (tx : ReplyTo) (response : QueryResponse)
  | size (tx : ReplyTo) (size : Option UInt64)
  | sizes (tx : ReplyTo) (sizes : Option (HashSeq × List UInt64))
  | contentForEndpoint (tx : ReplyTo) (content : SortedTable AnnounceKind HashAndFormat)
  | distinctContent (tx : ReplyTo) (response : GetDistinctContentResponse)
  | gc (tx : ReplyTo)
  | dump (announces : List (DumpLine AnnounceValue)) (probes : List (DumpLine ProbeValue))

/-- The mutable state of the tracker server. -/
structure State where
  sizes : SortedTable Hash UInt64
  collections : SortedTable Hash (HashSeq × List UInt64)

def State.default : State := ⟨SortedTable.empty, SortedTable.empty⟩

/-! ## Announces -/

def splitSignedAnnounce (announce : SignedAnnounce) : AnnouncePath × AnnounceValue :=
  (AnnouncePath.new announce.announce.content announce.announce.kind announce.announce.host,
    ⟨announce.announce.timestamp, announce.signature⟩)

def joinSignedAnnounce (path : AnnouncePath) (value : AnnounceValue) : Option SignedAnnounce := do
  let host ← path.endpointId
  return ⟨⟨host, path.content, path.announceKind, value.timestamp⟩, value.signature⟩

/-- **Joining undoes splitting**, field for field. -/
theorem joinSignedAnnounce_split (a : SignedAnnounce) :
    joinSignedAnnounce (splitSignedAnnounce a).1 (splitSignedAnnounce a).2 = some a := by
  obtain ⟨⟨host, content, kind, timestamp⟩, signature⟩ := a
  simp [joinSignedAnnounce, splitSignedAnnounce]

/-- On a canonical path, splitting undoes joining too, and joining does not panic. -/
theorem exists_joinSignedAnnounce {path : AnnouncePath} (h : path.Canonical)
    (value : AnnounceValue) :
    ∃ a, joinSignedAnnounce path value = some a ∧ splitSignedAnnounce a = (path, value) := by
  obtain ⟨c, k, e, rfl⟩ := h
  refine ⟨⟨⟨e, c, k, value.timestamp⟩, value.signature⟩, ?_, rfl⟩
  simp [joinSignedAnnounce]

theorem splitSignedAnnounce_canonical (a : SignedAnnounce) :
    (splitSignedAnnounce a).1.Canonical :=
  AnnouncePath.canonical_new _ _ _

def handleAnnounce (tables : Tables) (signedAnnounce : SignedAnnounce) :
    Except VerifyError AnnounceResponse × Tables :=
  match signedAnnounce.verify with
  | .error e => (.error e, tables)
  | .ok () =>
      let content := signedAnnounce.announce.content
      let path := (splitSignedAnnounce signedAnnounce).1
      let value1 := (splitSignedAnnounce signedAnnounce).2
      let newContent := (tables.announces.range (AnnouncePath.contentMin content)
        (AnnouncePath.contentMax content)).isEmpty
      let prev := tables.announces.get path
      let newHostForContent := match prev with
        | some _ => false
        | none => true
      let update := match prev with
        | some prev => decide (prev.timestamp < value1.timestamp)
        | none => true
      (.ok ⟨newContent, newHostForContent⟩,
        if update then
          tables.insertAnnounce path (splitSignedAnnounce_canonical signedAnnounce) value1
        else tables)

/-! ## Queries -/

/-- The loop of `handle_query` over the rows of the range scan. -/
def queryLoop (options : Options) (now : AbsoluteTime) (query : Query)
    (probes : RecordTable AnnouncePath ProbeValue) :
    List (AnnouncePath × AnnounceValue) → Option (List SignedAnnounce)
  | [] => some []
  | (path, value) :: rest =>
      let kind := AnnounceKind.fromComplete query.flags.complete
      let lastProbed := (probes.get path).map ProbeValue.timestamp
      let recentlyProbed := (lastProbed.map fun t => decide (now - t ≤ options.probeTimeout)).getD false
      if kind = .Complete ∧ path.announceKind = .Partial then
        -- we only want complete announces
        queryLoop options now query probes rest
      else if ¬ now - value.timestamp ≤ options.announceTimeout then
        -- announce is too old
        queryLoop options now query probes rest
      else if query.flags.verified ∧ ¬ recentlyProbed then
        -- the last successful probe is too old
        queryLoop options now query probes rest
      else do
        let signedAnnounce ← joinSignedAnnounce path value
        let announces ← queryLoop options now query probes rest
        return signedAnnounce :: announces

def handleQuery (options : Options) (now : AbsoluteTime) (query : Query) (tables : Tables) :
    Option QueryResponse := do
  let announces ← queryLoop options now query tables.probes
    (tables.announces.range (AnnouncePath.contentMin query.content)
      (AnnouncePath.contentMax query.content))
  return ⟨announces⟩

/-! ## Probes -/

def getContentForEndpoint (tables : Tables) (endpoint : EndpointId) :
    Option (SortedTable AnnounceKind HashAndFormat) :=
  tables.announces.iter.foldlM (fun contentForEndpoint entry => do
    let e ← entry.1.endpointId
    return if e ≠ endpoint then contentForEndpoint
      else contentForEndpoint.insert entry.1.announceKind entry.1.content) SortedTable.empty

def storeProbeResult (tables : Tables) (endpoint : EndpointId)
    (results : List (HashAndFormat × AnnounceKind × Except String Unit)) (now : AbsoluteTime) :
    Tables :=
  results.foldl (fun tables r =>
    match r.2.2 with
    | .ok _ => tables.insertProbe (AnnouncePath.new r.1 r.2.1 endpoint)
        (AnnouncePath.canonical_new _ _ _) ⟨now⟩
    | .error _ => tables) tables

/-! ## Maintenance -/

/-- The lines of a dump of one table. -/
def dumpLines {V : Type} (rows : List (AnnouncePath × V)) : Option (List (DumpLine V)) :=
  rows.mapM fun r => do
    let e ← r.1.endpointId
    return ⟨r.1.content, r.1.announceKind, e, r.2⟩

def handleDump (tables : Tables) :
    Option (List (DumpLine AnnounceValue) × List (DumpLine ProbeValue)) := do
  let announces ← dumpLines tables.announces.iter
  let probes ← dumpLines tables.probes.iter
  return (announces, probes)

def getDistinctContent (tables : Tables) : Option GetDistinctContentResponse :=
  tables.announces.iter.foldlM (fun r entry => do
    let e ← entry.1.endpointId
    return ⟨insert entry.1.content r.content, insert e r.endpoints⟩) ⟨∅, ∅⟩

/-- The loop of `gc` that collects the paths to remove. -/
def gcToRemove (options : Options) (now : AbsoluteTime)
    (probes : RecordTable AnnouncePath ProbeValue) :
    List (AnnouncePath × ProbeValue) → List AnnouncePath
  | [] => []
  | (path, value) :: rest =>
      let announceAge := now - value.timestamp
      if announceAge ≤ options.announceExpiry then
        -- announce is recent, keep it
        gcToRemove options now probes rest
      else
        match (probes.get path).map ProbeValue.timestamp with
        | some lastProbe =>
            if now - lastProbe ≤ options.probeExpiry then
              -- announce is expired, but we have probed it recently, keep it
              gcToRemove options now probes rest
            else path :: gcToRemove options now probes rest
        | none => path :: gcToRemove options now probes rest

def gc (options : Options) (now : AbsoluteTime) (tables : Tables) : Tables :=
  (gcToRemove options now tables.probes tables.probes.iter).foldl Tables.remove tables

/-! ## Dispatch -/

/-- Handle a message in a read transaction.  A message of another kind is handed back. -/
def handleReadonly (options : Options) (state : State) (now : AbsoluteTime) (msg : ActorMessage)
    (tables : Tables) : Option (Except ActorMessage (List Effect)) :=
  match msg with
  | .Query query tx => do
      let response ← handleQuery options now query tables
      return .ok [.query tx response]
  | .GetSize hash tx => some (.ok [.size tx (state.sizes.get? hash)])
  | .GetSizes hash tx => some (.ok [.sizes tx (state.collections.get? hash)])
  | .GetContentForEndpoint endpoint tx => do
      let content ← getContentForEndpoint tables endpoint
      return .ok [.contentForEndpoint tx content]
  | .GetDistinctContent tx => do
      let response ← getDistinctContent tables
      return .ok [.distinctContent tx response]
  | .Dump => do
      let lines ← handleDump tables
      return .ok [.dump lines.1 lines.2]
  | x => some (.error x)

/-- Handle a message in a write transaction.  A message of another kind is handed back. -/
def handleReadwrite (options : Options) (state : State) (now : AbsoluteTime) (msg : ActorMessage)
    (tables : Tables) : Except ActorMessage (State × Tables × List Effect) :=
  match msg with
  | .Announce announce tx =>
      let r := handleAnnounce tables announce
      .ok (state, r.2, [.announce tx r.1])
  | .SetSize hash size => .ok ({ state with sizes := state.sizes.insert hash size }, tables, [])
  | .SetSizes hash sizes =>
      .ok ({ state with collections := state.collections.insert hash sizes }, tables, [])
  | .StoreProbeResult endpoint results now' =>
      .ok (state, storeProbeResult tables endpoint results now', [])
  | .Gc tx => .ok (state, gc options now tables, [.gc tx])
  | .Stop => .error .Stop
  | x => .error x

/-- Handle a message with the handler of its category.  `none` if that one hands it back. -/
def dispatch (options : Options) (state : State) (now : AbsoluteTime) (msg : ActorMessage)
    (tables : Tables) : Option (State × Tables × List Effect) :=
  match msg.category with
  | .ReadWrite =>
      match handleReadwrite options state now msg tables with
      | .ok r => some r
      | .error _ => none
  | .ReadOnly =>
      match handleReadonly options state now msg tables with
      | some (.ok effects) => some (state, tables, effects)
      | _ => none

/-! ## What the dispatch relies on

The loop of the actor hands a message to the handler of its category, and expects the handler to
take it.  The lemmas below say that it does, that the other handler hands it back, and that no
handler panics. -/

/-- The loop of a query does not panic, and what it finds are announces of the scanned rows. -/
theorem exists_queryLoop (options : Options) (now : AbsoluteTime) (query : Query)
    (probes : RecordTable AnnouncePath ProbeValue) {rows : List (AnnouncePath × AnnounceValue)}
    (hrows : ∀ r ∈ rows, r.1.Canonical) :
    ∃ announces, queryLoop options now query probes rows = some announces ∧
      ∀ a ∈ announces, splitSignedAnnounce a ∈ rows := by
  induction rows with
  | nil => exact ⟨[], rfl, fun a ha => absurd ha List.not_mem_nil⟩
  | cons r rows ih =>
      obtain ⟨path, value⟩ := r
      obtain ⟨announces, hloop, hmem⟩ := ih fun r' hr' => hrows r' (List.mem_cons_of_mem _ hr')
      obtain ⟨a, hjoin, hsplit⟩ := exists_joinSignedAnnounce (hrows _ List.mem_cons_self) value
      have hskip : ∀ b ∈ announces, splitSignedAnnounce b ∈ (path, value) :: rows :=
        fun b hb => List.mem_cons_of_mem _ (hmem b hb)
      simp only at hjoin
      rw [queryLoop]
      simp only [hloop, hjoin]
      split_ifs
      · exact ⟨announces, rfl, hskip⟩
      · exact ⟨announces, rfl, hskip⟩
      · refine ⟨a :: announces, rfl, fun b hb => ?_⟩
        rcases List.mem_cons.mp hb with rfl | hb
        · rw [hsplit]
          exact List.mem_cons_self
        · exact hskip b hb
      · exact ⟨announces, rfl, hskip⟩

/-- A query does not panic, and its answer lists announces of the table. -/
theorem exists_handleQuery (options : Options) (now : AbsoluteTime) (query : Query)
    (tables : Tables) :
    ∃ response, handleQuery options now query tables = some response ∧
      ∀ a ∈ response.hosts, splitSignedAnnounce a ∈ tables.announces.iter := by
  have hrange : ∀ r ∈ tables.announces.range (AnnouncePath.contentMin query.content)
      (AnnouncePath.contentMax query.content), r ∈ tables.announces.iter := by
    intro r hr
    exact ((AnnouncePath.mem_range_iff _ _ r).mp hr).1
  obtain ⟨announces, hloop, hmem⟩ := exists_queryLoop options now query tables.probes
    fun r hr => tables.announces_canonical r (hrange r hr)
  refine ⟨⟨announces⟩, ?_, fun a ha => hrange _ (hmem a ha)⟩
  rw [handleQuery, hloop]
  rfl

theorem exists_getContentForEndpoint (tables : Tables) (endpoint : EndpointId) :
    ∃ content, getContentForEndpoint tables endpoint = some content := by
  refine Transition.exists_run (fun r hr content => ?_) SortedTable.empty
  obtain ⟨e, he, _⟩ := (tables.announces_canonical r hr).eq_new
  rw [he]
  exact ⟨_, rfl⟩

/-- The distinct endpoints are the ones of the rows. -/
theorem exists_getDistinctContent (tables : Tables) :
    ∃ response, getDistinctContent tables = some response ∧
      ∀ e, e ∈ response.endpoints
        ↔ ∃ r ∈ tables.announces.iter, r.1.endpointId = some e := by
  let step := fun (m : GetDistinctContentResponse) (r : AnnouncePath × AnnounceValue) => do
    let e ← r.1.endpointId
    return (⟨insert r.1.content m.content, insert e m.endpoints⟩ : GetDistinctContentResponse)
  have htotal : ∀ r ∈ tables.announces.iter, ∀ m, ∃ m', step m r = some m' := by
    intro r hr m
    obtain ⟨e, he, _⟩ := (tables.announces_canonical r hr).eq_new
    simp only [step, he]
    exact ⟨_, rfl⟩
  obtain ⟨response, hrun⟩ := Transition.exists_run htotal ⟨∅, ∅⟩
  refine ⟨response, hrun, ?_⟩
  refine Transition.run_induction (P := fun rows (m : GetDistinctContentResponse) =>
    ∀ e, e ∈ m.endpoints ↔ ∃ r ∈ rows, r.1.endpointId = some e) (by simp) ?_ hrun
  intro rows m r m' _ ih hstep e
  simp only [step] at hstep
  cases he : r.1.endpointId with
  | none =>
      rw [he] at hstep
      exact absurd hstep (by simp)
  | some e' =>
      rw [he] at hstep
      cases hstep
      rw [Finset.mem_insert, ih e]
      simp only [List.mem_append, List.mem_singleton]
      constructor
      · rintro (rfl | ⟨r', hr', he'⟩)
        · exact ⟨r, Or.inr rfl, he⟩
        · exact ⟨r', Or.inl hr', he'⟩
      · rintro ⟨r', hr' | rfl, he'⟩
        · exact Or.inr ⟨r', hr', he'⟩
        · exact Or.inl (Option.some.inj (he'.symm.trans he))

theorem exists_dumpLines {V : Type} {rows : List (AnnouncePath × V)}
    (hrows : ∀ r ∈ rows, r.1.Canonical) : ∃ lines, dumpLines rows = some lines := by
  induction rows with
  | nil => exact ⟨[], rfl⟩
  | cons r rows ih =>
      obtain ⟨lines, hlines⟩ := ih fun r' hr' => hrows r' (List.mem_cons_of_mem _ hr')
      obtain ⟨e, he, _⟩ := (hrows r List.mem_cons_self).eq_new
      rw [dumpLines] at hlines
      rw [dumpLines, List.mapM_cons, hlines, he]
      exact ⟨_, rfl⟩

theorem exists_handleDump (tables : Tables) : ∃ lines, handleDump tables = some lines := by
  obtain ⟨announces, ha⟩ := exists_dumpLines tables.announces_canonical
  obtain ⟨probes, hp⟩ := exists_dumpLines tables.probes_canonical
  refine ⟨(announces, probes), ?_⟩
  rw [handleDump, ha, hp]
  rfl

/-- A read-only message other than `Stop` is handled by the handler of a read transaction. -/
theorem exists_handleReadonly (options : Options) (state : State) (now : AbsoluteTime)
    {msg : ActorMessage} (hcat : msg.category = .ReadOnly) (hstop : msg.isStop = false)
    (tables : Tables) :
    ∃ effects, handleReadonly options state now msg tables = some (.ok effects) := by
  cases msg with
  | Query query tx =>
      obtain ⟨response, h, _⟩ := exists_handleQuery options now query tables
      rw [handleReadonly, h]
      exact ⟨_, rfl⟩
  | GetSize hash tx => exact ⟨_, rfl⟩
  | GetSizes hash tx => exact ⟨_, rfl⟩
  | GetContentForEndpoint endpoint tx =>
      obtain ⟨content, h⟩ := exists_getContentForEndpoint tables endpoint
      rw [handleReadonly, h]
      exact ⟨_, rfl⟩
  | GetDistinctContent tx =>
      obtain ⟨response, h, _⟩ := exists_getDistinctContent tables
      rw [handleReadonly, h]
      exact ⟨_, rfl⟩
  | Dump =>
      obtain ⟨lines, h⟩ := exists_handleDump tables
      rw [handleReadonly, h]
      exact ⟨_, rfl⟩
  | Stop => cases hstop
  | Announce | SetSize | SetSizes | StoreProbeResult | Gc => cases hcat

/-- The effect of a read-only message. -/
inductive Answers (options : Options) (state : State) (now : AbsoluteTime) (tables : Tables) :
    ActorMessage → Effect → Prop
  | query {query tx response} : handleQuery options now query tables = some response →
      Answers options state now tables (.Query query tx) (.query tx response)
  | size {hash tx} :
      Answers options state now tables (.GetSize hash tx) (.size tx (state.sizes.get? hash))
  | sizes {hash tx} :
      Answers options state now tables (.GetSizes hash tx) (.sizes tx (state.collections.get? hash))
  | contentForEndpoint {endpoint tx content} :
      getContentForEndpoint tables endpoint = some content →
      Answers options state now tables (.GetContentForEndpoint endpoint tx)
        (.contentForEndpoint tx content)
  | distinctContent {tx response} : getDistinctContent tables = some response →
      Answers options state now tables (.GetDistinctContent tx) (.distinctContent tx response)
  | dump {lines} : handleDump tables = some lines →
      Answers options state now tables .Dump (.dump lines.1 lines.2)

/-- **What the handler of a read transaction does**: it answers the message, and that is all. -/
theorem answers_of_handleReadonly {options : Options} {state : State} {now : AbsoluteTime}
    {msg : ActorMessage} {tables : Tables} {effects : List Effect}
    (h : handleReadonly options state now msg tables = some (.ok effects)) :
    ∃ effect, effects = [effect] ∧ Answers options state now tables msg effect := by
  cases msg with
  | Query query tx =>
      obtain ⟨response, hresponse, h⟩ := Option.bind_eq_some_iff.mp h
      cases h
      exact ⟨_, rfl, .query hresponse⟩
  | GetSize hash tx =>
      cases h
      exact ⟨_, rfl, .size⟩
  | GetSizes hash tx =>
      cases h
      exact ⟨_, rfl, .sizes⟩
  | GetContentForEndpoint endpoint tx =>
      obtain ⟨content, hcontent, h⟩ := Option.bind_eq_some_iff.mp h
      cases h
      exact ⟨_, rfl, .contentForEndpoint hcontent⟩
  | GetDistinctContent tx =>
      obtain ⟨response, hresponse, h⟩ := Option.bind_eq_some_iff.mp h
      cases h
      exact ⟨_, rfl, .distinctContent hresponse⟩
  | Dump =>
      obtain ⟨lines, hlines, h⟩ := Option.bind_eq_some_iff.mp h
      cases h
      exact ⟨_, rfl, .dump hlines⟩
  | Announce | SetSize | SetSizes | StoreProbeResult | Gc | Stop => cases h

/-- A message that needs a write transaction, and `Stop`, are handed back by the other handler. -/
theorem handleReadonly_eq_error (options : Options) (state : State) (now : AbsoluteTime)
    {msg : ActorMessage} (h : msg.category = .ReadWrite ∨ msg.isStop = true) (tables : Tables) :
    handleReadonly options state now msg tables = some (.error msg) := by
  cases msg with
  | Announce | SetSize | SetSizes | StoreProbeResult | Gc | Stop => rfl
  | _ => rcases h with h | h <;> cases h

/-- A message that needs a write transaction is handled in one. -/
theorem exists_handleReadwrite (options : Options) (state : State) (now : AbsoluteTime)
    {msg : ActorMessage} (hcat : msg.category = .ReadWrite) (tables : Tables) :
    ∃ r, handleReadwrite options state now msg tables = .ok r := by
  cases msg with
  | Announce | SetSize | SetSizes | StoreProbeResult | Gc => exact ⟨_, rfl⟩
  | _ => cases hcat

/-- A read-only message is handed back by the handler of a write transaction. -/
theorem handleReadwrite_eq_error (options : Options) (state : State) (now : AbsoluteTime)
    {msg : ActorMessage} (hcat : msg.category = .ReadOnly) (tables : Tables) :
    handleReadwrite options state now msg tables = .error msg := by
  cases msg with
  | Announce | SetSize | SetSizes | StoreProbeResult | Gc => cases hcat
  | _ => rfl

/-- A message is dispatched to a write transaction, or to a read transaction that changes
nothing. -/
theorem dispatch_eq_some {options : Options} {state : State} {now : AbsoluteTime}
    {msg : ActorMessage} {tables : Tables} {r : State × Tables × List Effect} :
    dispatch options state now msg tables = some r
      ↔ (msg.category = .ReadWrite ∧ handleReadwrite options state now msg tables = .ok r) ∨
        (msg.category = .ReadOnly ∧ r.1 = state ∧ r.2.1 = tables ∧
          handleReadonly options state now msg tables = some (.ok r.2.2)) := by
  rw [dispatch]
  cases hcat : msg.category with
  | ReadWrite =>
      cases handleReadwrite options state now msg tables with
      | error x => simp
      | ok r' => simp
  | ReadOnly =>
      rcases handleReadonly options state now msg tables with _ | _ | effects
      · simp
      · simp
      · obtain ⟨state', tables', effects'⟩ := r
        simp only [Option.some.injEq, Prod.mk.injEq, reduceCtorEq, false_and, true_and, false_or,
          Except.ok.injEq]
        constructor
        · rintro ⟨rfl, rfl, rfl⟩
          exact ⟨rfl, rfl, rfl⟩
        · rintro ⟨rfl, rfl, rfl⟩
          exact ⟨rfl, rfl, rfl⟩

end IrohExperiments.Tracker
