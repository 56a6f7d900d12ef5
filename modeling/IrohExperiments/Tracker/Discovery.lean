import IrohExperiments.Tracker.Calls
import IrohExperiments.Tracker.Fresh

/-!
# Announces are found

A host announces its content and returns.  Whoever queries the same tracker for the content from then on should
get the host, for as long as the announce is fresh.  The calls are linearizable (`Calls.lean`), so the
query takes effect in a state that the announce has led to, and what is left is what the messages between the
two can do to the row of the announce (`Announced.apply`).

* `Discovery.found_of_run`: a query that is called after the announce has returned finds it, or a later one of the
  host, if no announce is stamped ahead of the clock of the tracker and no collection finds a stale
  probe of the path, and it finds nothing that was not announced.
-/

namespace IrohExperiments.Tracker

open SerialServer

section Discovery

variable [KeyScheme] {options : Options} {state₀ : State} {tables₀ : Tables} {s s' : State × Tables}
  {handling : Handling} {path : AnnouncePath} {t : AbsoluteTime}

/-! ## A row, and what happens to it -/

/-- The path has a row that is not older than this. -/
def Announced (path : AnnouncePath) (t : AbsoluteTime) (tables : Tables) : Prop :=
  ∃ v ∈ tables.announces.get path, t ≤ v.timestamp

/-- A collection does not find a stale probe of the path. -/
def Spared (options : Options) (path : AnnouncePath) (s : State × Tables) : Handling → Prop
  | ⟨.Gc _, now⟩ => ∀ p ∈ s.2.probes.get path,
      now - p.timestamp ≤ options.announceExpiry ∨ now - p.timestamp ≤ options.probeExpiry
  | _ => True

instance (options : Options) (path : AnnouncePath) (s : State × Tables) : DecidablePred (Spared options path s)
  | ⟨.Gc _, _⟩ => inferInstanceAs (Decidable (∀ p ∈ _, _ ∨ _))
  | ⟨.Announce .., _⟩ | ⟨.Query .., _⟩ | ⟨.GetSize .., _⟩ | ⟨.GetSizes .., _⟩ | ⟨.SetSize .., _⟩
  | ⟨.SetSizes .., _⟩ | ⟨.GetContentForEndpoint .., _⟩ | ⟨.StoreProbeResult .., _⟩
  | ⟨.GetDistinctContent _, _⟩ | ⟨.Dump, _⟩ | ⟨.Stop, _⟩ => .isTrue trivial

theorem apply_eq_some {state : State} {tables : Tables} :
    (sequential options state tables).apply s handling = some s'
      ↔ ∃ r, dispatch options s.1 handling.now handling.msg s.2 = some r ∧ (r.1, r.2.1) = s' :=
  Option.map_eq_some_iff

theorem Announced.handleAnnounce {tables : Tables} (h : Announced path t tables) (a : SignedAnnounce) :
    Announced path t (Tracker.handleAnnounce tables a).2 := by
  rcases handleAnnounce_cases tables a with ⟨e, _, heq⟩ | ⟨hverify, _⟩
  · rw [heq]
    exact h
  · obtain ⟨v, hv, hle⟩ := h
    rw [Announced, get_handleAnnounce tables hverify]
    split_ifs with hpath
    · rw [Option.mem_def.mp hv, AnnounceValue.replace]
      split_ifs with hnewer
      · exact ⟨_, rfl, hle.trans hnewer.le⟩
      · exact ⟨v, rfl, hle⟩
    · exact ⟨v, hv, hle⟩

/-- An announce leaves a row that is not older. -/
theorem announced_handleAnnounce (tables : Tables) {a : SignedAnnounce} (hverify : a.verify = .ok ()) :
    Announced (splitSignedAnnounce a).1 a.announce.timestamp (handleAnnounce tables a).2 := by
  rw [Announced, get_handleAnnounce tables hverify, if_pos rfl]
  cases tables.announces.get (splitSignedAnnounce a).1 with
  | none => exact ⟨_, rfl, le_refl _⟩
  | some prev =>
      rw [AnnounceValue.replace]
      split_ifs with hnewer
      · exact ⟨_, rfl, le_refl _⟩
      · exact ⟨prev, rfl, not_lt.mp hnewer⟩

/-- A collection keeps a path without a stale probe. -/
theorem Announced.gc {tables : Tables} {now : AbsoluteTime} (h : Announced path t tables)
    (hspared : ∀ p ∈ tables.probes.get path,
      now - p.timestamp ≤ options.announceExpiry ∨ now - p.timestamp ≤ options.probeExpiry) :
    Announced path t (gc options now tables) := by
  obtain ⟨v, hv, hle⟩ := h
  refine ⟨v, ?_, hle⟩
  rw [Option.mem_def, ← RecordTable.mem_iter_iff] at hv ⊢
  rw [Tracker.gc, (mem_foldl_remove tables _).1]
  refine ⟨hv, fun hremove => ?_⟩
  obtain ⟨p, hp, hannounce, hprobe⟩ := (mem_gcToRemove _ _ _ _ _).mp hremove
  have hp := (tables.probes.mem_iter_iff _ p).mp hp
  rcases hspared p hp with hage | hage
  · exact hannounce hage
  · exact hprobe p hp hage

/-- **A message keeps the row, or makes it newer.** -/
theorem Announced.apply (h : Announced path t s.2) (hspared : Spared options path s handling)
    (happly : (sequential options state₀ tables₀).apply s handling = some s') : Announced path t s'.2 := by
  obtain ⟨r, hdispatch, rfl⟩ := apply_eq_some.mp happly
  obtain ⟨msg, now⟩ := handling
  by_cases hgc : ∃ tx, msg = .Gc tx
  · obtain ⟨tx, rfl⟩ := hgc
    rcases dispatch_eq_some.mp hdispatch with ⟨_, hhandle⟩ | ⟨hcat, _⟩
    · cases hhandle
      exact h.gc hspared
    · cases hcat
  · rcases dispatch_cases hdispatch with ⟨a, tx, _, rfl⟩ | ⟨hannounce, _⟩
    · exact h.handleAnnounce a
    · show Announced path t r.2.1
      rw [Announced, dispatch_announces_eq hannounce (fun tx heq => hgc ⟨tx, heq⟩) hdispatch]
      exact h

/-! ## Where rows come from -/

/-- A row was there at first, or it is one of an announce that was handled. -/
theorem row_of_run {handlings : List Handling}
    (hrun : Transition.run (sequential options state₀ tables₀).apply (state₀, tables₀) handlings = some s)
    {row : AnnouncePath × AnnounceValue} (hrow : row ∈ s.2.announces.iter) :
    row ∈ tables₀.announces.iter ∨ ∃ handling ∈ handlings, ∃ a tx, handling.msg = .Announce a tx ∧
      a.verify = .ok () ∧ splitSignedAnnounce a = row := by
  refine Transition.run_induction (P := fun handlings (s : State × Tables) => ∀ row ∈ s.2.announces.iter,
    row ∈ tables₀.announces.iter ∨ ∃ handling ∈ handlings, ∃ a tx, handling.msg = .Announce a tx ∧
      a.verify = .ok () ∧ splitSignedAnnounce a = row) (fun row hrow => .inl hrow) ?_ hrun row hrow
  intro handlings m handling m' _ ih happly row hrow
  have hold : row ∈ m.2.announces.iter → row ∈ tables₀.announces.iter ∨
      ∃ h ∈ handlings ++ [handling], ∃ a tx, h.msg = .Announce a tx ∧ a.verify = .ok () ∧
        splitSignedAnnounce a = row := by
    intro hrow
    rcases ih row hrow with hrow | ⟨h, hmem, hrest⟩
    · exact .inl hrow
    · exact .inr ⟨h, List.mem_append_left _ hmem, hrest⟩
  obtain ⟨r, hdispatch, rfl⟩ := apply_eq_some.mp happly
  rcases dispatch_cases hdispatch with ⟨a, tx, hmsg, rfl⟩ | ⟨_, _, hsubset⟩
  · rcases handleAnnounce_cases m.2 a with ⟨e, _, heq⟩ | ⟨hverify, _, _, _, ⟨heq, _⟩ | heq⟩
    · simp only [heq] at hrow
      exact hold hrow
    · simp only [heq] at hrow
      exact hold hrow
    · simp only [heq, Tables.insertAnnounce_announces] at hrow
      rcases (RecordTable.mem_iter_insert _ _ _ _).mp hrow with rfl | ⟨hrow, _⟩
      · exact .inr ⟨handling, List.mem_append_right _ (List.mem_singleton_self _), a, tx, hmsg, hverify, rfl⟩
      · exact hold hrow
  · exact hold (hsubset row hrow)

/-- The clock of the tracker does not go back, and no announce is stamped ahead of it. -/
def InTime (tables₀ : Tables) (handlings : List Handling) : Prop :=
  Transition.Always (fun earlier handling => (∀ h ∈ earlier, h.now ≤ handling.now) ∧
    (∀ a tx, handling.msg = .Announce a tx → a.announce.timestamp ≤ handling.now) ∧
    ∀ row ∈ tables₀.announces.iter, row.2.timestamp ≤ handling.now) handlings

/-- Then no row lies ahead of a message. -/
theorem timestamp_le_of_inTime {earlier later : List Handling} (h : InTime tables₀ (earlier ++ handling :: later))
    (hrun : Transition.run (sequential options state₀ tables₀).apply (state₀, tables₀) earlier = some s)
    {row : AnnouncePath × AnnounceValue} (hrow : row ∈ s.2.announces.iter) :
    row.2.timestamp ≤ handling.now := by
  obtain ⟨hclock, _, hinitial⟩ := h earlier handling later rfl
  rcases row_of_run hrun hrow with hrow | ⟨h', hmem, a, tx, hmsg, _, rfl⟩
  · exact hinitial row hrow
  · obtain ⟨before, rest, rfl⟩ := List.append_of_mem hmem
    have hstamp := (h before h' (rest ++ handling :: later)
      (by rw [List.append_assoc, List.cons_append])).2.1 a tx hmsg
    exact hstamp.trans (hclock h' hmem)

/-! ## From an announce to a query -/

/-- **What is left of an announce** after more messages. -/
theorem announced_of_run {a : SignedAnnounce} {tx : ReplyTo} {now : AbsoluteTime} {between : List Handling}
    (hverify : a.verify = .ok ())
    (hspared : Transition.Conforms (sequential options state₀ tables₀).apply
      (Spared options (splitSignedAnnounce a).1) s (⟨.Announce a tx, now⟩ :: between))
    (hrun : Transition.run (sequential options state₀ tables₀).apply s (⟨.Announce a tx, now⟩ :: between)
      = some s') : Announced (splitSignedAnnounce a).1 a.announce.timestamp s'.2 := by
  rw [Transition.run_cons] at hrun
  obtain ⟨m, happly, hrun⟩ := Option.bind_eq_some_iff.mp hrun
  have hannounced : Announced (splitSignedAnnounce a).1 a.announce.timestamp m.2 := by
    obtain ⟨r, hdispatch, rfl⟩ := apply_eq_some.mp happly
    rcases dispatch_cases hdispatch with ⟨b, tx', hmsg, rfl⟩ | ⟨hother, _⟩
    · obtain ⟨rfl, _⟩ := ActorMessage.Announce.inj hmsg
      exact announced_handleAnnounce s.2 hverify
    · exact absurd rfl (hother a tx)
  exact Transition.run_invariant_of_conforms
    (I := fun s : State × Tables => Announced (splitSignedAnnounce a).1 a.announce.timestamp s.2) hannounced
    (fun _ _ _ h hspared happly => h.apply hspared happly) (hspared.2 m happly) hrun

/-- A query finds the announce in the row, or a later one of the path. -/
theorem exists_host_of_announced {tables : Tables} {now : AbsoluteTime} {q : Query} {a : SignedAnnounce}
    {hosts : List SignedAnnounce} (hannounced : Announced (splitSignedAnnounce a).1 a.announce.timestamp tables)
    (hquery : handleQuery options now q tables = some ⟨hosts⟩) (hcontent : q.content = a.announce.content)
    (hkind : q.flags.complete = true → a.announce.kind = .Complete) (hverified : q.flags.verified = false)
    (hbefore : ∀ row ∈ tables.announces.iter, row.2.timestamp ≤ now)
    (hfresh : now.age a.announce.timestamp ≤ options.announceTimeout) :
    ∃ b ∈ hosts, (splitSignedAnnounce b).1 = (splitSignedAnnounce a).1 ∧
      a.announce.timestamp ≤ b.announce.timestamp := by
  obtain ⟨v, hv, hle⟩ := hannounced
  have hpath : (splitSignedAnnounce a).1 = AnnouncePath.new q.content a.announce.kind a.announce.host := by
    rw [hcontent]
    rfl
  have hage : now - v.timestamp ≤ options.announceTimeout := by
    rw [AbsoluteTime.sub_of_le (hbefore _ ((tables.announces.mem_iter_iff _ v).mpr hv))]
    exact le_trans (Nat.mul_le_mul_right _ (Nat.sub_le_sub_left (AbsoluteTime.le_iff.mp hle) _)) hfresh
  obtain ⟨b, hb, hbpath⟩ := (exists_host_iff hkind hverified hquery).mpr ⟨v, hpath ▸ hv, hage⟩
  rw [← hpath] at hbpath
  refine ⟨b, hb, hbpath, ?_⟩
  obtain ⟨hmem, _⟩ := (mem_handleQuery hquery b).mp hb
  rw [Tables.mem_announced, hbpath] at hmem
  obtain rfl := Option.mem_unique hv hmem
  exact hle

/-- **Announces are found.**  A query that is called after an announce has returned, and returns hosts, returns
the announce or a later one of the same host, if the announce is fresh when the query takes effect.

The handler of the announce must not have failed, for then it may have returned without an effect.  The clock of
the tracker must not go back, no announce may be stamped ahead of it, and no collection may find a stale probe
of the path, which would remove the announce with it.  All the hosts have signed what is returned of
them, if this is so for the rows at the beginning. -/
theorem Discovery.found_of_run {moves : List CallMove} {w : Discovery} {i j : ℕ} {a : SignedAnnounce} {q : Query}
    {hosts : List SignedAnnounce} {earlier later : History}
    (hrun : Transition.run (step options) (new state₀ tables₀) moves = some w)
    (hannounce : w.history = earlier ++ .Return (i, .Announce a) (some .Announced) :: later)
    (hinvoke : .Invoke (j, .Query q) ∈ later) (hreturn : .Return (j, .Query q) (some (.Hosts hosts)) ∈ w.history)
    (hcontent : q.content = a.announce.content) (hkind : q.flags.complete = true → a.announce.kind = .Complete)
    (hverified : q.flags.verified = false) (htime : InTime tables₀ (effects w.history))
    (hspared : Transition.Conforms (sequential options state₀ tables₀).apply
      (Spared options (splitSignedAnnounce a).1) (state₀, tables₀) (effects w.history))
    (hhandled : ∀ call, w.calls[i]? = some call → call.server ≠ .Failed) :
    ∃ now, .Effect (some (j, .Query q)) ⟨.Query q j, now⟩ ∈ w.history ∧
      (now.age a.announce.timestamp ≤ options.announceTimeout →
        ∃ b ∈ hosts, (splitSignedAnnounce b).1 = (splitSignedAnnounce a).1 ∧
          a.announce.timestamp ≤ b.announce.timestamp) ∧
      ((∀ b ∈ tables₀.announced, b.verify = .ok ()) → ∀ b ∈ hosts, b.verify = .ok ()) := by
  obtain ⟨hlinearizable, _⟩ := linearizable_of_run hrun
  obtain ⟨before, ⟨msg, now₀⟩, between, ⟨msg', now⟩, rest, s, s', heffects, hs, hasks, _, hrun', hmem, hasks',
    hquery⟩ := hlinearizable.sees hannounce hinvoke hreturn
      (fun ⟨_, call, hcall, hfailed⟩ => hhandled call hcall hfailed) (fun ⟨⟨_, hjob⟩, _⟩ => by cases hjob)
  obtain ⟨hverify, rfl⟩ : a.verify = .ok () ∧ msg = .Announce a i := by
    rw [show (sequential options state₀ tables₀).asks (i, .Announce a) ⟨msg, now₀⟩ ↔
      messageOf (Job.Announce a).request i = some msg from Iff.rfl, messageOf_announce] at hasks
    cases hverify : a.verify with
    | error e =>
        rw [hverify] at hasks
        cases hasks
    | ok =>
        rw [hverify] at hasks
        exact ⟨rfl, (Option.some.inj hasks).symm⟩
  obtain rfl : msg' = .Query q j := Option.some.inj (hasks'.symm.trans (messageOf_query q j))
  have hsplit : effects w.history = before ++ (⟨.Announce a i, now₀⟩ :: between) ++ ⟨.Query q j, now⟩ :: rest := by
    rw [heffects, List.append_assoc, List.cons_append]
  have hstate : Transition.run (sequential options state₀ tables₀).apply (state₀, tables₀)
      (before ++ ⟨.Announce a i, now₀⟩ :: between) = some s' := by
    rw [Transition.run_append]
    exact Option.bind_eq_some_iff.mpr ⟨s, hs, hrun'⟩
  rw [hsplit] at htime hspared
  refine ⟨now, hmem, fun hfresh => ?_, fun hinitial b hb => ?_⟩
  · have hconforms := (Transition.conforms_append_iff.mp (Transition.conforms_append_iff.mp hspared).1).2 s hs
    exact exists_host_of_announced (announced_of_run hverify hconforms hrun') hquery hcontent hkind hverified
      (fun row hrow => timestamp_le_of_inTime htime hstate hrow) hfresh
  · obtain ⟨hannounced, _⟩ := (mem_handleQuery hquery b).mp hb
    rw [Tables.mem_announced, ← RecordTable.mem_iter_iff] at hannounced
    rcases row_of_run hstate hannounced with hrow | ⟨_, _, c, _, _, hc, hsplit⟩
    · refine hinitial b ?_
      rw [Tables.mem_announced, ← RecordTable.mem_iter_iff]
      exact hrow
    · exact splitSignedAnnounce_injective hsplit ▸ hc

end Discovery

section Runs

attribute [local instance] KeyScheme.doubling

/-- A query for the blob that is announced. -/
def someQuery : Query := ⟨.filled 1 .Raw, ⟨true, false⟩⟩

/-- An announce that returns, a collection, and a query after that. -/
def laterQuery : List CallMove :=
  [.Invoke (.Announce someAnnounce), .Local 0 (.Connect true), .Local 0 (.Hello true), .Local 0 .Handshake,
    .Read 0, .Handle ⟨6⟩, .Local 0 .Respond, .Receive 0, .Internal (.Gc 0), .Invoke (.Query someQuery),
    .Local 1 (.Connect false), .Local 1 (.Hello false), .Local 1 .Handshake, .Read 1, .Handle ⟨7⟩, .Handle ⟨8⟩,
    .Local 1 .Respond, .Receive 1]

/-- What happens to the calls. -/
def laterQueryHistory : History :=
  [.Invoke (0, .Announce someAnnounce), .Effect (some (0, .Announce someAnnounce)) ⟨.Announce someAnnounce 0, ⟨6⟩⟩,
    .Return (0, .Announce someAnnounce) (some .Announced), .Invoke (1, .Query someQuery),
    .Effect none ⟨.Gc 0, ⟨7⟩⟩, .Effect (some (1, .Query someQuery)) ⟨.Query someQuery 1, ⟨8⟩⟩,
    .Return (1, .Query someQuery) (some (.Hosts [someAnnounce]))]

theorem laterQuery_inTime : InTime Tables.empty (effects laterQueryHistory) := by
  have hrows : ∀ now : AbsoluteTime, ∀ row ∈ Tables.empty.announces.iter, row.2.timestamp ≤ now := by
    intro now row hrow
    cases hrow
  have hannounce : InTime Tables.empty [⟨.Announce someAnnounce 0, ⟨6⟩⟩] := by
    refine Transition.Always.nil.concat ⟨fun _ h => absurd h List.not_mem_nil, ?_, hrows _⟩
    intro a tx h
    obtain ⟨rfl, _⟩ := ActorMessage.Announce.inj h
    decide
  have hgc : InTime Tables.empty ([⟨.Announce someAnnounce 0, ⟨6⟩⟩] ++ [⟨.Gc 0, ⟨7⟩⟩]) :=
    hannounce.concat ⟨by decide, fun _ _ h => (by cases h), hrows _⟩
  exact hgc.concat ⟨by decide, fun _ _ h => (by cases h), hrows _⟩

/-- The query finds the announce, and the collection does not matter. -/
theorem Discovery.found_of_run_later :
    ∃ w, Transition.run (step Options.debug) (new State.default Tables.empty) laterQuery = some w ∧
      w.history = laterQueryHistory ∧
      ∃ b ∈ [someAnnounce], (splitSignedAnnounce b).1 = (splitSignedAnnounce someAnnounce).1 ∧
        someAnnounce.announce.timestamp ≤ b.announce.timestamp := by
  have hrun : (Transition.run (step Options.debug) (new State.default Tables.empty) laterQuery).map
      (fun w => (w.history, w.calls.map fun call => call.server.hasFailed))
        = some (laterQueryHistory, [false, false]) := by
    decide +kernel
  obtain ⟨w, hrun, heq⟩ := Option.map_eq_some_iff.mp hrun
  obtain ⟨hhistory, hservers⟩ := Prod.mk.inj heq
  refine ⟨w, hrun, hhistory, ?_⟩
  have hspared : Transition.Conforms (sequential Options.debug State.default Tables.empty).apply
      (Spared Options.debug (splitSignedAnnounce someAnnounce).1) (State.default, Tables.empty)
      (effects laterQueryHistory) := by decide +kernel
  have hannounce : w.history = [.Invoke (0, .Announce someAnnounce),
      .Effect (some (0, .Announce someAnnounce)) ⟨.Announce someAnnounce 0, ⟨6⟩⟩] ++
        .Return (0, .Announce someAnnounce) (some .Announced) :: laterQueryHistory.drop 3 := hhistory
  have hreturn : .Return (1, .Query someQuery) (some (.Hosts [someAnnounce])) ∈ w.history := by
    rw [hhistory]
    decide +kernel
  have hhandled : ∀ call, w.calls[0]? = some call → call.server ≠ .Failed := by
    intro call hcall hfailed
    have hmem := List.mem_map_of_mem (f := fun call : ClientCall => call.server.hasFailed)
      (List.mem_of_getElem? hcall)
    rw [hservers, hfailed] at hmem
    exact absurd hmem (by decide)
  rw [← hhistory] at hspared
  obtain ⟨now, hmem, hfound, _⟩ := found_of_run hrun hannounce List.mem_cons_self hreturn rfl (fun _ => rfl) rfl
    (by rw [hhistory]; exact laterQuery_inTime) hspared hhandled
  obtain rfl : now = ⟨8⟩ := by
    rw [hhistory] at hmem
    simpa [laterQueryHistory] using hmem
  exact hfound (by decide)

end Runs

end IrohExperiments.Tracker
