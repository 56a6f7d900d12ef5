import IrohExperiments.Tracker.Query
import IrohExperiments.Tracker.Underflow
import IrohExperiments.Tracker.Writes

/-!
# Fresh announces are found

An announce should be found by a query as long as it is fresh, which is for `announceTimeout`.  But the
tracker keeps one announce a path, the one with the greatest timestamp, and a timestamp that lies ahead
of the tracker's clock makes the announce too old for a query.  So one announce that is stamped ahead
shadows all announces of its path that come after it, until the clock catches up.

`Latest` is what the row of a path has to do with the accepted announces, and `latest_of_run` that
every run without a collection keeps it so.  `fresh_found_iff` says when a fresh announce is found: if
and only if the latest announce of its path is not stamped ahead of the query.  It is about any build: one
with overflow checks panics where a subtraction underflows, and a run of it that does not is also one of a
build without.
-/

namespace IrohExperiments.Tracker

section Fresh

variable [KeyScheme]

/-- The announce is one of the messages, is for the path, and has a valid signature. -/
def Accepted (msgs : List ActorMessage) (path : AnnouncePath) (a : SignedAnnounce) : Prop :=
  (∃ tx, .Announce a tx ∈ msgs) ∧ a.verify = .ok () ∧ (splitSignedAnnounce a).1 = path

/-! ## What the row of a path is -/

/-- The row is the one of an accepted announce with the greatest timestamp, if there is any. -/
structure Latest (msgs : List ActorMessage) (path : AnnouncePath) (row : Option AnnounceValue) :
    Prop where
  accepted : ∀ v ∈ row, ∃ a, Accepted msgs path a ∧ (splitSignedAnnounce a).2 = v
  greatest : ∀ a, Accepted msgs path a → ∃ v ∈ row, a.announce.timestamp ≤ v.timestamp

theorem Accepted.append {msgs : List ActorMessage} {path : AnnouncePath} {a : SignedAnnounce}
    (h : Accepted msgs path a) (later : List ActorMessage) : Accepted (msgs ++ later) path a := by
  obtain ⟨⟨tx, htx⟩, hrest⟩ := h
  exact ⟨⟨tx, List.mem_append_left _ htx⟩, hrest⟩

/-- A message that is not an announce for the path, or not a valid one, is not accepted. -/
theorem accepted_concat_iff (msgs : List ActorMessage) (msg : ActorMessage) (path : AnnouncePath)
    (a : SignedAnnounce) :
    Accepted (msgs ++ [msg]) path a
      ↔ Accepted msgs path a ∨
        (∃ tx, msg = .Announce a tx) ∧ a.verify = .ok () ∧ (splitSignedAnnounce a).1 = path := by
  constructor
  · rintro ⟨⟨tx, htx⟩, hrest⟩
    rcases List.mem_append.mp htx with htx | htx
    · exact Or.inl ⟨⟨tx, htx⟩, hrest⟩
    · exact Or.inr ⟨⟨tx, (List.mem_singleton.mp htx).symm⟩, hrest⟩
  · rintro (h | ⟨⟨tx, rfl⟩, hrest⟩)
    · exact h.append _
    · exact ⟨⟨tx, List.mem_append_right _ List.mem_cons_self⟩, hrest⟩

/-- A message that adds no announce for the path leaves its row the latest. -/
theorem Latest.concat_of_eq {msgs : List ActorMessage} {path : AnnouncePath}
    {row : Option AnnounceValue} (h : Latest msgs path row) {msg : ActorMessage}
    (hmsg : ∀ a tx, msg = .Announce a tx → a.verify = .ok () → (splitSignedAnnounce a).1 ≠ path) :
    Latest (msgs ++ [msg]) path row := by
  refine ⟨fun v hv => ?_, fun a ha => ?_⟩
  · obtain ⟨a, ha, hsplit⟩ := h.accepted v hv
    exact ⟨a, ha.append _, hsplit⟩
  · rcases (accepted_concat_iff _ _ _ _).mp ha with ha | ⟨⟨tx, rfl⟩, hverify, hpath⟩
    · exact h.greatest a ha
    · exact absurd hpath (hmsg a tx rfl hverify)

/-- **The row is an accepted announce with the greatest timestamp.** -/
theorem Latest.exists_greatest {msgs : List ActorMessage} {path : AnnouncePath}
    {row : Option AnnounceValue} (h : Latest msgs path row) {v : AnnounceValue} (hv : v ∈ row) :
    ∃ b, Accepted msgs path b ∧ v.timestamp = b.announce.timestamp ∧
      ∀ a, Accepted msgs path a → a.announce.timestamp ≤ b.announce.timestamp := by
  obtain ⟨b, hb, rfl⟩ := h.accepted v hv
  refine ⟨b, hb, rfl, fun a ha => ?_⟩
  obtain ⟨w, hw, haw⟩ := h.greatest a ha
  obtain rfl := Option.mem_unique hv hw
  exact haw

/-- **The step**: the replacement of a row by a later one. -/
theorem Latest.concat {msgs : List ActorMessage} {path : AnnouncePath} {row : Option AnnounceValue}
    (h : Latest msgs path row) {a : SignedAnnounce} (tx : ReplyTo) (hverify : a.verify = .ok ())
    (hpath : (splitSignedAnnounce a).1 = path) :
    Latest (msgs ++ [.Announce a tx]) path ((splitSignedAnnounce a).2.replace row) := by
  have hnew : Accepted (msgs ++ [.Announce a tx]) path a :=
    ⟨⟨tx, List.mem_append_right _ List.mem_cons_self⟩, hverify, hpath⟩
  -- an accepted announce is `a` or was accepted before
  have hold : ∀ b, Accepted (msgs ++ [.Announce a tx]) path b → Accepted msgs path b ∨ b = a := by
    intro b hb
    rcases (accepted_concat_iff _ _ _ _).mp hb with hb | ⟨⟨tx', htx'⟩, _⟩
    · exact Or.inl hb
    · exact Or.inr (ActorMessage.Announce.inj htx').1.symm
  cases row with
  | none =>
      refine ⟨fun v hv => ?_, fun b hb => ?_⟩
      · exact ⟨a, hnew, Option.some.inj hv⟩
      · rcases hold b hb with hb | rfl
        · obtain ⟨v, hv, _⟩ := h.greatest b hb
          cases hv
        · exact ⟨_, rfl, le_refl _⟩
  | some prev =>
      have hprev : ∀ b, Accepted msgs path b → b.announce.timestamp ≤ prev.timestamp := by
        intro b hb
        obtain ⟨v, hv, hle⟩ := h.greatest b hb
        obtain rfl := Option.some.inj hv
        exact hle
      rw [AnnounceValue.replace]
      split_ifs with hnewer
      · refine ⟨fun v hv => ⟨a, hnew, Option.some.inj hv⟩, fun b hb => ⟨_, rfl, ?_⟩⟩
        rcases hold b hb with hb | rfl
        · exact (hprev b hb).trans hnewer.le
        · exact le_refl _
      · refine ⟨fun v hv => ?_, fun b hb => ⟨prev, rfl, ?_⟩⟩
        · obtain ⟨b, hb, hsplit⟩ := h.accepted v hv
          exact ⟨b, hb.append _, hsplit⟩
        · rcases hold b hb with hb | rfl
          · exact hprev b hb
          · exact not_lt.mp hnewer

/-- **The run**: from a table without a row for the path, the row is the latest. -/
theorem latest_of_run {options : Options} {clock : ℕ → AbsoluteTime} {log log' : Log}
    {msgs : List ActorMessage} {path : AnnouncePath}
    (hnone : log.tables.announces.get path = none) (hgc : ∀ tx, .Gc tx ∉ msgs)
    (hrun : Transition.run (handleMessage options clock) log msgs = some log') :
    Latest msgs path (log'.tables.announces.get path) := by
  refine Transition.run_induction (P := fun msgs (log' : Log) => (∀ tx, .Gc tx ∉ msgs) →
    Latest msgs path (log'.tables.announces.get path)) (fun _ => ?_) ?_ hrun hgc
  · rw [hnone]
    refine ⟨fun v hv => ?_, fun a ⟨⟨tx, htx⟩, _⟩ => absurd htx List.not_mem_nil⟩
    cases hv
  · intro msgs m msg m' _ ih hstep hgc
    have hlatest := ih fun tx htx => hgc tx (List.mem_append_left _ htx)
    obtain ⟨r, hdispatch, rfl⟩ := handleMessage_eq_some.mp hstep
    simp only
    by_cases hannounce : ∃ a tx, msg = .Announce a tx
    · obtain ⟨a, tx, rfl⟩ := hannounce
      rcases dispatch_eq_some.mp hdispatch with ⟨_, hhandle⟩ | ⟨hcat, _⟩
      · cases hhandle
        rcases handleAnnounce_cases m.tables a with ⟨e, herror, heq⟩ | ⟨hverify, _⟩
        · -- refused
          rw [heq]
          refine hlatest.concat_of_eq fun a' tx' hmsg hverify => ?_
          obtain ⟨rfl, _⟩ := ActorMessage.Announce.inj hmsg
          rw [herror] at hverify
          cases hverify
        · rw [get_handleAnnounce _ hverify]
          by_cases hpath : path = (splitSignedAnnounce a).1
          · rw [if_pos hpath]
            exact hlatest.concat tx hverify hpath.symm
          · rw [if_neg hpath]
            refine hlatest.concat_of_eq fun a' tx' hmsg _ => ?_
            obtain ⟨rfl, _⟩ := ActorMessage.Announce.inj hmsg
            exact fun h => hpath h.symm
      · cases hcat
    · have hother : ∀ a tx, msg ≠ .Announce a tx := fun a tx hmsg => hannounce ⟨a, tx, hmsg⟩
      rw [dispatch_announces_eq hother (fun tx hmsg => ?_) hdispatch]
      · exact hlatest.concat_of_eq fun a tx hmsg => absurd hmsg (hother a tx)
      · exact hgc tx (List.mem_append_right _ (List.mem_singleton.mpr hmsg.symm))

/-! ## What a query finds of it -/

/-- The announce is not older than the timeout, and not stamped ahead. -/
def FreshAt (options : Options) (now : AbsoluteTime) (a : SignedAnnounce) : Prop :=
  a.announce.timestamp ≤ now ∧ now.age a.announce.timestamp ≤ options.announceTimeout

/-- An unverified query for the content of a path, of a kind it does not exclude, is answered with the
announce in the row of the path if the subtraction says that it is recent. -/
theorem exists_host_iff {options : Options} {now : AbsoluteTime} {query : Query} {tables : Tables}
    {response : QueryResponse} {kind : AnnounceKind} {host : EndpointId}
    (hkind : query.flags.complete = true → kind = .Complete)
    (hverified : query.flags.verified = false)
    (hresponse : handleQuery options now query tables = some response) :
    (∃ b ∈ response.hosts, (splitSignedAnnounce b).1 = AnnouncePath.new query.content kind host)
      ↔ ∃ v ∈ tables.announces.get (AnnouncePath.new query.content kind host),
          now - v.timestamp ≤ options.announceTimeout := by
  constructor
  · rintro ⟨b, hb, hpath⟩
    obtain ⟨hannounced, _, hselects⟩ := (mem_handleQuery hresponse b).mp hb
    rw [Tables.mem_announced, hpath] at hannounced
    exact ⟨_, hannounced, hselects.announced⟩
  · rintro ⟨v, hv, hage⟩
    have hrow := (tables.announces.mem_iter_iff _ v).mpr hv
    obtain ⟨b, _, hsplit⟩ := exists_joinSignedAnnounce (tables.announces_canonical _ hrow) v
    have hpath : (splitSignedAnnounce b).1 = AnnouncePath.new query.content kind host := by
      rw [hsplit]
    have htime : b.announce.timestamp = v.timestamp :=
      congrArg (fun r : AnnouncePath × AnnounceValue => r.2.timestamp) hsplit
    have hcontent : b.announce.content = query.content := by
      have hcongr := congrArg AnnouncePath.content hpath
      simpa [splitSignedAnnounce] using hcongr
    have hkind' : b.announce.kind = kind := by
      have hcongr := congrArg AnnouncePath.announceKind hpath
      simpa [splitSignedAnnounce] using hcongr
    refine ⟨b, (mem_handleQuery hresponse b).mpr ⟨?_, congrArg HashAndFormat.hash hcontent, ?_⟩,
      hpath⟩
    · rw [Tables.mem_announced, hsplit]
      exact hv
    · refine ⟨fun hc => hkind'.trans (hkind hc), ?_, fun hver => ?_⟩
      · rw [htime]
        exact hage
      · rw [hverified] at hver
        cases hver

/-- **When a fresh announce is found.**  After any messages without a collection, for a path that had
no row before them, and by a query that is answered, if and only if the latest announce for the path is
not stamped ahead of the query, or so far ahead that the difference wraps around to a recent one. -/
theorem fresh_found_iff {build : U64.Build} {options : Options} {clock : ℕ → AbsoluteTime}
    {log log' : Log} {msgs : List ActorMessage} {now : AbsoluteTime} {query : Query}
    {response : QueryResponse} {kind : AnnounceKind} {host : EndpointId}
    (hnone : log.tables.announces.get (AnnouncePath.new query.content kind host) = none)
    (hgc : ∀ tx, .Gc tx ∉ msgs)
    (hrun : Transition.run (handleMessage options clock) log msgs = some log')
    (hkind : query.flags.complete = true → kind = .Complete)
    (hverified : query.flags.verified = false)
    (hresponse : handleQueryIn build options now query log'.tables = some response) :
    ((∃ a, Accepted msgs (AnnouncePath.new query.content kind host) a ∧ FreshAt options now a) →
        ∃ b ∈ response.hosts,
          (splitSignedAnnounce b).1 = AnnouncePath.new query.content kind host)
      ↔ ((∃ a, Accepted msgs (AnnouncePath.new query.content kind host) a ∧ FreshAt options now a) →
          ∀ a, Accepted msgs (AnnouncePath.new query.content kind host) a →
            (∀ b, Accepted msgs (AnnouncePath.new query.content kind host) b →
              b.announce.timestamp ≤ a.announce.timestamp) →
            a.announce.timestamp ≤ now ∨
              now - a.announce.timestamp ≤ options.announceTimeout) := by
  have hlatest := latest_of_run hnone hgc hrun
  rw [exists_host_iff hkind hverified (handleQuery_of_handleQueryIn hresponse)]
  refine imp_congr_right fun ⟨f, hf, hle, hage⟩ => ?_
  constructor
  · rintro ⟨v, hv, hrecent⟩ a ha hgreatest
    -- the row has the timestamp of the latest announce
    obtain ⟨b, hb, htime, hle'⟩ := hlatest.exists_greatest hv
    have heq : a.announce.timestamp = b.announce.timestamp := le_antisymm (hle' a ha) (hgreatest b hb)
    right
    rw [heq, ← htime]
    exact hrecent
  · intro h
    obtain ⟨v, hv, _⟩ := hlatest.greatest f hf
    obtain ⟨b, hb, htime, hgreatest⟩ := hlatest.exists_greatest hv
    refine ⟨v, hv, ?_⟩
    rw [htime]
    rcases h b hb hgreatest with hbefore | hwraps
    · -- the row is no older than the fresh announce
      have hfb := AbsoluteTime.le_iff.mp (hgreatest f hf)
      rw [AbsoluteTime.sub_of_le hbefore]
      exact le_trans (Nat.mul_le_mul_right _ (Nat.sub_le_sub_left hfb _)) hage
    · exact hwraps

end Fresh

section Runs

attribute [local instance] KeyScheme.doubling

/-- Two announces of one host for one blob, at the given times. -/
def twiceAnnounced (first second : AbsoluteTime) : List ActorMessage :=
  [.Announce (SignedAnnounce.doubling 7 (.filled 1 .Raw) .Complete first) 0,
    .Announce (SignedAnnounce.doubling 7 (.filled 1 .Raw) .Complete second) 1]

/-- A query for that blob. -/
def blobQuery : Query := ⟨.filled 1 .Raw, ⟨true, false⟩⟩

theorem twiceAnnounced_noGc (first second : AbsoluteTime) (tx : ReplyTo) :
    .Gc tx ∉ twiceAnnounced first second := by
  simp [twiceAnnounced]

theorem timestamp_of_accepted {first second : AbsoluteTime} {path : AnnouncePath}
    {a : SignedAnnounce} (h : Accepted (twiceAnnounced first second) path a) :
    a.announce.timestamp = first ∨ a.announce.timestamp = second := by
  obtain ⟨⟨tx, htx⟩, _⟩ := h
  rcases List.mem_cons.mp htx with h | h
  · obtain ⟨rfl, _⟩ := ActorMessage.Announce.inj h
    exact Or.inl rfl
  · obtain ⟨rfl, _⟩ := ActorMessage.Announce.inj (List.mem_singleton.mp h)
    exact Or.inr rfl

/-- The first announce is accepted, and fresh when the query comes a little later. -/
theorem first_accepted (second : AbsoluteTime) :
    ∃ a, Accepted (twiceAnnounced ⟨5⟩ second)
        (AnnouncePath.new blobQuery.content .Complete (EndpointId.doubling 7)) a ∧
      FreshAt Options.debug ⟨9⟩ a :=
  ⟨SignedAnnounce.doubling 7 (.filled 1 .Raw) .Complete ⟨5⟩,
    ⟨⟨0, List.mem_cons_self⟩, SignedAnnounce.verify_doubling _ _ _ _, rfl⟩, by decide, by decide⟩

/-- The condition can be met: two announces, both before the query, with overflow checks. -/
theorem fresh_found_twice :
    ∃ log response, Transition.run (handleMessage Options.debug fun _ => ⟨9⟩)
        ⟨[], State.default, Tables.empty⟩ (twiceAnnounced ⟨5⟩ ⟨6⟩) = some log ∧
      handleQueryIn .Debug Options.debug ⟨9⟩ blobQuery log.tables = some response ∧
      ∃ b ∈ response.hosts, (splitSignedAnnounce b).1
        = AnnouncePath.new blobQuery.content .Complete (EndpointId.doubling 7) := by
  have hsome : ((Transition.run (handleMessage Options.debug fun _ => ⟨9⟩)
      ⟨[], State.default, Tables.empty⟩ (twiceAnnounced ⟨5⟩ ⟨6⟩)).bind fun log =>
        handleQueryIn .Debug Options.debug ⟨9⟩ blobQuery log.tables).isSome = true := by
    decide +kernel
  obtain ⟨response, hanswered⟩ := Option.isSome_iff_exists.mp hsome
  obtain ⟨log, hlog, hresponse⟩ := Option.bind_eq_some_iff.mp hanswered
  have hnone : Tables.empty.announces.get
      (AnnouncePath.new blobQuery.content .Complete (EndpointId.doubling 7)) = none := rfl
  refine ⟨log, response, hlog, hresponse, ?_⟩
  refine (fresh_found_iff hnone (twiceAnnounced_noGc _ _) hlog (fun _ => rfl) rfl hresponse).mpr
    (fun _ a ha _ => Or.inl ?_) (first_accepted _)
  rcases timestamp_of_accepted ha with h | h
  · rw [h]
    decide
  · rw [h]
    decide

/-- **A fresh announce that is not found.**  The second announce is stamped a millisecond ahead, and
its row has replaced the one of the first.  A build without overflow checks answers, with no host. -/
theorem fresh_shadowed :
    ∃ log response, Transition.run (handleMessage Options.debug fun _ => ⟨9⟩)
        ⟨[], State.default, Tables.empty⟩ (twiceAnnounced ⟨5⟩ ⟨1000⟩) = some log ∧
      handleQueryIn .Release Options.debug ⟨9⟩ blobQuery log.tables = some response ∧
      ¬ ((∃ a, Accepted (twiceAnnounced ⟨5⟩ ⟨1000⟩)
            (AnnouncePath.new blobQuery.content .Complete (EndpointId.doubling 7)) a ∧
          FreshAt Options.debug ⟨9⟩ a) →
        ∃ b ∈ response.hosts, (splitSignedAnnounce b).1
          = AnnouncePath.new blobQuery.content .Complete (EndpointId.doubling 7)) := by
  have hnothing : (Transition.run (handleMessage Options.debug fun _ => ⟨9⟩)
      ⟨[], State.default, Tables.empty⟩ (twiceAnnounced ⟨5⟩ ⟨1000⟩)).bind (fun log =>
        handleQueryIn .Release Options.debug ⟨9⟩ blobQuery log.tables) = some ⟨[]⟩ := by
    decide +kernel
  obtain ⟨log, hlog, hresponse⟩ := Option.bind_eq_some_iff.mp hnothing
  refine ⟨log, _, hlog, hresponse, fun h => ?_⟩
  obtain ⟨b, hb, _⟩ := h (first_accepted _)
  exact absurd hb List.not_mem_nil

end Runs

end IrohExperiments.Tracker
