import IrohExperiments.Tracker.Actor

/-!
# What a query returns

A table of announces is a list of `SignedAnnounce`s: `Tables.announced` joins every row, and
`map_splitSignedAnnounce_announced` says nothing is lost on the way.  In these terms a query asks
for a selection of the announces, `Wanted`: the content of the query, the kind it asks for, recently
announced and, for a verified query, recently probed.

`mem_handleQuery` says what the handler selects, in every state of the tables and at every time: the
announces with the **hash** of the query that pass the other tests, as the handler makes them.  At a
time not before a stored timestamp these are the tests of `Wanted` (`handleQuery_eq`).  The format
of the content is not one of the tests.  `handleQuery_exact_iff` is the consequence: the answer is the
wanted one exactly when no announce of the same hash in the other format passes the tests, and
`handleQuery_returns_other_format` is a run in which one does.
-/

namespace IrohExperiments.Tracker

section Selection

variable [KeyScheme]

/-! ## Tables as lists of announces -/

/-- The announces that the rows of the table stand for, in key order. -/
def Tables.announced (t : Tables) : List SignedAnnounce :=
  t.announces.iter.filterMap fun r => joinSignedAnnounce r.1 r.2

/-- Joining rows with canonical paths loses none of them. -/
theorem map_split_filterMap_join {rows : List (AnnouncePath × AnnounceValue)}
    (h : ∀ r ∈ rows, r.1.Canonical) :
    (rows.filterMap fun r => joinSignedAnnounce r.1 r.2).map splitSignedAnnounce = rows := by
  induction rows with
  | nil => rfl
  | cons r rows ih =>
      obtain ⟨a, ha, hsplit⟩ := exists_joinSignedAnnounce (h r List.mem_cons_self) r.2
      have ih' := ih fun r' hr' => h r' (List.mem_cons_of_mem _ hr')
      rw [List.filterMap_cons, ha, List.map_cons, hsplit, ih']

/-- **The announces of a table are its rows**, one for one and in the same order. -/
theorem Tables.map_splitSignedAnnounce_announced (t : Tables) :
    t.announced.map splitSignedAnnounce = t.announces.iter :=
  map_split_filterMap_join t.announces_canonical

theorem splitSignedAnnounce_injective : Function.Injective splitSignedAnnounce := by
  intro a b h
  have ha := joinSignedAnnounce_split a
  rw [h, joinSignedAnnounce_split b] at ha
  exact (Option.some.inj ha).symm

/-- An announce is in the table when its value is stored under its path. -/
theorem Tables.mem_announced (t : Tables) (a : SignedAnnounce) :
    a ∈ t.announced
      ↔ t.announces.get (splitSignedAnnounce a).1 = some (splitSignedAnnounce a).2 := by
  rw [← RecordTable.mem_iter_iff, ← t.map_splitSignedAnnounce_announced, Prod.mk.eta,
    List.mem_map_of_injective splitSignedAnnounce_injective]

/-! ## The selection a query asks for -/

/-- The tests of a query other than the one for its content. -/
structure Passes (options : Options) (now : AbsoluteTime) (query : Query) (tables : Tables)
    (a : SignedAnnounce) : Prop where
  complete : query.flags.complete = true → a.announce.kind = .Complete
  announced : now.age a.announce.timestamp ≤ options.announceTimeout
  probed : query.flags.verified = true → ∃ p ∈ tables.probes.get (splitSignedAnnounce a).1,
    now.age p.timestamp ≤ options.probeTimeout

/-- The announces a query asks for. -/
def Wanted (options : Options) (now : AbsoluteTime) (query : Query) (tables : Tables)
    (a : SignedAnnounce) : Prop :=
  a.announce.content = query.content ∧ Passes options now query tables a

instance (options : Options) (now : AbsoluteTime) (query : Query) (tables : Tables)
    (a : SignedAnnounce) : Decidable (Passes options now query tables a) :=
  decidable_of_iff ((query.flags.complete = true → a.announce.kind = .Complete) ∧
      now.age a.announce.timestamp ≤ options.announceTimeout ∧
      (query.flags.verified = true → ∃ p ∈ tables.probes.get (splitSignedAnnounce a).1,
        now.age p.timestamp ≤ options.probeTimeout))
    ⟨fun h => ⟨h.1, h.2.1, h.2.2⟩, fun h => ⟨h.complete, h.announced, h.probed⟩⟩

instance (options : Options) (now : AbsoluteTime) (query : Query) (tables : Tables)
    (a : SignedAnnounce) : Decidable (Wanted options now query tables a) :=
  inferInstanceAs (Decidable (_ ∧ _))

/-! ## The loop of the handler -/

omit [KeyScheme] in
theorem kind_test_iff (query : Query) (kind : AnnounceKind) :
    ¬ (AnnounceKind.fromComplete query.flags.complete = .Complete ∧ kind = .Partial)
      ↔ (query.flags.complete = true → kind = .Complete) := by
  cases query.flags.complete <;> cases kind <;> simp [AnnounceKind.fromComplete]

/-- The tests of the loop as it makes them, on differences of unsigned integers. -/
structure Selects (options : Options) (now : AbsoluteTime) (query : Query)
    (probes : RecordTable AnnouncePath ProbeValue) (a : SignedAnnounce) : Prop where
  complete : query.flags.complete = true → a.announce.kind = .Complete
  announced : now - a.announce.timestamp ≤ options.announceTimeout
  probed : query.flags.verified = true → ∃ p ∈ probes.get (splitSignedAnnounce a).1,
    now - p.timestamp ≤ options.probeTimeout

instance (options : Options) (now : AbsoluteTime) (query : Query)
    (probes : RecordTable AnnouncePath ProbeValue) (a : SignedAnnounce) :
    Decidable (Selects options now query probes a) :=
  decidable_of_iff ((query.flags.complete = true → a.announce.kind = .Complete) ∧
      now - a.announce.timestamp ≤ options.announceTimeout ∧
      (query.flags.verified = true → ∃ p ∈ probes.get (splitSignedAnnounce a).1,
        now - p.timestamp ≤ options.probeTimeout))
    ⟨fun h => ⟨h.1, h.2.1, h.2.2⟩, fun h => ⟨h.complete, h.announced, h.probed⟩⟩

omit [KeyScheme] in
theorem probe_test_iff (options : Options) (now : AbsoluteTime)
    (probes : RecordTable AnnouncePath ProbeValue) (path : AnnouncePath) :
    (((probes.get path).map ProbeValue.timestamp).map
        fun t => decide (now - t ≤ options.probeTimeout)).getD false = true
      ↔ ∃ p ∈ probes.get path, now - p.timestamp ≤ options.probeTimeout := by
  cases probes.get path with
  | none => simp
  | some p => simp

/-- **The loop keeps the rows that pass its tests**, and does not panic on canonical paths. -/
theorem queryLoop_eq (options : Options) (now : AbsoluteTime) (query : Query)
    (probes : RecordTable AnnouncePath ProbeValue) {rows : List (AnnouncePath × AnnounceValue)}
    (hrows : ∀ r ∈ rows, r.1.Canonical) :
    queryLoop options now query probes rows
      = some ((rows.filterMap fun r => joinSignedAnnounce r.1 r.2).filter
          fun a => decide (Selects options now query probes a)) := by
  induction rows with
  | nil => rfl
  | cons r rows ih =>
      obtain ⟨path, value⟩ := r
      obtain ⟨a, ha, hsplit⟩ := exists_joinSignedAnnounce (hrows _ List.mem_cons_self) value
      have ih' := ih fun r' hr' => hrows r' (List.mem_cons_of_mem _ hr')
      -- the row's fields in terms of the announce it stands for
      have hp : path = (splitSignedAnnounce a).1 := by rw [hsplit]
      have hkind : path.announceKind = a.announce.kind := by
        rw [hp]; exact AnnouncePath.announceKind_new _ _ _
      have hts : value.timestamp = a.announce.timestamp :=
        (congrArg (fun x => x.2.timestamp) hsplit).symm
      have hprobe := probe_test_iff options now probes path
      rw [List.filterMap_cons, ha, queryLoop]
      simp only [hts, ih']
      split_ifs with hk ht hv
      · -- a complete announce is asked for and this one is partial
        have hnot : ¬ Selects options now query probes a := fun hsel =>
          (kind_test_iff query path.announceKind).mpr (fun hc => hkind ▸ hsel.complete hc) hk
        rw [List.filter_cons_of_neg (by simpa using hnot)]
      · -- recently announced, but the query asks for a recent probe and there is none
        have hnot : ¬ Selects options now query probes a := fun hsel => by
          have hex := hsel.probed hv.1
          rw [← hp] at hex
          exact hv.2 (hprobe.mpr hex)
        rw [List.filter_cons_of_neg (by simpa using hnot)]
      · have hsel : Selects options now query probes a := by
          refine ⟨fun hc => hkind ▸ (kind_test_iff query path.announceKind).mp hk hc, ht,
            fun hver => ?_⟩
          rw [← hp]
          exact hprobe.mp (not_not.mp fun hno => hv ⟨hver, hno⟩)
        rw [List.filter_cons_of_pos (by simpa using hsel)]
        simp only at ha
        rw [ha]
        rfl
      · have hnot : ¬ Selects options now query probes a := fun hsel => ht hsel.announced
        rw [List.filter_cons_of_neg (by simpa using hnot)]

/-- The announces whose hash lies in the scanned range. -/
theorem filterMap_join_range (tables : Tables) (content : HashAndFormat) :
    ((tables.announces.range (AnnouncePath.contentMin content)
        (AnnouncePath.contentMax content)).filterMap fun r => joinSignedAnnounce r.1 r.2)
      = tables.announced.filter fun a => decide (a.announce.content.hash = content.hash) := by
  have hrange : tables.announces.range (AnnouncePath.contentMin content)
      (AnnouncePath.contentMax content)
        = tables.announces.iter.filter fun r => decide (r.1.hash = content.hash) := by
    rw [RecordTable.range_eq_filter]
    exact List.filter_congr fun r _ =>
      decide_eq_decide.mpr (AnnouncePath.contentMin_le_and_le_contentMax content r.1)
  have hmap := tables.map_splitSignedAnnounce_announced
  rw [hrange, ← hmap, List.filter_map, List.filterMap_map]
  have hjoin : (fun r => joinSignedAnnounce r.1 r.2) ∘ splitSignedAnnounce = some :=
    funext joinSignedAnnounce_split
  rw [hjoin, List.filterMap_some]
  rfl

/-- The announces that the handler answers with, at any time.  It does not panic. -/
theorem handleQuery_eq_selects (options : Options) (now : AbsoluteTime) (query : Query)
    (tables : Tables) :
    handleQuery options now query tables
      = some ⟨tables.announced.filter fun a =>
          decide (a.announce.content.hash = query.content.hash ∧
            Selects options now query tables.probes a)⟩ := by
  have hrows : ∀ r ∈ tables.announces.range (AnnouncePath.contentMin query.content)
      (AnnouncePath.contentMax query.content), r.1.Canonical := by
    intro r hr
    exact tables.announces_canonical r ((AnnouncePath.mem_range_iff _ _ r).mp hr).1
  rw [handleQuery, queryLoop_eq options now query tables.probes hrows, filterMap_join_range,
    List.filter_filter]
  refine congrArg (fun l => some (QueryResponse.mk l)) (List.filter_congr fun a _ => ?_)
  rw [Bool.and_comm, ← Bool.decide_and]

/-- **What a query selects**, announce by announce. -/
theorem mem_handleQuery {options : Options} {now : AbsoluteTime} {query : Query} {tables : Tables}
    {response : QueryResponse} (h : handleQuery options now query tables = some response)
    (a : SignedAnnounce) :
    a ∈ response.hosts ↔ a ∈ tables.announced ∧ a.announce.content.hash = query.content.hash ∧
      Selects options now query tables.probes a := by
  rw [handleQuery_eq_selects, Option.some.injEq] at h
  rw [← h, List.mem_filter, decide_eq_true_eq]

/-- When no timestamp lies ahead, the tests are about ages. -/
theorem selects_iff_passes {options : Options} {now : AbsoluteTime} {query : Query}
    {tables : Tables} (hnow : tables.Before now) {a : SignedAnnounce} (ha : a ∈ tables.announced) :
    Selects options now query tables.probes a ↔ Passes options now query tables a := by
  have hannounced : a.announce.timestamp ≤ now := by
    refine hnow.announces (splitSignedAnnounce a) ?_
    rw [← tables.map_splitSignedAnnounce_announced]
    exact List.mem_map_of_mem ha
  have hprobed : ∀ p ∈ tables.probes.get (splitSignedAnnounce a).1, p.timestamp ≤ now :=
    fun p hp => hnow.probes _ ((tables.probes.mem_iter_iff _ p).mpr hp)
  constructor
  · intro h
    refine ⟨h.complete, AbsoluteTime.sub_of_le hannounced ▸ h.announced, fun hver => ?_⟩
    obtain ⟨p, hp, hage⟩ := h.probed hver
    exact ⟨p, hp, AbsoluteTime.sub_of_le (hprobed p hp) ▸ hage⟩
  · intro h
    refine ⟨h.complete, ?_, fun hver => ?_⟩
    · rw [AbsoluteTime.sub_of_le hannounced]
      exact h.announced
    · obtain ⟨p, hp, hage⟩ := h.probed hver
      refine ⟨p, hp, ?_⟩
      rw [AbsoluteTime.sub_of_le (hprobed p hp)]
      exact hage

/-- **What the handler answers**: the announces with the hash of the query that pass the other
tests.  It does not panic. -/
theorem handleQuery_eq (options : Options) {now : AbsoluteTime} (query : Query) {tables : Tables}
    (hnow : tables.Before now) :
    handleQuery options now query tables
      = some ⟨tables.announced.filter fun a =>
          decide (a.announce.content.hash = query.content.hash ∧
            Passes options now query tables a)⟩ := by
  rw [handleQuery_eq_selects]
  refine congrArg (fun l => some (QueryResponse.mk l)) (List.filter_congr fun a ha => ?_)
  exact decide_eq_decide.mpr (and_congr_right fun _ => selects_iff_passes hnow ha)

/-! ## Exactness -/

/-- **When a query is answered exactly.**  The answer lists every wanted announce once and nothing
else, if and only if no announce for the same hash in the other format passes the tests of the
query. -/
theorem handleQuery_exact_iff (options : Options) (now : AbsoluteTime) (query : Query)
    (tables : Tables) (hnow : tables.Before now) :
    (∃ response, handleQuery options now query tables = some response ∧
        response.hosts.Perm
          (tables.announced.filter fun a => decide (Wanted options now query tables a)))
      ↔ ∀ a ∈ tables.announced, a.announce.content.hash = query.content.hash →
          a.announce.content.format ≠ query.content.format →
          ¬ Passes options now query tables a := by
  rw [handleQuery_eq options query hnow]
  constructor
  · rintro ⟨_, ⟨⟩, hperm⟩ a ha hhash hformat hpass
    have hmem : a ∈ tables.announced.filter fun a => decide (Wanted options now query tables a) :=
      hperm.subset (List.mem_filter.mpr ⟨ha, decide_eq_true ⟨hhash, hpass⟩⟩)
    have hwanted : Wanted options now query tables a :=
      of_decide_eq_true (List.mem_filter.mp hmem).2
    exact hformat (congrArg HashAndFormat.format hwanted.1)
  · intro hother
    refine ⟨_, rfl, List.Perm.of_eq (List.filter_congr fun a ha => decide_eq_decide.mpr ?_)⟩
    constructor
    · rintro ⟨hhash, hpass⟩
      have hformat : a.announce.content.format = query.content.format := by
        by_contra hne
        exact hother a ha hhash hne hpass
      refine ⟨?_, hpass⟩
      cases hc : a.announce.content
      cases hq : query.content
      rw [hc, hq] at hhash hformat
      simp only at hhash hformat
      rw [hhash, hformat]
    · rintro ⟨hcontent, hpass⟩
      exact ⟨congrArg HashAndFormat.hash hcontent, hpass⟩

end Selection

section Runs

attribute [local instance] KeyScheme.doubling

/-- A table in which one host announces one hash, as a hash sequence. -/
def hashSeqTables : Tables :=
  (handleAnnounce Tables.empty (SignedAnnounce.doubling 7 (.filled 1 .HashSeq) .Complete ⟨5⟩)).2

/-- A query for the same hash, as a single blob. -/
def rawQuery : Query := ⟨.filled 1 .Raw, ⟨true, false⟩⟩

/-- The condition can be met: the hash sequence, queried as what it is. -/
theorem handleQuery_exact_hashSeq :
    hashSeqTables.Before ⟨9⟩ ∧
      ∃ response, handleQuery Options.debug ⟨9⟩ { rawQuery with content := .filled 1 .HashSeq }
          hashSeqTables = some response ∧
        response.hosts.Perm (hashSeqTables.announced.filter fun a =>
          decide (Wanted Options.debug ⟨9⟩ { rawQuery with content := .filled 1 .HashSeq }
            hashSeqTables a)) := by
  have hnow : hashSeqTables.Before ⟨9⟩ := ⟨by decide +kernel, by decide +kernel⟩
  refine ⟨hnow, (handleQuery_exact_iff _ _ _ _ hnow).mpr ?_⟩
  decide +kernel

/-- **An answer in the wrong format.**  Queried for the hash as a single blob, the tracker answers
with the host of the hash sequence, which is not wanted. -/
theorem handleQuery_returns_other_format :
    hashSeqTables.Before ⟨9⟩ ∧
      ¬ ∃ response, handleQuery Options.debug ⟨9⟩ rawQuery hashSeqTables = some response ∧
        response.hosts.Perm (hashSeqTables.announced.filter fun a =>
          decide (Wanted Options.debug ⟨9⟩ rawQuery hashSeqTables a)) := by
  have hanswer : handleQuery Options.debug ⟨9⟩ rawQuery hashSeqTables
      = some ⟨[SignedAnnounce.doubling 7 (.filled 1 .HashSeq) .Complete ⟨5⟩]⟩ := by
    decide +kernel
  have hwanted : hashSeqTables.announced.filter (fun a =>
      decide (Wanted Options.debug ⟨9⟩ rawQuery hashSeqTables a)) = [] := by
    decide +kernel
  refine ⟨⟨by decide +kernel, by decide +kernel⟩, ?_⟩
  rw [hanswer, hwanted]
  rintro ⟨_, ⟨⟩, hperm⟩
  exact List.cons_ne_nil _ _ hperm.eq_nil

end Runs

end IrohExperiments.Tracker
