import IrohExperiments.Tracker.Query

/-!
# What is probed

The probe task of an endpoint asks the actor for the content that the endpoint has announced, probes
it over one connection, and sends back the results.  The answer of the actor is a map from the kind
of an announce to a content, and `probe_one` does one probe for each entry of the map.

So of two contents that are announced under one kind, the map keeps the one that comes later in the
table.  `getContentForEndpoint_spec` says what the map holds, `probeOne_eq` what is probed then, and
`content_covered_iff` when this is everything that the endpoint has announced: if and only if it has
no two contents under one kind.
-/

namespace IrohExperiments.Tracker

inductive ProbeKind where
  | Incomplete
  | Complete
  deriving DecidableEq

/-- `ProbeKind::from`. -/
def ProbeKind.ofAnnounceKind : AnnounceKind → ProbeKind
  | .Partial => .Incomplete
  | .Complete => .Complete

/-- What `probe_one` does not decide: whether the connection comes about, what each probe results in,
and whether the logs can be written. -/
structure ProbeEnv where
  connect : Except String Unit
  logConnectionAttempt : Except String Unit
  probe : HashAndFormat → ProbeKind → Except String Unit
  logProbeAttempt : HashAndFormat → ProbeKind → Except String Unit

/-- The connection is established, and nothing fails but probes. -/
structure ProbeEnv.Succeeds (env : ProbeEnv) : Prop where
  connect : env.connect = .ok ()
  logConnectionAttempt : env.logConnectionAttempt = .ok ()
  logProbeAttempt : ∀ content kind, env.logProbeAttempt content kind = .ok ()

/-- The loop of `probe_one` over the entries of the map. -/
def probeLoop (env : ProbeEnv) : List (AnnounceKind × HashAndFormat) →
    Except String (List (HashAndFormat × AnnounceKind × Except String Unit))
  | [] => .ok []
  | (announceKind, content) :: rest => do
      let probeKind := ProbeKind.ofAnnounceKind announceKind
      let res := env.probe content probeKind
      env.logProbeAttempt content probeKind
      let results ← probeLoop env rest
      return (content, announceKind, res) :: results

def probeOne (env : ProbeEnv) (byKindAndContent : SortedTable AnnounceKind HashAndFormat) :
    Except String (List (HashAndFormat × AnnounceKind × Except String Unit)) := do
  env.logConnectionAttempt
  env.connect
  probeLoop env byKindAndContent.rows

theorem probeLoop_eq {env : ProbeEnv} (henv : env.Succeeds)
    (rows : List (AnnounceKind × HashAndFormat)) :
    probeLoop env rows
      = .ok (rows.map fun r => (r.2, r.1, env.probe r.2 (.ofAnnounceKind r.1))) := by
  induction rows with
  | nil => rfl
  | cons r rows ih =>
      obtain ⟨kind, content⟩ := r
      rw [probeLoop, henv.logProbeAttempt, ih]
      rfl

/-- **What is probed**: each entry of the map, in order. -/
theorem probeOne_eq {env : ProbeEnv} (henv : env.Succeeds)
    (byKindAndContent : SortedTable AnnounceKind HashAndFormat) :
    probeOne env byKindAndContent
      = .ok (byKindAndContent.rows.map fun r =>
          (r.2, r.1, env.probe r.2 (.ofAnnounceKind r.1))) := by
  rw [probeOne, henv.logConnectionAttempt, henv.connect, ← probeLoop_eq henv]
  rfl

section Contents

variable [KeyScheme]

/-- The endpoint has a row for the content under the kind in the announces table. -/
def Tables.Announces (t : Tables) (endpoint : EndpointId) (kind : AnnounceKind)
    (content : HashAndFormat) : Prop :=
  ∃ v, t.announces.get (AnnouncePath.new content kind endpoint) = some v

/-- In terms of what is read out of the keys. -/
theorem Tables.announces_iff (t : Tables) (endpoint : EndpointId) (kind : AnnounceKind)
    (content : HashAndFormat) :
    t.Announces endpoint kind content ↔ ∃ r ∈ t.announces.iter,
      r.1.endpointId = some endpoint ∧ r.1.announceKind = kind ∧ r.1.content = content := by
  constructor
  · rintro ⟨v, hv⟩
    refine ⟨_, (t.announces.mem_iter_iff _ v).mpr hv, ?_⟩
    simp
  · rintro ⟨⟨path, v⟩, hr, hendpoint, rfl, rfl⟩
    obtain ⟨e, he, hpath⟩ := (t.announces_canonical _ hr).eq_new
    simp only at he hpath hendpoint
    obtain rfl := Option.some.inj (he.symm.trans hendpoint)
    refine ⟨v, ?_⟩
    rw [← hpath]
    exact (t.announces.mem_iter_iff path v).mp hr

/-- What a map has to do with the rows of an endpoint that were read: each content comes from one of
them, and each of them has put a content under its kind. -/
structure ReadInto (endpoint : EndpointId) (rows : List (AnnouncePath × AnnounceValue))
    (m : SortedTable AnnounceKind HashAndFormat) : Prop where
  from_row : ∀ kind content, m.get? kind = some content → ∃ r ∈ rows,
    r.1.endpointId = some endpoint ∧ r.1.announceKind = kind ∧ r.1.content = content
  of_row : ∀ r ∈ rows, r.1.endpointId = some endpoint →
    ∃ content, m.get? r.1.announceKind = some content

section ReadInto

variable {endpoint : EndpointId} {rows : List (AnnouncePath × AnnounceValue)}
  {m : SortedTable AnnounceKind HashAndFormat} {r : AnnouncePath × AnnounceValue}

/-- A row of another endpoint is left out. -/
theorem ReadInto.skip (h : ReadInto endpoint rows m) (hother : r.1.endpointId ≠ some endpoint) :
    ReadInto endpoint (rows ++ [r]) m := by
  refine ⟨fun kind content hget => ?_, fun r' hr' hendpoint => ?_⟩
  · obtain ⟨r', hr', hfields⟩ := h.from_row kind content hget
    exact ⟨r', List.mem_append_left _ hr', hfields⟩
  · rcases List.mem_append.mp hr' with hr' | hr'
    · exact h.of_row r' hr' hendpoint
    · rw [List.mem_singleton.mp hr'] at hendpoint
      exact absurd hendpoint hother

/-- A row of the endpoint takes the place of its kind. -/
theorem ReadInto.insert (h : ReadInto endpoint rows m) (hrow : r.1.endpointId = some endpoint) :
    ReadInto endpoint (rows ++ [r]) (m.insert r.1.announceKind r.1.content) := by
  refine ⟨fun kind content hget => ?_, fun r' hr' hendpoint => ?_⟩
  · rw [SortedTable.get?_insert] at hget
    split_ifs at hget with hkind
    · exact ⟨r, List.mem_append_right _ List.mem_cons_self, hrow, hkind.symm,
        Option.some.inj hget⟩
    · obtain ⟨r', hr', hfields⟩ := h.from_row kind content hget
      exact ⟨r', List.mem_append_left _ hr', hfields⟩
  · rw [SortedTable.get?_insert]
    split_ifs with hkind
    · exact ⟨_, rfl⟩
    · rcases List.mem_append.mp hr' with hr' | hr'
      · exact h.of_row r' hr' hendpoint
      · exact absurd (congrArg (fun r => r.1.announceKind) (List.mem_singleton.mp hr')) hkind

/-- The map that the actor answers with has read all rows. -/
theorem readInto_getContentForEndpoint {tables : Tables}
    (h : getContentForEndpoint tables endpoint = some m) :
    ReadInto endpoint tables.announces.iter m := by
  refine Transition.run_induction (P := ReadInto endpoint) ?_ ?_ h
  · refine ⟨fun kind content hget => ?_, fun r hr => absurd hr List.not_mem_nil⟩
    cases hget
  · intro rows m r m' _ hread hstep
    obtain ⟨e, he, hm'⟩ := Option.bind_eq_some_iff.mp hstep
    have hm' := Option.some.inj hm'
    by_cases hne : e ≠ endpoint
    · rw [if_pos hne] at hm'
      subst hm'
      exact hread.skip (he ▸ fun heq => hne (Option.some.inj heq))
    · rw [if_neg hne] at hm'
      subst hm'
      obtain rfl := not_not.mp hne
      exact hread.insert he

end ReadInto

/-- **What the map holds**: under each kind that the endpoint has announced something, one of the
contents announced under it. -/
theorem getContentForEndpoint_spec (tables : Tables) (endpoint : EndpointId) :
    ∃ m, getContentForEndpoint tables endpoint = some m ∧
      (∀ kind content, m.get? kind = some content → tables.Announces endpoint kind content) ∧
      ∀ kind content, tables.Announces endpoint kind content →
        ∃ content', m.get? kind = some content' := by
  obtain ⟨m, hm⟩ := exists_getContentForEndpoint tables endpoint
  have hread := readInto_getContentForEndpoint hm
  refine ⟨m, hm, fun kind content h => ?_, fun kind content h => ?_⟩
  · exact (tables.announces_iff endpoint kind content).mpr (hread.from_row kind content h)
  · obtain ⟨r, hr, hendpoint, rfl, _⟩ := (tables.announces_iff endpoint kind content).mp h
    exact hread.of_row r hr hendpoint

/-- The map that the actor answers with, and the probes that are done with it, are about the content
that the endpoint has announced and about nothing else. -/
structure ContentCovered (tables : Tables) (endpoint : EndpointId) : Prop where
  content : ∃ m, getContentForEndpoint tables endpoint = some m ∧
    ∀ kind content, (kind, content) ∈ m.rows ↔ tables.Announces endpoint kind content
  probes : ∀ env : ProbeEnv, env.Succeeds → ∃ m results,
    getContentForEndpoint tables endpoint = some m ∧ probeOne env m = .ok results ∧
    ∀ kind content, (∃ result, (content, kind, result) ∈ results)
      ↔ tables.Announces endpoint kind content

/-- **When no announced content is left out.**  If and only if the endpoint has announced no two
contents under one kind. -/
theorem content_covered_iff (tables : Tables) (endpoint : EndpointId) :
    ContentCovered tables endpoint ↔ ∀ kind content content',
      tables.Announces endpoint kind content → tables.Announces endpoint kind content' →
        content = content' := by
  constructor
  · intro h kind content content' hannounced hannounced'
    obtain ⟨m, _, hrows⟩ := h.content
    exact congrArg Prod.snd (m.row_unique ((hrows kind content).mpr hannounced)
      ((hrows kind content').mpr hannounced') rfl)
  · intro h
    obtain ⟨m, hm, hfrom, hall⟩ := getContentForEndpoint_spec tables endpoint
    have hrows : ∀ kind content,
        (kind, content) ∈ m.rows ↔ tables.Announces endpoint kind content := by
      intro kind content
      rw [SortedTable.mem_rows_iff]
      constructor
      · exact hfrom kind content
      · intro hannounced
        obtain ⟨content', hget⟩ := hall kind content hannounced
        rw [hget, h kind content content' hannounced (hfrom kind content' hget)]
    refine ⟨⟨m, hm, hrows⟩, fun env henv => ⟨m, _, hm, probeOne_eq henv m, ?_⟩⟩
    intro kind content
    rw [← hrows kind content]
    constructor
    · rintro ⟨result, hmem⟩
      obtain ⟨⟨kind', content'⟩, hr, heq⟩ := List.mem_map.mp hmem
      cases heq
      exact hr
    · intro hr
      exact ⟨_, List.mem_map.mpr ⟨(kind, content), hr, rfl⟩⟩

end Contents

section Runs

attribute [local instance] KeyScheme.doubling

/-- A table in which one host announces two blobs, both complete. -/
def twoBlobsTables : Tables :=
  (handleAnnounce (handleAnnounce Tables.empty
    (SignedAnnounce.doubling 7 (.filled 1 .Raw) .Complete ⟨5⟩)).2
      (SignedAnnounce.doubling 7 (.filled 2 .Raw) .Complete ⟨6⟩)).2

/-- **A blob that is never probed.**  The map has room for one of the two. -/
theorem two_blobs_not_covered : ¬ ContentCovered twoBlobsTables (EndpointId.doubling 7) := by
  intro h
  have hone : (twoBlobsTables.announces.get
      (AnnouncePath.new (.filled 1 .Raw) .Complete (EndpointId.doubling 7))).isSome = true := by
    decide +kernel
  have htwo : (twoBlobsTables.announces.get
      (AnnouncePath.new (.filled 2 .Raw) .Complete (EndpointId.doubling 7))).isSome = true := by
    decide +kernel
  obtain ⟨m, _, hrows⟩ := h.content
  have hrow := (hrows .Complete (.filled 1 .Raw)).mpr (Option.isSome_iff_exists.mp hone)
  have hrow' := (hrows .Complete (.filled 2 .Raw)).mpr (Option.isSome_iff_exists.mp htwo)
  have heq := congrArg Prod.snd (m.row_unique hrow hrow' rfl)
  exact absurd heq (by decide)

end Runs

end IrohExperiments.Tracker
