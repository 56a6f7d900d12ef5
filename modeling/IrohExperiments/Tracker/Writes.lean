import IrohExperiments.Tracker.Gc

/-!
# What the messages write

Only two messages change the announces table: an announce adds or renews one row, the one of its own path
(`get_handleAnnounce`), and a collection removes rows.  The probes table gets its rows from the store of a
probe result, one for each success in it, and loses them to a collection.  `handleReadwrite_announces` and
`handleReadwrite_probes` sum this up for the rows, and `handleAnnounce_cases` says what becomes of an
announce.
-/

namespace IrohExperiments.Tracker

variable [KeyScheme]

/-- **What becomes of an announce.**  One that does not verify is refused, and changes nothing.  One
that does is stored under its path, unless the path has an announce that is at least as recent; the
reply says whether the path had none. -/
theorem handleAnnounce_cases (tables : Tables) (a : SignedAnnounce) :
    (∃ e, a.verify = .error e ∧ handleAnnounce tables a = (.error e, tables)) ∨
      (a.verify = .ok () ∧ ∃ response, (handleAnnounce tables a).1 = .ok response ∧
        (response.newHostForContent = true
          ↔ tables.announces.get (splitSignedAnnounce a).1 = none) ∧
        ((handleAnnounce tables a).2 = tables ∧ response.newHostForContent = false ∨
          (handleAnnounce tables a).2 = tables.insertAnnounce (splitSignedAnnounce a).1
            (splitSignedAnnounce_canonical a) (splitSignedAnnounce a).2)) := by
  rw [handleAnnounce]
  cases hverify : a.verify with
  | error e => exact Or.inl ⟨e, rfl, rfl⟩
  | ok _ =>
      right
      refine ⟨rfl, _, rfl, ?_⟩
      cases hprev : tables.announces.get (splitSignedAnnounce a).1 with
      | none =>
          refine ⟨by simp, Or.inr ?_⟩
          simp [hprev]
      | some prev =>
          refine ⟨by simp, ?_⟩
          by_cases hnewer : prev.timestamp < (splitSignedAnnounce a).2.timestamp
          · right
            simp [hprev, hnewer]
          · left
            simp [hprev, hnewer]

/-- The row of a path after a value for it: the value, unless the row before is as recent. -/
def AnnounceValue.replace (value : AnnounceValue) : Option AnnounceValue → Option AnnounceValue
  | some prev => if prev.timestamp < value.timestamp then some value else some prev
  | none => some value

/-- **What an announce writes**, if it verifies: its own row. -/
theorem get_handleAnnounce (tables : Tables) {a : SignedAnnounce} (h : a.verify = .ok ())
    (path : AnnouncePath) :
    (handleAnnounce tables a).2.announces.get path
      = if path = (splitSignedAnnounce a).1 then
          (splitSignedAnnounce a).2.replace (tables.announces.get path)
        else tables.announces.get path := by
  have hinsert := RecordTable.get_insert tables.announces (splitSignedAnnounce a).1 path
    (splitSignedAnnounce a).2
  by_cases hpath : path = (splitSignedAnnounce a).1
  · rw [if_pos hpath] at hinsert ⊢
    subst hpath
    cases hprev : tables.announces.get (splitSignedAnnounce a).1 with
    | none => simp [handleAnnounce, h, hprev, hinsert, AnnounceValue.replace]
    | some prev =>
        by_cases hnewer : prev.timestamp < (splitSignedAnnounce a).2.timestamp
        · simp [handleAnnounce, h, hprev, hnewer, hinsert, AnnounceValue.replace]
        · simp [handleAnnounce, h, hprev, hnewer, AnnounceValue.replace]
  · rw [if_neg hpath] at hinsert ⊢
    simp only [handleAnnounce, h]
    split_ifs
    · exact hinsert
    · rfl

@[simp] theorem storeProbeResult_announces (tables : Tables) (endpoint : EndpointId)
    (results : List (HashAndFormat × AnnounceKind × Except String Unit)) (now : AbsoluteTime) :
    (storeProbeResult tables endpoint results now).announces = tables.announces := by
  rw [storeProbeResult]
  induction results generalizing tables with
  | nil => rfl
  | cons r results ih =>
      rw [List.foldl_cons, ih]
      cases r.2.2 <;> rfl

theorem gc_announces_subset (options : Options) (now : AbsoluteTime) (tables : Tables)
    {r : AnnouncePath × AnnounceValue} (h : r ∈ (gc options now tables).announces.iter) :
    r ∈ tables.announces.iter := by
  rw [gc, (mem_foldl_remove tables _).1] at h
  exact h.1

/-- A success for the path is among the results of a probe of the endpoint. -/
def Succeeded (endpoint : EndpointId)
    (results : List (HashAndFormat × AnnounceKind × Except String Unit)) (path : AnnouncePath) :
    Prop :=
  ∃ r ∈ results, r.2.2 = .ok () ∧ path = AnnouncePath.new r.1 r.2.1 endpoint

/-- **What a probe result writes**: its time, for every path it has a success for. -/
theorem get_storeProbeResult (tables : Tables) (endpoint : EndpointId)
    (results : List (HashAndFormat × AnnounceKind × Except String Unit)) (now : AbsoluteTime)
    (path : AnnouncePath) :
    (Succeeded endpoint results path ∧
        (storeProbeResult tables endpoint results now).probes.get path = some ⟨now⟩) ∨
      (¬ Succeeded endpoint results path ∧
        (storeProbeResult tables endpoint results now).probes.get path = tables.probes.get path) := by
  rw [storeProbeResult]
  induction results generalizing tables with
  | nil => exact Or.inr ⟨fun ⟨r, hr, _⟩ => absurd hr List.not_mem_nil, rfl⟩
  | cons r results ih =>
      obtain ⟨content, kind, result⟩ := r
      have htail : Succeeded endpoint results path →
          Succeeded endpoint ((content, kind, result) :: results) path := fun ⟨r, hr, h⟩ =>
        ⟨r, List.mem_cons_of_mem _ hr, h⟩
      rw [List.foldl_cons]
      cases result with
      | error e =>
          refine (ih tables).imp (fun h => ⟨htail h.1, h.2⟩) fun h => ⟨?_, h.2⟩
          rintro ⟨r, hr, hok, hpath⟩
          rcases List.mem_cons.mp hr with rfl | hr
          · cases hok
          · exact h.1 ⟨r, hr, hok, hpath⟩
      | ok _ =>
          rcases ih (tables.insertProbe (AnnouncePath.new content kind endpoint)
            (AnnouncePath.canonical_new _ _ _) ⟨now⟩) with ⟨hlater, hget⟩ | ⟨hlater, hget⟩
          · exact Or.inl ⟨htail hlater, hget⟩
          · have hinsert : (tables.insertProbe (AnnouncePath.new content kind endpoint)
                (AnnouncePath.canonical_new _ _ _) ⟨now⟩).probes.get path
                  = if path = AnnouncePath.new content kind endpoint then some ⟨now⟩
                    else tables.probes.get path :=
              RecordTable.get_insert _ _ _ _
            rw [hinsert] at hget
            by_cases hpath : path = AnnouncePath.new content kind endpoint
            · rw [if_pos hpath] at hget
              exact Or.inl ⟨⟨_, List.mem_cons_self, rfl, hpath⟩, hget⟩
            · rw [if_neg hpath] at hget
              refine Or.inr ⟨?_, hget⟩
              rintro ⟨r, hr, hok, hr'⟩
              rcases List.mem_cons.mp hr with rfl | hr
              · exact hpath hr'
              · exact hlater ⟨r, hr, hok, hr'⟩

theorem gc_probes_subset (options : Options) (now : AbsoluteTime) (tables : Tables)
    {r : AnnouncePath × ProbeValue} (h : r ∈ (gc options now tables).probes.iter) :
    r ∈ tables.probes.iter := by
  rw [gc, (mem_foldl_remove tables _).2] at h
  exact h.1

/-- **Where a row of the announces comes from**: it was there before the message, or the message is
the announce it stands for, with a valid signature. -/
theorem handleReadwrite_announces {options : Options} {state state' : State} {now : AbsoluteTime}
    {msg : ActorMessage} {tables tables' : Tables} {effects : List Effect}
    (h : handleReadwrite options state now msg tables = .ok (state', tables', effects))
    {r : AnnouncePath × AnnounceValue} (hr : r ∈ tables'.announces.iter) :
    r ∈ tables.announces.iter ∨
      ∃ a tx, msg = .Announce a tx ∧ a.verify = .ok () ∧ splitSignedAnnounce a = r := by
  cases msg with
  | Announce a tx =>
      cases h
      rcases handleAnnounce_cases tables a with ⟨e, _, heq⟩ | ⟨hverify, _, _, _, htables⟩
      · rw [heq] at hr
        exact Or.inl hr
      · rcases htables with ⟨htables, _⟩ | htables
        · rw [htables] at hr
          exact Or.inl hr
        · rw [htables, Tables.insertAnnounce_announces, RecordTable.mem_iter_insert] at hr
          rcases hr with rfl | ⟨hr, _⟩
          · exact Or.inr ⟨a, tx, rfl, hverify, rfl⟩
          · exact Or.inl hr
  | SetSize hash size =>
      cases h
      exact Or.inl hr
  | SetSizes hash sizes =>
      cases h
      exact Or.inl hr
  | StoreProbeResult endpoint results time =>
      cases h
      rw [storeProbeResult_announces] at hr
      exact Or.inl hr
  | Gc tx =>
      cases h
      exact Or.inl (gc_announces_subset options now tables hr)
  | _ => cases h

/-- **Where a row of the probes comes from**: it was there before the message, or the message is a
probe result with a success for the path, and the row has its time. -/
theorem handleReadwrite_probes {options : Options} {state state' : State} {now : AbsoluteTime}
    {msg : ActorMessage} {tables tables' : Tables} {effects : List Effect}
    (h : handleReadwrite options state now msg tables = .ok (state', tables', effects))
    {r : AnnouncePath × ProbeValue} (hr : r ∈ tables'.probes.iter) :
    r ∈ tables.probes.iter ∨
      ∃ endpoint results, msg = .StoreProbeResult endpoint results r.2.timestamp ∧
        Succeeded endpoint results r.1 := by
  cases msg with
  | Announce a tx =>
      cases h
      rcases handleAnnounce_cases tables a with ⟨e, _, heq⟩ | ⟨_, _, _, _, htables⟩
      · rw [heq] at hr
        exact Or.inl hr
      · rcases htables with ⟨htables, _⟩ | htables
        · rw [htables] at hr
          exact Or.inl hr
        · rw [htables] at hr
          exact Or.inl hr
  | SetSize hash size =>
      cases h
      exact Or.inl hr
  | SetSizes hash sizes =>
      cases h
      exact Or.inl hr
  | StoreProbeResult endpoint results time =>
      cases h
      obtain ⟨path, value⟩ := r
      rw [RecordTable.mem_iter_iff] at hr
      rcases get_storeProbeResult tables endpoint results time path with
        ⟨hsucceeded, hget⟩ | ⟨_, hget⟩
      · rw [hget, Option.some.injEq] at hr
        subst hr
        exact Or.inr ⟨endpoint, results, rfl, hsucceeded⟩
      · rw [hget, ← RecordTable.mem_iter_iff] at hr
        exact Or.inl hr
  | Gc tx =>
      cases h
      exact Or.inl (gc_probes_subset options now tables hr)
  | _ => cases h

/-- **Replies to announces.**  A message is an announce, and its handler's reply is the only effect;
or it is another message, sends no reply to an announce and adds no row. -/
theorem dispatch_cases {options : Options} {state : State} {now : AbsoluteTime}
    {msg : ActorMessage} {tables : Tables} {r : State × Tables × List Effect}
    (h : dispatch options state now msg tables = some r) :
    (∃ a tx, msg = .Announce a tx ∧
        r = (state, (handleAnnounce tables a).2, [.announce tx (handleAnnounce tables a).1])) ∨
      ((∀ a tx, msg ≠ .Announce a tx) ∧
        (∀ tx response, Effect.announce tx response ∉ r.2.2) ∧
        ∀ row ∈ r.2.1.announces.iter, row ∈ tables.announces.iter) := by
  rcases dispatch_eq_some.mp h with ⟨_, hhandle⟩ | ⟨hcat, _, htables, hhandle⟩
  · cases msg with
    | Announce a tx =>
        cases hhandle
        exact Or.inl ⟨a, tx, rfl, rfl⟩
    | SetSize | SetSizes =>
        cases hhandle
        exact Or.inr ⟨by simp, by simp, fun row hrow => hrow⟩
    | StoreProbeResult endpoint results time =>
        cases hhandle
        refine Or.inr ⟨by simp, by simp, fun row hrow => ?_⟩
        rwa [storeProbeResult_announces] at hrow
    | Gc tx =>
        cases hhandle
        exact Or.inr ⟨by simp, by simp, fun row hrow => gc_announces_subset options now tables hrow⟩
    | _ => cases hhandle
  · refine Or.inr ⟨?_, ?_, fun row hrow => htables ▸ hrow⟩
    · rintro a tx rfl
      cases hcat
    · intro tx response hmem
      obtain ⟨effect, heffects, hanswers⟩ := answers_of_handleReadonly hhandle
      rw [heffects, List.mem_singleton] at hmem
      subst hmem
      cases hanswers

/-- Announces and collections are the only messages that change the announces. -/
theorem dispatch_announces_eq {options : Options} {state : State} {now : AbsoluteTime}
    {msg : ActorMessage} {tables : Tables} {r : State × Tables × List Effect}
    (hannounce : ∀ a tx, msg ≠ .Announce a tx) (hgc : ∀ tx, msg ≠ .Gc tx)
    (h : dispatch options state now msg tables = some r) :
    r.2.1.announces = tables.announces := by
  rcases dispatch_eq_some.mp h with ⟨_, hhandle⟩ | ⟨_, _, htables, _⟩
  · cases msg with
    | Announce a tx => exact absurd rfl (hannounce a tx)
    | Gc tx => exact absurd rfl (hgc tx)
    | SetSize | SetSizes =>
        cases hhandle
        rfl
    | StoreProbeResult endpoint results time =>
        cases hhandle
        exact storeProbeResult_announces tables endpoint results time
    | _ => cases hhandle
  · rw [htables]

end IrohExperiments.Tracker
