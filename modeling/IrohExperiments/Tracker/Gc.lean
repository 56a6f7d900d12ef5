import IrohExperiments.Tracker.Query

/-!
# Garbage collection

What `gc` is for: an announce may go once it is older than `announceExpiry`, unless its path was
probed within `probeExpiry` (`Tables.Retains`).  What it does is another matter.  It iterates over
the **probes** table, and it takes the timestamp of the probe for the one of the announce.  So

* a row without a probe is never looked at, and stays however old it is;
* a row with a probe goes when the *probe* is older than both expiries (`mem_gc_announces`), however
  recently the announce was renewed.

`gc_exact_iff` says on which tables none of this makes a difference.
-/

namespace IrohExperiments.Tracker

section Collection

variable [KeyScheme]

/-! ## What is to be kept -/

/-- The announce of a row is to be kept: it is not expired, or its path was probed recently. -/
def Tables.Retains (t : Tables) (options : Options) (now : AbsoluteTime)
    (r : AnnouncePath × AnnounceValue) : Prop :=
  now.age r.2.timestamp ≤ options.announceExpiry ∨
    ∃ p ∈ t.probes.get r.1, now.age p.timestamp ≤ options.probeExpiry

/-- A collection of `t` that ends in `t'` is exact: the announces that are left are the ones to be
kept, with their values, and a path that lost its announce has no probe either. -/
structure ExactCollection (options : Options) (now : AbsoluteTime) (t t' : Tables) : Prop where
  kept : ∀ r, r ∈ t'.announces.iter ↔ r ∈ t.announces.iter ∧ t.Retains options now r
  probes : ∀ r ∈ t.announces.iter, r ∉ t'.announces.iter → t'.probes.get r.1 = none

/-! ## What is removed -/

omit [KeyScheme] in
theorem mem_gcToRemove (options : Options) (now : AbsoluteTime)
    (probes : RecordTable AnnouncePath ProbeValue) (rows : List (AnnouncePath × ProbeValue))
    (path : AnnouncePath) :
    path ∈ gcToRemove options now probes rows
      ↔ ∃ v, (path, v) ∈ rows ∧ ¬ now - v.timestamp ≤ options.announceExpiry ∧
          ∀ p ∈ probes.get path, ¬ now - p.timestamp ≤ options.probeExpiry := by
  induction rows with
  | nil => simp [gcToRemove]
  | cons r rows ih =>
      obtain ⟨path', v⟩ := r
      -- what the loop does with the first row, and then `ih` for the others
      have hhead : path ∈ gcToRemove options now probes ((path', v) :: rows)
          ↔ (path = path' ∧ ¬ now - v.timestamp ≤ options.announceExpiry ∧
              ∀ p ∈ probes.get path', ¬ now - p.timestamp ≤ options.probeExpiry)
            ∨ path ∈ gcToRemove options now probes rows := by
        rw [gcToRemove]
        by_cases hage : now - v.timestamp ≤ options.announceExpiry
        · simp [hage]
        · cases hp : probes.get path' with
          | none => simp [hage]
          | some p =>
              by_cases hprobe : now - p.timestamp ≤ options.probeExpiry
              · simp [hage, hprobe]
              · simp [hage, hprobe, not_le.mp hprobe]
      rw [hhead, ih]
      constructor
      · rintro (⟨rfl, hage, hprobe⟩ | ⟨w, hw, h⟩)
        · exact ⟨v, List.mem_cons_self, hage, hprobe⟩
        · exact ⟨w, List.mem_cons_of_mem _ hw, h⟩
      · rintro ⟨w, hw, h⟩
        rcases List.mem_cons.mp hw with heq | hw
        · obtain ⟨rfl, rfl⟩ := Prod.mk.inj heq
          exact Or.inl ⟨rfl, h⟩
        · exact Or.inr ⟨w, hw, h⟩

theorem mem_foldl_remove (t : Tables) (paths : List AnnouncePath) :
    (∀ r, r ∈ (paths.foldl Tables.remove t).announces.iter
        ↔ r ∈ t.announces.iter ∧ r.1 ∉ paths) ∧
      ∀ r, r ∈ (paths.foldl Tables.remove t).probes.iter ↔ r ∈ t.probes.iter ∧ r.1 ∉ paths := by
  induction paths generalizing t with
  | nil => simp
  | cons path paths ih =>
      obtain ⟨ha, hp⟩ := ih (t.remove path)
      refine ⟨fun r => ?_, fun r => ?_⟩
      · rw [List.foldl_cons, ha, Tables.remove_announces, RecordTable.mem_iter_remove,
          List.mem_cons, not_or, and_assoc]
      · rw [List.foldl_cons, hp, Tables.remove_probes, RecordTable.mem_iter_remove,
          List.mem_cons, not_or, and_assoc]

/-- **What `gc` leaves of the announces**: a row goes exactly when its path was probed, and the
probe is older than both expiries. -/
theorem mem_gc_announces (options : Options) {now : AbsoluteTime} {t : Tables}
    (hnow : t.Before now) (r : AnnouncePath × AnnounceValue) :
    r ∈ (gc options now t).announces.iter
      ↔ r ∈ t.announces.iter ∧ ∀ p ∈ t.probes.get r.1,
          now.age p.timestamp ≤ options.announceExpiry ∨
            now.age p.timestamp ≤ options.probeExpiry := by
  rw [gc, (mem_foldl_remove t _).1, mem_gcToRemove]
  refine and_congr_right fun _ => ?_
  constructor
  · intro h p hp
    have hle := hnow.probes _ ((t.probes.mem_iter_iff r.1 p).mpr hp)
    by_contra hold
    obtain ⟨hannounce, hprobe⟩ := not_or.mp hold
    refine h ⟨p, (t.probes.mem_iter_iff r.1 p).mpr hp, ?_, fun q hq => ?_⟩
    · rwa [AbsoluteTime.sub_of_le hle]
    · rw [Option.mem_unique hq hp, AbsoluteTime.sub_of_le hle]
      exact hprobe
  · rintro h ⟨p, hmem, hannounce, hprobe⟩
    have hp := (t.probes.mem_iter_iff r.1 p).mp hmem
    have hprobe := hprobe p hp
    rw [AbsoluteTime.sub_of_le (hnow.probes _ hmem)] at hannounce hprobe
    exact (h p hp).elim hannounce hprobe

/-- A path that loses its announce loses its probe. -/
theorem gc_probes_eq_none (options : Options) (now : AbsoluteTime) (t : Tables)
    {r : AnnouncePath × AnnounceValue} (hr : r ∈ t.announces.iter)
    (hgone : r ∉ (gc options now t).announces.iter) :
    (gc options now t).probes.get r.1 = none := by
  rw [gc, (mem_foldl_remove t _).1] at hgone
  have hremoved : r.1 ∈ gcToRemove options now t.probes t.probes.iter := by
    by_contra h
    exact hgone ⟨hr, h⟩
  rw [RecordTable.get_eq_none_iff]
  intro v hv hpath
  rw [gc, (mem_foldl_remove t _).2] at hv
  exact hv.2 (hpath ▸ hremoved)

/-! ## Exactness -/

/-- **When a collection is exact.**  If and only if no announce without a probe is expired, and
every announce whose probe is older than `probeExpiry` is expired exactly when its probe is older
than `announceExpiry`. -/
theorem gc_exact_iff (options : Options) (now : AbsoluteTime) (t : Tables) (hnow : t.Before now) :
    ExactCollection options now t (gc options now t)
      ↔ ∀ r ∈ t.announces.iter,
          (t.probes.get r.1 = none → now.age r.2.timestamp ≤ options.announceExpiry) ∧
          ∀ p ∈ t.probes.get r.1, options.probeExpiry < now.age p.timestamp →
            (now.age r.2.timestamp ≤ options.announceExpiry
              ↔ now.age p.timestamp ≤ options.announceExpiry) := by
  -- row by row, what is kept is compared with what is to be kept
  have hrow : ∀ r : AnnouncePath × AnnounceValue,
      ((∀ p ∈ t.probes.get r.1, now.age p.timestamp ≤ options.announceExpiry ∨
            now.age p.timestamp ≤ options.probeExpiry) ↔ t.Retains options now r)
        ↔ (t.probes.get r.1 = none → now.age r.2.timestamp ≤ options.announceExpiry) ∧
          ∀ p ∈ t.probes.get r.1, options.probeExpiry < now.age p.timestamp →
            (now.age r.2.timestamp ≤ options.announceExpiry
              ↔ now.age p.timestamp ≤ options.announceExpiry) := by
    intro r
    rw [Tables.Retains]
    cases hp : t.probes.get r.1 with
    | none => simp
    | some p =>
        by_cases hrecent : now.age p.timestamp ≤ options.probeExpiry
        · simp [hrecent]
        · simp only [Option.mem_some_iff, forall_eq', exists_eq_left', hrecent, or_false,
            reduceCtorEq, false_implies, true_and, not_le.mp hrecent, forall_const]
          exact Iff.comm
  constructor
  · intro hexact r hr
    refine (hrow r).mp ?_
    have hkept := hexact.kept r
    rw [mem_gc_announces options hnow, and_congr_right_iff] at hkept
    exact hkept hr
  · intro h
    refine ⟨fun r => ?_, fun r hr hgone => gc_probes_eq_none options now t hr hgone⟩
    rw [mem_gc_announces options hnow]
    exact and_congr_right fun hr => (hrow r).mpr (h r hr)

end Collection

section Runs

attribute [local instance] KeyScheme.doubling

/-- The condition can be met: while its announce is fresh, a table is collected exactly. -/
theorem gc_exact_fresh :
    hashSeqTables.Before ⟨9⟩ ∧
      ExactCollection Options.debug ⟨9⟩ hashSeqTables (gc Options.debug ⟨9⟩ hashSeqTables) := by
  have hnow : hashSeqTables.Before ⟨9⟩ := ⟨by decide +kernel, by decide +kernel⟩
  refine ⟨hnow, (gc_exact_iff _ _ _ hnow).mpr ?_⟩
  decide +kernel

/-- **An expired announce that stays.**  It was never probed, so an hour later it is still there. -/
theorem gc_keeps_expired :
    hashSeqTables.Before ⟨3600000000⟩ ∧
      ¬ ExactCollection Options.debug ⟨3600000000⟩ hashSeqTables
        (gc Options.debug ⟨3600000000⟩ hashSeqTables) := by
  let r := splitSignedAnnounce (SignedAnnounce.doubling 7 (.filled 1 .HashSeq) .Complete ⟨5⟩)
  have hstays : r ∈ (gc Options.debug ⟨3600000000⟩ hashSeqTables).announces.iter := by
    decide +kernel
  have hexpired : Options.debug.announceExpiry
      < AbsoluteTime.age ⟨3600000000⟩ r.2.timestamp := by
    decide +kernel
  have hunprobed : hashSeqTables.probes.get r.1 = none := by
    decide +kernel
  refine ⟨⟨by decide +kernel, by decide +kernel⟩, fun hexact => ?_⟩
  obtain ⟨_, hretains⟩ := (hexact.kept r).mp hstays
  rcases hretains with hfresh | ⟨p, hp, _⟩
  · exact absurd hfresh (not_le.mpr hexpired)
  · rw [hunprobed] at hp
    exact absurd hp (Option.not_mem_none p)

end Runs

end IrohExperiments.Tracker
