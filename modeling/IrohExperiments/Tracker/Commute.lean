import IrohExperiments.Lib.Register
import IrohExperiments.Tracker.Writes

/-!
# Announces commute

An announce can reach the tracker more than once, and announces can overtake each other: a client may
send one again when 0-RTT data is refused, and whoever has seen one may replay it.  The announces table
is a family of registers that keep the latest announce of their path (`get_handleAnnounce_eq`), so
none of this matters: the table after a list of announces is a matter of the set of them
(`announces_commute`).  The announces of one path are only told apart by their timestamps, so no two of
them may have the same one.
-/

namespace IrohExperiments.Tracker

section Commute

variable [KeyScheme]

/-- Handle announces one after the other. -/
def handleAnnounces (tables : Tables) (announces : List SignedAnnounce) : Tables :=
  announces.foldl (fun tables a => (handleAnnounce tables a).2) tables

/-- No two different announces for one path have the same timestamp, and neither has one the
timestamp of a row that stands for another. -/
structure DistinctTimestamps (tables : Tables) (announces : List SignedAnnounce) : Prop where
  distinct : ∀ a ∈ announces, ∀ b ∈ announces, (splitSignedAnnounce a).1 = (splitSignedAnnounce b).1 →
    a.announce.timestamp = b.announce.timestamp → a = b
  rows : ∀ a ∈ announces, ∀ v ∈ tables.announces.get (splitSignedAnnounce a).1,
    v.timestamp = a.announce.timestamp → v = (splitSignedAnnounce a).2

/-- **The announces table is a family of registers.** -/
theorem get_handleAnnounce_eq (tables : Tables) {a : SignedAnnounce} (h : a.verify = .ok ()) :
    (handleAnnounce tables a).2.announces.get
      = Register.writeAt AnnounceValue.timestamp tables.announces.get (splitSignedAnnounce a) := by
  funext path
  rw [get_handleAnnounce tables h, Register.writeAt, Function.update_apply]
  split_ifs with hpath
  · rw [hpath]
    cases tables.announces.get (splitSignedAnnounce a).1 <;> rfl
  · rfl

theorem get_handleAnnounces (tables : Tables) {announces : List SignedAnnounce}
    (h : ∀ a ∈ announces, a.verify = .ok ()) :
    (handleAnnounces tables announces).announces.get
      = (announces.map splitSignedAnnounce).foldl (Register.writeAt AnnounceValue.timestamp)
          tables.announces.get := by
  induction announces generalizing tables with
  | nil => rfl
  | cons a announces ih =>
      have htail := ih (handleAnnounce tables a).2 fun b hb => h b (List.mem_cons_of_mem _ hb)
      rw [get_handleAnnounce_eq tables (h a List.mem_cons_self)] at htail
      exact htail

/-- The values that the row of a path can have. -/
def Candidate (tables : Tables) (announces : List SignedAnnounce) (path : AnnouncePath)
    (v : AnnounceValue) : Prop :=
  v ∈ tables.announces.get path ∨ ∃ a ∈ announces, splitSignedAnnounce a = (path, v)

theorem history_eq (tables : Tables) (announces : List SignedAnnounce) (path : AnnouncePath) :
    Register.history tables.announces.get (announces.map splitSignedAnnounce) path
      = {v | Candidate tables announces path v} := by
  ext v
  simp [Register.history, Candidate]

/-- Then no two candidates for the row of a path have the same timestamp. -/
theorem DistinctTimestamps.injOn {tables : Tables} {announces : List SignedAnnounce}
    (h : DistinctTimestamps tables announces) (path : AnnouncePath) :
    Set.InjOn AnnounceValue.timestamp {v | Candidate tables announces path v} := by
  have hrow : ∀ a ∈ announces, ∀ v w, splitSignedAnnounce a = (path, w) →
      v ∈ tables.announces.get path → v.timestamp = w.timestamp → v = w := by
    intro a ha v w hsplit hv htime
    obtain ⟨rfl, rfl⟩ := Prod.mk.inj hsplit
    exact h.rows a ha v hv htime
  rintro v (hv | ⟨a, ha, hsplit⟩) w (hw | ⟨b, hb, hsplit'⟩) htime
  · exact Option.mem_unique hv hw
  · exact hrow b hb v w hsplit' hv htime
  · exact (hrow a ha w v hsplit hw htime.symm).symm
  · obtain ⟨hpath, rfl⟩ := Prod.mk.inj hsplit
    obtain ⟨hpath', rfl⟩ := Prod.mk.inj hsplit'
    rw [h.distinct a ha b hb (hpath.trans hpath'.symm) htime]

/-- An announce that is not newer than the row of its path changes nothing. -/
theorem handleAnnounce_of_not_newer (tables : Tables) {a : SignedAnnounce} {v : AnnounceValue}
    (hv : v ∈ tables.announces.get (splitSignedAnnounce a).1)
    (hle : a.announce.timestamp ≤ v.timestamp) : (handleAnnounce tables a).2 = tables := by
  have hrow : tables.announces.get (splitSignedAnnounce a).1 = some v := hv
  have htime : ¬ v.timestamp < (splitSignedAnnounce a).2.timestamp := not_lt.mpr hle
  cases hverify : a.verify with
  | error e => simp [handleAnnounce, hverify]
  | ok _ => simp [handleAnnounce, hverify, hrow, htime]

/-- **Announces commute and are idempotent.**  Lists with the same valid announces, in whatever order
and however often each, lead to the same announces table, if timestamps are distinct.  It has for each
path the announce with the greatest timestamp, of those in the list and the one in the table before.
An announce that is not newer than the row of its path never replaces it. -/
theorem announces_commute {tables : Tables} {announces announces' : List SignedAnnounce}
    (hverify : ∀ a ∈ announces, a.verify = .ok ())
    (htimes : DistinctTimestamps tables announces)
    (hsame : ∀ a, a ∈ announces ↔ a ∈ announces') :
    (handleAnnounces tables announces).announces = (handleAnnounces tables announces').announces ∧
      (∀ path, Register.IsLatest AnnounceValue.timestamp {v | Candidate tables announces path v}
        ((handleAnnounces tables announces).announces.get path)) ∧
      ∀ (tables' : Tables) (a : SignedAnnounce),
        ∀ v ∈ tables'.announces.get (splitSignedAnnounce a).1,
          a.announce.timestamp ≤ v.timestamp → (handleAnnounce tables' a).2 = tables' := by
  have hverify' : ∀ a ∈ announces', a.verify = .ok () := fun a ha => hverify a ((hsame a).mpr ha)
  refine ⟨?_, fun path => ?_, fun tables' a v hv hle => handleAnnounce_of_not_newer tables' hv hle⟩
  · refine RecordTable.ext_get fun path => ?_
    rw [get_handleAnnounces tables hverify, get_handleAnnounces tables hverify']
    refine congrFun (Register.foldl_writeAt_eq (fun w => ?_) fun path => ?_) path
    · simp [hsame]
    · rw [history_eq]
      exact htimes.injOn path
  · rw [get_handleAnnounces tables hverify, ← history_eq]
    exact Register.isLatest_foldl _ _ _ path

end Commute

section Runs

attribute [local instance] KeyScheme.doubling

/-- Two announces of one host for one blob. -/
def renewed : List SignedAnnounce :=
  [SignedAnnounce.doubling 7 (.filled 1 .Raw) .Complete ⟨5⟩,
    SignedAnnounce.doubling 7 (.filled 1 .Raw) .Complete ⟨9⟩]

/-- An announce, a newer one, and the first one again. -/
theorem announces_commute_replayed :
    (handleAnnounces Tables.empty renewed).announces
        = (handleAnnounces Tables.empty (renewed.reverse ++ renewed.take 1)).announces := by
  have htimes : DistinctTimestamps Tables.empty renewed := by
    refine ⟨fun a ha b hb _ htime => ?_, fun a ha v hv => ?_⟩
    · have hall : ∀ a ∈ renewed, ∀ b ∈ renewed,
          a.announce.timestamp = b.announce.timestamp → a = b := by
        decide +kernel
      exact hall a ha b hb htime
    · exact absurd hv (Option.not_mem_none v)
  refine (announces_commute (fun a ha => ?_) htimes fun a => ?_).1
  · have hall : ∀ a ∈ renewed, a.verify = .ok () := by decide +kernel
    exact hall a ha
  · simp [renewed]
    tauto

end Runs

end IrohExperiments.Tracker
