import IrohExperiments.DagSync.Preorder
import IrohExperiments.Lib.Iterator

/-!
# Calling a traversal again after an error

A call of `next` takes the cid whose look-up was deferred out of the state, and looks up its links
after that.  If the look-up fails then the cid is gone: the traversal can be called again, but it goes
on with the stack.  What is below the cid comes only if it is found from the stack as well.

`Traversal.call` is `next` together with the state that it leaves, also after an error.
`resumes_iff` compares the calls after an error with the calls of a traversal that has not failed,
over any database.
-/

namespace IrohExperiments.DagSync

open DepthFirst Iterator

section Resume

variable [Libraries]

/-! ## The state after a call -/

namespace FullTraversal

/-- `next`, with the state that it leaves. -/
def call (self : FullTraversal) (db : Tables) : Except SyncError (Option Cid) × FullTraversal :=
  match self.expand db with
  -- `prev.take()` comes before the look-up
  | .error e => (.error e, { self with prev := none })
  | .ok stack =>
      match pop self.visited stack with
      | none => (.ok none, ⟨none, [], self.visited⟩)
      | some (cid, stack) => (.ok (some cid), ⟨some cid, stack, insert cid self.visited⟩)

/-- What the caller sees of a call. -/
def returned {α : Type} : Except SyncError (Option Cid) × α → Except SyncError (Option (Cid × α))
  | (.error e, _) => .error e
  | (.ok none, _) => .ok none
  | (.ok (some cid), t) => .ok (some (cid, t))

theorem next_eq_call (self : FullTraversal) (db : Tables) :
    self.next db = returned (self.call db) := by
  rw [next, call]
  cases self.expand db with
  | error e => rfl
  | ok stack =>
      simp only
      cases pop self.visited stack with
      | none => rfl
      | some r => rfl

theorem next_of_call {self t : FullTraversal} {db : Tables} {cid : Cid}
    (h : self.call db = (.ok (some cid), t)) : self.next db = .ok (some (cid, t)) := by
  rw [next_eq_call, h]
  rfl

/-- `Filtered::next`, with the state that it leaves. -/
def callFiltered (filter : TraversalFilter) (self : FullTraversal) (db : Tables) :
    Except SyncError (Option Cid) × FullTraversal :=
  match _h : self.call db with
  | (.error e, inner) => (.error e, inner)
  | (.ok none, inner) => (.ok none, inner)
  | (.ok (some item), inner) =>
      if filter.accepts item then (.ok (some item), inner)
      else callFiltered filter inner db
termination_by self.remaining db
decreasing_by exact remaining_lt (next_of_call _h)

/-- The source's loop. -/
theorem callFiltered_eq (filter : TraversalFilter) (self : FullTraversal) (db : Tables) :
    self.callFiltered filter db =
      match self.call db with
      | (.ok (some item), inner) =>
          if filter.accepts item then (.ok (some item), inner) else inner.callFiltered filter db
      | r => r := by
  rw [callFiltered]
  split <;> rename_i hcall <;> rw [hcall]

theorem nextFiltered_eq_call (filter : TraversalFilter) (self : FullTraversal) (db : Tables) :
    self.nextFiltered filter db = returned (self.callFiltered filter db) := by
  fun_induction callFiltered filter self db with
  | case1 self e inner hcall =>
      rw [nextFiltered_eq, next_eq_call, hcall]
      rfl
  | case2 self inner hcall =>
      rw [nextFiltered_eq, next_eq_call, hcall]
      rfl
  | case3 self item inner hcall haccepts =>
      rw [nextFiltered_eq, next_of_call hcall]
      exact if_pos haccepts
  | case4 self item inner hcall haccepts ih =>
      rw [nextFiltered_eq, next_of_call hcall]
      exact (if_neg haccepts).trans ih

end FullTraversal

namespace Traversal

/-- `next`, with the state that it leaves. -/
def call (db : Tables) : Traversal → Except SyncError (Option Cid) × Traversal
  | .Sequence [] => (.ok none, .Sequence [])
  | .Sequence (cid :: cids) => (.ok (some cid), .Sequence cids)
  | .Full t => Prod.map id .Full (t.call db)
  | .Filtered inner filter => Prod.map id (.Filtered · filter) (inner.callFiltered filter db)

/-- **`call` is `next`**, as far as the caller can see. -/
theorem next_eq_call (db : Tables) (self : Traversal) :
    self.next db = FullTraversal.returned (self.call db) := by
  have hmap : ∀ (f : FullTraversal → Traversal) r, (FullTraversal.returned r).map
      (Option.map (Prod.map id f)) = FullTraversal.returned (Prod.map id f r) := by
    rintro f ⟨(e | (_ | cid)), t⟩
    · rfl
    · rfl
    · rfl
  cases self with
  | Sequence cids =>
      cases cids with
      | nil => rfl
      | cons cid cids => rfl
  | Full t => rw [next, call, FullTraversal.next_eq_call, hmap]
  | Filtered inner filter => rw [next, call, FullTraversal.nextFiltered_eq_call, hmap]

/-- The full traversal inside of a traversal. -/
def full : Traversal → Option FullTraversal
  | .Sequence _ => none
  | .Full t | .Filtered t _ => some t

end Traversal

/-- **A block that is new to the tables** is inserted without a change to the links that could be
looked up. -/
theorem Tables.links_insertLinks {db db' : Tables} {cid : Cid} {hash : Hash} {data : List UInt8}
    (h : db.insertLinks cid hash data = (.ok (), db')) (hcid : db.blake3Hash cid.hash = none)
    (hhash : ∀ mh, db.blake3Hash mh ≠ some hash) {c : Cid} {links : Option (List Cid)}
    (hlinks : db.links c = .ok links) : db'.links c = .ok links := by
  obtain ⟨_, _, hrows, hdata⟩ := insertLinks_ok h
  rw [Tables.links] at hlinks ⊢
  cases hc : db.hashToBlake3.get? c.hash with
  | none =>
      rw [hc] at hlinks
      cases hlinks
  | some hash' =>
      have hne : c.hash ≠ cid.hash := by
        intro heq
        rw [blake3Hash, ← heq, hc] at hcid
        cases hcid
      have hkey : (⟨c.codec, hash'⟩ : DataKey) ≠ ⟨cid.codec, hash⟩ := by
        intro heq
        exact hhash c.hash (hc.trans (congrArg some (DataKey.mk.inj heq).2))
      have hrow : db'.dataToLinks.get? ⟨c.codec, hash'⟩ = db.dataToLinks.get? ⟨c.codec, hash'⟩ := by
        rcases hdata with ⟨_, hsame⟩ | ⟨v, _, _, hinsert⟩
        · rw [hsame]
        · rw [hinsert, SortedTable.get?_insert, if_neg hkey]
      rw [hrows, SortedTable.get?_insert, if_neg hne, hc]
      simp only [hrow]
      rw [hc] at hlinks
      exact hlinks

/-! ## A run over one database -/

namespace FullTraversal

/-- If the deferred work succeeds, it pushes the links that the traversal follows. -/
theorem eq_pending_of_expand {self : FullTraversal} {db : Tables} {stack : List Cid}
    (h : self.expand db = .ok stack) : stack = self.pending db := by
  have hprev : ∀ cid, self.prev = some cid → cid.codec ≠ rawCodec →
      ∃ links, db.links cid = .ok links := by
    intro cid hp hraw
    rw [expand, hp] at h
    simp only [if_neg hraw] at h
    cases hlinks : db.links cid with
    | error e =>
        rw [hlinks] at h
        cases h
    | ok links => exact ⟨links, rfl⟩
  exact Except.ok.inj (h.symm.trans (expand_eq_pending hprev))

/-- The deferred work fails only if the links of the deferred cid cannot be read. -/
theorem expand_eq_error {self : FullTraversal} {db : Tables} {e : SyncError}
    (h : self.expand db = .error e) :
    ∃ cid, self.prev = some cid ∧ cid.codec ≠ rawCodec ∧ db.links cid = .error e := by
  rw [expand] at h
  split at h
  · cases h
  · rename_i cid hp
    split_ifs at h with hraw
    split at h
    · rename_i e' hlinks
      cases h
      exact ⟨cid, hp, hraw, hlinks⟩
    · cases h
    · cases h

/-- **What a call does**: it fails in the look-up, comes to the end or yields a cid. -/
theorem call_cases (self : FullTraversal) (db : Tables) :
    (∃ e, self.expand db = .error e ∧ self.call db = (.error e, { self with prev := none })) ∨
    (pop self.visited (self.pending db) = none ∧
      self.call db = (.ok none, ⟨none, [], self.visited⟩)) ∨
    ∃ cid stack, pop self.visited (self.pending db) = some (cid, stack) ∧
      self.expand db = .ok (self.pending db) ∧
      self.call db = (.ok (some cid), ⟨some cid, stack, insert cid self.visited⟩) := by
  rw [call]
  cases hexpand : self.expand db with
  | error e => exact .inl ⟨e, rfl, rfl⟩
  | ok stack =>
      obtain rfl := eq_pending_of_expand hexpand
      dsimp only
      cases hpop : pop self.visited (self.pending db) with
      | none => exact .inr (.inl ⟨rfl, rfl⟩)
      | some r => exact .inr (.inr ⟨r.1, r.2, rfl, rfl, rfl⟩)

/-- The links of a cid that cannot be looked up are not followed. -/
theorem pending_of_expand_eq_error {self : FullTraversal} {db : Tables} {e : SyncError}
    (h : self.expand db = .error e) : self.pending db = self.stack := by
  obtain ⟨cid, hp, hraw, hlinks⟩ := expand_eq_error h
  rw [pending, hp, Option.map_some, Option.getD_some, Tables.children, if_neg hraw, hlinks]
  rfl

/-- **A run yields the pre-order** of what is pending, if it passes over the calls that fail. -/
theorem visits_of_drains {db : Tables} {t : FullTraversal} {out : List Cid}
    (h : Drains (fun t => t.call db) t out) :
    ∃ visited', Visits db.children (t.pending db) t.visited out visited' := by
  induction h with
  | @finish t t' h =>
      rcases t.call_cases db with ⟨e, _, hcall⟩ | ⟨hpop, _⟩ | ⟨cid, stack, _, _, hcall⟩
      · cases h.symm.trans hcall
      · exact ⟨_, visits_of_pop_eq_none hpop⟩
      · cases h.symm.trans hcall
  | @fail t t' e out h _ ih =>
      rcases t.call_cases db with ⟨e', hexpand, hcall⟩ | ⟨_, hcall⟩ | ⟨cid, stack, _, _, hcall⟩
      · cases h.symm.trans hcall
        rw [pending_of_expand_eq_error hexpand]
        exact ih
      · cases h.symm.trans hcall
      · cases h.symm.trans hcall
  | @yields t t' cid out h _ ih =>
      rcases t.call_cases db with ⟨e, _, hcall⟩ | ⟨_, hcall⟩ | ⟨cid', stack, hpop, _, hcall⟩
      · cases h.symm.trans hcall
      · cases h.symm.trans hcall
      · cases h.symm.trans hcall
        obtain ⟨visited', hvisits⟩ := ih
        exact ⟨visited', visits_of_pop_eq_some hpop
          (Visits.of_stack (pop_eq_some hpop).1 hvisits)⟩

/-- Each run ends: a call that fails leaves no cid to look up, and the next one moves on. -/
theorem exists_drains (db : Tables) (t : FullTraversal) :
    ∃ out, Drains (fun t => t.call db) t out := by
  refine Drains.exists_of_measure _
    (fun t => 2 * t.remaining db + if t.prev = none then 0 else 1) ?_ ?_ t
  · intro t e t' h
    have hcall : t.call db = (.error e, t') := h
    rcases t.call_cases db with ⟨e', hexpand, heq⟩ | ⟨_, heq⟩ | ⟨cid, stack, _, _, heq⟩
    · cases hcall.symm.trans heq
      obtain ⟨cid, hp, _, _⟩ := expand_eq_error hexpand
      have hsame : remaining { t with prev := none } db = t.remaining db := rfl
      simp [hp, hsame]
    · cases hcall.symm.trans heq
    · cases hcall.symm.trans heq
  · intro t cid t' h
    have hlt := remaining_lt (next_of_call h)
    split_ifs <;> omega

/-- The cids that a call passes over, since the filter rejects them. -/
inductive Passes (filter : TraversalFilter) (db : Tables) :
    FullTraversal → List Cid → FullTraversal → Prop
  | here {t : FullTraversal} : Passes filter db t [] t
  | past {t t' inner : FullTraversal} {item : Cid} {items : List Cid}
      (h : t.call db = (.ok (some item), t')) (hrejects : filter.accepts item = false)
      (rest : Passes filter db t' items inner) : Passes filter db t (item :: items) inner

/-- **A filtered call fails** in the look-up of the cid that it came to last. -/
theorem passes_of_error {filter : TraversalFilter} {t failed : FullTraversal} {db : Tables}
    {e : SyncError} (h : t.callFiltered filter db = (.error e, failed)) :
    ∃ passed inner, Passes filter db t passed inner ∧ inner.expand db = .error e ∧
      failed = { inner with prev := none } := by
  fun_induction callFiltered filter t db with
  | case1 t e' inner hcall =>
      cases h
      rcases t.call_cases db with ⟨e', hexpand, heq⟩ | ⟨_, heq⟩ | ⟨cid, stack, _, _, heq⟩
      · cases hcall.symm.trans heq
        exact ⟨[], t, .here, hexpand, rfl⟩
      · cases hcall.symm.trans heq
      · cases hcall.symm.trans heq
  | case2 t inner hcall => cases h
  | case3 t item inner hcall haccepts => cases h
  | case4 t item inner hcall haccepts ih =>
      obtain ⟨passed, last, hpasses, hexpand, hfailed⟩ := ih h
      exact ⟨item :: passed, last, .past hcall (Bool.not_eq_true _ ▸ haccepts) hpasses, hexpand,
        hfailed⟩

/-- The deferred work over tables that have the links. -/
theorem expand_of_kept {self : FullTraversal} {db db' : Tables} {stack : List Cid}
    (h : self.expand db = .ok stack)
    (hkept : ∀ cid, self.prev = some cid → ∀ links, db.links cid = .ok links →
      db'.links cid = .ok links) : self.expand db' = .ok stack := by
  rw [expand] at h ⊢
  split at h
  · exact h
  · rename_i cid hp
    split_ifs at h ⊢
    · exact h
    · split at h
      · cases h
      · rename_i hlinks
        rw [hkept cid hp _ hlinks]
        exact h
      · rename_i links hlinks
        rw [hkept cid hp _ hlinks]
        exact h

/-- A call over other tables passes over the same cids. -/
theorem Passes.callFiltered_congr {filter : TraversalFilter} {db db' : Tables} {t inner : FullTraversal}
    {passed : List Cid} (h : Passes filter db t passed inner)
    (hkept : ∀ c ∈ t.prev.toList ++ passed, ∀ links, db.links c = .ok links →
      db'.links c = .ok links) : t.callFiltered filter db' = inner.callFiltered filter db' := by
  induction h with
  | here => rfl
  | @past t t' inner item items h hrejects _ ih =>
      rcases t.call_cases db with ⟨e, _, hcall⟩ | ⟨_, hcall⟩ | ⟨cid, stack, hpop, hexpand, hcall⟩
      · cases h.symm.trans hcall
      · cases h.symm.trans hcall
      · cases h.symm.trans hcall
        have hexpand' : t.expand db' = .ok (t.pending db) :=
          expand_of_kept hexpand fun c hc =>
            hkept c (List.mem_append_left _ (Option.mem_toList.mpr hc))
        have hcall' : t.call db' = (.ok (some item), ⟨some item, stack, insert item t.visited⟩) := by
          rw [call, hexpand']
          simp only [hpop]
        rw [callFiltered_eq, hcall']
        simp only [hrejects]
        exact ih fun c hc => hkept c (List.mem_append_right _ hc)

end FullTraversal

namespace Traversal

/-- **A run of a traversal** yields what the filter accepts of the pre-order. -/
theorem exists_drains {self : Traversal} {t : FullTraversal} (db : Tables)
    (hfull : self.full = some t) :
    ∃ out visited', Visits db.children (t.pending db) t.visited out visited' ∧
      Drains (call db) self (out.filter self.filter.accepts) := by
  obtain ⟨out, hdrains⟩ := t.exists_drains db
  obtain ⟨visited', hvisits⟩ := FullTraversal.visits_of_drains hdrains
  refine ⟨out, visited', hvisits, ?_⟩
  cases self with
  | Sequence cids => cases hfull
  | Full t' =>
      cases hfull
      have hall : out.filter (Traversal.filter (.Full t)).accepts = out :=
        List.filter_eq_self.mpr fun cid _ => rfl
      rw [hall]
      exact hdrains.map fun s => rfl
  | Filtered t' filter =>
      cases hfull
      have hloop : IsFiltered filter.accepts (fun t : FullTraversal => t.call db)
          (fun t => t.callFiltered filter db) := by
        intro s
        have heq := s.callFiltered_eq filter db
        rcases hcall : s.call db with ⟨e | (_ | item), t'⟩
        all_goals
          rw [hcall] at heq
          simp only [hcall]
          exact heq
      exact (hdrains.filtered hloop).map (f := (Traversal.Filtered · filter)) fun s => rfl

/-- **A call that fails**, and where it does. -/
theorem call_eq_error {self failed : Traversal} {db : Tables} {e : SyncError}
    (h : self.call db = (.error e, failed)) :
    ∃ t passed inner, self.full = some t ∧ FullTraversal.Passes self.filter db t passed inner ∧
      inner.expand db = .error e ∧ failed.full = some { inner with prev := none } ∧
      failed.filter = self.filter := by
  cases self with
  | Sequence cids =>
      cases cids with
      | nil => cases h
      | cons cid cids => cases h
  | Full t =>
      rcases t.call_cases db with ⟨e', hexpand, hcall⟩ | ⟨_, hcall⟩ | ⟨cid, stack, _, _, hcall⟩
      · rw [call, hcall] at h
        cases h
        exact ⟨t, [], t, rfl, .here, hexpand, rfl, rfl⟩
      · rw [call, hcall] at h
        cases h
      · rw [call, hcall] at h
        cases h
  | Filtered t filter =>
      match hcall : t.callFiltered filter db with
      | (r, t') =>
          rw [call, hcall] at h
          cases h
          obtain ⟨passed, inner, hpasses, hexpand, rfl⟩ := FullTraversal.passes_of_error hcall
          exact ⟨t, passed, inner, rfl, hpasses, hexpand, rfl, rfl⟩

/-- Over other tables, the call goes on where it failed. -/
theorem exists_resumed_of_passes {self : Traversal} {t inner : FullTraversal} {db db' : Tables}
    {passed : List Cid} (hfull : self.full = some t)
    (hpasses : FullTraversal.Passes self.filter db t passed inner)
    (hkept : ∀ c ∈ t.prev.toList ++ passed, ∀ links, db.links c = .ok links →
      db'.links c = .ok links) :
    ∃ resumed : Traversal, resumed.full = some inner ∧ resumed.filter = self.filter ∧
      self.call db' = resumed.call db' := by
  cases self with
  | Sequence cids => cases hfull
  | Full t' =>
      cases hfull
      -- nothing is passed over without a filter
      cases hpasses with
      | here => exact ⟨.Full t, rfl, rfl, rfl⟩
      | past _ hrejects _ => cases hrejects
  | Filtered t' filter =>
      cases hfull
      refine ⟨.Filtered inner filter, rfl, rfl, ?_⟩
      have heq : t.callFiltered filter db' = inner.callFiltered filter db' :=
        hpasses.callFiltered_congr hkept
      rw [call, call, heq]

/-- **When nothing is lost.**  A call of `next` that fails has looked up the links of a cid in vain,
and that cid is gone afterwards.  Over tables that have its links, the traversal goes on to yield what
it would have yielded without the failure if and only if what is accepted of the cids that are found
from the links comes first on the stack anyway. -/
theorem resumes_iff {self failed : Traversal} {db : Tables} {e : SyncError}
    (h : self.call db = (.error e, failed)) :
    ∃ t passed inner cid, self.full = some t ∧
      FullTraversal.Passes self.filter db t passed inner ∧
      inner.prev = some cid ∧ cid.codec ≠ rawCodec ∧ db.links cid = .error e ∧
      failed.full = some { inner with prev := none } ∧ failed.filter = self.filter ∧
      ∀ db' : Tables, (∀ c ∈ t.prev.toList ++ passed, ∀ links, db.links c = .ok links →
          db'.links c = .ok links) →
        ((∃ out, Drains (call db') failed out ∧ Drains (call db') self out) ↔
          ∃ below mid ahead last,
            Visits db'.children (db'.children cid) inner.visited below mid ∧
            Visits db'.children inner.stack inner.visited ahead last ∧
            below.filter self.filter.accepts <+: ahead.filter self.filter.accepts) := by
  obtain ⟨t, passed, inner, hfull, hpasses, hexpand, hfailed, hfilter⟩ := call_eq_error h
  obtain ⟨cid, hprev, hraw, hlinks⟩ := FullTraversal.expand_eq_error hexpand
  refine ⟨t, passed, inner, cid, hfull, hpasses, hprev, hraw, hlinks, hfailed, hfilter, ?_⟩
  intro db' hkept
  obtain ⟨resumed, hresumed, hsame, hcall⟩ := exists_resumed_of_passes hfull hpasses hkept
  -- what comes after the failure, and what would have come without it
  obtain ⟨ahead, last, hahead, hdrains⟩ := exists_drains db' hfailed
  obtain ⟨all, last', hall, hdrains'⟩ := exists_drains db' hresumed
  replace hdrains' := hdrains'.congr hcall.symm
  rw [hfilter] at hdrains
  rw [hsame] at hdrains'
  have hpending : inner.pending db' = db'.children cid ++ inner.stack := by
    rw [FullTraversal.pending, hprev]
    rfl
  rw [hpending] at hall
  obtain ⟨below, mid, _, hbelow, _, _⟩ := hall.of_append
  have hiff := Visits.filter_eq_iff self.filter.accepts hbelow hahead hall
  constructor
  · rintro ⟨out, hout, hout'⟩
    refine ⟨below, mid, ahead, last, hbelow, hahead, hiff.mp ?_⟩
    exact (hdrains.unique hout).trans (hdrains'.unique hout').symm
  · rintro ⟨below', mid', ahead', last'', hbelow', hahead', hfirst⟩
    obtain ⟨rfl, _⟩ := hbelow.unique hbelow'
    have hahead : Visits db'.children inner.stack inner.visited ahead last := hahead
    obtain ⟨rfl, _⟩ := hahead.unique hahead'
    refine ⟨_, hdrains, ?_⟩
    rw [hiff.mpr hfirst]
    exact hdrains'

end Traversal

end Resume

section Runs

open Libraries

attribute [local instance] Libraries.toy

theorem insertLinks_root : Tables.empty.insertLinks root (padded [1]) [1] = (.ok (), rootTables) := by
  rfl

theorem children_root : rootTables.children root = [leaf] := by decide +kernel

/-- The leaf is on the stack, too, so it does not matter that the root is gone. -/
theorem Traversal.resumes_leaf :
    ∃ failed, (Traversal.Full ⟨some root, [leaf], {root}⟩).call Tables.empty
        = (.error .Blake3HashNotFound, failed) ∧
      ∃ out, Drains (Traversal.call rootTables) failed out ∧
        Drains (Traversal.call rootTables) (.Full ⟨some root, [leaf], {root}⟩) out := by
  have hcall : (Traversal.Full ⟨some root, [leaf], {root}⟩).call Tables.empty
      = (.error .Blake3HashNotFound, .Full ⟨none, [leaf], {root}⟩) := rfl
  obtain ⟨t, passed, inner, cid, hfull, hpasses, hprev, _, _, _, _, hiff⟩ := resumes_iff hcall
  cases hfull
  cases hpasses with
  | past _ hrejects _ => cases hrejects
  | here =>
      cases hprev
      have hkept : ∀ c ∈ [root] ++ [], ∀ links, Tables.empty.links c = .ok links →
          rootTables.links c = .ok links := by
        intro c _ links hlinks
        exact Tables.links_insertLinks insertLinks_root rfl (fun _ h => nomatch h) hlinks
      have hnew : leaf ∉ ({root} : Finset Cid) := by decide
      -- a raw node has no children
      have hbelow : Visits rootTables.children (rootTables.children leaf) {leaf, root} []
          {leaf, root} := .nil
      have hleaf : Visits rootTables.children [leaf] {root} [leaf] {leaf, root} :=
        .visit hnew hbelow .nil
      have hroot : Visits rootTables.children (rootTables.children root) {root} [leaf]
          {leaf, root} := by
        rw [children_root]
        exact hleaf
      exact ⟨_, hcall, (hiff rootTables hkept).mpr
        ⟨[leaf], _, [leaf], _, hroot, hleaf, List.prefix_rfl⟩⟩

/-- The block of the root arrives after the look-up of its links, and the leaf is not found. -/
theorem Traversal.leaf_skipped :
    (Traversal.Full (.new root ∅)).call Tables.empty
        = (.ok (some root), .Full ⟨some root, [], {root}⟩) ∧
      (Traversal.Full ⟨some root, [], {root}⟩).call Tables.empty
        = (.error .Blake3HashNotFound, .Full ⟨none, [], {root}⟩) ∧
      Tables.empty.insertLinks root (padded [1]) [1] = (.ok (), rootTables) ∧
      Drains (Traversal.call rootTables) (.Full ⟨some root, [], {root}⟩) [leaf] ∧
      ∀ out, Drains (Traversal.call rootTables) (.Full ⟨none, [], {root}⟩) out → out = [] := by
  refine ⟨rfl, rfl, insertLinks_root, ?_, fun out h => ?_⟩
  · have hleaf : (Traversal.Full ⟨some root, [], {root}⟩).call rootTables
        = (.ok (some leaf), .Full ⟨some leaf, [], {leaf, root}⟩) := by rfl
    exact .yields hleaf (.finish rfl)
  · have hend : Drains (Traversal.call rootTables) (.Full ⟨none, [], {root}⟩) [] := .finish rfl
    exact h.unique hend

end Runs

end IrohExperiments.DagSync
