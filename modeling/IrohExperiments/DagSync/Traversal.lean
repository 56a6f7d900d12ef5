import IrohExperiments.DagSync.Tables
import Mathlib.Data.Finset.Card

/-!
# Deterministic traversals

A traversal yields cids one after the other and lets go of the database in between, so that the
database can change from one call of `next` to the next one.  That is what lets a receiver traverse
a DAG that it does not have yet: `FullTraversal` yields a cid *before* it looks up the links of the
cid, and it does the look-up, the deferred work, at the start of the following call.

**Termination.**  Over a fixed database a traversal ends: each cid that a full traversal yields comes
from the stack or from the links in the database, and it was not visited before
(`FullTraversal.remaining_lt`).  Over a database that changes there is no such bound, so the
receiver is modelled by its steps.
-/

namespace IrohExperiments.DagSync

variable [Libraries]

/-- Depth first, pre-order, left to right.  The top of the stack comes first in the list. -/
structure FullTraversal where
  prev : Option Cid
  stack : List Cid
  visited : Finset Cid
  deriving DecidableEq

namespace FullTraversal

def new (root : Cid) (visited : Finset Cid) : FullTraversal := ⟨none, [root], visited⟩

/-- The deferred work: push the links of the cid that was yielded last, the first link on top. -/
def expand (self : FullTraversal) (db : Tables) : Except SyncError (List Cid) :=
  match self.prev with
  | none => .ok self.stack
  | some cid =>
      -- no need to traverse raw nodes
      if cid.codec = rawCodec then .ok self.stack
      else
        match db.links cid with
        | .error e => .error e
        | .ok none => .ok self.stack
        | .ok (some links) => .ok (links ++ self.stack)

/-- Pop cids until there is one that was not visited. -/
def pop (visited : Finset Cid) : List Cid → Option (Cid × List Cid)
  | [] => none
  | cid :: stack => if cid ∈ visited then pop visited stack else some (cid, stack)

/-- The deferred work is done in the first round of the loop; the rounds after it only pop. -/
def next (self : FullTraversal) (db : Tables) : Except SyncError (Option (Cid × FullTraversal)) :=
  match self.expand db with
  | .error e => .error e
  | .ok stack =>
      match pop self.visited stack with
      | none => .ok none
      | some (cid, stack) => .ok (some (cid, ⟨some cid, stack, insert cid self.visited⟩))

end FullTraversal

/-! ## Termination over a fixed database -/

/-- All links that are stored in a database. -/
def Tables.knownLinks (self : Tables) : Finset Cid :=
  (self.dataToLinks.rows.flatMap fun r => (Libraries.fromSlice r.2).getD []).toFinset

theorem Tables.mem_knownLinks {db : Tables} {cid : Cid} {links : List Cid}
    (h : db.links cid = .ok (some links)) {link : Cid} (hlink : link ∈ links) :
    link ∈ db.knownLinks := by
  rw [Tables.links] at h
  cases hhash : db.hashToBlake3.get? cid.hash with
  | none =>
      rw [hhash] at h
      cases h
  | some hash =>
      simp only [hhash] at h
      cases hrow : db.dataToLinks.get? ⟨cid.codec, hash⟩ with
      | none =>
          rw [hrow] at h
          cases h
      | some v =>
          simp only [hrow] at h
          cases hv : Libraries.fromSlice v with
          | none =>
              rw [hv] at h
              cases h
          | some links' =>
              rw [hv] at h
              cases h
              rw [knownLinks, List.mem_toFinset, List.mem_flatMap]
              refine ⟨_, (db.dataToLinks.mem_rows_iff _ v).mpr hrow, ?_⟩
              rw [hv]
              exact hlink

namespace FullTraversal

/-- The deferred work pushes nothing but links from the database. -/
theorem mem_of_expand {self : FullTraversal} {db : Tables} {stack : List Cid}
    (h : self.expand db = .ok stack) {cid : Cid} (hcid : cid ∈ stack) :
    cid ∈ self.stack.toFinset ∪ db.knownLinks := by
  have hold : cid ∈ self.stack → cid ∈ self.stack.toFinset ∪ db.knownLinks := fun h =>
    Finset.mem_union_left _ (List.mem_toFinset.mpr h)
  rw [expand] at h
  split at h
  · cases h
    exact hold hcid
  · split_ifs at h
    · cases h
      exact hold hcid
    · split at h
      · cases h
      · cases h
        exact hold hcid
      · rename_i links hlinks
        cases h
        rcases List.mem_append.mp hcid with hlink | hcid
        · exact Finset.mem_union_right _ (Tables.mem_knownLinks hlinks hlink)
        · exact hold hcid

omit [Libraries] in
/-- What `pop` returns was on the stack and was not visited; what it leaves was on the stack. -/
theorem pop_eq_some {visited : Finset Cid} {stack rest : List Cid} {cid : Cid}
    (h : pop visited stack = some (cid, rest)) :
    cid ∉ visited ∧ cid ∈ stack ∧ ∀ c ∈ rest, c ∈ stack := by
  induction stack with
  | nil => cases h
  | cons c stack ih =>
      rw [pop] at h
      split_ifs at h with hc
      · obtain ⟨hnew, hmem, hrest⟩ := ih h
        exact ⟨hnew, List.mem_cons_of_mem _ hmem, fun c hc => List.mem_cons_of_mem _ (hrest c hc)⟩
      · cases h
        exact ⟨hc, List.mem_cons_self, fun c hc => List.mem_cons_of_mem _ hc⟩

/-- **What a call of `next` that yields a cid does.** -/
theorem next_eq_some {self t : FullTraversal} {db : Tables} {cid : Cid}
    (h : self.next db = .ok (some (cid, t))) :
    ∃ stack, self.expand db = .ok stack ∧ pop self.visited stack = some (cid, t.stack) ∧
      t.prev = some cid ∧ t.visited = insert cid self.visited := by
  rw [next] at h
  cases hexpand : self.expand db with
  | error e =>
      rw [hexpand] at h
      cases h
  | ok stack =>
      simp only [hexpand] at h
      cases hpop : pop self.visited stack with
      | none =>
          rw [hpop] at h
          cases h
      | some r =>
          rw [hpop] at h
          cases h
          exact ⟨stack, rfl, hpop, rfl, rfl⟩

/-- Nothing comes up but what is on the stack or in the database. -/
theorem mem_of_next {self t : FullTraversal} {db : Tables} {cid : Cid}
    (h : self.next db = .ok (some (cid, t))) :
    ∀ c ∈ cid :: t.stack, c ∈ self.stack.toFinset ∪ db.knownLinks := by
  obtain ⟨stack, hexpand, hpop, _, _⟩ := next_eq_some h
  obtain ⟨_, hmem, hrest⟩ := pop_eq_some hpop
  intro c hc
  rcases List.mem_cons.mp hc with rfl | hc
  · exact mem_of_expand hexpand hmem
  · exact mem_of_expand hexpand (hrest c hc)

/-- The cids that can still be yielded over a fixed database. -/
def remaining (self : FullTraversal) (db : Tables) : ℕ :=
  ((self.stack.toFinset ∪ db.knownLinks) \ self.visited).card

/-- **Each cid that is yielded leaves fewer to come.** -/
theorem remaining_lt {self t : FullTraversal} {db : Tables} {cid : Cid}
    (h : self.next db = .ok (some (cid, t))) : t.remaining db < self.remaining db := by
  have hmem := mem_of_next h
  obtain ⟨_, _, hpop, _, hvisited⟩ := next_eq_some h
  refine Finset.card_lt_card (Finset.ssubset_iff_subset_ne.mpr ⟨?_, ?_⟩)
  · -- what is to come afterwards was to come before
    intro c hc
    obtain ⟨hc, hcvisited⟩ := Finset.mem_sdiff.mp hc
    rw [hvisited, Finset.mem_insert, not_or] at hcvisited
    refine Finset.mem_sdiff.mpr ⟨?_, hcvisited.2⟩
    rcases Finset.mem_union.mp hc with hc | hc
    · exact hmem c (List.mem_cons_of_mem _ (List.mem_toFinset.mp hc))
    · exact Finset.mem_union_right _ hc
  · -- the cid itself is not to come any more
    intro heq
    have hbefore : cid ∈ (self.stack.toFinset ∪ db.knownLinks) \ self.visited :=
      Finset.mem_sdiff.mpr ⟨hmem cid List.mem_cons_self, (pop_eq_some hpop).1⟩
    rw [← heq, Finset.mem_sdiff, hvisited] at hbefore
    exact hbefore.2 (Finset.mem_insert_self cid _)

/-- `Filtered::next`. -/
def nextFiltered (filter : TraversalFilter) (self : FullTraversal) (db : Tables) :
    Except SyncError (Option (Cid × FullTraversal)) :=
  match _h : self.next db with
  | .error e => .error e
  | .ok none => .ok none
  | .ok (some (item, inner)) =>
      if filter.accepts item then .ok (some (item, inner))
      else nextFiltered filter inner db
termination_by self.remaining db
decreasing_by exact remaining_lt _h

/-- The cids that the filter rejects on the way count, too. -/
theorem nextFiltered_lt {filter : TraversalFilter} {self t : FullTraversal} {db : Tables} {cid : Cid}
    (h : self.nextFiltered filter db = .ok (some (cid, t))) : t.remaining db < self.remaining db := by
  fun_induction nextFiltered filter self db with
  | case1 self e hnext => cases h
  | case2 self hnext => cases h
  | case3 self item inner hnext haccepts =>
      cases h
      exact remaining_lt hnext
  | case4 self item inner hnext haccepts ih => exact (ih h).trans (remaining_lt hnext)

end FullTraversal

/-! ## Traversals -/

inductive Traversal where
  | Sequence (cids : List Cid)
  | Full (traversal : FullTraversal)
  | Filtered (inner : FullTraversal) (filter : TraversalFilter)
  deriving DecidableEq

namespace Traversal

def next (db : Tables) : Traversal → Except SyncError (Option (Cid × Traversal))
  | .Sequence [] => .ok none
  | .Sequence (cid :: cids) => .ok (some (cid, .Sequence cids))
  | .Full t => (t.next db).map (Option.map (Prod.map id .Full))
  | .Filtered inner filter =>
      (inner.nextFiltered filter db).map (Option.map (Prod.map id (.Filtered · filter)))

/-- The cids that can still be yielded over a fixed database. -/
def remaining (db : Tables) : Traversal → ℕ
  | .Sequence cids => cids.length
  | .Full t | .Filtered t _ => t.remaining db

omit [Libraries] in
theorem map_eq_some {α : Type*} {f : α → Traversal} {r : Except SyncError (Option (Cid × α))}
    {cid : Cid} {t : Traversal}
    (h : r.map (Option.map (Prod.map id f)) = .ok (some (cid, t))) :
    ∃ a, r = .ok (some (cid, a)) ∧ t = f a := by
  match r with
  | .error e => cases h
  | .ok none => cases h
  | .ok (some (c, a)) =>
      cases h
      exact ⟨a, rfl, rfl⟩

/-- **Every traversal ends over a fixed database.** -/
theorem remaining_lt {db : Tables} {self t : Traversal} {cid : Cid}
    (h : self.next db = .ok (some (cid, t))) : t.remaining db < self.remaining db := by
  cases self with
  | Sequence cids =>
      cases cids with
      | nil => cases h
      | cons c cids =>
          cases h
          exact Nat.lt_succ_self _
  | Full inner =>
      obtain ⟨inner', hnext, rfl⟩ := map_eq_some h
      exact FullTraversal.remaining_lt hnext
  | Filtered inner filter =>
      obtain ⟨inner', hnext, rfl⟩ := map_eq_some h
      exact FullTraversal.nextFiltered_lt hnext

/-- The cids that a traversal yields over a fixed database. -/
inductive Yields (db : Tables) : Traversal → Cid → Prop
  | head {t t' : Traversal} {cid : Cid} (h : t.next db = .ok (some (cid, t'))) : Yields db t cid
  | tail {t t' : Traversal} {c cid : Cid} (h : t.next db = .ok (some (c, t')))
      (hcid : Yields db t' cid) : Yields db t cid

/-- The traversal without its filter. -/
def unfiltered : Traversal → Traversal
  | .Filtered inner _ => .Full inner
  | t => t

def filter : Traversal → TraversalFilter
  | .Filtered _ filter => filter
  | _ => .All

/-- A sequence does not look at the database. -/
def followsLinks : Traversal → Bool
  | .Sequence _ => false
  | _ => true

/-- The cid whose links the next call of `next` looks up. -/
def prev : Traversal → Option Cid
  | .Sequence _ => none
  | .Full t | .Filtered t _ => t.prev

theorem next_full {db : Tables} {self t : FullTraversal} {cid : Cid}
    (h : self.next db = .ok (some (cid, t))) :
    (Traversal.Full self).next db = .ok (some (cid, .Full t)) := by
  rw [next, h]
  rfl

/-- A full traversal yields what is on its stack and what the database has links to. -/
theorem Yields.mem {db : Tables} {t : Traversal} {cid : Cid} (h : t.Yields db cid)
    {inner : FullTraversal} (heq : t = .Full inner) :
    cid ∈ inner.stack.toFinset ∪ db.knownLinks := by
  induction h generalizing inner with
  | head h =>
      subst heq
      obtain ⟨inner', hnext, rfl⟩ := map_eq_some h
      exact FullTraversal.mem_of_next hnext _ List.mem_cons_self
  | tail h _ ih =>
      subst heq
      obtain ⟨inner', hnext, rfl⟩ := map_eq_some h
      rcases Finset.mem_union.mp (ih rfl) with hstack | hknown
      · exact FullTraversal.mem_of_next hnext _
          (List.mem_cons_of_mem _ (List.mem_toFinset.mp hstack))
      · exact Finset.mem_union_right _ hknown

end Traversal

/-- The source's loop. -/
theorem FullTraversal.nextFiltered_eq (filter : TraversalFilter) (self : FullTraversal)
    (db : Tables) :
    self.nextFiltered filter db =
      match self.next db with
      | .error e => .error e
      | .ok none => .ok none
      | .ok (some (item, inner)) =>
          if filter.accepts item then .ok (some (item, inner))
          else inner.nextFiltered filter db := by
  rw [nextFiltered]
  split <;> rename_i hnext <;> rw [hnext]

/-- **What a call of `nextFiltered` that yields a cid does.**  It has passed over cids that the
unfiltered traversal yields. -/
theorem FullTraversal.nextFiltered_eq_some {filter : TraversalFilter} {self t : FullTraversal}
    {db : Tables} {cid : Cid} (h : self.nextFiltered filter db = .ok (some (cid, t))) :
    filter.accepts cid ∧ t.prev = some cid ∧ Traversal.Yields db (.Full self) cid ∧
      ∀ c, Traversal.Yields db (.Full t) c → Traversal.Yields db (.Full self) c := by
  fun_induction nextFiltered filter self db with
  | case1 self e hnext => cases h
  | case2 self hnext => cases h
  | case3 self item inner hnext haccepts =>
      cases h
      obtain ⟨_, _, _, hprev, _⟩ := next_eq_some hnext
      exact ⟨haccepts, hprev, .head (Traversal.next_full hnext),
        fun c => .tail (Traversal.next_full hnext)⟩
  | case4 self item inner hnext haccepts ih =>
      obtain ⟨haccepts, hprev, hcid, hlater⟩ := ih h
      exact ⟨haccepts, hprev, .tail (Traversal.next_full hnext) hcid,
        fun c hc => .tail (Traversal.next_full hnext) (hlater c hc)⟩

namespace Traversal

/-- What holds between a traversal and what is left of it after it yielded a cid. -/
structure Leaves (db : Tables) (traversal : Traversal) (cid : Cid) (rest : Traversal) : Prop where
  filter_eq : rest.filter = traversal.filter
  followsLinks_eq : rest.followsLinks = traversal.followsLinks
  accepts : traversal.filter.accepts cid
  prev_eq : ∀ c, rest.prev = some c → c = cid ∧ traversal.followsLinks
  yields : Yields db traversal.unfiltered cid
  later : ∀ c, Yields db rest.unfiltered c → Yields db traversal.unfiltered c

/-- **What a call of `next` that yields a cid does.** -/
theorem next_eq_some {db : Tables} {self rest : Traversal} {cid : Cid}
    (h : self.next db = .ok (some (cid, rest))) : Leaves db self cid rest := by
  cases self with
  | Sequence cids =>
      have hself : Traversal.next db (.Sequence cids) = _ := h
      cases cids with
      | nil => cases h
      | cons c cids =>
          cases h
          exact ⟨rfl, rfl, rfl, (fun _ hc => nomatch hc), .head hself, fun _ => .tail hself⟩
  | Full inner =>
      have hself : Traversal.next db (.Full inner) = _ := h
      obtain ⟨t, hnext, rfl⟩ := map_eq_some h
      obtain ⟨_, _, _, hprev, _⟩ := FullTraversal.next_eq_some hnext
      refine ⟨rfl, rfl, rfl, fun c hc => ⟨?_, rfl⟩, .head hself, fun _ => .tail hself⟩
      exact Option.some.inj (hc.symm.trans hprev)
  | Filtered inner filter =>
      obtain ⟨t, hnext, rfl⟩ := map_eq_some h
      obtain ⟨haccepts, hprev, hcid, hlater⟩ := FullTraversal.nextFiltered_eq_some hnext
      refine ⟨rfl, rfl, haccepts, fun c hc => ⟨?_, rfl⟩, hcid, hlater⟩
      exact Option.some.inj (hc.symm.trans hprev)

end Traversal

/-! ## One traversal over two databases -/

/-- Both databases have the links of a cid, and they are the same. -/
def SameLinks (db db' : Tables) (cid : Cid) : Prop :=
  ∃ links, db.links cid = .ok links ∧ db'.links cid = .ok links

namespace FullTraversal

/-- The deferred work is all that depends on the database. -/
theorem next_congr {self : FullTraversal} {db db' : Tables}
    (hprev : ∀ cid, self.prev = some cid → cid.codec ≠ rawCodec → SameLinks db db' cid) :
    ∃ r, self.next db = .ok r ∧ self.next db' = .ok r := by
  have hexpand : ∃ stack, self.expand db = .ok stack ∧ self.expand db' = .ok stack := by
    cases hp : self.prev with
    | none =>
        refine ⟨self.stack, ?_, ?_⟩
        · rw [expand, hp]
        · rw [expand, hp]
    | some cid =>
        rw [expand, expand, hp]
        simp only
        split_ifs with hraw
        · exact ⟨_, rfl, rfl⟩
        · obtain ⟨links, h, h'⟩ := hprev cid hp hraw
          rw [h, h']
          cases links with
          | none => exact ⟨_, rfl, rfl⟩
          | some links => exact ⟨_, rfl, rfl⟩
  obtain ⟨stack, h, h'⟩ := hexpand
  rw [next, next, h, h']
  simp only
  cases pop self.visited stack with
  | none => exact ⟨_, rfl, rfl⟩
  | some r => exact ⟨_, rfl, rfl⟩

/-- The cids that the filter rejects are looked up, too. -/
theorem nextFiltered_congr {filter : TraversalFilter} {self : FullTraversal} {db db' : Tables}
    (hprev : ∀ cid, self.prev = some cid → cid.codec ≠ rawCodec → SameLinks db db' cid)
    (hrejected : ∀ cid, Traversal.Yields db (.Full self) cid → cid.codec ≠ rawCodec →
      filter.accepts cid = false → SameLinks db db' cid) :
    ∃ r, self.nextFiltered filter db = .ok r ∧ self.nextFiltered filter db' = .ok r := by
  fun_induction nextFiltered filter self db with
  | case1 self e hnext =>
      obtain ⟨r, h, _⟩ := next_congr hprev
      rw [hnext] at h
      cases h
  | case2 self hnext =>
      obtain ⟨r, h, h'⟩ := next_congr hprev
      rw [hnext] at h
      cases h
      exact ⟨none, rfl, by rw [nextFiltered_eq, h']⟩
  | case3 self item inner hnext haccepts =>
      obtain ⟨r, h, h'⟩ := next_congr hprev
      rw [hnext] at h
      cases h
      refine ⟨some (item, inner), rfl, ?_⟩
      rw [nextFiltered_eq, h']
      exact if_pos haccepts
  | case4 self item inner hnext haccepts ih =>
      obtain ⟨r, h, h'⟩ := next_congr hprev
      rw [hnext] at h
      cases h
      have hitem : Traversal.Yields db (.Full self) item := .head (Traversal.next_full hnext)
      obtain ⟨_, _, _, hinner, _⟩ := next_eq_some hnext
      obtain ⟨r, h, hr⟩ := ih
        (fun cid hcid hraw => by
          cases hinner.symm.trans hcid
          exact hrejected item hitem hraw (Bool.not_eq_true _ ▸ haccepts))
        (fun cid hcid => hrejected cid (.tail (Traversal.next_full hnext) hcid))
      refine ⟨r, h, ?_⟩
      rw [nextFiltered_eq, h']
      exact (if_neg haccepts).trans hr

end FullTraversal

/-- **Two databases, one traversal.**  If they agree on the links of the cid whose look-up was
deferred and of the cids that the filter rejects, then a call of `next` returns the same over both,
and it does not fail. -/
theorem Traversal.next_congr {self : Traversal} {db db' : Tables}
    (hprev : ∀ cid, self.prev = some cid → cid.codec ≠ rawCodec → SameLinks db db' cid)
    (hrejected : ∀ cid, Yields db self.unfiltered cid → cid.codec ≠ rawCodec →
      self.filter.accepts cid = false → SameLinks db db' cid) :
    ∃ r, self.next db = .ok r ∧ self.next db' = .ok r := by
  cases self with
  | Sequence cids =>
      cases cids with
      | nil => exact ⟨_, rfl, rfl⟩
      | cons cid cids => exact ⟨_, rfl, rfl⟩
  | Full inner =>
      obtain ⟨r, h, h'⟩ := FullTraversal.next_congr hprev
      rw [next, next, h, h']
      exact ⟨_, rfl, rfl⟩
  | Filtered inner filter =>
      have hnext : ∃ r, inner.nextFiltered filter db = .ok r ∧ inner.nextFiltered filter db' = .ok r :=
        FullTraversal.nextFiltered_congr hprev hrejected
      obtain ⟨r, h, h'⟩ := hnext
      rw [next, next, h, h']
      exact ⟨_, rfl, rfl⟩

/-! ## The traversal of a request -/

/-- The traversal of a request without its filter. -/
def TraversalOpts.unfiltered : TraversalOpts → Traversal
  | .Sequence cids => .Sequence cids
  | .Full opts => .Full (.new opts.root (opts.visited.getD ∅))

/-- The filter of a request. -/
def TraversalOpts.filter : TraversalOpts → TraversalFilter
  | .Sequence _ => .All
  | .Full opts => opts.filter.getD .All

def getTraversal : TraversalOpts → Traversal
  | .Sequence cids => .Sequence cids
  | .Full opts =>
      let traversal := FullTraversal.new opts.root (opts.visited.getD ∅)
      match opts.filter.getD .All with
      | .All => .Full traversal
      | filter => .Filtered traversal filter

omit [Libraries] in
@[simp] theorem getTraversal_unfiltered (opts : TraversalOpts) :
    (getTraversal opts).unfiltered = opts.unfiltered := by
  cases opts with
  | Sequence cids => rfl
  | Full opts =>
      rw [getTraversal]
      split <;> rfl

omit [Libraries] in
@[simp] theorem getTraversal_filter (opts : TraversalOpts) :
    (getTraversal opts).filter = opts.filter := by
  cases opts with
  | Sequence cids => rfl
  | Full opts =>
      rw [getTraversal, TraversalOpts.filter]
      split
      · rename_i hall
        rw [hall]
        rfl
      · rfl

omit [Libraries] in
/-- A traversal starts without a deferred look-up. -/
@[simp] theorem getTraversal_prev (opts : TraversalOpts) : (getTraversal opts).prev = none := by
  cases opts with
  | Sequence cids => rfl
  | Full opts =>
      rw [getTraversal]
      split <;> rfl

/-! ## Whole traversals -/

namespace Traversal

/-- The cids that a traversal starts from. -/
def roots : Traversal → List Cid
  | .Sequence cids => cids
  | .Full t | .Filtered t _ => t.stack.reverse

/-- Call `next` over a fixed database until the traversal ends. -/
def collect (db : Tables) (self : Traversal) : Except SyncError (List Cid) :=
  match _h : self.next db with
  | .error e => .error e
  | .ok none => .ok []
  | .ok (some (cid, t)) => (collect db t).map (cid :: ·)
termination_by self.remaining db
decreasing_by exact remaining_lt _h

/-- The loop that `collect` stands for. -/
theorem collect_eq (db : Tables) (self : Traversal) :
    self.collect db =
      match self.next db with
      | .error e => .error e
      | .ok none => .ok []
      | .ok (some (cid, t)) => (t.collect db).map (cid :: ·) := by
  rw [collect]
  split <;> rename_i hnext <;> rw [hnext]

theorem next_of_collect_nil {db : Tables} {self : Traversal} (h : self.collect db = .ok []) :
    self.next db = .ok none := by
  rw [collect_eq] at h
  split at h
  · cases h
  · rename_i hnext
    exact hnext
  · rename_i t hnext
    cases ht : t.collect db with
    | error e =>
        rw [ht] at h
        cases h
    | ok cids =>
        rw [ht] at h
        cases h

/-- What comes first is the next step, and the rest is what the remaining traversal collects. -/
theorem next_of_collect_cons {db : Tables} {self : Traversal} {cid : Cid} {cids : List Cid}
    (h : self.collect db = .ok (cid :: cids)) :
    ∃ t, self.next db = .ok (some (cid, t)) ∧ t.collect db = .ok cids := by
  rw [collect_eq] at h
  split at h
  · cases h
  · cases h
  · rename_i t hnext
    cases ht : t.collect db with
    | error e =>
        rw [ht] at h
        cases h
    | ok rest =>
        rw [ht] at h
        cases h
        exact ⟨t, hnext, ht⟩

end Traversal

end IrohExperiments.DagSync
