import IrohExperiments.DagSync.Traversal
import IrohExperiments.Lib.DepthFirst

/-!
# Full traversals are depth-first

A full traversal keeps a stack, and it pushes the links of a cid only in the call of `next` after the
one that yielded the cid.  `collect_full` says what comes of it over a fixed database: the pre-order of
the graph of links, whatever nodes the graph shares and whatever cycles it has.  A filter only drops
cids from what is yielded; it has no influence on where the traversal goes (`collect_filtered`).

The traversal ends with an error if it comes to a cid whose data is not known, unless the cid is raw.
`collect_getTraversal` is about the ones that do not.
-/

namespace IrohExperiments.DagSync

open DepthFirst

section Preorder

variable [Libraries]

/-- The links that a traversal follows from a cid.  It does not look for links of a raw node. -/
def Tables.children (self : Tables) (cid : Cid) : List Cid :=
  if cid.codec = rawCodec then []
  else
    match self.links cid with
    | .ok (some links) => links
    | _ => []

/-- The rows of `dataToLinks` are links. -/
def Tables.LinksReadable (self : Tables) : Prop :=
  ∀ r ∈ self.dataToLinks.rows, ∃ links, Libraries.fromSlice r.2 = some links

/-- Then the look-up of a cid with a blake3 hash does not fail. -/
theorem Tables.exists_links {db : Tables} (hrows : db.LinksReadable) {cid : Cid} {hash : Hash}
    (h : db.blake3Hash cid.hash = some hash) : ∃ links, db.links cid = .ok links := by
  rw [blake3Hash] at h
  rw [links, h]
  simp only
  cases hrow : db.dataToLinks.get? ⟨cid.codec, hash⟩ with
  | none => exact ⟨none, rfl⟩
  | some v =>
      obtain ⟨links, hlinks⟩ := hrows _ ((db.dataToLinks.mem_rows_iff _ v).mpr hrow)
      refine ⟨some links, ?_⟩
      simp only at hlinks ⊢
      rw [hlinks]

namespace FullTraversal

/-- What is left to do: the links of the cid that was yielded last, and then the stack. -/
def pending (self : FullTraversal) (db : Tables) : List Cid :=
  (self.prev.map db.children).getD [] ++ self.stack

theorem expand_eq_pending {self : FullTraversal} {db : Tables}
    (hprev : ∀ cid, self.prev = some cid → cid.codec ≠ rawCodec →
      ∃ links, db.links cid = .ok links) :
    self.expand db = .ok (self.pending db) := by
  cases hp : self.prev with
  | none =>
      rw [expand, pending, hp]
      rfl
  | some cid =>
      rw [expand, pending, hp]
      simp only [Option.map_some, Option.getD_some]
      rw [Tables.children]
      split_ifs with hraw
      · rfl
      · obtain ⟨links, hlinks⟩ := hprev cid hp hraw
        rw [hlinks]
        cases links with
        | none => rfl
        | some links => rfl

omit [Libraries] in
/-- If everything on the stack was visited, there is nothing to find. -/
theorem visits_of_pop_eq_none {children : Cid → List Cid} {visited : Finset Cid} {stack : List Cid}
    (h : pop visited stack = none) : Visits children stack visited [] visited := by
  induction stack with
  | nil => exact .nil
  | cons c stack ih =>
      rw [pop] at h
      split_ifs at h with hc
      exact .skip hc (ih h)

omit [Libraries] in
/-- What is popped on the way was visited. -/
theorem visits_of_pop_eq_some {children : Cid → List Cid} {visited visited' : Finset Cid}
    {stack rest out : List Cid} {cid : Cid} (h : pop visited stack = some (cid, rest))
    (hvisits : Visits children (cid :: rest) visited out visited') :
    Visits children stack visited out visited' := by
  induction stack with
  | nil => cases h
  | cons c stack ih =>
      rw [pop] at h
      split_ifs at h with hc
      · exact .skip hc (ih h)
      · cases h
        exact hvisits

end FullTraversal

namespace Traversal

/-- **An unfiltered traversal** that knows the data of every cid it comes to yields the pre-order. -/
theorem collect_full {db : Tables} (t : FullTraversal)
    (hprev : ∀ cid, t.prev = some cid → cid.codec ≠ rawCodec → ∃ links, db.links cid = .ok links)
    (hyields : ∀ cid, Yields db (.Full t) cid → cid.codec ≠ rawCodec →
      ∃ links, db.links cid = .ok links) :
    ∃ out visited', (Traversal.Full t).collect db = .ok out ∧
      Visits db.children (t.pending db) t.visited out visited' := by
  induction hn : t.remaining db using Nat.strong_induction_on generalizing t with
  | _ n ih =>
      have hexpand := FullTraversal.expand_eq_pending hprev
      cases hpop : FullTraversal.pop t.visited (t.pending db) with
      | none =>
          have hnext : t.next db = .ok none := by
            rw [FullTraversal.next, hexpand]
            simp only [hpop]
          refine ⟨[], t.visited, ?_, FullTraversal.visits_of_pop_eq_none hpop⟩
          rw [collect_eq, next, hnext]
          rfl
      | some r =>
          obtain ⟨cid, rest⟩ := r
          have hnext : t.next db = .ok (some (cid, ⟨some cid, rest, insert cid t.visited⟩)) := by
            rw [FullTraversal.next, hexpand]
            simp only [hpop]
          have hfull := next_full hnext
          obtain ⟨out, visited', hcollect, hvisits⟩ := ih _
            (hn ▸ FullTraversal.remaining_lt hnext) ⟨some cid, rest, insert cid t.visited⟩
            (fun c hc => by
              cases hc
              exact hyields cid (.head hfull))
            (fun c hc => hyields c (.tail hfull hc)) rfl
          refine ⟨cid :: out, visited', ?_, ?_⟩
          · rw [collect_eq, hfull]
            simp only [hcollect]
            rfl
          · refine FullTraversal.visits_of_pop_eq_some hpop (Visits.of_stack ?_ hvisits)
            exact (FullTraversal.pop_eq_some hpop).1

/-- What is collected depends on the next step only. -/
theorem collect_congr {db : Tables} {self t : Traversal} (h : self.next db = t.next db) :
    self.collect db = t.collect db := by
  rw [collect_eq, h, ← collect_eq]

/-- **A filter drops cids**, and nothing else. -/
theorem collect_filtered (db : Tables) (t : FullTraversal) (filter : TraversalFilter) :
    (Traversal.Filtered t filter).collect db
      = ((Traversal.Full t).collect db).map (List.filter filter.accepts) := by
  induction hn : t.remaining db using Nat.strong_induction_on generalizing t with
  | _ n ih =>
      have hfiltered := t.nextFiltered_eq filter db
      match hnext : t.next db with
      | .error e =>
          rw [hnext] at hfiltered
          simp only at hfiltered
          rw [collect_eq, collect_eq, next, next, hnext, hfiltered]
          rfl
      | .ok none =>
          rw [hnext] at hfiltered
          simp only at hfiltered
          rw [collect_eq, collect_eq, next, next, hnext, hfiltered]
          rfl
      | .ok (some (item, inner)) =>
          have hinner := ih _ (hn ▸ FullTraversal.remaining_lt hnext) inner rfl
          have hfull : (Traversal.Full t).collect db
              = ((Traversal.Full inner).collect db).map (item :: ·) := by
            rw [collect_eq, next_full hnext]
          rw [hnext] at hfiltered
          simp only at hfiltered
          rw [hfull]
          split_ifs at hfiltered with haccepts
          · rw [collect_eq, next, hfiltered]
            simp only [Except.map, Option.map_some, Prod.map_apply, id_eq] at hinner ⊢
            rw [hinner]
            cases (Traversal.Full inner).collect db with
            | error e => rfl
            | ok out => simp [haccepts]
          · have hsame : (Traversal.Filtered t filter).next db
                = (Traversal.Filtered inner filter).next db := by
              rw [next, next, hfiltered]
            rw [collect_congr hsame, hinner]
            cases (Traversal.Full inner).collect db with
            | error e => rfl
            | ok out => simp [Except.map, haccepts]

end Traversal

/-- **A full traversal is depth-first.**  Over any table of links, a traversal that knows the data of
the cids it comes to, except raw ones, ends, and yields what the filter accepts of the pre-order from
the root.  The pre-order is the only one there is; no cid is yielded twice, and none that was visited
at the start. -/
theorem collect_getTraversal (db : Tables) (hrows : db.LinksReadable) (opts : FullTraversalOpts)
    (hmapped : ∀ cid, Traversal.Yields db (TraversalOpts.Full opts).unfiltered cid →
      cid.codec ≠ rawCodec → ∃ hash, db.blake3Hash cid.hash = some hash) :
    ∃ out visited' yielded,
      (Visits db.children [opts.root] (opts.visited.getD ∅) out visited' ∧
        ∀ out' v, Visits db.children [opts.root] (opts.visited.getD ∅) out' v → out' = out) ∧
      yielded = out.filter (opts.filter.getD .All).accepts ∧
      (getTraversal (.Full opts)).collect db = .ok yielded ∧
      yielded.Nodup ∧ ∀ cid ∈ yielded, cid ∉ opts.visited.getD ∅ := by
  have hlinks : ∀ cid, Traversal.Yields db (TraversalOpts.Full opts).unfiltered cid →
      cid.codec ≠ rawCodec → ∃ links, db.links cid = .ok links := by
    intro cid hcid hraw
    obtain ⟨hash, hhash⟩ := hmapped cid hcid hraw
    exact Tables.exists_links hrows hhash
  obtain ⟨out, visited', hcollect, hvisits⟩ := Traversal.collect_full
    (FullTraversal.new opts.root (opts.visited.getD ∅)) (fun _ hc => nomatch hc) hlinks
  have hpre : Visits db.children [opts.root] (opts.visited.getD ∅) out visited' := hvisits
  obtain ⟨hnodup, hnew, _⟩ := hpre.found
  refine ⟨out, visited', _, ⟨hpre, fun out' v h => (h.unique hpre).1⟩, rfl, ?_,
    hnodup.filter _, fun cid hcid => hnew cid (List.mem_of_mem_filter hcid)⟩
  rw [getTraversal]
  split
  · rename_i hall
    rw [hall, hcollect]
    exact congrArg Except.ok (List.filter_eq_self.mpr fun cid _ => rfl).symm
  · rw [Traversal.collect_filtered, hcollect]
    rfl

end Preorder

section Runs

attribute [local instance] Libraries.toy

/-- The tables of a node that knows the root, but not the leaf it links to. -/
def rootTables : Tables :=
  ((Tables.empty.insertHash Libraries.root (Libraries.padded [1])).insertData Libraries.root
    (Libraries.padded [1]) [Libraries.leaf]).2

/-- The leaf is found below the root, which the filter hides. -/
theorem collect_getTraversal_justRaw :
    ∃ out visited' yielded,
      Visits rootTables.children [Libraries.root] ∅ out visited' ∧
      yielded = out.filter TraversalFilter.JustRaw.accepts ∧
      (getTraversal (.Full ⟨Libraries.root, none, none, some .JustRaw⟩)).collect rootTables
        = .ok yielded := by
  have hrows : rootTables.LinksReadable := by
    have hall : ∀ r ∈ rootTables.dataToLinks.rows, (Libraries.fromSlice r.2).isSome = true := by
      decide +kernel
    exact fun r hr => Option.isSome_iff_exists.mp (hall r hr)
  have hknown : rootTables.knownLinks = {Libraries.leaf} := by decide +kernel
  obtain ⟨out, visited', yielded, hvisits, hyielded, hcollect, _⟩ := collect_getTraversal rootTables
    hrows ⟨Libraries.root, none, none, some .JustRaw⟩ fun cid hcid hraw => by
      have hmem := hcid.mem rfl
      rw [hknown, Finset.mem_union, List.mem_toFinset, Finset.mem_singleton] at hmem
      rcases hmem with hroot | rfl
      · rw [List.mem_singleton.mp hroot]
        exact ⟨Libraries.padded [1], by decide +kernel⟩
      · exact absurd rfl hraw
  exact ⟨out, visited', yielded, hvisits.1, hyielded, hcollect⟩

end Runs

end IrohExperiments.DagSync
