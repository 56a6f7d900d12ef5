import Mathlib.Data.Finset.Lattice.Lemmas

/-!
# Depth-first pre-order

The pre-order of a graph that may share nodes and have cycles: a node comes before what is found from
it, the children from left to right, and a node that was visited before is passed over with all that
is found from it.  `Visits` is the recursion, with the set of visited nodes passed along.  It is given
as a relation, since on a graph with cycles only the set of visited nodes makes the recursion end.

A search that keeps a stack instead of recursing takes the children of a node and what was to do after
the node in one list.  `Visits.of_stack` says that this is the same, and rests on `Visits.of_append`:
visiting a concatenation is visiting one list after the other.

`Visits.filter_eq_iff` is about a search that leaves nodes out.  What is found without them is what is
found after them, less what is found from them only, so the two searches may well find the same.
-/

namespace IrohExperiments.DepthFirst

variable {α : Type*} [DecidableEq α] {children : α → List α}

/-- Visiting the nodes `todo` one after the other, where `visited` were visited before, finds `out`,
in this order, and ends with the set `visited'`. -/
inductive Visits (children : α → List α) : List α → Finset α → List α → Finset α → Prop
  | nil {visited : Finset α} : Visits children [] visited [] visited
  | skip {c : α} {cs : List α} {visited : Finset α} {out : List α} {visited' : Finset α}
      (hc : c ∈ visited) (rest : Visits children cs visited out visited') :
      Visits children (c :: cs) visited out visited'
  | visit {c : α} {cs : List α} {visited : Finset α} {out₁ : List α} {mid : Finset α}
      {out₂ : List α} {visited' : Finset α} (hc : c ∉ visited)
      (below : Visits children (children c) (insert c visited) out₁ mid)
      (rest : Visits children cs mid out₂ visited') :
      Visits children (c :: cs) visited (c :: (out₁ ++ out₂)) visited'

namespace Visits

variable {todo todo' : List α} {visited mid visited' : Finset α} {out out' : List α}

/-- The search has one outcome. -/
theorem unique (h : Visits children todo visited out mid)
    (h' : Visits children todo visited out' visited') : out = out' ∧ mid = visited' := by
  induction h generalizing out' visited' with
  | nil =>
      cases h'
      exact ⟨rfl, rfl⟩
  | skip hc _ ih =>
      cases h' with
      | skip _ rest => exact ih rest
      | visit hc' => exact absurd hc hc'
  | visit hc _ _ ih₁ ih₂ =>
      cases h' with
      | skip hc' => exact absurd hc' hc
      | visit _ below rest =>
          obtain ⟨rfl, rfl⟩ := ih₁ below
          obtain ⟨rfl, rfl⟩ := ih₂ rest
          exact ⟨rfl, rfl⟩

/-- **A list in two parts.** -/
theorem of_append (h : Visits children (todo ++ todo') visited out visited') :
    ∃ out₁ mid out₂, Visits children todo visited out₁ mid ∧
      Visits children todo' mid out₂ visited' ∧ out = out₁ ++ out₂ := by
  generalize htodo : todo ++ todo' = l at h
  induction h generalizing todo with
  | nil =>
      obtain ⟨rfl, rfl⟩ := List.append_eq_nil_iff.mp htodo
      exact ⟨[], _, [], .nil, .nil, rfl⟩
  | skip hc rest ih =>
      cases todo with
      | nil =>
          obtain rfl : todo' = _ := htodo
          exact ⟨[], _, _, .nil, .skip hc rest, rfl⟩
      | cons c cs =>
          obtain ⟨rfl, htail⟩ := List.cons.inj htodo
          obtain ⟨out₁, mid, out₂, h₁, h₂, rfl⟩ := ih htail
          exact ⟨out₁, mid, out₂, .skip hc h₁, h₂, rfl⟩
  | visit hc below rest _ ih =>
      cases todo with
      | nil =>
          obtain rfl : todo' = _ := htodo
          exact ⟨[], _, _, .nil, .visit hc below rest, rfl⟩
      | cons c cs =>
          obtain ⟨rfl, htail⟩ := List.cons.inj htodo
          obtain ⟨out₁, mid, out₂, h₁, h₂, rfl⟩ := ih htail
          refine ⟨_, mid, out₂, .visit hc below h₁, h₂, ?_⟩
          rw [List.cons_append, List.append_assoc]

/-- **The search with a stack**: the children of a node go in front of what is left to do. -/
theorem of_stack {c : α} (hc : c ∉ visited)
    (h : Visits children (children c ++ todo) (insert c visited) out visited') :
    Visits children (c :: todo) visited (c :: out) visited' := by
  obtain ⟨out₁, mid, out₂, below, rest, rfl⟩ := h.of_append
  exact .visit hc below rest

/-- **Nothing is found twice**, nor found again: what is found is what becomes visited. -/
theorem found (h : Visits children todo visited out visited') :
    out.Nodup ∧ (∀ c ∈ out, c ∉ visited) ∧ visited' = visited ∪ out.toFinset := by
  induction h with
  | nil => simp
  | skip _ _ ih => exact ih
  | @visit c cs visited out₁ mid out₂ visited' hc _ _ ih₁ ih₂ =>
      obtain ⟨hnodup₁, hnew₁, hmid⟩ := ih₁
      obtain ⟨hnodup₂, hnew₂, hvisited'⟩ := ih₂
      -- what is found after the children was not found below them
      have hnew : ∀ d ∈ out₂, d ∉ insert c visited ∧ d ∉ out₁ := by
        intro d hd
        have hmem := hnew₂ d hd
        rw [hmid, Finset.mem_union, not_or, List.mem_toFinset] at hmem
        exact hmem
      refine ⟨List.nodup_cons.mpr ⟨fun hmem => ?_, ?_⟩, fun d hd => ?_, ?_⟩
      · rcases List.mem_append.mp hmem with hmem | hmem
        · exact hnew₁ c hmem (Finset.mem_insert_self c visited)
        · exact (hnew c hmem).1 (Finset.mem_insert_self c visited)
      · refine List.nodup_append.mpr ⟨hnodup₁, hnodup₂, ?_⟩
        rintro d hd _ hd' rfl
        exact (hnew d hd').2 hd
      · rcases List.mem_cons.mp hd with rfl | hd
        · exact hc
        · rcases List.mem_append.mp hd with hd | hd
          · exact fun h => hnew₁ d hd (Finset.mem_insert_of_mem h)
          · exact fun h => (hnew d hd).1 (Finset.mem_insert_of_mem h)
      · rw [hvisited', hmid]
        ext d
        simp only [Finset.mem_union, Finset.mem_insert, List.mem_toFinset, List.mem_cons,
          List.mem_append]
        tauto

/-- The roots are visited afterwards, and the children of what is found. -/
theorem closed (h : Visits children todo visited out visited') :
    (∀ c ∈ todo, c ∈ visited') ∧ ∀ c ∈ out, ∀ d ∈ children c, d ∈ visited' := by
  induction h with
  | nil => exact ⟨fun c hc => absurd hc List.not_mem_nil, fun c hc => absurd hc List.not_mem_nil⟩
  | @skip c cs visited out visited' hc rest ih =>
      refine ⟨fun d hd => ?_, ih.2⟩
      rcases List.mem_cons.mp hd with rfl | hd
      · rw [rest.found.2.2]
        exact Finset.mem_union_left _ hc
      · exact ih.1 d hd
  | @visit c cs visited out₁ mid out₂ visited' hc below rest ih₁ ih₂ =>
      -- what is visited stays visited
      have hmid : ∀ d ∈ mid, d ∈ visited' := by
        intro d hd
        rw [rest.found.2.2]
        exact Finset.mem_union_left _ hd
      refine ⟨fun d hd => ?_, fun d hd => ?_⟩
      · rcases List.mem_cons.mp hd with rfl | hd
        · refine hmid d ?_
          rw [below.found.2.2]
          exact Finset.mem_union_left _ (Finset.mem_insert_self d visited)
        · exact ih₂.1 d hd
      · rcases List.mem_cons.mp hd with rfl | hd
        · exact fun d' hd' => hmid d' (ih₁.1 d' hd')
        · rcases List.mem_append.mp hd with hd | hd
          · exact fun d' hd' => hmid d' (ih₁.2 d hd d' hd')
          · exact ih₂.2 d hd

/-- The search does not leave a set that is closed up to what was visited. -/
theorem mem_of_closed {found : Finset α}
    (hclosed : ∀ c ∈ found, ∀ d ∈ children c, d ∈ visited ∪ found)
    (h : Visits children todo visited out visited') (htodo : ∀ c ∈ todo, c ∈ visited ∪ found) :
    ∀ c ∈ out, c ∈ found := by
  induction h with
  | nil => exact fun c hc => absurd hc List.not_mem_nil
  | skip _ _ ih => exact ih hclosed fun d hd => htodo d (List.mem_cons_of_mem _ hd)
  | @visit c cs visited out₁ mid out₂ visited' hc below rest ih₁ ih₂ =>
      have hfound : c ∈ found :=
        (Finset.mem_union.mp (htodo c List.mem_cons_self)).resolve_left hc
      have hmore : ∀ d ∈ visited ∪ found, d ∈ insert c visited ∪ found := by
        intro d hd
        exact Finset.union_subset_union_left (Finset.subset_insert c visited) hd
      have hmid : ∀ d ∈ visited ∪ found, d ∈ mid ∪ found := by
        intro d hd
        refine Finset.union_subset_union_left ?_ hd
        rw [below.found.2.2]
        exact (Finset.subset_insert c visited).trans Finset.subset_union_left
      intro d hd
      rcases List.mem_cons.mp hd with rfl | hd
      · exact hfound
      · rcases List.mem_append.mp hd with hd | hd
        · exact ih₁ (fun e he d hd => hmore d (hclosed e he d hd))
            (fun d hd => hmore d (hclosed c hfound d hd)) d hd
        · exact ih₂ (fun e he d hd => hmid d (hclosed e he d hd))
            (fun d hd => hmid d (htodo d (List.mem_cons_of_mem _ hd))) d hd

/-- **A search that starts later**: what was found before, with everything that is found from it, is
missing from what is found. -/
theorem after {found : Finset α} (hclosed : ∀ c ∈ found, ∀ d ∈ children c, d ∈ visited ∪ found)
    (h : Visits children todo visited out visited') :
    Visits children todo (visited ∪ found) (out.filter (· ∉ found)) (visited' ∪ found) := by
  induction h with
  | nil => exact .nil
  | skip hc _ ih => exact .skip (Finset.mem_union_left _ hc) (ih hclosed)
  | @visit c cs visited out₁ mid out₂ visited' hc below rest ih₁ ih₂ =>
      have hinsert : ∀ e ∈ found, ∀ d ∈ children e, d ∈ insert c visited ∪ found := fun e he d hd =>
        Finset.union_subset_union_left (Finset.subset_insert c visited) (hclosed e he d hd)
      have hsub : visited ⊆ mid := by
        rw [below.found.2.2]
        exact (Finset.subset_insert c visited).trans Finset.subset_union_left
      have hrest := ih₂ fun e he d hd => Finset.union_subset_union_left hsub (hclosed e he d hd)
      by_cases hfound : c ∈ found
      · -- nothing is left of what is found from `c`
        have hbelow : ∀ d ∈ out₁, d ∈ found :=
          below.mem_of_closed hinsert (hinsert c hfound)
        have hnone : out₁.filter (· ∉ found) = [] :=
          List.filter_eq_nil_iff.mpr fun d hd => by simp [hbelow d hd]
        have hmid : mid ∪ found = visited ∪ found := by
          rw [below.found.2.2]
          ext d
          simp only [Finset.mem_union, Finset.mem_insert, List.mem_toFinset]
          constructor
          · rintro (((rfl | hd) | hd) | hd)
            · exact .inr hfound
            · exact .inl hd
            · exact .inr (hbelow d hd)
            · exact .inr hd
          · rintro (hd | hd)
            · exact .inl (.inl (.inr hd))
            · exact .inr hd
        rw [List.filter_cons_of_neg (by simpa using hfound), List.filter_append, hnone,
          List.nil_append]
        rw [hmid] at hrest
        exact .skip (Finset.mem_union_right _ hfound) hrest
      · have hnew : c ∉ visited ∪ found := by
          rw [Finset.mem_union, not_or]
          exact ⟨hc, hfound⟩
        have hbelow := ih₁ hinsert
        rw [Finset.insert_union] at hbelow
        rw [List.filter_cons_of_pos (by simpa using hfound), List.filter_append]
        exact .visit hnew hbelow hrest

/-- **Nodes that are left out.**  Without the nodes `lost` in front, a search finds the same as with
them, as far as it is looked at, if and only if what is found from `lost` comes first anyway. -/
theorem filter_eq_iff (p : α → Bool) {lost : List α} {below : List α} {mid last : Finset α}
    (hlost : Visits children lost visited below mid)
    (h : Visits children todo visited out visited')
    (hall : Visits children (lost ++ todo) visited out' last) :
    out.filter p = out'.filter p ↔ below.filter p <+: out.filter p := by
  obtain ⟨hnodup, _, _⟩ := h.found
  obtain ⟨below', mid', rest, hbelow', hrest, rfl⟩ := hall.of_append
  obtain ⟨rfl, rfl⟩ := hlost.unique hbelow'
  -- what is found after `lost` is what is found without, less what is found from `lost`
  obtain rfl : rest = out.filter (· ∉ below.toFinset) := by
    have hclosed : ∀ c ∈ below.toFinset, ∀ d ∈ children c, d ∈ visited ∪ below.toFinset := by
      intro c hc d hd
      rw [← hlost.found.2.2]
      exact hlost.closed.2 c (List.mem_toFinset.mp hc) d hd
    have hafter := h.after hclosed
    rw [← hlost.found.2.2] at hafter
    exact (hrest.unique hafter).1
  have hcomm : (out.filter (· ∉ below.toFinset)).filter p
      = (out.filter p).filter (· ∉ below.toFinset) := List.filter_comm _ _ _
  rw [List.filter_append, hcomm]
  constructor
  · intro heq
    exact ⟨_, heq.symm⟩
  · rintro ⟨more, hmore⟩
    have hnodup' : (below.filter p ++ more).Nodup := hmore ▸ hnodup.filter p
    have hdrop : (below.filter p).filter (· ∉ below.toFinset) = [] :=
      List.filter_eq_nil_iff.mpr fun c hc => by simp [List.mem_of_mem_filter hc]
    have hkeep : more.filter (· ∉ below.toFinset) = more := by
      refine List.filter_eq_self.mpr fun c hc => ?_
      have hp : p c = true :=
        (List.mem_filter.mp (hmore ▸ List.mem_append_right _ hc : c ∈ out.filter p)).2
      have hnot : c ∉ below := fun hbelow =>
        (List.nodup_append.mp hnodup').2.2 c (List.mem_filter.mpr ⟨hbelow, hp⟩) c hc rfl
      simpa using hnot
    rw [← hmore, List.filter_append, hdrop, hkeep, List.nil_append]

end Visits

end IrohExperiments.DepthFirst
