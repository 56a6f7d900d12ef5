import Mathlib.Data.List.Basic

/-!
# Iterators that can fail

An iterator has a state.  A call of `next` returns an item, the end or an error, with the next state,
and after an error the iterator can be called again.  `Drains` is about the items of a whole run:
`next` is called until the end, and calls that fail are passed over.

`Drains.filtered` is about the loop that looks for the next item that a filter accepts.
-/

namespace IrohExperiments.Iterator

variable {σ τ ε α : Type*}

/-- Called until the end, the iterator yields the items `out`. -/
inductive Drains (next : σ → Except ε (Option α) × σ) : σ → List α → Prop
  | finish {s s' : σ} (h : next s = (.ok none, s')) : Drains next s []
  | fail {s s' : σ} {e : ε} {out : List α} (h : next s = (.error e, s'))
      (rest : Drains next s' out) : Drains next s out
  | yields {s s' : σ} {a : α} {out : List α} (h : next s = (.ok (some a), s'))
      (rest : Drains next s' out) : Drains next s (a :: out)

/-- The loop that passes over the items that a filter rejects. -/
def IsFiltered (accepts : α → Bool) (next next' : σ → Except ε (Option α) × σ) : Prop :=
  ∀ s, next' s = match next s with
    | (.ok (some a), s') => if accepts a then (.ok (some a), s') else next' s'
    | r => r

namespace Drains

variable {next : σ → Except ε (Option α) × σ} {s s' : σ} {out out' : List α}

/-- The run has one outcome. -/
theorem unique (h : Drains next s out) (h' : Drains next s out') : out = out' := by
  induction h generalizing out' with
  | finish h =>
      cases h' with
      | finish => rfl
      | fail h' => cases h.symm.trans h'
      | yields h' => cases h.symm.trans h'
  | fail h _ ih =>
      cases h' with
      | finish h' => cases h.symm.trans h'
      | fail h' rest =>
          cases h.symm.trans h'
          exact ih rest
      | yields h' => cases h.symm.trans h'
  | yields h _ ih =>
      cases h' with
      | finish h' => cases h.symm.trans h'
      | fail h' => cases h.symm.trans h'
      | yields h' rest =>
          cases h.symm.trans h'
          rw [ih rest]

/-- What comes depends on the next call only. -/
theorem congr (heq : next s = next s') (h : Drains next s out) : Drains next s' out := by
  cases h with
  | finish h => exact .finish (heq ▸ h)
  | fail h rest => exact .fail (heq ▸ h) rest
  | yields h rest => exact .yields (heq ▸ h) rest

/-- **The run ends** if each call that does not leaves less to do. -/
theorem exists_of_measure (next : σ → Except ε (Option α) × σ) (measure : σ → ℕ)
    (herror : ∀ s e s', next s = (.error e, s') → measure s' < measure s)
    (hyields : ∀ s a s', next s = (.ok (some a), s') → measure s' < measure s) (s : σ) :
    ∃ out, Drains next s out := by
  induction hn : measure s using Nat.strongRecOn generalizing s with
  | _ n ih =>
      match h : next s with
      | (.ok none, s') => exact ⟨[], .finish h⟩
      | (.error e, s') =>
          obtain ⟨out, rest⟩ := ih _ (hn ▸ herror s e s' h) s' rfl
          exact ⟨out, .fail h rest⟩
      | (.ok (some a), s') =>
          obtain ⟨out, rest⟩ := ih _ (hn ▸ hyields s a s' h) s' rfl
          exact ⟨a :: out, .yields h rest⟩

/-- An iterator that wraps another one. -/
theorem map {next' : τ → Except ε (Option α) × τ} {f : σ → τ}
    (hf : ∀ s, next' (f s) = ((next s).1, f (next s).2)) (h : Drains next s out) :
    Drains next' (f s) out := by
  induction h with
  | finish h => exact .finish (by rw [hf, h])
  | fail h _ ih => exact .fail (by rw [hf, h]) ih
  | yields h _ ih => exact .yields (by rw [hf, h]) ih

/-- **A filter drops items**, and nothing else. -/
theorem filtered {accepts : α → Bool} {next' : σ → Except ε (Option α) × σ}
    (hloop : IsFiltered accepts next next') (h : Drains next s out) :
    Drains next' s (out.filter accepts) := by
  induction h with
  | finish h => exact .finish (by rw [hloop, h])
  | fail h _ ih => exact .fail (by rw [hloop, h]) ih
  | @yields s s' a out h _ ih =>
      have hnext := hloop s
      rw [h] at hnext
      simp only at hnext
      cases haccepts : accepts a with
      | true =>
          rw [if_pos haccepts] at hnext
          rw [List.filter_cons_of_pos haccepts]
          exact .yields hnext ih
      | false =>
          rw [if_neg (by simp [haccepts])] at hnext
          rw [List.filter_cons_of_neg (by simp [haccepts])]
          exact ih.congr hnext.symm

end Drains

end IrohExperiments.Iterator
