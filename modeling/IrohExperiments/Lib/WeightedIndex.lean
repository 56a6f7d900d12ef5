import Mathlib.Data.List.Basic
import Mathlib.Algebra.BigOperators.Group.List.Basic
import Mathlib.Algebra.GroupWithZero.Nat

/-!
# Weighted choice

A list of weights divides the numbers below its sum into intervals, one for each weight, in order.
`locate` finds the interval of a number, and the offset of the number in it.  It is a bijection between
the numbers below the sum and the offsets in the intervals (`locate_eq_some`, `locate_injective`), so a
number drawn uniformly finds each offset of each interval with the same probability.
-/

namespace IrohExperiments.WeightedIndex

variable {weights : List ℕ} {n i c : ℕ}

/-- The index of the interval that `n` lies in, and its offset there. -/
def locate : List ℕ → ℕ → Option (ℕ × ℕ)
  | [], _ => none
  | w :: weights, n =>
      if n < w then some (0, n) else (locate weights (n - w)).map fun p => (p.1 + 1, p.2)

/-- **Where a number lies.** -/
theorem locate_eq_some :
    locate weights n = some (i, c)
      ↔ ∃ w, weights[i]? = some w ∧ c < w ∧ n = (weights.take i).sum + c := by
  induction weights generalizing n i with
  | nil => simp [locate]
  | cons w weights ih =>
      rw [locate]
      split_ifs with hlt
      · cases i with
        | zero =>
            simp only [Option.some.injEq, Prod.mk.injEq, true_and, List.getElem?_cons_zero,
              exists_eq_left', List.take_zero, List.sum_nil, Nat.zero_add]
            omega
        | succ i =>
            simp only [Option.some.injEq, Prod.mk.injEq, List.take_succ_cons, List.sum_cons]
            constructor
            · omega
            · rintro ⟨_, _, _, h⟩
              omega
      · rw [Option.map_eq_some_iff]
        cases i with
        | zero =>
            simp only [List.getElem?_cons_zero, Option.some.injEq, exists_eq_left', List.take_zero,
              List.sum_nil, Nat.zero_add]
            constructor
            · rintro ⟨_, _, h⟩
              simp at h
            · omega
        | succ i =>
            simp only [List.getElem?_cons_succ, List.take_succ_cons, List.sum_cons]
            constructor
            · rintro ⟨⟨i', c'⟩, hlocate, h⟩
              simp only [Prod.mk.injEq, Nat.add_right_cancel_iff] at h
              obtain ⟨rfl, rfl⟩ := h
              obtain ⟨v, hv, hc, hn⟩ := ih.mp hlocate
              exact ⟨v, hv, hc, by omega⟩
            · rintro ⟨v, hv, hc, hn⟩
              exact ⟨(i, c), ih.mpr ⟨v, hv, hc, by omega⟩, rfl⟩

/-- An offset in an interval belongs to a number below the sum. -/
theorem lt_sum_of_locate (h : locate weights n = some (i, c)) : n < weights.sum := by
  induction weights generalizing n i c with
  | nil => cases h
  | cons w weights ih =>
      rw [locate] at h
      rw [List.sum_cons]
      split_ifs at h with hlt
      · omega
      · obtain ⟨p, hp, _⟩ := Option.map_eq_some_iff.mp h
        have hrest := ih hp
        omega

/-- **Every number below the sum lies somewhere.** -/
theorem exists_locate (h : n < weights.sum) : ∃ i c, locate weights n = some (i, c) := by
  induction weights generalizing n with
  | nil => simp at h
  | cons w weights ih =>
      rw [locate]
      split_ifs with hlt
      · exact ⟨0, n, rfl⟩
      · rw [List.sum_cons] at h
        obtain ⟨i, c, hrest⟩ := ih (n := n - w) (by omega)
        exact ⟨i + 1, c, by rw [hrest]; rfl⟩

/-- More weights do not move a number that lies somewhere. -/
theorem locate_append (h : locate weights n = some (i, c)) (more : List ℕ) :
    locate (weights ++ more) n = some (i, c) := by
  obtain ⟨w, hw, hc, hn⟩ := locate_eq_some.mp h
  have hi : i < weights.length := (List.getElem?_eq_some_iff.mp hw).1
  refine locate_eq_some.mpr ⟨w, ?_, hc, ?_⟩
  · rw [List.getElem?_append_left hi, hw]
  · rw [List.take_append_of_le_length (Nat.le_of_lt hi), hn]

/-- A number that lies in the last interval. -/
theorem locate_concat {w : ℕ} (h : c < w) :
    locate (weights ++ [w]) (weights.sum + c) = some (weights.length, c) := by
  refine locate_eq_some.mpr ⟨w, ?_, h, ?_⟩
  · rw [List.getElem?_concat_length]
  · rw [List.take_left]

/-- **Different numbers lie at different places.** -/
theorem locate_injective {m : ℕ} (h : locate weights n = some (i, c))
    (h' : locate weights m = some (i, c)) : n = m := by
  obtain ⟨_, _, _, hn⟩ := locate_eq_some.mp h
  obtain ⟨_, _, _, hm⟩ := locate_eq_some.mp h'
  rw [hn, hm]

end IrohExperiments.WeightedIndex
