import Mathlib.Algebra.GroupWithZero.Nat
import Mathlib.Algebra.Order.Group.Nat

/-!
# Sums and differences of unsigned 64-bit integers

A program that computes with `u64`s can be built in two ways.  With overflow checks it panics when a
result leaves the range; without them the result wraps.  `add`, `sub` and `sum` have the build as a
parameter, and return `none` for the panic.

The sums of both builds are compared with the sum of natural numbers, `total`: as long as that one is
in range, both have its value (`exists_sum_eq`), and a sum that does not panic with the checks is in
range (`total_lt_of_sum`).
-/

namespace IrohExperiments.U64

/-- With overflow checks, or without. -/
inductive Build where
  | Debug
  | Release

/-- `x + y`. -/
def add (build : Build) (x y : UInt64) : Option UInt64 :=
  match build with
  | .Debug => if x.toNat + y.toNat < 2 ^ 64 then some (x + y) else none
  | .Release => some (x + y)

/-- `x - y`. -/
def sub (build : Build) (x y : UInt64) : Option UInt64 :=
  match build with
  | .Debug => if y.toNat ≤ x.toNat then some (x - y) else none
  | .Release => some (x - y)

/-- `iter().sum::<u64>()`. -/
def sum (build : Build) (xs : List UInt64) : Option UInt64 := xs.foldlM (add build) 0

/-- The sum of natural numbers. -/
def total (xs : List UInt64) : ℕ := (xs.map UInt64.toNat).sum

@[simp] theorem total_nil : total [] = 0 := rfl

@[simp] theorem total_cons (x : UInt64) (xs : List UInt64) :
    total (x :: xs) = x.toNat + total xs := rfl

theorem toNat_le_total {x : UInt64} {xs : List UInt64} (h : x ∈ xs) : x.toNat ≤ total xs := by
  induction xs with
  | nil => exact absurd h List.not_mem_nil
  | cons y xs ih =>
      rw [total_cons]
      rcases List.mem_cons.mp h with rfl | h
      · omega
      · have hle := ih h
        omega

theorem total_pos_iff (xs : List UInt64) : 0 < total xs ↔ ∃ x ∈ xs, 0 < x.toNat := by
  constructor
  · intro h
    by_contra hno
    have hzero : ∀ n ∈ xs.map UInt64.toNat, n = 0 := by
      intro n hn
      obtain ⟨x, hx, rfl⟩ := List.mem_map.mp hn
      by_contra hne
      exact hno ⟨x, hx, Nat.pos_of_ne_zero hne⟩
    have hsum : total xs = 0 := List.sum_eq_zero_iff_forall_eq_nat.mpr hzero
    omega
  · rintro ⟨x, hx, hpos⟩
    have hle := toNat_le_total hx
    omega

/-- In range, an addition has the value of the one of natural numbers. -/
theorem add_eq (build : Build) {x y : UInt64} (h : x.toNat + y.toNat < 2 ^ 64) :
    add build x y = some (x + y) ∧ (x + y).toNat = x.toNat + y.toNat := by
  refine ⟨?_, ?_⟩
  · cases build with
    | Debug => exact if_pos h
    | Release => rfl
  · rw [UInt64.toNat_add, Nat.mod_eq_of_lt h]

theorem exists_foldlM_add (build : Build) (xs : List UInt64) (acc : UInt64)
    (h : acc.toNat + total xs < 2 ^ 64) :
    ∃ t, xs.foldlM (add build) acc = some t ∧ t.toNat = acc.toNat + total xs := by
  induction xs generalizing acc with
  | nil => exact ⟨acc, rfl, rfl⟩
  | cons x xs ih =>
      rw [total_cons] at h
      obtain ⟨hadd, hval⟩ := add_eq build (x := acc) (y := x) (by omega)
      obtain ⟨t, ht, htotal⟩ := ih (acc + x) (by rw [hval]; omega)
      refine ⟨t, ?_, ?_⟩
      · rw [List.foldlM_cons, hadd]
        exact ht
      · rw [htotal, hval, total_cons, Nat.add_assoc]

theorem total_lt_of_foldlM_add {xs : List UInt64} {acc t : UInt64}
    (h : xs.foldlM (add .Debug) acc = some t) : acc.toNat + total xs < 2 ^ 64 := by
  induction xs generalizing acc with
  | nil => exact acc.toNat_lt
  | cons x xs ih =>
      rw [List.foldlM_cons, add] at h
      by_cases hlt : acc.toNat + x.toNat < 2 ^ 64
      · rw [if_pos hlt] at h
        have hrest := ih h
        rw [(add_eq .Debug hlt).2] at hrest
        rw [total_cons]
        omega
      · rw [if_neg hlt] at h
        cases h

/-- **Sums in range** have the value of the sum of natural numbers, in both builds. -/
theorem exists_sum_eq (build : Build) {xs : List UInt64} (h : total xs < 2 ^ 64) :
    ∃ t, sum build xs = some t ∧ t.toNat = total xs := by
  obtain ⟨t, ht, hval⟩ := exists_foldlM_add build xs 0 (by simpa using h)
  exact ⟨t, ht, by simpa using hval⟩

/-- **Sums out of range** panic with overflow checks. -/
theorem total_lt_of_sum {xs : List UInt64} {t : UInt64} (h : sum .Debug xs = some t) :
    total xs < 2 ^ 64 := by
  simpa using total_lt_of_foldlM_add h

/-- A sum is the one of natural numbers, wrapped. -/
theorem toNat_of_foldlM_add {build : Build} {xs : List UInt64} {acc t : UInt64}
    (h : xs.foldlM (add build) acc = some t) : t.toNat = (acc.toNat + total xs) % 2 ^ 64 := by
  induction xs generalizing acc with
  | nil =>
      obtain rfl : acc = t := Option.some.inj h
      exact (Nat.mod_eq_of_lt acc.toNat_lt).symm
  | cons x xs ih =>
      rw [List.foldlM_cons] at h
      obtain ⟨y, hy, hrest⟩ := Option.bind_eq_some_iff.mp h
      have hval : y = acc + x := by
        cases build with
        | Debug =>
            obtain ⟨_, hy⟩ := Option.ite_none_right_eq_some.mp hy
            exact (Option.some.inj hy).symm
        | Release => exact (Option.some.inj hy).symm
      rw [ih hrest, hval, total_cons, UInt64.toNat_add]
      omega

theorem toNat_of_sum {build : Build} {xs : List UInt64} {t : UInt64} (h : sum build xs = some t) :
    t.toNat = total xs % 2 ^ 64 := by
  simpa using toNat_of_foldlM_add h

end IrohExperiments.U64
