import Mathlib.Data.List.Lex
import Mathlib.Data.Vector.Basic
import Mathlib.Order.Basic
import Mathlib.Tactic.Ring

/-!
# Fixed-width byte strings

Records on disk and fields on the wire are byte strings of a known width.  Three groups of facts
about them are used over and over.

* **Order.**  Byte slices compare lexicographically.  `append_le_append_iff` reads the order of two
  concatenations off their parts when the first parts have one length, and `replicate_zero_le` and
  `le_replicate_max` say that the all-zero and the all-255 string are the least and the greatest of
  their width.
* **Slices.**  `Bytes.slice` is `data[i..i + k]` with the bound discharged, and `take_append_slice`
  puts the parts of a string together again.
* **Integers.**  `leBytes` and `ofLeBytes` are the little-endian encoding of a natural number in a
  fixed number of bytes and its inverse.
-/

/-- Bytes are ordered by value. -/
instance UInt8.instLinearOrder : LinearOrder UInt8 where
  le_refl _ := UInt8.le_refl _
  le_trans _ _ _ := UInt8.le_trans
  le_antisymm _ _ := UInt8.le_antisymm
  le_total := UInt8.le_total
  lt_iff_le_not_ge a b := by
    simp only [UInt8.lt_iff_toNat_lt, UInt8.le_iff_toNat_le]; omega
  toDecidableLE := inferInstance
  toDecidableEq := inferInstance
  toDecidableLT := inferInstance

/-- A byte string of width `n`: the `[u8; n]` of a record. -/
abbrev Bytes (n : ℕ) := List.Vector UInt8 n

namespace Bytes

/-- Byte strings of one width compare lexicographically. -/
instance (n : ℕ) : LinearOrder (Bytes n) :=
  LinearOrder.lift' List.Vector.toList List.Vector.toList_injective

/-! ## Lexicographic order of concatenations -/

section Lex

variable {α : Type*} [LinearOrder α]

/-- With first parts of one length, the order of two concatenations is decided by the first parts,
and by the second parts when these agree. -/
theorem append_lt_append_iff {a c : List α} (b d : List α) (h : a.length = c.length) :
    a ++ b < c ++ d ↔ a < c ∨ a = c ∧ b < d := by
  induction a generalizing c with
  | nil =>
      cases c with
      | nil => simp
      | cons _ _ => simp at h
  | cons x a ih =>
      cases c with
      | nil => simp at h
      | cons y c =>
          have hlen : a.length = c.length := by simpa using h
          simp only [List.cons_append, List.cons_lt_cons_iff, ih hlen, List.cons.injEq]
          tauto

theorem append_le_append_iff {a c : List α} (b d : List α) (h : a.length = c.length) :
    a ++ b ≤ c ++ d ↔ a < c ∨ a = c ∧ b ≤ d := by
  have heq : a ++ b = c ++ d ↔ a = c ∧ b = d :=
    ⟨fun he => List.append_inj he h, fun ⟨h₁, h₂⟩ => by rw [h₁, h₂]⟩
  rw [le_iff_lt_or_eq, append_lt_append_iff b d h, heq, le_iff_lt_or_eq]
  tauto

theorem cons_le_cons_iff (x y : α) (a b : List α) :
    x :: a ≤ y :: b ↔ x < y ∨ x = y ∧ a ≤ b := by
  rw [le_iff_lt_or_eq, List.cons_lt_cons_iff, List.cons.injEq, le_iff_lt_or_eq]
  tauto

end Lex

/-! ## Comparison of slices -/

/-- With first parts of one length, the second parts are compared when the first ones agree.  Nothing
is asked of the comparison of the elements. -/
theorem compareLex_append {α : Type*} {elem : α → α → Ordering} {a c : List α} (b d : List α)
    (h : a.length = c.length) :
    (a ++ b).compareLex elem (c ++ d) = (a.compareLex elem c).then (b.compareLex elem d) := by
  induction a generalizing c with
  | nil =>
      obtain rfl := List.length_eq_zero_iff.mp h.symm
      rfl
  | cons x a ih =>
      cases c with
      | nil => simp at h
      | cons y c =>
          have hlen : a.length = c.length := by simpa using h
          rw [List.cons_append, List.cons_append, List.compareLex_cons_cons,
            List.compareLex_cons_cons, ih hlen, Ordering.then_assoc]

/-- `Ord::cmp` of byte slices. -/
def cmp (a b : List UInt8) : Ordering := a.compareLex compare b

@[simp] theorem cmp_cons_cons (x y : UInt8) (a b : List UInt8) :
    cmp (x :: a) (y :: b) = (compare x y).then (cmp a b) :=
  List.compareLex_cons_cons

theorem cmp_append {a c : List UInt8} (b d : List UInt8) (h : a.length = c.length) :
    cmp (a ++ b) (c ++ d) = (cmp a c).then (cmp b d) :=
  compareLex_append b d h

theorem cmp_eq_eq_iff (a b : List UInt8) : cmp a b = .eq ↔ a = b := by
  induction a generalizing b with
  | nil => cases b <;> simp [cmp, List.compareLex]
  | cons x a ih =>
      cases b with
      | nil => simp [cmp, List.compareLex]
      | cons y b =>
          rw [cmp_cons_cons, Ordering.then_eq_eq, Std.compare_eq_iff_eq, ih, List.cons.injEq]

theorem compare_eq_lt_iff (x y : UInt8) : compare x y = .lt ↔ x < y := compare_lt_iff_lt

/-- The comparison of slices is the one of the linear order. -/
theorem cmp_eq_lt_iff (a b : List UInt8) : cmp a b = .lt ↔ a < b := by
  induction a generalizing b with
  | nil => cases b <;> simp [cmp, List.compareLex]
  | cons x a ih =>
      cases b with
      | nil => simp [cmp, List.compareLex]
      | cons y b =>
          rw [cmp_cons_cons, Ordering.then_eq_lt, compare_eq_lt_iff, Std.compare_eq_iff_eq, ih b,
            List.cons_lt_cons_iff]

/-- The all-zero string is below every string of its width. -/
theorem replicate_zero_le (l : List UInt8) : List.replicate l.length 0 ≤ l := by
  induction l with
  | nil => simp
  | cons b l ih =>
      rw [List.length_cons, List.replicate_succ, cons_le_cons_iff]
      rcases (show (0 : UInt8) ≤ b by simp).lt_or_eq with hb | hb
      · exact Or.inl hb
      · exact Or.inr ⟨hb, ih⟩

/-- The all-255 string is above every string of its width. -/
theorem le_replicate_max (l : List UInt8) : l ≤ List.replicate l.length 255 := by
  induction l with
  | nil => simp
  | cons b l ih =>
      rw [List.length_cons, List.replicate_succ, cons_le_cons_iff]
      have hmax : b ≤ 255 := by
        have h256 := b.toNat_lt
        simp only [UInt8.le_iff_toNat_le]
        exact Nat.le_of_lt_succ h256
      rcases hmax.lt_or_eq with hb | hb
      · exact Or.inl hb
      · exact Or.inr ⟨hb, ih⟩

/-! ## Slices -/

/-- `data[i..i + k]`, for a slice that lies inside the string. -/
def slice {n : ℕ} (data : Bytes n) (i k : ℕ) (h : i + k ≤ n) : Bytes k :=
  ⟨(data.toList.drop i).take k, by simp; omega⟩

@[simp] theorem slice_toList {n : ℕ} (data : Bytes n) (i k : ℕ) (h : i + k ≤ n) :
    (data.slice i k h).toList = (data.toList.drop i).take k := rfl

/-- A string cut in two is the concatenation of its slices. -/
theorem take_append_slice {n : ℕ} (data : Bytes n) (i k : ℕ) (h : i + k ≤ n) :
    data.toList.take i ++ (data.slice i k h).toList = data.toList.take (i + k) := by
  rw [slice_toList, List.take_add]

/-! ## Little-endian integers -/

/-- The `k` low-order bytes of `n`, least significant first. -/
def leBytes : (k : ℕ) → ℕ → List UInt8
  | 0, _ => []
  | k + 1, n => UInt8.ofNat n :: leBytes k (n / 256)

/-- The number whose base-256 digits, least significant first, are the given bytes. -/
def ofLeBytes : List UInt8 → ℕ
  | [] => 0
  | b :: bs => b.toNat + 256 * ofLeBytes bs

@[simp] theorem leBytes_length (k n : ℕ) : (leBytes k n).length = k := by
  induction k generalizing n with
  | zero => rfl
  | succ k ih => rw [leBytes, List.length_cons, ih]

/-- Decoding what was encoded in `k` bytes gives the number back modulo `256 ^ k`. -/
theorem ofLeBytes_leBytes (k n : ℕ) : ofLeBytes (leBytes k n) = n % 256 ^ k := by
  induction k generalizing n with
  | zero => rw [leBytes, ofLeBytes, pow_zero, Nat.mod_one]
  | succ k ih =>
      rw [leBytes, ofLeBytes, ih, pow_succ, Nat.mul_comm (256 ^ k), Nat.mod_mul]
      simp

/-- Encoding what was decoded gives the bytes back. -/
theorem leBytes_ofLeBytes (l : List UInt8) : leBytes l.length (ofLeBytes l) = l := by
  induction l with
  | nil => rfl
  | cons b l ih =>
      have hb := b.toNat_lt
      have hdiv : (b.toNat + 256 * ofLeBytes l) / 256 = ofLeBytes l := by omega
      rw [List.length_cons, ofLeBytes, leBytes, hdiv, ih]
      congr 1
      apply UInt8.toNat_inj.mp
      rw [UInt8.toNat_ofNat']
      omega

theorem ofLeBytes_lt (l : List UInt8) : ofLeBytes l < 256 ^ l.length := by
  induction l with
  | nil => simp [ofLeBytes]
  | cons b l ih =>
      have hb := b.toNat_lt
      rw [ofLeBytes, List.length_cons, pow_succ]
      omega

/-- `u64::to_le_bytes`. -/
def ofUInt64 (x : UInt64) : Bytes 8 := ⟨leBytes 8 x.toNat, leBytes_length 8 _⟩

/-- `u64::from_le_bytes`. -/
def toUInt64 (b : Bytes 8) : UInt64 := UInt64.ofNat (ofLeBytes b.toList)

@[simp] theorem toUInt64_ofUInt64 (x : UInt64) : toUInt64 (ofUInt64 x) = x := by
  have hx := x.toNat_lt
  have h : ofLeBytes (leBytes 8 x.toNat) = x.toNat := by
    rw [ofLeBytes_leBytes, Nat.mod_eq_of_lt (by simpa using hx)]
  show UInt64.ofNat (ofLeBytes (leBytes 8 x.toNat)) = x
  rw [h, UInt64.ofNat_toNat]

@[simp] theorem ofUInt64_toUInt64 (b : Bytes 8) : ofUInt64 (toUInt64 b) = b := by
  have hlen : b.toList.length = 8 := b.toList_length
  have hlt : ofLeBytes b.toList < 2 ^ 64 := by
    have h := ofLeBytes_lt b.toList
    rw [hlen] at h
    simpa using h
  apply List.Vector.toList_injective
  show leBytes 8 (toUInt64 b).toNat = b.toList
  rw [toUInt64, UInt64.toNat_ofNat_of_lt' hlt]
  have h := leBytes_ofLeBytes b.toList
  rwa [hlen] at h

end Bytes
