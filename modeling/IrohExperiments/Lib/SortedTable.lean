import IrohExperiments.Lib.Bytes
import Mathlib.Data.List.Nodup
import Mathlib.Data.List.Sort

/-!
# Ordered tables

A key-value table that keeps its rows in strictly increasing key order: an ordered map, as a
B-tree map or an embedded database has it.  The order is a field of the structure, so a table with
a repeated key cannot be built, and every scan reads the rows in key order.

* `get?`, `insert`, `remove` and `range` are the operations.
* `mem_rows_iff` identifies the rows with the graph of `get?`; every other fact about lookups is
  read off it.
* `RecordTable` is such a table whose keys and values are stored as fixed-width records, with the
  encoding of each given by an instance of `Record`.
-/

/-- A table with its rows in strictly increasing order of their keys. -/
structure SortedTable (K V : Type*) [LinearOrder K] where
  rows : List (K × V)
  sorted : rows.Pairwise (fun a b => a.1 < b.1)

namespace SortedTable

variable {K V : Type*} [LinearOrder K]

/-- The table with no rows. -/
def empty : SortedTable K V := ⟨[], List.Pairwise.nil⟩

/-! ## Rows -/

theorem keys_nodup (t : SortedTable K V) : (t.rows.map Prod.fst).Nodup :=
  List.pairwise_map.mpr (t.sorted.imp ne_of_lt)

/-- Two rows of one table that share a key are one row. -/
theorem row_unique (t : SortedTable K V) {r r' : K × V} (hr : r ∈ t.rows) (hr' : r' ∈ t.rows)
    (hk : r.1 = r'.1) : r = r' :=
  List.inj_on_of_nodup_map t.keys_nodup hr hr' hk

/-! ## Lookup -/

/-- The value stored under a key. -/
def get? (t : SortedTable K V) (k : K) : Option V :=
  (t.rows.find? (fun r => decide (r.1 = k))).map Prod.snd

/-- **The rows are the graph of `get?`.** -/
theorem mem_rows_iff (t : SortedTable K V) (k : K) (v : V) :
    (k, v) ∈ t.rows ↔ t.get? k = some v := by
  rw [get?]
  constructor
  · intro h
    cases hf : t.rows.find? (fun r => decide (r.1 = k)) with
    | none =>
        have hno := List.find?_eq_none.mp hf (k, v) h
        simp at hno
    | some r =>
        have hk : r.1 = k := by simpa using List.find?_some hf
        have hr : r = (k, v) := t.row_unique (List.mem_of_find?_eq_some hf) h hk
        rw [hr]; rfl
  · intro h
    obtain ⟨r, hf, hv⟩ := Option.map_eq_some_iff.mp h
    have hk : r.1 = k := by simpa using List.find?_some hf
    have hr : r = (k, v) := Prod.ext hk hv
    exact hr ▸ List.mem_of_find?_eq_some hf

/-- **A table is determined by its lookups.** -/
theorem ext_get? {t t' : SortedTable K V} (h : ∀ k, t.get? k = t'.get? k) : t = t' := by
  obtain ⟨rows, sorted⟩ := t
  obtain ⟨rows', sorted'⟩ := t'
  have hrows : rows = rows' := by
    have : Std.Irrefl fun a b : K × V => a.1 < b.1 := ⟨fun a => lt_irrefl a.1⟩
    have : Std.Asymm fun a b : K × V => a.1 < b.1 := ⟨fun a b => lt_asymm⟩
    refine List.Pairwise.eq_of_mem_iff sorted sorted' fun r => ?_
    obtain ⟨k, v⟩ := r
    rw [mem_rows_iff ⟨rows, sorted⟩, mem_rows_iff ⟨rows', sorted'⟩, h]
  subst hrows
  rfl

/-! ## Insertion -/

/-- Insertion into rows sorted by key: a row with the same key is replaced. -/
def insertRow (k : K) (v : V) : List (K × V) → List (K × V)
  | [] => [(k, v)]
  | r :: rs =>
      if k < r.1 then (k, v) :: r :: rs
      else if k = r.1 then (k, v) :: rs
      else r :: insertRow k v rs

theorem insertRow_bound {k l : K} {v : V} {rs : List (K × V)} (hk : l < k)
    (h : ∀ r ∈ rs, l < r.1) : ∀ r ∈ insertRow k v rs, l < r.1 := by
  induction rs with
  | nil => intro r hr; rw [List.mem_singleton.mp hr]; exact hk
  | cons s rs ih =>
      have hs : l < s.1 := h s List.mem_cons_self
      have hrs : ∀ r ∈ rs, l < r.1 := fun r hr => h r (List.mem_cons_of_mem _ hr)
      intro r hr
      rw [insertRow] at hr
      split_ifs at hr with h₁ h₂
      · rcases List.mem_cons.mp hr with rfl | hr
        · exact hk
        · exact h r hr
      · rcases List.mem_cons.mp hr with rfl | hr
        · exact hk
        · exact hrs r hr
      · rcases List.mem_cons.mp hr with rfl | hr
        · exact hs
        · exact ih hrs r hr

theorem insertRow_sorted (k : K) (v : V) {rs : List (K × V)}
    (h : rs.Pairwise (fun a b => a.1 < b.1)) :
    (insertRow k v rs).Pairwise (fun a b => a.1 < b.1) := by
  induction rs with
  | nil => exact List.pairwise_singleton _ _
  | cons s rs ih =>
      obtain ⟨hs, hrs⟩ := List.pairwise_cons.mp h
      rw [insertRow]
      split_ifs with h₁ h₂
      · refine List.pairwise_cons.mpr ⟨fun r hr => ?_, h⟩
        rcases List.mem_cons.mp hr with rfl | hr
        · exact h₁
        · exact h₁.trans (hs r hr)
      · exact List.pairwise_cons.mpr ⟨fun r hr => h₂ ▸ hs r hr, hrs⟩
      · have hlt : s.1 < k := lt_of_le_of_ne (not_lt.mp h₁) (Ne.symm h₂)
        exact List.pairwise_cons.mpr ⟨insertRow_bound hlt hs, ih hrs⟩

theorem mem_insertRow (k : K) (v : V) {rs : List (K × V)}
    (h : rs.Pairwise (fun a b => a.1 < b.1)) (r : K × V) :
    r ∈ insertRow k v rs ↔ r = (k, v) ∨ r ∈ rs ∧ r.1 ≠ k := by
  induction rs with
  | nil => simp [insertRow]
  | cons s rs ih =>
      obtain ⟨hs, hrs⟩ := List.pairwise_cons.mp h
      rw [insertRow]
      split_ifs with h₁ h₂
      · -- every row lies above the new key, so none of them has it
        have hne : ∀ r ∈ s :: rs, r.1 ≠ k := by
          intro r hr
          rcases List.mem_cons.mp hr with rfl | hr
          · exact h₁.ne'
          · exact (h₁.trans (hs r hr)).ne'
        rw [List.mem_cons]
        exact or_congr_right ⟨fun hr => ⟨hr, hne r hr⟩, And.left⟩
      · have hne : ∀ r ∈ rs, r.1 ≠ k := fun r hr => h₂ ▸ (hs r hr).ne'
        rw [List.mem_cons, List.mem_cons]
        refine or_congr_right ⟨fun hr => ⟨Or.inr hr, hne r hr⟩, ?_⟩
        rintro ⟨rfl | hr, hk⟩
        · exact absurd h₂.symm hk
        · exact hr
      · rw [List.mem_cons, List.mem_cons, ih hrs]
        constructor
        · rintro (rfl | rfl | ⟨hr, hk⟩)
          · exact Or.inr ⟨Or.inl rfl, Ne.symm h₂⟩
          · exact Or.inl rfl
          · exact Or.inr ⟨Or.inr hr, hk⟩
        · rintro (rfl | ⟨rfl | hr, hk⟩)
          · exact Or.inr (Or.inl rfl)
          · exact Or.inl rfl
          · exact Or.inr (Or.inr ⟨hr, hk⟩)

/-- Store a value under a key, replacing the value stored there before. -/
def insert (t : SortedTable K V) (k : K) (v : V) : SortedTable K V :=
  ⟨insertRow k v t.rows, insertRow_sorted k v t.sorted⟩

theorem mem_insert_rows (t : SortedTable K V) (k : K) (v : V) (r : K × V) :
    r ∈ (t.insert k v).rows ↔ r = (k, v) ∨ r ∈ t.rows ∧ r.1 ≠ k :=
  mem_insertRow k v t.sorted r

@[simp] theorem get?_insert_self (t : SortedTable K V) (k : K) (v : V) :
    (t.insert k v).get? k = some v :=
  (mem_rows_iff _ k v).mp ((t.mem_insert_rows k v _).mpr (Or.inl rfl))

theorem get?_insert_of_ne (t : SortedTable K V) {k k' : K} (v : V) (h : k' ≠ k) :
    (t.insert k v).get? k' = t.get? k' := by
  refine Option.ext fun w => ?_
  rw [← mem_rows_iff, ← mem_rows_iff, mem_insert_rows]
  simp [h]

theorem get?_insert (t : SortedTable K V) (k k' : K) (v : V) :
    (t.insert k v).get? k' = if k' = k then some v else t.get? k' := by
  split_ifs with h
  · rw [h, get?_insert_self]
  · exact t.get?_insert_of_ne v h

/-! ## Removal and scans -/

/-- Keep the rows that satisfy a predicate. -/
def filter (t : SortedTable K V) (p : K × V → Bool) : SortedTable K V :=
  ⟨t.rows.filter p, t.sorted.filter p⟩

/-- Remove the row stored under a key, if there is one. -/
def remove (t : SortedTable K V) (k : K) : SortedTable K V :=
  t.filter fun r => decide (r.1 ≠ k)

theorem mem_remove_rows (t : SortedTable K V) (k : K) (r : K × V) :
    r ∈ (t.remove k).rows ↔ r ∈ t.rows ∧ r.1 ≠ k := by
  simp [remove, filter]

theorem get?_remove (t : SortedTable K V) (k k' : K) :
    (t.remove k).get? k' = if k' = k then none else t.get? k' := by
  refine Option.ext fun w => ?_
  rw [← mem_rows_iff, mem_remove_rows, mem_rows_iff]
  split_ifs with h <;> simp [h]

/-- The removal of a row that is there. -/
theorem length_remove {t : SortedTable K V} {k : K} {v : V} (h : t.get? k = some v) :
    (t.remove k).rows.length + 1 = t.rows.length := by
  have hperm : t.rows.Perm ((k, v) :: (t.remove k).rows) := by
    refine (List.perm_ext_iff_of_nodup (t.keys_nodup.of_map _) ?_).mpr fun r => ?_
    · refine List.nodup_cons.mpr ⟨fun hr => ?_, (t.remove k).keys_nodup.of_map _⟩
      exact ((t.mem_remove_rows k _).mp hr).2 rfl
    · rw [List.mem_cons, mem_remove_rows]
      constructor
      · intro hr
        by_cases hk : r.1 = k
        · exact .inl (t.row_unique hr ((t.mem_rows_iff k v).mpr h) hk)
        · exact .inr ⟨hr, hk⟩
      · rintro (rfl | ⟨hr, _⟩)
        · exact (t.mem_rows_iff k v).mpr h
        · exact hr
  rw [hperm.length_eq, List.length_cons]

/-- The rows with a key in `[lo, hi]`, in key order. -/
def range (t : SortedTable K V) (lo hi : K) : List (K × V) :=
  t.rows.filter fun r => decide (lo ≤ r.1 ∧ r.1 ≤ hi)

end SortedTable

/-! ## Records -/

/-- An encoding of a type as records of one width, in which every record of that width is the
encoding of exactly one value. -/
class Record (α : Type*) where
  width : ℕ
  bytes : α ≃ Bytes width

/-- A table of records: keys and values are stored as bytes and keys compare as byte strings. -/
structure RecordTable (K V : Type*) [Record K] [Record V] where
  raw : SortedTable (Bytes (Record.width K)) (Bytes (Record.width V))

namespace RecordTable

variable {K V : Type*} [Record K] [Record V]

/-- A stored row, decoded. -/
def decodeRow (r : Bytes (Record.width K) × Bytes (Record.width V)) : K × V :=
  (Record.bytes.symm r.1, Record.bytes.symm r.2)

theorem decodeRow_injective : Function.Injective (decodeRow (K := K) (V := V)) := by
  rintro ⟨k, v⟩ ⟨k', v'⟩ h
  simpa [decodeRow] using h

def empty : RecordTable K V := ⟨SortedTable.empty⟩

/-- The rows in key order. -/
def iter (t : RecordTable K V) : List (K × V) := t.raw.rows.map decodeRow

def get (t : RecordTable K V) (k : K) : Option V :=
  (t.raw.get? (Record.bytes k)).map Record.bytes.symm

def insert (t : RecordTable K V) (k : K) (v : V) : RecordTable K V :=
  ⟨t.raw.insert (Record.bytes k) (Record.bytes v)⟩

def remove (t : RecordTable K V) (k : K) : RecordTable K V :=
  ⟨t.raw.remove (Record.bytes k)⟩

/-- The rows whose encoded key lies between two encoded keys, both included. -/
def range (t : RecordTable K V) (lo hi : K) : List (K × V) :=
  (t.raw.range (Record.bytes lo) (Record.bytes hi)).map decodeRow

@[simp] theorem iter_empty : (empty : RecordTable K V).iter = [] := rfl

/-- **The decoded rows are the graph of `get`.** -/
theorem mem_iter_iff (t : RecordTable K V) (k : K) (v : V) :
    (k, v) ∈ t.iter ↔ t.get k = some v := by
  have hrow : (k, v) = decodeRow (Record.bytes k, Record.bytes v) := by simp [decodeRow]
  rw [iter, hrow, List.mem_map_of_injective decodeRow_injective, SortedTable.mem_rows_iff, get,
    Option.map_eq_some_iff]
  constructor
  · exact fun h => ⟨_, h, by simp⟩
  · rintro ⟨b, hb, hv⟩
    rw [hb, ← hv, Equiv.apply_symm_apply]

theorem get_eq_none_iff (t : RecordTable K V) (k : K) :
    t.get k = none ↔ ∀ r ∈ t.iter, r.1 ≠ k := by
  rw [Option.eq_none_iff_forall_ne_some]
  constructor
  · rintro h ⟨k', v⟩ hr rfl
    exact h v ((t.mem_iter_iff k' v).mp hr)
  · intro h v hv
    exact h (k, v) ((t.mem_iter_iff k v).mpr hv) rfl

theorem ext_get {t t' : RecordTable K V} (h : ∀ k, t.get k = t'.get k) : t = t' := by
  obtain ⟨raw⟩ := t
  obtain ⟨raw'⟩ := t'
  have hraw : raw = raw' := by
    refine SortedTable.ext_get? fun k => ?_
    have hk := h (Record.bytes.symm k)
    rw [get, get, Equiv.apply_symm_apply] at hk
    exact Option.map_injective Record.bytes.symm.injective hk
  rw [hraw]

theorem get_insert [DecidableEq K] (t : RecordTable K V) (k k' : K) (v : V) :
    (t.insert k v).get k' = if k' = k then some v else t.get k' := by
  rw [get, insert, SortedTable.get?_insert]
  simp only [EmbeddingLike.apply_eq_iff_eq]
  split_ifs <;> simp [get]

theorem get_remove [DecidableEq K] (t : RecordTable K V) (k k' : K) :
    (t.remove k).get k' = if k' = k then none else t.get k' := by
  rw [get, remove, SortedTable.get?_remove]
  simp only [EmbeddingLike.apply_eq_iff_eq]
  split_ifs <;> simp [get]

theorem mem_iter_insert (t : RecordTable K V) (k : K) (v : V) (r : K × V) :
    r ∈ (t.insert k v).iter ↔ r = (k, v) ∨ r ∈ t.iter ∧ r.1 ≠ k := by
  classical
  obtain ⟨k', v'⟩ := r
  rw [mem_iter_iff, mem_iter_iff, get_insert, Prod.mk.injEq]
  split_ifs with h <;> simp [h, eq_comm]

theorem mem_iter_remove (t : RecordTable K V) (k : K) (r : K × V) :
    r ∈ (t.remove k).iter ↔ r ∈ t.iter ∧ r.1 ≠ k := by
  classical
  obtain ⟨k', v'⟩ := r
  rw [mem_iter_iff, mem_iter_iff, get_remove]
  split_ifs with h <;> simp [h]

/-- A range scan is the full scan, filtered by the encoded key. -/
theorem range_eq_filter (t : RecordTable K V) (lo hi : K) :
    t.range lo hi = t.iter.filter fun r =>
      decide (Record.bytes lo ≤ Record.bytes r.1 ∧ Record.bytes r.1 ≤ Record.bytes hi) := by
  rw [range, SortedTable.range, iter, List.filter_map]
  congr 2
  funext r
  simp [decodeRow]

end RecordTable
