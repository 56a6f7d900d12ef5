import Mathlib.Data.List.Basic

/-!
# Buffers of several chunks

A buffer holds bytes that need not be contiguous: it shows one chunk at a time, and is advanced past
as many bytes as were taken from it.  Here it is the list of its chunks, some of which may be empty.
The content of a buffer is the concatenation of the chunks, `Buf.bytes`, and everything about the
operations is said in these terms: `chunk` is an initial part of the bytes, and advancing by `cnt`
drops `cnt` of them.  Advancing past the end is an error.
-/

namespace IrohExperiments

variable {α : Type*}

structure Buf (α : Type*) where
  chunks : List (List α)
  deriving DecidableEq

namespace Buf

/-- What is left in the buffer. -/
def bytes (b : Buf α) : List α := b.chunks.flatten

def hasRemaining (b : Buf α) : Bool := !b.bytes.isEmpty

theorem hasRemaining_iff (b : Buf α) : b.hasRemaining = true ↔ b.bytes ≠ [] := by
  rw [hasRemaining, Bool.not_eq_true', List.isEmpty_eq_false_iff]

/-- The first chunk that is not empty. -/
def firstChunk : List (List α) → List α
  | [] => []
  | [] :: chunks => firstChunk chunks
  | chunk :: _ => chunk

def chunk (b : Buf α) : List α := firstChunk b.chunks

theorem firstChunk_prefix (chunks : List (List α)) : firstChunk chunks <+: chunks.flatten := by
  induction chunks with
  | nil => exact List.prefix_rfl
  | cons chunk chunks ih =>
      cases chunk with
      | nil => exact ih
      | cons a chunk => exact List.prefix_append _ _

/-- The chunk that is shown is what comes next. -/
theorem chunk_prefix (b : Buf α) : b.chunk <+: b.bytes := firstChunk_prefix b.chunks

/-- Drop elements across the chunks. -/
def advanceChunks : List (List α) → ℕ → Option (List (List α))
  | [], 0 => some []
  | [], _ + 1 => none
  | chunk :: chunks, cnt =>
      if cnt < chunk.length then some (chunk.drop cnt :: chunks)
      else advanceChunks chunks (cnt - chunk.length)

/-- Advance past `cnt` bytes; `none` if there are not as many. -/
def advance (b : Buf α) (cnt : ℕ) : Option (Buf α) := (advanceChunks b.chunks cnt).map Buf.mk

theorem exists_advanceChunks {chunks : List (List α)} {cnt : ℕ}
    (h : cnt ≤ chunks.flatten.length) :
    ∃ chunks', advanceChunks chunks cnt = some chunks' ∧
      chunks'.flatten = chunks.flatten.drop cnt := by
  induction chunks generalizing cnt with
  | nil =>
      obtain rfl := Nat.le_zero.mp h
      exact ⟨[], rfl, rfl⟩
  | cons chunk chunks ih =>
      rw [advanceChunks, List.flatten_cons]
      rw [List.flatten_cons, List.length_append] at h
      split_ifs with hlt
      · refine ⟨_, rfl, ?_⟩
        rw [List.flatten_cons, List.drop_append_of_le_length (Nat.le_of_lt hlt)]
      · have hge : chunk.length ≤ cnt := Nat.le_of_not_lt hlt
        have hle : cnt - chunk.length ≤ chunks.flatten.length := by omega
        obtain ⟨chunks', hadvance, hflatten⟩ := ih hle
        refine ⟨chunks', hadvance, ?_⟩
        rw [hflatten, List.drop_append, List.drop_of_length_le hge, List.nil_append]

/-- **Advancing drops what was taken.** -/
theorem exists_advance {b : Buf α} {cnt : ℕ} (h : cnt ≤ b.bytes.length) :
    ∃ b', b.advance cnt = some b' ∧ b'.bytes = b.bytes.drop cnt := by
  obtain ⟨chunks, hadvance, hflatten⟩ := exists_advanceChunks h
  refine ⟨⟨chunks⟩, ?_, hflatten⟩
  rw [advance, hadvance]
  rfl

/-- Taking some of the chunk that is shown, and advancing past it, divides the bytes in two. -/
theorem exists_advance_chunk {b : Buf α} {cnt : ℕ} (h : cnt ≤ b.chunk.length) :
    ∃ b', b.advance cnt = some b' ∧ b.chunk.take cnt ++ b'.bytes = b.bytes := by
  obtain ⟨rest, hrest⟩ := b.chunk_prefix
  have hle : cnt ≤ b.bytes.length := by
    rw [← hrest, List.length_append]
    omega
  obtain ⟨b', hadvance, hbytes⟩ := exists_advance hle
  refine ⟨b', hadvance, ?_⟩
  have htake : b.chunk.take cnt = b.bytes.take cnt := by
    rw [← hrest, List.take_append_of_le_length h]
  rw [hbytes, htake, List.take_append_drop]

end Buf

end IrohExperiments
