import IrohExperiments.Lib.Codec

/-!
# CBOR items

The items of the CBOR format, each as a codec, in the deterministic encoding that the *DAG-CBOR*
format asks for.  An item begins with a head: three bits for the major type and an argument in the
shortest form.  For a byte string the argument is the length, for an array it is the number of
items, and for a tag it is the number of the tag.

`head_append_inj` is what tells items of different types apart, whatever follows them.
-/

namespace Cbor

/-! ## Heads -/

/-- The `k` low-order bytes of `n`, most significant first. -/
def beBytes (k n : ℕ) : List UInt8 := (Bytes.leBytes k n).reverse

def ofBeBytes (data : List UInt8) : ℕ := Bytes.ofLeBytes data.reverse

theorem ofBeBytes_beBytes (k n : ℕ) : ofBeBytes (beBytes k n) = n % 256 ^ k := by
  rw [ofBeBytes, beBytes, List.reverse_reverse, Bytes.ofLeBytes_leBytes]

@[simp] theorem beBytes_length (k n : ℕ) : (beBytes k n).length = k := by
  rw [beBytes, List.length_reverse, Bytes.leBytes_length]

/-- The low five bits of a head: the argument itself, or how many bytes it takes. -/
def info (n : ℕ) : ℕ :=
  if n < 24 then n else if n < 2 ^ 8 then 24 else if n < 2 ^ 16 then 25
  else if n < 2 ^ 32 then 26 else 27

/-- The bytes of the argument that follow the first byte of a head. -/
def width (info : ℕ) : ℕ := if info < 24 then 0 else 2 ^ (info - 24)

def head (major n : ℕ) : List UInt8 :=
  UInt8.ofNat (32 * major + info n) :: beBytes (width (info n)) n

/-- Read a head of a major type. -/
def takeHead (major : ℕ) : List UInt8 → Option (ℕ × List UInt8)
  | [] => none
  | b :: data =>
      let i := b.toNat % 32
      if b.toNat / 32 = major ∧ i < 28 ∧ width i ≤ data.length then
        some (if i < 24 then i else ofBeBytes (data.take (width i)), data.drop (width i))
      else none

theorem info_lt (n : ℕ) : info n < 28 := by
  rw [info]
  split_ifs <;> omega

theorem info_lt_iff (n : ℕ) : info n < 24 ↔ n < 24 := by
  rw [info]
  split_ifs <;> omega

/-- The argument fits into the bytes that the head has for it. -/
theorem lt_width {n : ℕ} (h : n < 2 ^ 64) (hlarge : 24 ≤ n) : n < 256 ^ width (info n) := by
  rw [info, if_neg (by omega)]
  split_ifs with h₁ h₂ h₄
  · exact h₁
  · exact h₂
  · exact h₄
  · exact h

theorem head_toNat {major : ℕ} (h : major < 8) (n : ℕ) :
    (UInt8.ofNat (32 * major + info n)).toNat = 32 * major + info n := by
  have hinfo := info_lt n
  rw [UInt8.toNat_ofNat']
  omega

theorem takeHead_head {major n : ℕ} (hmajor : major < 8) (hn : n < 2 ^ 64) (rest : List UInt8) :
    takeHead major (head major n ++ rest) = some (n, rest) := by
  have hinfo := info_lt n
  have hlength : (beBytes (width (info n)) n).length = width (info n) := beBytes_length _ _
  rw [head, List.cons_append, takeHead, head_toNat hmajor]
  have hdiv : (32 * major + info n) / 32 = major := by omega
  have hmod : (32 * major + info n) % 32 = info n := by omega
  have hroom : width (info n) ≤ (beBytes (width (info n)) n ++ rest).length := by
    rw [List.length_append, hlength]
    omega
  simp only [hdiv, hmod]
  rw [if_pos ⟨trivial, hinfo, hroom⟩, List.drop_left' hlength, List.take_left' hlength,
    ofBeBytes_beBytes]
  by_cases hsmall : n < 24
  · rw [if_pos ((info_lt_iff n).mpr hsmall), info, if_pos hsmall]
  · rw [if_neg (mt (info_lt_iff n).mp hsmall),
      Nat.mod_eq_of_lt (lt_width hn (not_lt.mp hsmall))]

/-- **What follows a head is determined**, and so is its major type. -/
theorem head_append_inj {major major' n n' : ℕ} {x y : List UInt8} (hmajor : major < 8)
    (hmajor' : major' < 8) (h : head major n ++ x = head major' n' ++ y) :
    major = major' ∧ x = y := by
  rw [head, head, List.cons_append, List.cons_append, List.cons.injEq] at h
  obtain ⟨hfirst, hrest⟩ := h
  have hbyte := congrArg UInt8.toNat hfirst
  rw [head_toNat hmajor, head_toNat hmajor'] at hbyte
  have hinfo := info_lt n
  have hinfo' := info_lt n'
  have hsame : info n = info n' := by omega
  refine ⟨by omega, (List.append_inj hrest ?_).2⟩
  rw [beBytes_length, beBytes_length, hsame]

/-! ## Items -/

/-- The argument of an item, behind its major type. -/
def argument (major : ℕ) (h : major < 8) : Codec ℕ where
  encode := head major
  decode := takeHead major
  Fits n := n < 2 ^ 64
  decode_encode _ hn rest := takeHead_head h hn rest

/-- An unsigned integer. -/
def unsigned : Codec ℕ := argument 0 (by decide)

def byteString : Codec (List UInt8) := (argument 2 (by decide)).sized

/-- A text string, given by its bytes. -/
def textString : Codec (List UInt8) := (argument 3 (by decide)).sized

variable {α : Type*}

def array (c : Codec α) : Codec (List α) := Codec.listOf (argument 4 (by decide)) c

/-- An item with a tag in front. -/
def tagged (tag : ℕ) (c : Codec α) : Codec α := c.enclosed (head 6 tag) []

end Cbor
