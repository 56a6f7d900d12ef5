import IrohExperiments.Lib.Bytes
import Mathlib.Algebra.BigOperators.Group.List.Basic
import Mathlib.Data.Finset.Sort

/-!
# Self-delimiting binary codecs

A `Codec` is an encoder together with a decoder that reads one value off the front of a byte string
and returns the rest, and the law that connects them: whatever follows an encoding is left alone.
The law is a field, so a codec cannot be built without it, and the combinators below carry it
through the format: a struct is `pair`s of its fields, an enumeration is a tag and a payload, a
vector is a length and its elements.

The integers and lengths use the variable-length encoding of the *postcard* wire format: seven bits
a byte, least significant group first, the high bit set on every byte but the last.  A decoder
reads at most as many bytes as the integer type can need and rejects what does not fit the type.

`Fits` marks the values an encoder is for.  It is `True` except for vectors, whose length has to fit
the 64-bit length field.
-/

/-- An encoder, a decoder of the front of a byte string, and the law that the second undoes the
first. -/
structure Codec (α : Type*) where
  encode : α → List UInt8
  decode : List UInt8 → Option (α × List UInt8)
  Fits : α → Prop
  decode_encode : ∀ a, Fits a → ∀ rest, decode (encode a ++ rest) = some (a, rest)

namespace Codec

variable {α β : Type*}

/-- Decode a whole message.  Bytes after the value are ignored. -/
def fromBytes (c : Codec α) (data : List UInt8) : Option α := (c.decode data).map Prod.fst

theorem fromBytes_encode (c : Codec α) {a : α} (h : c.Fits a) :
    c.fromBytes (c.encode a) = some a := by
  have hd := c.decode_encode a h []
  rw [List.append_nil] at hd
  rw [fromBytes, hd]
  rfl

/-! ## Fixed-width byte strings -/

/-- `n` raw bytes. -/
def bytes (n : ℕ) : Codec (Bytes n) where
  encode b := b.toList
  decode data := if h : n ≤ data.length then
      some (⟨data.take n, by simpa using h⟩, data.drop n) else none
  Fits _ := True
  decode_encode b _ rest := by
    have hlen : b.toList.length = n := b.toList_length
    have hle : n ≤ (b.toList ++ rest).length := by simp
    rw [dif_pos hle]
    refine congrArg some (Prod.ext ?_ ?_)
    · apply List.Vector.toList_injective
      show (b.toList ++ rest).take n = b.toList
      rw [List.take_append_of_le_length hlen.ge, List.take_of_length_le hlen.le]
    · show (b.toList ++ rest).drop n = rest
      rw [List.drop_append_of_le_length hlen.ge, List.drop_of_length_le hlen.le, List.nil_append]

@[simp] theorem bytes_encode_length (n : ℕ) (b : Bytes n) : ((bytes n).encode b).length = n :=
  b.toList_length

/-! ## Variable-length integers -/

/-- The groups of seven bits of `n`, least significant first, in at most `k` bytes. -/
def varint : (k : ℕ) → ℕ → List UInt8
  | 0, _ => []
  | k + 1, n =>
      if n < 128 then [UInt8.ofNat n] else UInt8.ofNat (n % 128 + 128) :: varint k (n / 128)

/-- Read such groups off the front of a byte string, at most `k` of them. -/
def takeVarint : (k : ℕ) → List UInt8 → Option (ℕ × List UInt8)
  | 0, _ => none
  | _ + 1, [] => none
  | k + 1, b :: bs =>
      if b.toNat < 128 then some (b.toNat, bs)
      else (takeVarint k bs).map fun r => (b.toNat % 128 + 128 * r.1, r.2)

/-- **Round trip of integers** that fit in `k` groups. -/
theorem takeVarint_varint (k n : ℕ) (hk : 0 < k) (hn : n < 128 ^ k) (rest : List UInt8) :
    takeVarint k (varint k n ++ rest) = some (n, rest) := by
  induction k generalizing n with
  | zero => exact absurd hk (lt_irrefl 0)
  | succ k ih =>
      rw [varint]
      split_ifs with h
      · have hb : (UInt8.ofNat n).toNat = n := by
          rw [UInt8.toNat_ofNat']; omega
        rw [List.singleton_append, takeVarint, hb, if_pos h]
      · have hb : (UInt8.ofNat (n % 128 + 128)).toNat = n % 128 + 128 := by
          rw [UInt8.toNat_ofNat']; omega
        have hlt : n / 128 < 128 ^ k := by
          rw [pow_succ] at hn
          omega
        -- a number of two groups or more leaves something for the groups that follow
        have hpos : 0 < k := by
          by_contra h0
          rw [Nat.eq_zero_of_not_pos h0, pow_zero] at hlt
          omega
        rw [List.cons_append, takeVarint, hb, if_neg (by omega), ih _ hpos hlt]
        refine congrArg some (Prod.ext ?_ rfl)
        show (n % 128 + 128) % 128 + 128 * (n / 128) = n
        omega

theorem varint_length_pos (k n : ℕ) : 0 < (varint (k + 1) n).length := by
  rw [varint]
  split_ifs <;> simp

/-- **What follows an integer is determined**, also if the integer did not fit. -/
theorem varint_append_inj (k : ℕ) {n n' : ℕ} {x y : List UInt8}
    (h : varint k n ++ x = varint k n' ++ y) : x = y := by
  have hsmall : ∀ m, m < 128 → (UInt8.ofNat m).toNat = m := by
    intro m hm
    rw [UInt8.toNat_ofNat']
    omega
  have hlarge : ∀ m, (UInt8.ofNat (m % 128 + 128)).toNat = m % 128 + 128 := by
    intro m
    rw [UInt8.toNat_ofNat']
    omega
  induction k generalizing n n' with
  | zero => exact h
  | succ k ih =>
      rw [varint, varint] at h
      split_ifs at h with hn hn' hn'
      · exact (List.cons.inj h).2
      · -- one of the two ends with this byte and the other one does not
        have hbyte := congrArg UInt8.toNat (List.cons.inj h).1
        rw [hsmall n hn, hlarge n'] at hbyte
        omega
      · have hbyte := congrArg UInt8.toNat (List.cons.inj h).1
        rw [hlarge n, hsmall n' hn'] at hbyte
        omega
      · exact ih (List.cons.inj h).2

theorem varint_length_le {k n : ℕ} (j : ℕ) (hk : 0 < k) (hn : n < 128 ^ k) :
    (varint (k + j) n).length ≤ k := by
  induction k generalizing n with
  | zero => exact absurd hk (lt_irrefl 0)
  | succ k ih =>
      rw [Nat.succ_add, varint]
      split_ifs with h
      · simp
      · have hlt : n / 128 < 128 ^ k := by
          rw [pow_succ] at hn
          omega
        have hpos : 0 < k := by
          by_contra h0
          rw [Nat.eq_zero_of_not_pos h0, pow_zero] at hlt
          omega
        rw [List.length_cons]
        exact Nat.succ_le_succ (ih hpos hlt)

/-- A natural number below `bound`, in at most `k` groups. -/
def natBelow (k bound : ℕ) (hk : 0 < k ∧ bound ≤ 128 ^ k) : Codec ℕ where
  encode := varint k
  decode data := (takeVarint k data).bind fun r => if r.1 < bound then some r else none
  Fits n := n < bound
  decode_encode n hn rest := by
    rw [takeVarint_varint k n hk.1 (lt_of_lt_of_le hn hk.2)]
    simp [hn]

/-- A length or a `u64` before it is put in its type: at most ten bytes, below `2 ^ 64`. -/
def usize : Codec ℕ := natBelow 10 (2 ^ 64) (by decide)

/-! ## Combinators -/

/-- Nothing at all. -/
def unit : Codec Unit where
  encode _ := []
  decode data := some ((), data)
  Fits _ := True
  decode_encode _ _ _ := rfl

/-- One value after the other. -/
def pair (c : Codec α) (d : Codec β) : Codec (α × β) where
  encode x := c.encode x.1 ++ d.encode x.2
  decode data := (c.decode data).bind fun r => (d.decode r.2).map fun s => ((r.1, s.1), s.2)
  Fits x := c.Fits x.1 ∧ d.Fits x.2
  decode_encode x hx rest := by
    rw [List.append_assoc, c.decode_encode _ hx.1, Option.bind_some, d.decode_encode _ hx.2]
    rfl

/-- A type encoded through another by `f`.  Decoding fails where `g` does, on what encodes
nothing. -/
def via (c : Codec α) (f : β → α) (g : α → Option β) (h : ∀ b, g (f b) = some b) : Codec β where
  encode b := c.encode (f b)
  decode data := (c.decode data).bind fun r => (g r.1).map fun b => (b, r.2)
  Fits b := c.Fits (f b)
  decode_encode b hb rest := by
    rw [c.decode_encode _ hb, Option.bind_some, h b]
    rfl

/-- `u64`. -/
def u64 : Codec UInt64 :=
  usize.via UInt64.toNat (fun n => some (UInt64.ofNat n)) fun x => by simp

theorem u64_fits (x : UInt64) : u64.Fits x := x.toNat_lt

/-- A byte that is 0 or 1. -/
def bool : Codec Bool :=
  (bytes 1).via (fun b => ⟨[if b then 1 else 0], rfl⟩)
    (fun x => if x.toList = [0] then some false else if x.toList = [1] then some true else none)
    (fun b => by cases b <;> rfl)

/-- A value between two constants.  Decoding fails where one of them is missing. -/
def enclosed (front back : List UInt8) (c : Codec α) : Codec α where
  encode a := front ++ (c.encode a ++ back)
  decode data :=
    if data.take front.length = front then
      (c.decode (data.drop front.length)).bind fun r =>
        if r.2.take back.length = back then some (r.1, r.2.drop back.length) else none
    else none
  Fits := c.Fits
  decode_encode a ha rest := by
    have hfront : (front ++ (c.encode a ++ back) ++ rest).take front.length = front := by
      rw [List.append_assoc, List.take_left]
    rw [if_pos hfront, List.append_assoc, List.drop_left, List.append_assoc,
      c.decode_encode a ha, Option.bind_some]
    simp only [List.take_left, List.drop_left, if_true]

/-- A byte string behind its length. -/
def sized (c : Codec ℕ) : Codec (List UInt8) where
  encode data := c.encode data.length ++ data
  decode data :=
    (c.decode data).bind fun r =>
      if r.1 ≤ r.2.length then some (r.2.take r.1, r.2.drop r.1) else none
  Fits data := c.Fits data.length
  decode_encode data hdata rest := by
    rw [List.append_assoc, c.decode_encode _ hdata, Option.bind_some]
    simp only [List.length_append, Nat.le_add_right, if_true, List.take_left, List.drop_left]

/-- A byte that says whether there is a value, and the value. -/
def option (c : Codec α) : Codec (Option α) where
  encode
    | none => [0]
    | some a => 1 :: c.encode a
  decode
    | 0 :: data => some (none, data)
    | 1 :: data => (c.decode data).map fun r => (some r.1, r.2)
    | _ => none
  Fits x := ∀ a ∈ x, c.Fits a
  decode_encode
    | none, _, _ => rfl
    | some a, ha, rest => by
        show (c.decode (c.encode a ++ rest)).map _ = _
        rw [c.decode_encode a (ha a rfl)]
        rfl

/-! ### Vectors -/

/-- Read a given number of values. -/
def takeList (c : Codec α) : ℕ → List UInt8 → Option (List α × List UInt8)
  | 0, data => some ([], data)
  | n + 1, data =>
      (c.decode data).bind fun r => (c.takeList n r.2).map fun s => (r.1 :: s.1, s.2)

theorem takeList_flatMap (c : Codec α) (l : List α) (hl : ∀ a ∈ l, c.Fits a)
    (rest : List UInt8) :
    c.takeList l.length (l.flatMap c.encode ++ rest) = some (l, rest) := by
  induction l with
  | nil => rfl
  | cons a l ih =>
      have ha : c.Fits a := hl a List.mem_cons_self
      have htail : ∀ b ∈ l, c.Fits b := fun b hb => hl b (List.mem_cons_of_mem _ hb)
      rw [List.length_cons, List.flatMap_cons, List.append_assoc, takeList,
        c.decode_encode a ha, Option.bind_some, ih htail]
      rfl

/-- The number of elements, and the elements one after the other. -/
def list (c : Codec α) : Codec (List α) where
  encode l := varint 10 l.length ++ l.flatMap c.encode
  decode data :=
    (usize.decode data).bind fun r => c.takeList r.1 r.2
  Fits l := l.length < 2 ^ 64 ∧ ∀ a ∈ l, c.Fits a
  decode_encode l hl rest := by
    have h := usize.decode_encode l.length hl.1 (l.flatMap c.encode ++ rest)
    rw [List.append_assoc]
    exact (congrArg (Option.bind · _) h).trans (c.takeList_flatMap l hl.2 rest)

/-- The same, with another encoding of the number of elements. -/
def listOf (n : Codec ℕ) (c : Codec α) : Codec (List α) where
  encode l := n.encode l.length ++ l.flatMap c.encode
  decode data := (n.decode data).bind fun r => c.takeList r.1 r.2
  Fits l := n.Fits l.length ∧ ∀ a ∈ l, c.Fits a
  decode_encode l hl rest := by
    rw [List.append_assoc, n.decode_encode _ hl.1, Option.bind_some, c.takeList_flatMap l hl.2]

/-- A set is the vector of its elements in ascending order.  A decoder takes them in any order, also
more than once. -/
def set [LinearOrder α] (c : Codec α) : Codec (Finset α) where
  encode s := c.list.encode s.sort
  decode data := (c.list.decode data).map fun r => (r.1.toFinset, r.2)
  Fits s := s.card < 2 ^ 64 ∧ ∀ a ∈ s, c.Fits a
  decode_encode s hs rest := by
    have hfits : c.list.Fits s.sort :=
      ⟨lt_of_eq_of_lt (Finset.length_sort _) hs.1, fun a ha => hs.2 a ((Finset.mem_sort _).mp ha)⟩
    rw [c.list.decode_encode _ hfits, Option.map_some, Finset.sort_toFinset]

theorem list_encode_length (c : Codec α) (l : List α) :
    (c.list.encode l).length
      = (varint 10 l.length).length + (l.map fun a => (c.encode a).length).sum := by
  show (varint 10 l.length ++ l.flatMap c.encode).length = _
  rw [List.length_append, List.length_flatMap]

end Codec

/-! ## Enumerations -/

/-- The variants of an enumeration: every value has an index and a payload, and the index says how
to read the payload. -/
structure Variants (β : Type*) where
  count : ℕ
  index : β → ℕ
  payload : β → List UInt8
  decode : ℕ → List UInt8 → Option (β × List UInt8)
  Fits : β → Prop
  index_lt : ∀ b, index b < count
  decode_payload : ∀ b, Fits b → ∀ rest, decode (index b) (payload b ++ rest) = some (b, rest)

namespace Variants

variable {α β : Type*}

/-- An enumeration with one variant. -/
def one (c : Codec α) : Variants α where
  count := 1
  index _ := 0
  payload := c.encode
  decode
    | 0 => c.decode
    | _ + 1 => fun _ => none
  Fits := c.Fits
  index_lt _ := Nat.one_pos
  decode_payload := c.decode_encode

/-- A further variant, put in front: the indices of the others move up by one. -/
def or (c : Codec α) (v : Variants β) : Variants (α ⊕ β) where
  count := v.count + 1
  index
    | .inl _ => 0
    | .inr b => v.index b + 1
  payload
    | .inl a => c.encode a
    | .inr b => v.payload b
  decode
    | 0 => fun data => (c.decode data).map fun r => (.inl r.1, r.2)
    | i + 1 => fun data => (v.decode i data).map fun r => (.inr r.1, r.2)
  Fits
    | .inl a => c.Fits a
    | .inr b => v.Fits b
  index_lt
    | .inl _ => Nat.succ_pos _
    | .inr b => Nat.succ_lt_succ (v.index_lt b)
  decode_payload
    | .inl a => fun h rest => by
        show (c.decode (c.encode a ++ rest)).map _ = _
        rw [c.decode_encode a h]
        rfl
    | .inr b => fun h rest => by
        show (v.decode (v.index b) (v.payload b ++ rest)).map _ = _
        rw [v.decode_payload b h]
        rfl

/-- The index as an integer of 32 bits, followed by the payload. -/
def codec (v : Variants β) (hv : v.count ≤ 2 ^ 32) : Codec β where
  encode b := Codec.varint 5 (v.index b) ++ v.payload b
  decode data :=
    ((Codec.natBelow 5 (2 ^ 32) (by decide)).decode data).bind fun r => v.decode r.1 r.2
  Fits := v.Fits
  decode_encode b hb rest := by
    have hlt : v.index b < 2 ^ 32 := lt_of_lt_of_le (v.index_lt b) hv
    have h := (Codec.natBelow 5 (2 ^ 32) (by decide)).decode_encode (v.index b) hlt
      (v.payload b ++ rest)
    rw [List.append_assoc]
    exact (congrArg (Option.bind · _) h).trans (v.decode_payload b hb rest)

end Variants
