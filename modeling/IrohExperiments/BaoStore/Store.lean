import IrohExperiments.Lib.Transition
import IrohExperiments.Tracker.Protocol

/-!
# The store of web content

`S3Store` makes content from the web available under its hash.  An import reads all of a url, once, and keeps
the size and the outboard.  The data itself is kept for content that is given in memory only: what was
imported from a url is read from there again whenever somebody asks for it.  So an entry is one of data that
may be gone, or have changed.

The adapter that reads from the web and the protocol of providers are libraries, and parameters here:
`HttpAdapter` and `Transfer`.  What is relied on is that the adapter reads what is there, and that whoever asks
for a hash accepts nothing that does not have it.

`Entry.ofData` is the entry of some data, and `Store.Holds` says which entries there are after a list of
imports.  `Store.provide` is what is received by somebody who asks the store for a hash.

`System` has imports that are under way at the same time, and a web that changes.
`System.entries_of_run` is about every run: what was imported stays, with its size and its outboard, and it
is provided if it was last imported from memory, or if the url still begins with it; nothing else ever is.
-/

namespace IrohExperiments.BaoStore

open Tracker (Hash)

/-! ## Outboards -/

/-- `IROH_BLOCK_SIZE`: chunk groups of 16 chunks. -/
def IROH_BLOCK_SIZE : ℕ := 4

structure BaoTree where
  size : ℕ
  blockSize : ℕ
  deriving DecidableEq

structure PostOrderMemOutboard where
  root : Hash
  tree : BaoTree
  data : List UInt8

structure PreOrderMemOutboard where
  root : Hash
  tree : BaoTree
  data : List UInt8
  deriving DecidableEq

/-- What is used of the library for verified streaming. -/
class Bao where
  blake3 : List UInt8 → Hash
  create : List UInt8 → ℕ → PostOrderMemOutboard
  flip : PostOrderMemOutboard → PreOrderMemOutboard

/-- The root of an outboard is the hash of the data. -/
def Bao.Lawful [Bao] : Prop := ∀ data blockSize, (flip (create data blockSize)).root = blake3 data

/-! ## The web -/

abbrev Url := String

/-- What can be read now. -/
abbrev Web := Url → Option (List UInt8)

/-- Reading from the web.  To read all of a url, its size is asked for first, and the web may be another one by
the time the data is read. -/
class HttpAdapter where
  readToEnd : Web → Web → Url → Option (List UInt8)
  readAt : Web → Url → ℕ → ℕ → Option (List UInt8)

/-- The data has been read from the url, which had its size when it was asked for that, or is all there was
later. -/
def ReadFrom (asked web : Web) (url : Url) (data : List UInt8) : Prop :=
  ∃ old bytes, asked url = some old ∧ web url = some bytes ∧ data = bytes.take old.length

/-- Less is read only at the end of what is there, and reading fails only if nothing is there. -/
structure HttpAdapter.Lawful [HttpAdapter] : Prop where
  readToEnd_eq_some_iff : ∀ asked web url data,
    readToEnd asked web url = some data ↔ ReadFrom asked web url data
  readAt_eq : ∀ web url offset len,
    readAt web url offset len = (web url).map fun bytes => (bytes.drop offset).take len

/-! ## Entries -/

inductive DataDescriptor where
  | Url (url : Url)
  | Inline (bytes : List UInt8)
  deriving DecidableEq

structure Entry where
  hash : Hash
  size : ℕ
  data : DataDescriptor
  outboard : PreOrderMemOutboard
  deriving DecidableEq

/-- `File`. -/
inductive File where
  | S3 (url : Url)
  | Inline (bytes : List UInt8)

def Entry.dataReader (self : Entry) : File :=
  match self.data with
  | .Url url => .S3 url
  | .Inline bytes => .Inline bytes

/-- Read from bytes, which gives less at their end. -/
def readBytes (bytes : List UInt8) (offset len : ℕ) : Option (List UInt8) :=
  some ((bytes.drop offset).take len)

/-- `read_at`. -/
def File.readAt [HttpAdapter] (web : Web) : File → ℕ → ℕ → Option (List UInt8)
  | .S3 url => HttpAdapter.readAt web url
  | .Inline bytes => readBytes bytes

theorem File.readAt_s3 [HttpAdapter] (laws : HttpAdapter.Lawful) (web : Web) (url : Url) :
    (File.S3 url).readAt web = match web url with
      | some bytes => readBytes bytes
      | none => fun _ _ => none := by
  funext offset len
  rw [readAt, laws.readAt_eq]
  cases web url <;> rfl

/-! ## The store -/

structure Store where
  entries : Hash → Option Entry

/-- The protocol by which a provider with an entry sends its data, which it reads, to somebody who asks for the
hash. -/
class Transfer where
  transfer : Entry → (ℕ → ℕ → Option (List UInt8)) → Option (List UInt8)

section Store

variable [Bao]

/-- The entry that an import makes of some data. -/
def Entry.ofData (data : List UInt8) (descriptor : DataDescriptor) : Entry :=
  let size := data.length
  let outboard := Bao.flip (Bao.create data IROH_BLOCK_SIZE)
  let hash := outboard.root
  ⟨hash, size, descriptor, ⟨hash, ⟨size, IROH_BLOCK_SIZE⟩, outboard.data⟩⟩

/-- What is received is as much as the entry had at first, if that can be read and has the hash. -/
structure Transfer.Lawful [Transfer] : Prop where
  received_iff : ∀ data descriptor bytes data',
    transfer (Entry.ofData data descriptor) (readBytes bytes) = some data' ↔
      data' = bytes.take data.length ∧ Bao.blake3 data' = Bao.blake3 data
  unreadable : ∀ entry, transfer entry (fun _ _ => none) = none

namespace Store

def default : Store := ⟨fun _ => none⟩

def get (self : Store) (hash : Hash) : Option Entry := self.entries hash

/-- What both imports do with the data that they have. -/
def insertData (self : Store) (data : List UInt8) (descriptor : DataDescriptor) : Hash × Store :=
  let entry := Entry.ofData data descriptor
  (entry.hash, ⟨Function.update self.entries entry.hash (some entry)⟩)

def importMem (self : Store) (data : List UInt8) : Hash × Store := self.insertData data (.Inline data)

def importUrl [HttpAdapter] (self : Store) (asked web : Web) (url : Url) : Except String (Hash × Store) :=
  match HttpAdapter.readToEnd asked web url with
  | some data => .ok (self.insertData data (.Url url))
  | none => .error "request failed"

/-- What is received by somebody who asks for a hash. -/
def provide [HttpAdapter] [Transfer] (self : Store) (web : Web) (hash : Hash) :
    Option (List UInt8) := do
  let entry ← self.get hash
  Transfer.transfer entry (entry.dataReader.readAt web)

/-! ## What is in the store -/

/-- The data and the descriptor of each import so far. -/
abbrev Imports := List (List UInt8 × DataDescriptor)

/-- The last import of data with this hash. -/
def IsLast (imports : Imports) (hash : Hash) (data : List UInt8) (descriptor : DataDescriptor) :
    Prop :=
  ∃ earlier newer, imports = earlier ++ (data, descriptor) :: newer ∧ Bao.blake3 data = hash ∧
    ∀ i ∈ newer, Bao.blake3 i.1 ≠ hash

/-- **What is in the store after some imports**: under each hash the entry of the last import with it. -/
structure Holds (store : Store) (imports : Imports) : Prop where
  entry : ∀ hash, (store.get hash = none ∧ ∀ i ∈ imports, Bao.blake3 i.1 ≠ hash) ∨
    ∃ data descriptor, IsLast imports hash data descriptor ∧
      store.get hash = some (Entry.ofData data descriptor)
  inline : ∀ data bytes, (data, DataDescriptor.Inline bytes) ∈ imports → bytes = data

variable {store : Store} {imports : Imports} {data : List UInt8} {descriptor : DataDescriptor}

theorem holds_default : default.Holds [] where
  entry _ := .inl ⟨rfl, nofun⟩
  inline := nofun

theorem hash_ofData (laws : Bao.Lawful) (data : List UInt8) (descriptor : DataDescriptor) :
    (Entry.ofData data descriptor).hash = Bao.blake3 data := laws data _

/-- **The step.** -/
theorem Holds.insertData (laws : Bao.Lawful) (h : store.Holds imports)
    (hinline : ∀ bytes, descriptor = .Inline bytes → bytes = data) :
    (store.insertData data descriptor).2.Holds (imports ++ [(data, descriptor)]) := by
  refine ⟨fun hash => ?_, fun data' bytes hmem => ?_⟩
  · show (Function.update store.entries (Entry.ofData data descriptor).hash _ hash = none ∧ _) ∨
      ∃ data' descriptor', _ ∧
        Function.update store.entries (Entry.ofData data descriptor).hash _ hash = _
    rw [hash_ofData laws]
    by_cases hhash : hash = Bao.blake3 data
    · subst hhash
      refine .inr ⟨data, descriptor, ⟨imports, [], rfl, rfl, nofun⟩, ?_⟩
      rw [Function.update_self]
    · rw [Function.update_of_ne hhash]
      rcases h.entry hash with ⟨hnone, hall⟩ | ⟨data', descriptor', ⟨earlier, newer, heq, hdata, hall⟩, hget⟩
      · refine .inl ⟨hnone, fun i hi => ?_⟩
        rcases List.mem_append.mp hi with hi | hi
        · exact hall i hi
        · rw [List.mem_singleton.mp hi]
          exact Ne.symm hhash
      · refine .inr ⟨data', descriptor', ⟨earlier, newer ++ [(data, descriptor)], ?_, hdata, ?_⟩, hget⟩
        · rw [heq, List.append_assoc, List.cons_append]
        · intro i hi
          rcases List.mem_append.mp hi with hi | hi
          · exact hall i hi
          · rw [List.mem_singleton.mp hi]
            exact Ne.symm hhash
  · rcases List.mem_append.mp hmem with hmem | hmem
    · exact h.inline data' bytes hmem
    · obtain ⟨rfl, hdescriptor⟩ := Prod.mk.inj (List.mem_singleton.mp hmem)
      exact hinline bytes hdescriptor.symm

/-- What was imported is there. -/
theorem Holds.exists_isLast (h : store.Holds imports) (hmem : (data, descriptor) ∈ imports) :
    ∃ data' last, IsLast imports (Bao.blake3 data) data' last ∧
      store.get (Bao.blake3 data) = some (Entry.ofData data' last) :=
  (h.entry (Bao.blake3 data)).resolve_left fun hnone => hnone.2 _ hmem rfl

/-! ## What is provided -/

/-- No other data that was imported, or begins what is on the web, has the hash of imported data. -/
def NoCollision (web : Web) (imports : Imports) : Prop :=
  ∀ i ∈ imports, (∀ i' ∈ imports, Bao.blake3 i'.1 = Bao.blake3 i.1 → i'.1 = i.1) ∧
    ∀ url bytes, web url = some bytes → ∀ n, Bao.blake3 (bytes.take n) = Bao.blake3 i.1 →
      bytes.take n = i.1

/-- The data can still be read. -/
def Serves (web : Web) (data : List UInt8) : DataDescriptor → Prop
  | .Inline _ => True
  | .Url url => ∃ bytes, web url = some bytes ∧ data <+: bytes

/-- **What is provided for imported data**: nothing else, and it as long as it can be read. -/
theorem Holds.provide_eq_some_iff [HttpAdapter] [Transfer] (hhttp : HttpAdapter.Lawful)
    (htransfer : Transfer.Lawful) (h : store.Holds imports) {web : Web} (hnc : NoCollision web imports)
    (hmem : (data, descriptor) ∈ imports) :
    ∃ last, IsLast imports (Bao.blake3 data) data last ∧
      store.get (Bao.blake3 data) = some (Entry.ofData data last) ∧
      ∀ data', store.provide web (Bao.blake3 data) = some data' ↔
        data' = data ∧ Serves web data last := by
  obtain ⟨data₀, last, hlast, hget⟩ := h.exists_isLast hmem
  obtain ⟨earlier, newer, heq, hhash, hnewer⟩ := hlast
  have hmem₀ : (data₀, last) ∈ imports := by
    rw [heq]
    exact List.mem_append_right _ List.mem_cons_self
  obtain rfl : data₀ = data := (hnc _ hmem).1 _ hmem₀ hhash
  refine ⟨last, ⟨earlier, newer, heq, hhash, hnewer⟩, hget, fun data' => ?_⟩
  rw [provide, hget, Option.bind_eq_bind, Option.bind_some]
  cases last with
  | Inline bytes =>
      obtain rfl := h.inline data₀ bytes hmem₀
      show Transfer.transfer _ (readBytes bytes) = _ ↔ _
      rw [htransfer.received_iff, List.take_length]
      refine and_congr_right fun hdata => iff_of_true ?_ trivial
      rw [hdata]
  | Url url =>
      show Transfer.transfer _ ((File.S3 url).readAt web) = _ ↔ _
      rw [File.readAt_s3 hhttp]
      cases hbytes : web url with
      | none =>
          simp only [htransfer.unreadable]
          refine iff_of_false nofun ?_
          rintro ⟨_, bytes, hsome, _⟩
          rw [hbytes] at hsome
          cases hsome
      | some bytes =>
          simp only [htransfer.received_iff]
          constructor
          · rintro ⟨rfl, hblake⟩
            have hdata := (hnc _ hmem).2 url bytes hbytes data₀.length hblake
            refine ⟨hdata, bytes, hbytes, ?_⟩
            have hinit := List.take_prefix data₀.length bytes
            rwa [hdata] at hinit
          · rintro ⟨rfl, bytes', hbytes', hinit⟩
            rw [hbytes] at hbytes'
            cases hbytes'
            exact ⟨List.prefix_iff_eq_take.mp hinit, rfl⟩

end Store

/-! ## Imports that are under way -/

/-- The web, the store, the imports that have asked for the size of their url, with the web as it was then,
those that have read it, and those that are done. -/
structure System where
  web : Web
  store : Store
  asked : List (Url × Web)
  fetched : List (Url × List UInt8)
  imports : Store.Imports

inductive SystemEvent where
  | ImportMem (data : List UInt8)
  /-- `import_url` asks for the size. -/
  | Ask (url : Url)
  /-- It reads the data, or ends with an error. -/
  | Fetch (i : ℕ)
  /-- It inserts the entry. -/
  | Insert (i : ℕ)
  /-- Something else is on the web. -/
  | Change (url : Url) (content : Option (List UInt8))

namespace System

def new : System := ⟨fun _ => none, Store.default, [], [], []⟩

def step [HttpAdapter] (self : System) : SystemEvent → Option System
  | .ImportMem data => some { self with
      store := (self.store.importMem data).2
      imports := self.imports ++ [(data, .Inline data)] }
  | .Ask url => some { self with asked := self.asked ++ [(url, self.web)] }
  | .Fetch i => do
      let (url, asked) ← self.asked[i]?
      let data := HttpAdapter.readToEnd asked self.web url
      return { self with
        asked := self.asked.eraseIdx i
        fetched := self.fetched ++ data.toList.map fun data => (url, data) }
  | .Insert i => do
      let (url, data) ← self.fetched[i]?
      return { self with
        store := (self.store.insertData data (.Url url)).2
        fetched := self.fetched.eraseIdx i
        imports := self.imports ++ [(data, .Url url)] }
  | .Change url content => some { self with web := Function.update self.web url content }

variable [HttpAdapter] {self after : System}

theorem holds_step (laws : Bao.Lawful) (h : self.store.Holds self.imports) {e : SystemEvent}
    (hstep : self.step e = some after) : after.store.Holds after.imports := by
  cases e with
  | ImportMem data =>
      cases hstep
      exact h.insertData laws fun bytes heq => (DataDescriptor.Inline.inj heq).symm
  | Ask =>
      cases hstep
      exact h
  | Fetch i =>
      obtain ⟨⟨url, asked⟩, _, hstep⟩ := Option.bind_eq_some_iff.mp hstep
      cases hstep
      exact h
  | Insert i =>
      obtain ⟨⟨url, data⟩, _, hstep⟩ := Option.bind_eq_some_iff.mp hstep
      cases hstep
      exact h.insertData laws nofun
  | Change =>
      cases hstep
      exact h

theorem holds_of_run (laws : Bao.Lawful) {events : List SystemEvent}
    (hrun : Transition.run step new events = some self) : self.store.Holds self.imports :=
  Transition.run_invariant (I := fun sys : System => sys.store.Holds sys.imports)
    Store.holds_default (fun _ _ _ hm hstep => holds_step laws hm hstep) hrun

/-- Imports are not forgotten. -/
theorem imports_of_run {later : List SystemEvent}
    (hrun : Transition.run step self later = some after) : self.imports <+: after.imports := by
  refine Transition.run_related (R := fun sys sys' : System => sys.imports <+: sys'.imports)
    (fun _ => List.prefix_rfl) List.IsPrefix.trans ?_ hrun
  intro m e m' hstep
  cases e with
  | ImportMem data =>
      cases hstep
      exact List.prefix_append _ _
  | Ask =>
      cases hstep
      exact List.prefix_rfl
  | Fetch i =>
      obtain ⟨⟨url, asked⟩, _, hstep⟩ := Option.bind_eq_some_iff.mp hstep
      cases hstep
      exact List.prefix_rfl
  | Insert i =>
      obtain ⟨⟨url, data⟩, _, hstep⟩ := Option.bind_eq_some_iff.mp hstep
      cases hstep
      exact List.prefix_append _ _
  | Change =>
      cases hstep
      exact List.prefix_rfl

/-- **What was imported stays.**  However imports overlap and whatever else is on the web in the meantime, if
no two data have one hash: in every later state the entry is that of the last import of the data, with its
size and its outboard, and under its hash the data is provided, and nothing else, exactly if that import was
from memory or the url begins with the data now. -/
theorem entries_of_run [Transfer] (laws : Bao.Lawful) (hhttp : HttpAdapter.Lawful)
    (htransfer : Transfer.Lawful) {events later : List SystemEvent} {sys after : System}
    (hrun : Transition.run step new events = some sys)
    (hlater : Transition.run step sys later = some after)
    (hnc : Store.NoCollision after.web after.imports) {data : List UInt8}
    {descriptor : DataDescriptor} (hmem : (data, descriptor) ∈ sys.imports) :
    ∃ last, Store.IsLast after.imports (Bao.blake3 data) data last ∧
      after.store.get (Bao.blake3 data) = some (Entry.ofData data last) ∧
      ∀ data', after.store.provide after.web (Bao.blake3 data) = some data' ↔
        data' = data ∧ Store.Serves after.web data last := by
  have hafter : Transition.run step new (events ++ later) = some after := by
    rw [Transition.run_append, hrun, Option.bind_some, hlater]
  exact (holds_of_run laws hafter).provide_eq_some_iff hhttp htransfer hnc
    ((imports_of_run hlater).subset hmem)

end System

end Store

/-! ## A hash function -/

/-- The length and the first 31 bytes of the data, with zeros behind them if there are fewer. -/
def pad (data : List UInt8) : Hash :=
  ⟨(UInt8.ofNat data.length :: (data ++ List.replicate 32 0)).take 32, by simp⟩

/-- There are no collisions of short data. -/
theorem eq_of_pad_eq {a b : List UInt8} (ha : a.length < 256) (hb : b.length ≤ 31)
    (h : pad a = pad b) : a = b := by
  have hlist := congrArg List.Vector.toList h
  simp only [pad, List.Vector.toList_mk, List.take_succ_cons, List.cons.injEq] at hlist
  obtain ⟨hlength, htake⟩ := hlist
  have hlen : a.length = b.length := by
    have hnat := congrArg UInt8.toNat hlength
    rw [UInt8.toNat_ofNat', UInt8.toNat_ofNat'] at hnat
    omega
  have hfirst := congrArg (List.take b.length) htake
  rw [List.take_take, List.take_take, Nat.min_eq_left hb, List.take_left, ← hlen, List.take_left] at hfirst
  exact hfirst

/-- A library with this hash, and outboards that are empty. -/
@[reducible] def Bao.padding : Bao where
  blake3 := pad
  create data blockSize := ⟨pad data, ⟨data.length, blockSize⟩, []⟩
  flip outboard := ⟨outboard.root, outboard.tree, outboard.data⟩

theorem Bao.padding_lawful : @Bao.Lawful Bao.padding := fun _ _ => rfl

/-- An adapter that reads what is there. -/
@[reducible] def HttpAdapter.direct : HttpAdapter where
  readToEnd asked web url := (asked url).bind fun old => (web url).map fun bytes => bytes.take old.length
  readAt web url offset len := (web url).map fun bytes => (bytes.drop offset).take len

/-- A provider that sends all it can read, to somebody who checks it. -/
@[reducible] def Transfer.checked [Bao] : Transfer where
  transfer entry read := (read 0 entry.size).bind fun data =>
    if Bao.blake3 data = entry.hash then some data else none

section Example

attribute [local instance] Bao.padding HttpAdapter.direct Transfer.checked

theorem HttpAdapter.direct_lawful : HttpAdapter.Lawful where
  readToEnd_eq_some_iff asked web url data := by
    rw [readToEnd, Option.bind_eq_some_iff]
    simp only [Option.map_eq_some_iff]
    constructor
    · rintro ⟨old, hold, bytes, hbytes, rfl⟩
      exact ⟨old, bytes, hold, hbytes, rfl⟩
    · rintro ⟨old, bytes, hold, hbytes, rfl⟩
      exact ⟨old, hold, bytes, hbytes, rfl⟩
  readAt_eq _ _ _ _ := rfl

theorem Transfer.checked_lawful : Transfer.Lawful where
  received_iff data descriptor bytes data' := by
    show (if Bao.blake3 ((bytes.drop 0).take data.length) = (Entry.ofData data descriptor).hash
      then some ((bytes.drop 0).take data.length) else none) = _ ↔ _
    rw [List.drop_zero, Store.hash_ofData Bao.padding_lawful, Option.ite_none_right_eq_some,
      Option.some.injEq]
    constructor
    · rintro ⟨hhash, rfl⟩
      exact ⟨rfl, hhash⟩
    · rintro ⟨rfl, hhash⟩
      exact ⟨hhash, rfl⟩
  unreadable _ := rfl

namespace System

/-- More is appended to a file while it is imported, after its size was asked for. -/
def appended : List SystemEvent :=
  [.Change "a" (some [1, 2]), .Ask "a", .Change "a" (some [1, 2, 3]), .Fetch 0, .Insert 0]

/-- The state that this leads to. -/
def appendedTo : System :=
  ⟨Function.update (Function.update (fun _ => none) "a" (some [1, 2])) "a" (some [1, 2, 3]),
    (Store.default.insertData [1, 2] (.Url "a")).2, [], [], [([1, 2], .Url "a")]⟩

theorem noCollision_appendedTo : Store.NoCollision appendedTo.web appendedTo.imports := by
  intro i hi
  obtain rfl := List.mem_singleton.mp hi
  refine ⟨fun i' hi' _ => ?_, fun url bytes hbytes n hpad => ?_⟩
  · rw [List.mem_singleton.mp hi']
  · by_cases hurl : url = "a"
    · subst hurl
      obtain rfl : [1, 2, 3] = bytes := Option.some.inj hbytes
      -- of the beginnings of `[1, 2, 3]` only the one of length 2 has the hash
      match n with
      | 0 => exact absurd hpad (by decide)
      | 1 => exact absurd hpad (by decide)
      | 2 => rfl
      | n + 3 =>
          rw [List.take_of_length_le (Nat.le_add_left 3 n)] at hpad
          exact absurd hpad (by decide)
    · simp only [appendedTo, Function.update_of_ne hurl] at hbytes
      cases hbytes

/-- The conditions can be met: what was there at first is provided. -/
theorem entries_of_run_appended :
    Transition.run step new appended = some appendedTo ∧
      appendedTo.store.provide appendedTo.web (pad [1, 2]) = some [1, 2] := by
  have hrun : Transition.run step new appended = some appendedTo := rfl
  obtain ⟨last, ⟨earlier, newer, heq, _⟩, _, hprovide⟩ := entries_of_run Bao.padding_lawful
    HttpAdapter.direct_lawful Transfer.checked_lawful hrun
    (Transition.run_nil step appendedTo) noCollision_appendedTo (List.mem_singleton.mpr rfl)
  refine ⟨hrun, (hprovide [1, 2]).mpr ⟨rfl, ?_⟩⟩
  have hlast : ([1, 2], last) ∈ appendedTo.imports := by
    rw [heq]
    exact List.mem_append_right _ List.mem_cons_self
  rw [(Prod.mk.inj (List.mem_singleton.mp hlast)).2]
  exact ⟨[1, 2, 3], rfl, [3], rfl⟩

end System

end Example

end IrohExperiments.BaoStore
