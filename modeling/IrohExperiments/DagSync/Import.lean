import IrohExperiments.DagSync.Car
import IrohExperiments.DagSync.Safety

/-!
# What a node commits

Two commands write to the tables of a node, each in a transaction of its own: an import of a CAR
file, and a sync.  The table of hashes is meant to hold validated data only
(`Tables.Validated`), since everything else takes it to be correct.

A sync checks each block against its cid.  An import does not: it takes the blocks as the reader
frames them.  `Importer` is its machine, with a step for each operation that can fail, like the
`Receiver`, and `Importer.accepts_iff` and `Receiver.accepts_iff` put the two side by side.  So the
table is valid as long as the imported files are (`committed_validated`), and
`import_of_other_data` is a file that is not.
-/

namespace IrohExperiments.DagSync

open Transition (Leads leads_succ_iff not_leads_of_stuck)

section Import

variable [Libraries]

/-! ## The import -/

inductive ImportError where
  | Car (e : CarError)
  | Tables (e : SyncError)
  | Io

/-- Where an import stands. -/
inductive ImportPc where
  /-- at the call of `next` -/
  | Next
  /-- at the call of `add_bytes` -/
  | Store (cid : Cid) (data : List UInt8) (links : List Cid)
  /-- before the first write -/
  | InsertData (cid : Cid) (hash : Hash) (links : List Cid)
  /-- before the second write -/
  | InsertHash (cid : Cid) (hash : Hash)
  | Done (result : Except ImportError Unit)

structure Importer where
  pc : ImportPc
  stream : List (Except CarError (Cid × List UInt8))
  tables : Tables
  store : BlobStore

namespace Importer

/-- An import of a file, when the header has been read. -/
def start (reader : CarReader) (file : List UInt8) (tables : Tables) (store : BlobStore) :
    Importer :=
  match reader file with
  | .error e => ⟨.Done (.error (.Car e)), [], tables, store⟩
  | .ok (_, stream) => ⟨.Next, stream, tables, store⟩

/-- Take a block out of the stream, and extract its links. -/
def next (self : Importer) : Importer :=
  match self.stream with
  | [] => { self with pc := .Done (.ok ()) }
  | .error e :: stream => { self with pc := .Done (.error (.Car e)), stream }
  | .ok (cid, data) :: stream =>
      match Libraries.links data with
      | none => { self with pc := .Done (.error (.Tables .ExtractLinks)), stream }
      | some links => { self with pc := .Store cid data links, stream }

def addBytes (self : Importer) (cid : Cid) (data : List UInt8) (links : List Cid) : Importer :=
  let (store, hash) := self.store.addBytes data
  { self with pc := .InsertData cid hash links, store }

def insertData (self : Importer) (cid : Cid) (hash : Hash) (links : List Cid) : Importer :=
  match self.tables.insertData cid hash links with
  | (.error e, tables) => { self with pc := .Done (.error (.Tables e)), tables }
  | (.ok (), tables) => { self with pc := .InsertHash cid hash, tables }

def insertHash (self : Importer) (cid : Cid) (hash : Hash) : Importer :=
  { self with pc := .Next, tables := self.tables.insertHash cid hash }

/-- The next operation of the import. -/
def advance (self : Importer) : Importer :=
  match self.pc with
  | .Next => self.next
  | .Store cid data links => self.addBytes cid data links
  | .InsertData cid hash links => self.insertData cid hash links
  | .InsertHash cid hash => self.insertHash cid hash
  | .Done _ => self

/-- One step of the import. -/
def step (self : Importer) (turn : Turn) : Option Importer :=
  match self.pc, turn with
  | .Done _, _ => none
  | _, .fails => some { self with pc := .Done (.error .Io) }
  | _, .proceeds => some self.advance

theorem step_cases {self s : Importer} {turn : Turn} (h : step self turn = some s) :
    s = { self with pc := .Done (.error .Io) } ∨ s = self.advance := by
  unfold step at h
  split at h
  · cases h
  · cases h
    exact .inl rfl
  · cases h
    exact .inr rfl

end Importer

/-! ## The commands of a node -/

/-- What a node keeps: its committed tables, and its store. -/
structure Node where
  tables : Tables
  store : BlobStore

/-- A command, and what happens while it runs: the turns of its operations, and whether its commit
succeeds. -/
inductive Command where
  | Import (file : List UInt8) (turns : List Turn) (commit : Turn)
  | Sync (opts : TraversalOpts) (recv : RecvStream) (turns : List Turn) (commit : Turn)

namespace Node

/-- A new node. -/
def init : Node := ⟨Tables.empty, ⟨[]⟩⟩

/-- Run a command.  Its tables are committed if it gets to its end without an error; the store is not
part of the transaction. -/
def step (reader : CarReader) (self : Node) : Command → Option Node
  | .Import file turns commit => do
      let s ← Transition.run Importer.step (Importer.start reader file self.tables self.store) turns
      match s.pc, commit with
      | .Done (.ok ()), .proceeds => return ⟨s.tables, s.store⟩
      | _, _ => return ⟨self.tables, s.store⟩
  | .Sync opts recv turns commit => do
      let s ← Transition.run Receiver.step (Receiver.start recv self.tables self.store opts) turns
      match s.pc, commit with
      | .Done (.ok ()), .proceeds => return ⟨s.tables, s.store⟩
      | _, _ => return ⟨self.tables, s.store⟩

end Node

/-! ## Validated tables -/

/-- Each row of `hashToBlake3` belongs to data with both hashes. -/
def Tables.Validated (tables : Tables) : Prop :=
  ∀ hash value, tables.hashToBlake3.get? hash = some value →
    ∃ data, (Libraries.code hash.code).map (fun hasher => hasher data) = some hash ∧
      Libraries.blake3 data = value

theorem Tables.validated_empty : Tables.Validated Tables.empty := fun _ _ h => nomatch h

theorem Tables.Validated.insertHash {tables : Tables} (h : tables.Validated) {cid : Cid}
    {data : List UInt8} (hnames : cid.Names data) :
    (tables.insertHash cid (Libraries.blake3 data)).Validated := by
  intro hash value hrow
  rw [Tables.insertHash, SortedTable.get?_insert] at hrow
  split_ifs at hrow with hkey
  · subst hkey
    exact ⟨data, hnames, Option.some.inj hrow⟩
  · exact h hash value hrow

theorem Tables.Validated.insertData {tables : Tables} (h : tables.Validated) (cid : Cid)
    (hash : Hash) (links : List Cid) : (tables.insertData cid hash links).2.Validated := by
  rcases tables.insertData_cases cid hash links with ⟨_, heq⟩ | ⟨_, _, heq⟩ | ⟨v, _, _, heq⟩
  · rw [heq]
    exact h
  · rw [heq]
    exact h
  · rw [heq]
    exact h

/-- What has been checked when an import stands where it stands, if the blocks of the file are
good. -/
def Importer.Checked (self : Importer) : Prop :=
  match self.pc with
  | .Next | .Done _ => True
  | .Store cid data _ => cid.Names data
  | .InsertData cid hash _ | .InsertHash cid hash =>
      ∃ data, cid.Names data ∧ hash = Libraries.blake3 data

/-- The cids of the blocks name their data. -/
def BlocksNamed (stream : List (Except CarError (Cid × List UInt8))) : Prop :=
  ∀ b, Except.ok b ∈ stream → b.1.Names b.2

structure Importer.Safe (importer : Importer) : Prop where
  tables : importer.tables.Validated
  stream : BlocksNamed importer.stream
  checked : importer.Checked

namespace Importer

variable {self s : Importer}

theorem Safe.next (h : self.Safe) : self.next.Safe := by
  have hrest : ∀ {b stream}, self.stream = b :: stream → BlocksNamed stream := by
    intro b stream hstream c hc
    refine h.stream c ?_
    rw [hstream]
    exact List.mem_cons_of_mem _ hc
  rw [Importer.next]
  split
  · exact ⟨h.tables, h.stream, trivial⟩
  · rename_i hstream
    exact ⟨h.tables, hrest hstream, trivial⟩
  · rename_i cid data stream hstream
    split
    · exact ⟨h.tables, hrest hstream, trivial⟩
    · refine ⟨h.tables, hrest hstream, h.stream (cid, data) ?_⟩
      rw [hstream]
      exact List.mem_cons_self

theorem Safe.advance (htag : ∀ d, Libraries.tagHash d = Libraries.blake3 d) (h : self.Safe) :
    self.advance.Safe := by
  have hchecked := h.checked
  rw [Checked] at hchecked
  rw [Importer.advance]
  cases hpc : self.pc <;> simp only [hpc] at hchecked ⊢
  case Next => exact h.next
  case Store cid data links => exact ⟨h.tables, h.stream, data, hchecked, htag data⟩
  case InsertData cid hash links =>
      have htables := h.tables.insertData cid hash links
      rw [Importer.insertData]
      split <;> rename_i heq <;> rw [heq] at htables
      · exact ⟨htables, h.stream, trivial⟩
      · exact ⟨htables, h.stream, hchecked⟩
  case InsertHash cid hash =>
      obtain ⟨data, hnames, rfl⟩ := hchecked
      exact ⟨h.tables.insertHash hnames, h.stream, trivial⟩
  case Done => exact h

/-- **An import of good blocks** leaves the tables valid. -/
theorem Safe.run (htag : ∀ d, Libraries.tagHash d = Libraries.blake3 d) {reader : CarReader}
    {file : List UInt8} {tables : Tables} {store : BlobStore} (htables : tables.Validated)
    (hblocks : ∀ roots stream, reader file = .ok (roots, stream) → BlocksNamed stream)
    {turns : List Turn}
    (hrun : Transition.run step (start reader file tables store) turns = some s) : s.Safe := by
  refine Transition.run_invariant (I := Safe) ?_ (fun m turn m' hm hstep => ?_) hrun
  · rw [start]
    split
    · exact ⟨htables, fun b hb => absurd hb List.not_mem_nil, trivial⟩
    · rename_i roots stream hread
      exact ⟨htables, hblocks roots stream hread, trivial⟩
  · rcases step_cases hstep with rfl | rfl
    · exact ⟨hm.tables, hm.stream, trivial⟩
    · exact hm.advance htag

end Importer

/-- **A sync** leaves the tables valid, whatever it receives. -/
theorem Receiver.validated_of_run (htag : ∀ d, Libraries.tagHash d = Libraries.blake3 d)
    {recv : RecvStream} {tables : Tables} {store : BlobStore} {opts : TraversalOpts}
    (htables : tables.Validated) {turns : List Turn} {s : Receiver}
    (hrun : Transition.run step (start recv tables store opts) turns = some s) :
    s.tables.Validated := by
  intro hash value hrow
  rcases (Safe.run htag hrun).hash_rows hash value hrow with hold | ⟨b, _, rfl, rfl⟩
  · exact htables hash value hold
  · exact ⟨b.data, b.names, rfl⟩

/-! ## Which blocks are accepted -/

/-- The links of the data can be extracted, and encoded for their row. -/
def Storable (data : List UInt8) : Prop :=
  ∃ links, Libraries.links data = some links ∧
    (links = [] ∨ ∃ v, Libraries.toVec links = some v)

/-- The second write of `insert_links` succeeds. -/
theorem Tables.insertData_ok_iff (tables : Tables) (cid : Cid) (hash : Hash) (links : List Cid) :
    (∃ tables', tables.insertData cid hash links = (.ok (), tables'))
      ↔ links = [] ∨ ∃ v, Libraries.toVec links = some v := by
  rcases tables.insertData_cases cid hash links with
    ⟨hnil, heq⟩ | ⟨hne, hnone, heq⟩ | ⟨v, _, hv, heq⟩
  · exact ⟨fun _ => .inl hnil, fun _ => ⟨_, heq⟩⟩
  · refine ⟨?_, ?_⟩
    · rintro ⟨tables', hok⟩
      rw [heq] at hok
      cases hok
    · rintro (hnil | ⟨v, hv⟩)
      · exact absurd hnil hne
      · rw [hnone] at hv
        cases hv
  · exact ⟨fun _ => .inr ⟨v, hv⟩, fun _ => ⟨_, heq⟩⟩

/-- An import that comes to the block goes on to the next one, if no operation fails. -/
def Importer.Accepts (cid : Cid) (data : List UInt8) : Prop :=
  ∀ (self : Importer) stream, self.pc = .Next → self.stream = .ok (cid, data) :: stream →
    ∃ s, Transition.run Importer.step self (List.replicate 4 .proceeds) = some s ∧ s.pc = .Next

/-- A sync that comes to the data of a cid goes on to the next frame, if no operation fails. -/
def Receiver.Accepts (cid : Cid) (data : List UInt8) : Prop :=
  ∀ self : Receiver, self.pc = .Verify cid (Libraries.blake3 data) data →
    ∃ s, Transition.run Receiver.step self (List.replicate 4 .proceeds) = some s ∧ s.pc = .Next

/-- Data without links that can be extracted cannot be stored. -/
theorem not_storable {data : List UInt8} (h : Libraries.links data = none) : ¬ Storable data := by
  rintro ⟨links, hlinks, _⟩
  rw [h] at hlinks
  cases hlinks

theorem storable_iff {data : List UInt8} {links : List Cid} (h : Libraries.links data = some links) :
    Storable data ↔ links = [] ∨ ∃ v, Libraries.toVec links = some v := by
  rw [Storable, h]
  simp

namespace Importer

variable {self s : Importer}

theorem step_proceeds (h : ∀ r, self.pc ≠ .Done r) : step self .proceeds = some self.advance := by
  unfold step
  split
  · rename_i r hpc
    exact absurd hpc (h r)
  · rename_i hturn _
    cases hturn
  · rfl

/-- The two writes. -/
theorem leads_insertData (self : Importer) (cid : Cid) (hash : Hash) (links : List Cid) :
    Leads step .proceeds (fun s => s.pc = .Next) 1 (self.insertData cid hash links)
      ↔ links = [] ∨ ∃ v, Libraries.toVec links = some v := by
  rw [← Tables.insertData_ok_iff self.tables cid hash, insertData]
  split
  · rename_i e tables heq
    refine iff_of_false (not_leads_of_stuck rfl (by simp) 1) ?_
    rintro ⟨tables', hok⟩
    rw [heq] at hok
    cases hok
  · rename_i tables heq
    refine iff_of_true ?_ ⟨tables, heq⟩
    rw [leads_succ_iff (step_proceeds (by simp))]
    exact ⟨_, rfl, rfl⟩

/-- **An import accepts whatever can be stored**, under any cid. -/
theorem leads_next {cid : Cid} {data : List UInt8}
    {stream : List (Except CarError (Cid × List UInt8))} (hpc : self.pc = .Next)
    (hstream : self.stream = .ok (cid, data) :: stream) :
    Leads step .proceeds (fun s => s.pc = .Next) 4 self ↔ Storable data := by
  rw [leads_succ_iff (step_proceeds (by simp [hpc])), advance, hpc]
  simp only [next, hstream]
  cases hlinks : Libraries.links data with
  | none => exact iff_of_false (not_leads_of_stuck rfl (by simp) 3) (not_storable hlinks)
  | some links =>
      rw [storable_iff hlinks, leads_succ_iff (step_proceeds (by simp)),
        leads_succ_iff (step_proceeds (by simp [advance, addBytes]))]
      exact leads_insertData _ cid _ links

theorem accepts_iff (cid : Cid) (data : List UInt8) : Accepts cid data ↔ Storable data := by
  constructor
  · intro h
    have hnext : Leads step .proceeds (fun s => s.pc = .Next) 4
        (Importer.mk .Next [.ok (cid, data)] Tables.empty ⟨[]⟩) := h _ [] rfl rfl
    exact (leads_next rfl rfl).mp hnext
  · intro h self stream hpc hstream
    exact (leads_next hpc hstream).mpr h

end Importer

namespace Receiver

variable {self s : Receiver}

/-- The two writes. -/
theorem leads_insertHash (self : Receiver) (cid : Cid) (hash : Hash) (data : List UInt8) :
    Leads step .proceeds (fun s => s.pc = .Next) 1 (self.insertHash cid hash data)
      ↔ Storable data := by
  rw [insertHash]
  cases hlinks : Libraries.links data with
  | none => exact iff_of_false (not_leads_of_stuck rfl (by simp) 1) (not_storable hlinks)
  | some links =>
      rw [storable_iff hlinks, ← Tables.insertData_ok_iff (self.tables.insertHash cid hash) cid hash,
        leads_succ_iff (step_proceeds (by simp)), advance]
      simp only [insertData]
      split
      · rename_i e tables heq
        refine iff_of_false (not_leads_of_stuck rfl (by simp) 0) ?_
        rintro ⟨tables', hok⟩
        rw [heq] at hok
        cases hok
      · rename_i tables heq
        exact iff_of_true ⟨_, rfl, rfl⟩ ⟨tables, heq⟩

/-- The check against the hash of the cid. -/
theorem verify_cases (self : Receiver) (cid : Cid) (hash : Hash) (buffer : List UInt8) :
    cid.Names buffer ∧ self.verify cid hash buffer = { self with pc := .Store cid hash buffer } ∨
      ¬ cid.Names buffer ∧ ∃ e, self.verify cid hash buffer = { self with pc := .Done (.error e) } := by
  rw [verify, Cid.Names]
  cases Libraries.code cid.hash.code with
  | none => simp
  | some hasher =>
      by_cases hdigest : hasher buffer = cid.hash
      · simp [hdigest]
      · simp [hdigest]

/-- **A sync accepts what can be stored and is named by its cid.** -/
theorem leads_verify (htag : ∀ d, Libraries.tagHash d = Libraries.blake3 d) {cid : Cid}
    {data : List UInt8} (hpc : self.pc = .Verify cid (Libraries.blake3 data) data) :
    Leads step .proceeds (fun s => s.pc = .Next) 4 self ↔ cid.Names data ∧ Storable data := by
  rw [leads_succ_iff (step_proceeds (by simp [hpc])), advance, hpc]
  simp only
  rcases self.verify_cases cid (Libraries.blake3 data) data with
    ⟨hnames, hverify⟩ | ⟨hnames, e, hverify⟩
  · rw [hverify, and_iff_right hnames, leads_succ_iff (step_proceeds (by simp)), advance]
    simp only [addBytes, BlobStore.addBytes, htag, ne_eq, not_true_eq_false, if_false]
    rw [leads_succ_iff (step_proceeds (by simp)), advance]
    exact leads_insertHash _ cid _ data
  · rw [hverify]
    exact iff_of_false (not_leads_of_stuck rfl (by simp) 3) fun h => hnames h.1

theorem accepts_iff (htag : ∀ d, Libraries.tagHash d = Libraries.blake3 d) (cid : Cid)
    (data : List UInt8) : Accepts cid data ↔ cid.Names data ∧ Storable data := by
  constructor
  · intro h
    have hverify : Leads step .proceeds (fun s => s.pc = .Next) 4
        (Receiver.mk (.Verify cid (Libraries.blake3 data) data) (.Sequence [])
          Tables.empty ⟨[]⟩ ⟨[], false⟩ [] []) := h _ rfl
    exact (leads_verify htag rfl).mp hverify
  · intro h self hpc
    exact (leads_verify htag hpc).mpr h

end Receiver

/-! ## Runs of a node -/

/-- The cids in an imported file name the data they stand with. -/
def Command.Good (reader : CarReader) : Command → Prop
  | .Import file _ _ => ∀ roots stream, reader file = .ok (roots, stream) → BlocksNamed stream
  | .Sync .. => True

/-- The step: a command with a good file commits valid tables. -/
theorem Node.step_validated (htag : ∀ d, Libraries.tagHash d = Libraries.blake3 d)
    {reader : CarReader} {self node : Node} {command : Command} (h : self.tables.Validated)
    (hgood : command.Good reader) (hstep : self.step reader command = some node) :
    node.tables.Validated := by
  cases command with
  | Import file turns commit =>
      obtain ⟨s, hrun, hcommit⟩ := Option.bind_eq_some_iff.mp hstep
      have hsafe := Importer.Safe.run htag h hgood hrun
      split at hcommit
      · cases hcommit
        exact hsafe.tables
      · cases hcommit
        exact h
  | Sync opts recv turns commit =>
      obtain ⟨s, hrun, hcommit⟩ := Option.bind_eq_some_iff.mp hstep
      have hvalid := Receiver.validated_of_run htag h hrun
      split at hcommit
      · cases hcommit
        exact hvalid
      · cases hcommit
        exact h

/-- **When the committed tables are valid.**  In every run of imports and syncs in which the cids of
the imported files name their data, and then the two commands agree on the blocks of these files.
What a sync receives does not matter. -/
theorem committed_validated (htag : ∀ d, Libraries.tagHash d = Libraries.blake3 d)
    {reader : CarReader} {commands : List Command}
    (hgood : ∀ command ∈ commands, command.Good reader) {node : Node}
    (hrun : Transition.run (Node.step reader) Node.init commands = some node) :
    node.tables.Validated ∧
      ∀ file turns commit, Command.Import file turns commit ∈ commands →
        ∀ roots stream, reader file = .ok (roots, stream) → ∀ b, .ok b ∈ stream →
          (Importer.Accepts b.1 b.2 ↔ Receiver.Accepts b.1 b.2) := by
  constructor
  · refine Transition.run_induction (P := fun commands (node : Node) =>
      (∀ command ∈ commands, command.Good reader) → node.tables.Validated)
      (fun _ => Tables.validated_empty) ?_ hrun hgood
    intro commands m command m' _ ih hstep hgood
    refine Node.step_validated htag (ih fun c hc => hgood c (List.mem_append_left _ hc)) ?_ hstep
    exact hgood command (List.mem_append_right _ List.mem_cons_self)
  · intro file turns commit hmem roots stream hread b hb
    have hnames : b.1.Names b.2 := hgood _ hmem roots stream hread b hb
    rw [Importer.accepts_iff, Receiver.accepts_iff htag]
    exact (and_iff_right hnames).symm

end Import

section Runs

attribute [local instance] Libraries.toy

/-- An import of a file with the leaf as its root and one block under the cid of the leaf. -/
def importLeaf (data : List UInt8) : Command :=
  .Import (CarFile.bytes ⟨[Libraries.leaf], [(Libraries.leaf, data)]⟩)
    (List.replicate 5 .proceeds) .proceeds

/-- The condition can be met: an import of the leaf, and a sync of its parent. -/
theorem committed_validated_leaf :
    ∃ node, Transition.run (Node.step CarReader.strict) Node.init
        [importLeaf [5], .Sync (.Full ⟨Libraries.root, none, none, none⟩) Receiver.forgedLeaf
          (List.replicate 10 .proceeds) .proceeds] = some node ∧
      node.tables.Validated := by
  have hsome : (Transition.run (Node.step CarReader.strict) Node.init
      [importLeaf [5], .Sync (.Full ⟨Libraries.root, none, none, none⟩) Receiver.forgedLeaf
        (List.replicate 10 .proceeds) .proceeds]).isSome = true := by
    decide +kernel
  obtain ⟨node, hnode⟩ := Option.isSome_iff_exists.mp hsome
  refine ⟨node, hnode, (committed_validated (fun _ => rfl) (fun command hcommand => ?_) hnode).1⟩
  rcases List.mem_cons.mp hcommand with rfl | hcommand
  · intro roots stream hread
    have hleaf : CarReader.strict (CarFile.bytes ⟨[Libraries.leaf], [(Libraries.leaf, [5])]⟩)
        = .ok ([Libraries.leaf], [.ok (Libraries.leaf, [5])]) := by
      decide +kernel
    cases hleaf.symm.trans hread
    intro b hb
    cases List.mem_singleton.mp hb
    decide +kernel
  · cases List.mem_singleton.mp hcommand
    exact trivial

/-- **A row that nothing justifies.**  A file has other data under the cid of the leaf, and the cid
stands for that data when the file has been imported. -/
theorem import_of_other_data :
    ∃ node, Transition.run (Node.step CarReader.strict) Node.init [importLeaf [7]] = some node ∧
      ¬ node.tables.Validated := by
  have hrows : (Transition.run (Node.step CarReader.strict) Node.init [importLeaf [7]]).map
      (fun node => node.tables.hashToBlake3.rows)
        = some [(Libraries.leaf.hash, Libraries.padded [7])] := by
    decide +kernel
  obtain ⟨node, hnode, hrows⟩ := Option.map_eq_some_iff.mp hrows
  refine ⟨node, hnode, fun hvalid => ?_⟩
  have hrow : node.tables.hashToBlake3.get? Libraries.leaf.hash = some (Libraries.padded [7]) := by
    rw [← SortedTable.mem_rows_iff, hrows]
    exact List.mem_cons_self
  obtain ⟨data, hnames, hblake3⟩ := hvalid _ _ hrow
  have hdigest : (Libraries.padded data).toList = (Libraries.padded [5]).toList :=
    congrArg Multihash.digest (Option.some.inj hnames)
  rw [show Libraries.padded data = Libraries.padded [7] from hblake3] at hdigest
  exact absurd hdigest (by decide)

end Runs

end IrohExperiments.DagSync
