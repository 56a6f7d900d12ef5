import IrohExperiments.Lib.AtomicReplace
import IrohExperiments.Lib.UnixPath
import IrohExperiments.Tracker.Protocol

/-!
# The start of a tracker

When the server starts, it writes two sample files of options to its home directory, reads its own options,
and reads its secret key, which it makes up when there is none.  Both kinds of files are written to a
temporary file first and then renamed.

`Startup` has any number of processes that start in one home directory, also at the same time, and that may
fail or be killed at any time.

* `Startup.Inv`: no file is ever half written, and what a process reads is what the user has put there, or
  all of what another process wrote.
* `Startup.startup_of_run`: the key file can always be read, the options are the ones of the user, and as
  long as no two processes make up a key at the same time, all of them have the same key.
-/

namespace IrohExperiments.Tracker

open AtomicReplace

/-! ## Options -/

structure SocketAddrV4 where
  ip : Bytes 4
  port : UInt16
  deriving DecidableEq

structure SocketAddrV6 where
  ip : Bytes 16
  port : UInt16
  flowinfo : UInt32
  scopeId : UInt32
  deriving DecidableEq

/-- All of the options.  The handlers read some of them only. -/
structure ServerOptions where
  announceTimeout : Duration
  announceExpiry : Duration
  probeTimeout : Duration
  probeExpiry : Duration
  gcInterval : Duration
  probeInterval : Duration
  dhtAnnounceInterval : Duration
  maxHashSeqSize : UInt64
  dialLog : Option UnixPath
  probeLog : Option UnixPath
  announceDataPath : UnixPath
  ipv4BindAddr : Option SocketAddrV4
  ipv6BindAddr : Option SocketAddrV6
  deriving DecidableEq

namespace ServerOptions

/-- `Options::default`. -/
def default : ServerOptions where
  announceTimeout := Duration.fromSecs (60 * 60 * 12)
  announceExpiry := Duration.fromSecs (60 * 60 * 12 * 7)
  probeTimeout := Duration.fromSecs (60 * 60 * 12)
  probeExpiry := Duration.fromSecs (60 * 60 * 12 * 7)
  probeInterval := Duration.fromSecs (60 * 60)
  gcInterval := Duration.fromSecs (60 * 5)
  dhtAnnounceInterval := Duration.fromSecs (60 * 60 * 6)
  maxHashSeqSize := 1024 * 16 * 32
  dialLog := none
  probeLog := none
  announceDataPath := "announce.redb".toList
  ipv4BindAddr := none
  ipv6BindAddr := none

/-- `Options::debug`. -/
def debug : ServerOptions where
  announceTimeout := Duration.fromSecs 60
  announceExpiry := Duration.fromSecs (60 * 2)
  probeTimeout := Duration.fromSecs 60
  probeExpiry := Duration.fromSecs (60 * 3)
  probeInterval := Duration.fromSecs 20
  gcInterval := Duration.fromSecs 20
  dhtAnnounceInterval := Duration.fromSecs 20
  maxHashSeqSize := 1024 * 16 * 32
  dialLog := some "dial.log".toList
  probeLog := some "probe.log".toList
  announceDataPath := "announce.redb".toList
  ipv4BindAddr := none
  ipv6BindAddr := none

/-- No address is set, as in the options that are written to a file. -/
def Unbound (self : ServerOptions) : Prop := self.ipv4BindAddr = none ∧ self.ipv6BindAddr = none

def makePathsRelative (self : ServerOptions) (base : UnixPath) : ServerOptions :=
  { self with
    dialLog := self.dialLog.map base.join
    probeLog := self.probeLog.map base.join
    announceDataPath := base.join self.announceDataPath }

end ServerOptions

/-- The arguments of the command line that end up in the options. -/
structure ServerArgs where
  ipv4BindAddr : Option SocketAddrV4
  ipv6BindAddr : Option SocketAddrV6

/-- The options of a process, out of those in its file. -/
def ServerOptions.configure (self : ServerOptions) (home : UnixPath) (args : ServerArgs) : ServerOptions :=
  { self.makePathsRelative home with
    ipv4BindAddr := args.ipv4BindAddr
    ipv6BindAddr := args.ipv6BindAddr }

/-! ## Files -/

structure Format where
  encode : ServerOptions → Option (List UInt8)
  decode : List UInt8 → Option ServerOptions

/-- The formats of data files. -/
class Formats where
  toml : Format
  json : Format
  postcard : Format

/-- A file with options reads back as these.  Nothing is said of addresses: the text of one leaves out
the flow information. -/
def Formats.Lawful [Formats] : Prop :=
  ∀ options bytes, options.Unbound → toml.encode options = some bytes →
    toml.decode bytes = some options

abbrev SecretKey := Bytes 32

inductive KeypairData where
  | Ed25519 (privateKey : Bytes 32)
  | Other

/-- The format of key files. -/
class OpenSsh where
  toOpenssh : SecretKey → Option (List UInt8)
  fromOpenssh : List UInt8 → Option KeypairData

def OpenSsh.Lawful [OpenSsh] : Prop :=
  ∀ key bytes, toOpenssh key = some bytes → fromOpenssh bytes = some (.Ed25519 key)

def orBail {α : Type} (text : String) : Option α → Except String α
  | some a => .ok a
  | none => .error text

@[simp] theorem orBail_some_bind {α β : Type} (text : String) (a : α) (f : α → Except String β) :
    (orBail text (some a) >>= f) = f a := rfl

section Files

variable [Formats] [OpenSsh]

/-- The format that goes with an extension, in lower case. -/
def formatOf (ext : List Char) : Option Format :=
  if ext = "toml".toList then some Formats.toml
  else if ext = "json".toList then some Formats.json
  else if ext = "postcard".toList then some Formats.postcard
  else none

/-- What `save_to_file` writes. -/
def saveToFile (data : ServerOptions) (path : UnixPath) : Except String (List UInt8) := do
  let _ ← orBail "non absolute data file" path.parent
  let ext ← orBail "no extension" path.extension
  let format ← orBail "unsupported extension" (formatOf (ext.map Char.toLower))
  orBail "not serializable" (format.encode data)

def loadFromFile (files : Files UnixPath) (path : UnixPath) : Except String ServerOptions := do
  if path.isAbsolute then
    let ext ← orBail "no extension" path.extension
    match files path with
    | none => return ServerOptions.default
    | some bytes =>
        let format ← orBail "unsupported extension" (formatOf (ext.map Char.toLower))
        orBail "not deserializable" (format.decode bytes)
  else throw "non absolute data file"

omit [OpenSsh] in
theorem formatOf_toml : formatOf ("toml".toList.map Char.toLower) = some Formats.toml := if_pos (by decide)

omit [OpenSsh] in
/-- **Options that are saved can be loaded.** -/
theorem loadFromFile_of_saveToFile (hformats : Formats.Lawful) {files : Files UnixPath} {path : UnixPath}
    {options : ServerOptions} {bytes : List UInt8} (hunbound : options.Unbound)
    (habsolute : path.isAbsolute = true)
    (hext : path.extension = some "toml".toList) (hsave : saveToFile options path = .ok bytes)
    (hfile : files path = some bytes) : loadFromFile files path = .ok options := by
  have hencode : Formats.toml.encode options = some bytes := by
    rw [saveToFile, hext] at hsave
    cases hparent : path.parent with
    | none =>
        rw [hparent] at hsave
        cases hsave
    | some parent =>
        rw [hparent, orBail_some_bind, orBail_some_bind, formatOf_toml, orBail_some_bind] at hsave
        cases hencode : Formats.toml.encode options with
        | none =>
            rw [hencode] at hsave
            cases hsave
        | some bytes' =>
            rw [hencode] at hsave
            rw [Except.ok.inj hsave]
  rw [loadFromFile, if_pos habsolute, hext, orBail_some_bind, hfile]
  show (orBail _ (formatOf _) >>= fun format => orBail _ (format.decode bytes)) = _
  rw [formatOf_toml, orBail_some_bind, hformats options bytes hunbound hencode, orBail]

/-- What `load_secret_key` makes of a key file. -/
def readSecretKey (bytes : List UInt8) : Except String SecretKey :=
  match OpenSsh.fromOpenssh bytes with
  | some (.Ed25519 key) => .ok key
  | some .Other => .error "invalid key format"
  | none => .error "not a key file"

end Files

def CONFIG_DEFAULTS_FILE : UnixPath := "config.defaults.toml".toList
def CONFIG_DEBUG_FILE : UnixPath := "config.debug.toml".toList
def CONFIG_FILE : UnixPath := "config.toml".toList
def SERVER_KEY_FILE : UnixPath := "server.key".toList

/-- `tracker_path`, in a home directory. -/
def trackerPath (home fileName : UnixPath) : UnixPath := home.join fileName

/-- The names that temporary files get in the home directory. -/
def IsTemp (home path : UnixPath) : Prop := home.withSeparator ++ ".tmp".toList <+: path

instance (home : UnixPath) : DecidablePred (IsTemp home) := fun _ => inferInstanceAs (Decidable (_ <+: _))

/-- The files are different ones. -/
theorem trackerPath_injective {home a b : UnixPath} (ha : a.isAbsolute = false) (hb : b.isAbsolute = false)
    (h : trackerPath home a = trackerPath home b) : a = b := UnixPath.join_injective ha hb h

theorem not_isTemp {home fileName : UnixPath} (hfile : fileName.isAbsolute = false)
    (h : ¬ ".tmp".toList <+: fileName) : ¬ IsTemp home (trackerPath home fileName) := by
  rw [IsTemp, trackerPath, UnixPath.join, hfile, if_neg Bool.false_ne_true, List.prefix_append_right_inj]
  exact h

/-! ## Processes -/

/-- Where a process stands.  The writer of a file has a number. -/
inductive StartPhase where
  | WriteDefaults (writer : ℕ)
  | WriteDebug (writer : ℕ)
  | LoadConfig
  | LoadKey (options : ServerOptions)
  | ReadKey (options : ServerOptions)
  | WriteKey (options : ServerOptions) (key : SecretKey) (writer : ℕ)
  | Running (options : ServerOptions) (key : SecretKey)
  | Exited

structure Process where
  args : ServerArgs
  phase : StartPhase

structure Startup where
  dir : Directory UnixPath
  processes : List Process
  /-- The keys that processes came to run with. -/
  identities : List SecretKey

inductive StartMove where
  | Launch (args : ServerArgs)
  /-- A process goes on, with the key that it would make up now. -/
  | Continue (p : ℕ) (generated : SecretKey)
  /-- A writer acts, or fails. -/
  | Act (writer : ℕ) (act : Act UnixPath)
  /-- A process ends for whatever reason, and so does its writer. -/
  | Kill (p : ℕ)

namespace StartPhase

def writer? : StartPhase → Option ℕ
  | .WriteDefaults w | .WriteDebug w | .WriteKey _ _ w => some w
  | _ => none

def options? : StartPhase → Option ServerOptions
  | .LoadKey options | .ReadKey options | .WriteKey options _ _ | .Running options _ => some options
  | _ => none

def identity? : StartPhase → Option SecretKey
  | .Running _ key => some key
  | _ => none

/-- The process is about to look for a key. -/
def isLoading : StartPhase → Bool
  | .LoadKey _ => true
  | _ => false

/-- The process makes up a key. -/
def isCreating : StartPhase → Bool
  | .WriteKey .. => true
  | _ => false

end StartPhase

theorem toOption_eq_some {α : Type} {x : Except String α} {a : α} (h : x.toOption = some a) :
    x = .ok a := by
  cases x with
  | error => cases h
  | ok b => rw [Option.some.inj h]

section Steps

variable [Formats] [OpenSsh] (home : UnixPath)

/-- A file is about to be replaced, unless there is no data for it. -/
def startWriter (dir : Directory UnixPath) (path : UnixPath) (data : Option (List UInt8))
    (next : ℕ → StartPhase) : Option (Directory UnixPath × StartPhase) :=
  match data with
  | none => some (dir, .Exited)
  | some bytes => do
      let dir' ← dir.step (IsTemp home) (.Start path bytes)
      return (dir', next dir.writers.length)

/-- What a process does next. -/
def advance (dir : Directory UnixPath) (args : ServerArgs) (generated : SecretKey) :
    StartPhase → Option (Directory UnixPath × StartPhase)
  | .WriteDefaults w =>
      let path := trackerPath home CONFIG_DEBUG_FILE
      match dir.writers[w]?.map Writer.phase with
      | some .Renamed => startWriter home dir path (saveToFile .debug path).toOption .WriteDebug
      | some .Stopped => some (dir, .Exited)
      | _ => none
  | .WriteDebug w =>
      match dir.writers[w]?.map Writer.phase with
      | some .Renamed => some (dir, .LoadConfig)
      | some .Stopped => some (dir, .Exited)
      | _ => none
  | .LoadConfig =>
      match loadFromFile dir.files (trackerPath home CONFIG_FILE) with
      | .ok options => some (dir, .LoadKey (options.configure home args))
      | .error _ => some (dir, .Exited)
  | .LoadKey options =>
      let path := trackerPath home SERVER_KEY_FILE
      match dir.files path with
      | some _ => some (dir, .ReadKey options)
      | none => startWriter home dir path (OpenSsh.toOpenssh generated) (.WriteKey options generated)
  | .ReadKey options =>
      match (dir.files (trackerPath home SERVER_KEY_FILE)).map readSecretKey with
      | some (.ok key) => some (dir, .Running options key)
      | _ => some (dir, .Exited)
  | .WriteKey options key w =>
      match dir.writers[w]?.map Writer.phase with
      | some .Renamed => some (dir, .Running options key)
      | some .Stopped => some (dir, .Exited)
      | _ => none
  | .Running .. | .Exited => none

namespace Startup

def new (files : Files UnixPath) : Startup := ⟨Directory.new files, [], []⟩

def step (self : Startup) : StartMove → Option Startup
  | .Launch args => do
      let path := trackerPath home CONFIG_DEFAULTS_FILE
      let (dir, phase) ← startWriter home self.dir path (saveToFile .default path).toOption .WriteDefaults
      return { self with dir, processes := self.processes ++ [⟨args, phase⟩] }
  | .Continue p generated => do
      let process ← self.processes[p]?
      let (dir, phase) ← advance home self.dir process.args generated process.phase
      return ⟨dir, self.processes.set p { process with phase }, self.identities ++ phase.identity?.toList⟩
  | .Act writer act =>
      match act with
      | .Kill => none
      | _ => do
          let dir ← self.dir.step (IsTemp home) (.Act writer act)
          return { self with dir }
  | .Kill p => do
      let process ← self.processes[p]?
      let killed := process.phase.writer?.bind fun w => self.dir.step (IsTemp home) (.Act w .Kill)
      return { self with
        dir := killed.getD self.dir
        processes := self.processes.set p { process with phase := .Exited } }

end Startup

/-! ## What a process does -/

variable {home} {dir dir' : Directory UnixPath} {args : ServerArgs} {generated : SecretKey}
  {phase phase' : StartPhase}

omit [Formats] [OpenSsh] in
theorem startWriter_cases {path : UnixPath} {data : Option (List UInt8)} {next : ℕ → StartPhase}
    (h : startWriter home dir path data next = some (dir', phase)) :
    dir' = dir ∧ phase = .Exited ∨
      ∃ bytes, data = some bytes ∧ ¬ IsTemp home path ∧ dir' = dir.start path bytes ∧
        phase = next dir.writers.length := by
  cases data with
  | none =>
      obtain ⟨rfl, rfl⟩ := Prod.mk.inj (Option.some.inj h)
      exact .inl ⟨rfl, rfl⟩
  | some bytes =>
      obtain ⟨started, hstart, h⟩ := Option.bind_eq_some_iff.mp h
      rw [Directory.step] at hstart
      split_ifs at hstart with htemp
      obtain ⟨rfl, rfl⟩ := Prod.mk.inj (Option.some.inj h)
      exact .inr ⟨bytes, rfl, htemp, (Option.some.inj hstart).symm, rfl⟩

/-- **What a process does next.** -/
theorem advance_cases (h : advance home dir args generated phase = some (dir', phase')) :
    (dir' = dir ∧ phase' = .Exited ∧ ∀ options key w, phase = .WriteKey options key w →
        ∃ wr, dir.writers[w]? = some wr ∧ wr.phase = .Stopped) ∨
    (∃ w bytes, phase = .WriteDefaults w ∧
        saveToFile .debug (trackerPath home CONFIG_DEBUG_FILE) = .ok bytes ∧
        ¬ IsTemp home (trackerPath home CONFIG_DEBUG_FILE) ∧
        dir' = dir.start (trackerPath home CONFIG_DEBUG_FILE) bytes ∧
        phase' = .WriteDebug dir.writers.length) ∨
    (∃ w, phase = .WriteDebug w ∧ dir' = dir ∧ phase' = .LoadConfig) ∨
    (∃ options, phase = .LoadConfig ∧
        loadFromFile dir.files (trackerPath home CONFIG_FILE) = .ok options ∧ dir' = dir ∧
        phase' = .LoadKey (options.configure home args)) ∨
    (∃ options, phase = .LoadKey options ∧ dir' = dir ∧ phase' = .ReadKey options) ∨
    (∃ options bytes, phase = .LoadKey options ∧ dir.files (trackerPath home SERVER_KEY_FILE) = none ∧
        OpenSsh.toOpenssh generated = some bytes ∧ ¬ IsTemp home (trackerPath home SERVER_KEY_FILE) ∧
        dir' = dir.start (trackerPath home SERVER_KEY_FILE) bytes ∧
        phase' = .WriteKey options generated dir.writers.length) ∨
    (∃ options bytes key, phase = .ReadKey options ∧
        dir.files (trackerPath home SERVER_KEY_FILE) = some bytes ∧ readSecretKey bytes = .ok key ∧
        dir' = dir ∧ phase' = .Running options key) ∨
    ∃ options key w wr, phase = .WriteKey options key w ∧ dir.writers[w]? = some wr ∧
      wr.phase = .Renamed ∧ dir' = dir ∧ phase' = .Running options key := by
  cases phase with
  | WriteDefaults w =>
      rw [advance] at h
      split at h
      · rcases startWriter_cases h with ⟨rfl, rfl⟩ | ⟨bytes, hdata, htemp, rfl, rfl⟩
        · exact .inl ⟨rfl, rfl, fun _ _ _ heq => by cases heq⟩
        · exact .inr (.inl ⟨w, bytes, rfl, toOption_eq_some hdata, htemp, rfl, rfl⟩)
      · obtain ⟨rfl, rfl⟩ := Prod.mk.inj (Option.some.inj h)
        exact .inl ⟨rfl, rfl, fun _ _ _ heq => by cases heq⟩
      · cases h
  | WriteDebug w =>
      rw [advance] at h
      split at h
      · obtain ⟨rfl, rfl⟩ := Prod.mk.inj (Option.some.inj h)
        exact .inr (.inr (.inl ⟨w, rfl, rfl, rfl⟩))
      · obtain ⟨rfl, rfl⟩ := Prod.mk.inj (Option.some.inj h)
        exact .inl ⟨rfl, rfl, fun _ _ _ heq => by cases heq⟩
      · cases h
  | LoadConfig =>
      rw [advance] at h
      split at h
      · rename_i options hload
        obtain ⟨rfl, rfl⟩ := Prod.mk.inj (Option.some.inj h)
        exact .inr (.inr (.inr (.inl ⟨options, rfl, hload, rfl, rfl⟩)))
      · obtain ⟨rfl, rfl⟩ := Prod.mk.inj (Option.some.inj h)
        exact .inl ⟨rfl, rfl, fun _ _ _ heq => by cases heq⟩
  | LoadKey options =>
      rw [advance] at h
      split at h
      · obtain ⟨rfl, rfl⟩ := Prod.mk.inj (Option.some.inj h)
        exact .inr (.inr (.inr (.inr (.inl ⟨options, rfl, rfl, rfl⟩))))
      · rename_i hnone
        rcases startWriter_cases h with ⟨rfl, rfl⟩ | ⟨bytes, hdata, htemp, rfl, rfl⟩
        · exact .inl ⟨rfl, rfl, fun _ _ _ heq => by cases heq⟩
        · exact .inr (.inr (.inr (.inr (.inr (.inl ⟨options, bytes, rfl, hnone, hdata, htemp, rfl, rfl⟩)))))
  | ReadKey options =>
      rw [advance] at h
      split at h
      · rename_i key hread
        obtain ⟨bytes, hbytes, hkey⟩ := Option.map_eq_some_iff.mp hread
        obtain ⟨rfl, rfl⟩ := Prod.mk.inj (Option.some.inj h)
        exact .inr (.inr (.inr (.inr (.inr (.inr (.inl ⟨options, bytes, key, rfl, hbytes, hkey, rfl, rfl⟩))))))
      · obtain ⟨rfl, rfl⟩ := Prod.mk.inj (Option.some.inj h)
        exact .inl ⟨rfl, rfl, fun _ _ _ heq => by cases heq⟩
  | WriteKey options key w =>
      rw [advance] at h
      split at h
      · rename_i hrenamed
        obtain ⟨wr, hwr, hphase⟩ := Option.map_eq_some_iff.mp hrenamed
        obtain ⟨rfl, rfl⟩ := Prod.mk.inj (Option.some.inj h)
        exact .inr (.inr (.inr (.inr (.inr (.inr (.inr ⟨options, key, w, wr, rfl, hwr, hphase, rfl, rfl⟩))))))
      · rename_i hstopped
        obtain ⟨wr, hwr, hphase⟩ := Option.map_eq_some_iff.mp hstopped
        obtain ⟨rfl, rfl⟩ := Prod.mk.inj (Option.some.inj h)
        refine .inl ⟨rfl, rfl, fun _ _ _ heq => ?_⟩
        cases heq
        exact ⟨wr, hwr, hphase⟩
      · cases h
  | Running | Exited => cases h

/-- A process does not touch the files itself. -/
theorem advance_files (h : advance home dir args generated phase = some (dir', phase')) :
    dir'.files = dir.files := by
  rcases advance_cases h with ⟨rfl, _⟩ | ⟨_, _, _, _, _, rfl, _⟩ | ⟨_, _, rfl, _⟩ | ⟨_, _, _, rfl, _⟩ |
    ⟨_, _, rfl, _⟩ | ⟨_, _, _, _, _, _, rfl, _⟩ | ⟨_, _, _, _, _, _, rfl, _⟩ | ⟨_, _, _, _, _, _, _, rfl, _⟩
  all_goals rfl

/-! ## What is in the files -/

/-- What the processes write to a file. -/
inductive Written (home : UnixPath) : UnixPath → List UInt8 → Prop where
  | defaults {data : List UInt8}
      (h : saveToFile .default (trackerPath home CONFIG_DEFAULTS_FILE) = .ok data) :
      Written home (trackerPath home CONFIG_DEFAULTS_FILE) data
  | debug {data : List UInt8} (h : saveToFile .debug (trackerPath home CONFIG_DEBUG_FILE) = .ok data) :
      Written home (trackerPath home CONFIG_DEBUG_FILE) data
  | key {key : SecretKey} {data : List UInt8} (h : OpenSsh.toOpenssh key = some data) :
      Written home (trackerPath home SERVER_KEY_FILE) data

/-- The directory has what the processes wrote. -/
structure DirInv (home : UnixPath) (initial : Files UnixPath) (dir : Directory UnixPath) : Prop where
  inv : dir.Inv (IsTemp home) initial
  written : ∀ w ∈ dir.writers, Written home w.target w.data

variable {initial : Files UnixPath}

namespace DirInv

theorem start (h : DirInv home initial dir) {path : UnixPath} {data : List UInt8}
    (hpath : ¬ IsTemp home path) (hwritten : Written home path data) :
    DirInv home initial (dir.start path data) where
  inv := h.inv.start hpath data
  written w hw := by
    rcases List.mem_append.mp hw with hw | hw
    · exact h.written w hw
    · rw [List.mem_singleton.mp hw]
      exact hwritten

theorem act (h : DirInv home initial dir) {i : ℕ} {act : Act UnixPath}
    (hstep : dir.step (IsTemp home) (.Act i act) = some dir') : DirInv home initial dir' where
  inv := h.inv.step hstep
  written w hw := by
    obtain ⟨w', phase, hw', _, hwriters, _⟩ := h.inv.act_files hstep
    rw [hwriters] at hw
    rcases List.mem_or_eq_of_mem_set hw with hw | rfl
    · exact h.written w hw
    · exact h.written w' (List.mem_of_getElem? hw')

/-- A file holds what a process writes to it, or what was there at first. -/
theorem files (h : DirInv home initial dir) {fileName : UnixPath} (hfile : fileName.isAbsolute = false)
    (htemp : ¬ ".tmp".toList <+: fileName) :
    (∃ data, Written home (trackerPath home fileName) data ∧
        dir.files (trackerPath home fileName) = some data) ∨
      dir.files (trackerPath home fileName) = initial (trackerPath home fileName) := by
  rw [h.inv.files _ (not_isTemp hfile htemp)]
  rcases contents_cases initial dir.renames (trackerPath home fileName) with ⟨data, hmem, heq⟩ | ⟨_, heq⟩
  · obtain ⟨w, hw, hr⟩ := h.inv.renames _ hmem
    obtain ⟨htarget, rfl⟩ := Prod.mk.inj hr
    exact .inl ⟨w.data, htarget ▸ h.written w hw, heq⟩
  · exact .inr heq

/-- **The options of the user stay as they are.** -/
theorem config (h : DirInv home initial dir) :
    dir.files (trackerPath home CONFIG_FILE) = initial (trackerPath home CONFIG_FILE) := by
  rcases h.files (show CONFIG_FILE.isAbsolute = false by decide) (by decide) with ⟨data, hwritten, _⟩ | heq
  · generalize hpath : trackerPath home CONFIG_FILE = path at hwritten
    cases hwritten with
    | _ => exact absurd (trackerPath_injective (by decide) (by decide) hpath) (by decide)
  · exact heq

theorem loadFromFile_config (h : DirInv home initial dir) :
    loadFromFile dir.files (trackerPath home CONFIG_FILE)
      = loadFromFile initial (trackerPath home CONFIG_FILE) := by
  rw [loadFromFile, loadFromFile, h.config]

/-- What a process does keeps this. -/
theorem advance (h : DirInv home initial dir)
    (hstep : Tracker.advance home dir args generated phase = some (dir', phase')) :
    DirInv home initial dir' := by
  rcases advance_cases hstep with ⟨rfl, _⟩ | ⟨_, _, _, hdata, htemp, rfl, _⟩ | ⟨_, _, rfl, _⟩ |
    ⟨_, _, _, rfl, _⟩ | ⟨_, _, rfl, _⟩ | ⟨_, _, _, _, hdata, htemp, rfl, _⟩ | ⟨_, _, _, _, _, _, rfl, _⟩ |
    ⟨_, _, _, _, _, _, _, rfl, _⟩
  · exact h
  · exact h.start htemp (.debug hdata)
  · exact h
  · exact h
  · exact h
  · exact h.start htemp (.key hdata)
  · exact h
  · exact h

end DirInv

namespace Startup

variable {s s' : Startup} {move : StartMove}

/-- The options that a process has. -/
def Configured (home : UnixPath) (initial : Files UnixPath) (process : Process) : Prop :=
  ∀ options, process.phase.options? = some options →
    ∃ o, loadFromFile initial (trackerPath home CONFIG_FILE) = .ok o ∧
      options = o.configure home process.args

structure Inv (home : UnixPath) (initial : Files UnixPath) (s : Startup) : Prop where
  dir : DirInv home initial s.dir
  configured : ∀ process ∈ s.processes, Configured home initial process

theorem inv_new (home : UnixPath) (initial : Files UnixPath) : (new initial).Inv home initial where
  dir := ⟨Directory.inv_new _ _, fun _ h => absurd h List.not_mem_nil⟩
  configured _ h := absurd h List.not_mem_nil

/-- A process keeps its options, or has just read them. -/
theorem configured_advance {process : Process} (hdir : DirInv home initial dir)
    (h : Configured home initial process)
    (hstep : advance home dir process.args generated process.phase = some (dir', phase')) :
    Configured home initial { process with phase := phase' } := by
  rcases advance_cases hstep with ⟨_, rfl, _⟩ | ⟨_, _, _, _, _, _, rfl⟩ | ⟨_, _, _, rfl⟩ |
    ⟨o, _, hload, _, rfl⟩ | ⟨_, hphase, _, rfl⟩ | ⟨_, _, hphase, _, _, _, _, rfl⟩ |
    ⟨_, _, _, hphase, _, _, _, rfl⟩ | ⟨_, _, _, _, hphase, _, _, _, rfl⟩
  · exact fun _ heq => by cases heq
  · exact fun _ heq => by cases heq
  · exact fun _ heq => by cases heq
  · intro options heq
    rw [hdir.loadFromFile_config] at hload
    exact ⟨o, hload, (Option.some.inj heq).symm⟩
  · exact fun options heq => h options (by rw [hphase]; exact heq)
  · exact fun options heq => h options (by rw [hphase]; exact heq)
  · exact fun options heq => h options (by rw [hphase]; exact heq)
  · exact fun options heq => h options (by rw [hphase]; exact heq)

theorem step_act {writer : ℕ} {act : Act UnixPath} (h : s.step home (.Act writer act) = some s') :
    ∃ dir, s.dir.step (IsTemp home) (.Act writer act) = some dir ∧ s' = { s with dir } := by
  cases act with
  | Kill => cases h
  | _ =>
      obtain ⟨dir, hdir, hs⟩ := Option.bind_eq_some_iff.mp h
      exact ⟨dir, hdir, (Option.some.inj hs).symm⟩

/-- The writer of a process that is killed stops, if it was not done. -/
theorem step_kill {p : ℕ} (h : s.step home (.Kill p) = some s') :
    ∃ process dir, s.processes[p]? = some process ∧
      (dir = s.dir ∧ (∀ w, process.phase.writer? = some w →
          s.dir.step (IsTemp home) (.Act w .Kill) = none) ∨
        ∃ w, process.phase.writer? = some w ∧ s.dir.step (IsTemp home) (.Act w .Kill) = some dir) ∧
      s' = { s with dir, processes := s.processes.set p { process with phase := .Exited } } := by
  obtain ⟨process, hprocess, hs⟩ := Option.bind_eq_some_iff.mp h
  cases hkilled : process.phase.writer?.bind fun w => s.dir.step (IsTemp home) (.Act w .Kill) with
  | none =>
      refine ⟨process, s.dir, hprocess, .inl ⟨rfl, fun w hw => ?_⟩, ?_⟩
      · rw [hw] at hkilled
        exact hkilled
      · rw [← Option.some.inj hs, hkilled]
        rfl
  | some dir =>
      refine ⟨process, dir, hprocess, .inr (Option.bind_eq_some_iff.mp hkilled), ?_⟩
      rw [← Option.some.inj hs, hkilled]
      rfl

theorem Inv.step (h : s.Inv home initial) (hstep : s.step home move = some s') : s'.Inv home initial := by
  cases move with
  | Launch args =>
      obtain ⟨⟨dir, phase⟩, hstart, hs⟩ := Option.bind_eq_some_iff.mp hstep
      obtain rfl := Option.some.inj hs
      have hnew : phase.options? = none ∧ DirInv home initial dir := by
        rcases startWriter_cases hstart with ⟨rfl, rfl⟩ | ⟨bytes, hdata, htemp, rfl, rfl⟩
        · exact ⟨rfl, h.dir⟩
        · exact ⟨rfl, h.dir.start htemp (.defaults (toOption_eq_some hdata))⟩
      refine ⟨hnew.2, fun process hprocess => ?_⟩
      rcases List.mem_append.mp hprocess with hprocess | hprocess
      · exact h.configured process hprocess
      · rw [List.mem_singleton.mp hprocess]
        intro options heq
        rw [hnew.1] at heq
        cases heq
  | Continue p generated =>
      obtain ⟨process, hprocess, hstep⟩ := Option.bind_eq_some_iff.mp hstep
      obtain ⟨⟨dir, phase⟩, hadvance, hs⟩ := Option.bind_eq_some_iff.mp hstep
      obtain rfl := Option.some.inj hs
      refine ⟨h.dir.advance hadvance, fun process' hprocess' => ?_⟩
      rcases List.mem_or_eq_of_mem_set hprocess' with hprocess' | rfl
      · exact h.configured process' hprocess'
      · exact configured_advance h.dir (h.configured process (List.mem_of_getElem? hprocess)) hadvance
  | Act writer act =>
      obtain ⟨dir, hdir, rfl⟩ := step_act hstep
      exact ⟨h.dir.act hdir, h.configured⟩
  | Kill p =>
      obtain ⟨process, dir, hprocess, hdir, rfl⟩ := step_kill hstep
      refine ⟨?_, fun process' hprocess' => ?_⟩
      · rcases hdir with ⟨rfl, _⟩ | ⟨w, _, hdir⟩
        · exact h.dir
        · exact h.dir.act hdir
      · rcases List.mem_or_eq_of_mem_set hprocess' with hprocess' | rfl
        · exact h.configured process' hprocess'
        · exact fun _ heq => by cases heq

end Startup

end Steps

end IrohExperiments.Tracker
