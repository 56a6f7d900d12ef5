import IrohExperiments.Tracker.Startup

/-!
# The identity of a tracker

A tracker is known by its key, so it should have the same one whenever it runs.  It makes up a key when it
finds none, and puts the key file in place with a rename.

* `Startup.OneKey`: as long as no two processes make up a key at the same time (`Startup.Alone`), a key is
  made up only if there is none, and a process that runs has the key of the file.
* `Startup.startup_of_run`: the key file can always be read, the options are the ones of the user, the
  samples are whole, and there is one identity.
-/

namespace IrohExperiments.Tracker

open AtomicReplace

namespace Startup

variable [Formats] [OpenSsh] {home : UnixPath} {initial : Files UnixPath} {s s' : Startup}
  {move : StartMove} {dir dir' : Directory UnixPath} {phase phase' : StartPhase}

/-! ## One key -/

/-- No process begins to make up a key while another one does. -/
def Alone (home : UnixPath) (s : Startup) : StartMove → Prop
  | .Continue p _ =>
      (s.processes[p]?.any fun process => process.phase.isLoading) = true →
        s.dir.files (trackerPath home SERVER_KEY_FILE) = none →
          ∀ process ∈ s.processes, process.phase.isCreating = false
  | _ => True

instance (home : UnixPath) (s : Startup) : DecidablePred (Alone home s)
  | .Continue _ _ => inferInstanceAs (Decidable (_ → _ → _))
  | .Launch _ | .Act _ _ | .Kill _ => .isTrue trivial

/-- At most one process makes up a key, and it does so when there is none. -/
structure OneKey (home : UnixPath) (s : Startup) : Prop where
  one : ∀ (p q : ℕ) process process', s.processes[p]? = some process → s.processes[q]? = some process' →
    process.phase.isCreating = true → process'.phase.isCreating = true → p = q
  creating : ∀ process ∈ s.processes, ∀ options key w, process.phase = .WriteKey options key w →
    ∃ wr, s.dir.writers[w]? = some wr ∧ wr.target = trackerPath home SERVER_KEY_FILE ∧
      OpenSsh.toOpenssh key = some wr.data ∧
      (wr.phase = .Renamed → s.dir.files (trackerPath home SERVER_KEY_FILE) = some wr.data) ∧
      (wr.phase ≠ .Renamed → s.dir.files (trackerPath home SERVER_KEY_FILE) = none)
  active : ∀ (w : ℕ) wr, s.dir.writers[w]? = some wr → wr.target = trackerPath home SERVER_KEY_FILE →
    wr.phase.isActive = true → ∃ process ∈ s.processes, ∃ options key, process.phase = .WriteKey options key w
  fresh : s.dir.files (trackerPath home SERVER_KEY_FILE) = none → s.identities = []
  held : ∀ bytes, s.dir.files (trackerPath home SERVER_KEY_FILE) = some bytes →
    ∀ key ∈ s.identities, readSecretKey bytes = .ok key

namespace OneKey

omit [Formats] in
theorem new (home : UnixPath) (initial : Files UnixPath) : OneKey home (new initial) where
  one _ _ _ _ h := by cases h
  creating _ h := absurd h List.not_mem_nil
  active _ _ h := by cases h
  fresh _ := rfl
  held _ _ _ h := absurd h List.not_mem_nil

omit [Formats] in
/-- A process that does not make up a key, or is done with that, goes on. -/
theorem setPhase (h : OneKey home s) {p : ℕ} {process : Process} (hprocess : s.processes[p]? = some process)
    (hphase : phase'.isCreating = false)
    (hdone : ∀ options key w, process.phase = .WriteKey options key w →
      ∀ wr, s.dir.writers[w]? = some wr → wr.phase.isActive = false) :
    OneKey home { s with processes := s.processes.set p { process with phase := phase' } } := by
  obtain ⟨hlt, _⟩ := List.getElem?_eq_some_iff.mp hprocess
  -- one that makes up a key is another one, and stays as it is
  have hother : ∀ (q : ℕ) process', (s.processes.set p { process with phase := phase' })[q]? = some process' →
      process'.phase.isCreating = true → s.processes[q]? = some process' := by
    intro q process' hget hcreating
    by_cases hq : p = q
    · obtain rfl := hq
      rw [List.getElem?_set_self hlt] at hget
      rw [← Option.some.inj hget, hphase] at hcreating
      cases hcreating
    · rwa [List.getElem?_set_ne hq] at hget
  refine ⟨?_, ?_, ?_, h.fresh, h.held⟩
  · intro q r process₁ process₂ hget hget' hcreating hcreating'
    exact h.one q r _ _ (hother q _ hget hcreating) (hother r _ hget' hcreating') hcreating hcreating'
  · intro process' hmem options key w hwrite
    obtain ⟨q, hget⟩ := List.mem_iff_getElem?.mp hmem
    have hget := hother q process' hget (by rw [hwrite]; rfl)
    exact h.creating process' (List.mem_of_getElem? hget) options key w hwrite
  · intro w wr hwr htarget hactive
    obtain ⟨process', hmem, options, key, hwrite⟩ := h.active w wr hwr htarget hactive
    obtain ⟨q, hget⟩ := List.mem_iff_getElem?.mp hmem
    refine ⟨process', ?_, options, key, hwrite⟩
    by_cases hq : p = q
    · obtain rfl := hq
      obtain rfl := Option.some.inj (hprocess.symm.trans hget)
      rw [hdone options key w hwrite wr hwr] at hactive
      cases hactive
    · exact List.mem_of_getElem? ((List.getElem?_set_ne hq).trans hget)

omit [Formats] in
/-- A file other than the key file is about to be replaced. -/
theorem start (h : OneKey home s) {path : UnixPath} (hpath : path ≠ trackerPath home SERVER_KEY_FILE)
    (data : List UInt8) : OneKey home { s with dir := s.dir.start path data } where
  one := h.one
  creating process hmem options key w hwrite := by
    obtain ⟨wr, hwr, hrest⟩ := h.creating process hmem options key w hwrite
    exact ⟨wr, (List.getElem?_append_left (List.getElem?_eq_some_iff.mp hwr).1).trans hwr, hrest⟩
  active w wr hwr htarget hactive := by
    rw [Directory.start, List.getElem?_append] at hwr
    split_ifs at hwr
    · exact h.active w wr hwr htarget hactive
    · rw [List.mem_singleton.mp (List.mem_of_getElem? hwr)] at htarget
      exact absurd htarget hpath
  fresh := h.fresh
  held := h.held

omit [Formats] in
/-- A process runs with the key that is in the file. -/
theorem identify (h : OneKey home s) {bytes : List UInt8} {key : SecretKey}
    (hbytes : s.dir.files (trackerPath home SERVER_KEY_FILE) = some bytes)
    (hkey : readSecretKey bytes = .ok key) :
    OneKey home { s with identities := s.identities ++ [key] } where
  one := h.one
  creating := h.creating
  active := h.active
  fresh hnone := by
    rw [hbytes] at hnone
    cases hnone
  held bytes' hbytes' key' hmem := by
    obtain rfl := Option.some.inj (hbytes.symm.trans hbytes')
    rcases List.mem_append.mp hmem with hmem | hmem
    · exact h.held bytes hbytes key' hmem
    · rw [List.mem_singleton.mp hmem]
      exact hkey

omit [Formats] in
/-- One more process. -/
theorem launch (h : OneKey home s) {process : Process} (hphase : process.phase.isCreating = false) :
    OneKey home { s with processes := s.processes ++ [process] } := by
  have hold : ∀ (p : ℕ) process', (s.processes ++ [process])[p]? = some process' →
      process'.phase.isCreating = true → s.processes[p]? = some process' := by
    intro p process' hget hcreating
    rw [List.getElem?_append] at hget
    split_ifs at hget with hlt
    · exact hget
    · rw [List.mem_singleton.mp (List.mem_of_getElem? hget), hphase] at hcreating
      cases hcreating
  refine ⟨?_, ?_, ?_, h.fresh, h.held⟩
  · intro p q process₁ process₂ hget hget' hcreating hcreating'
    exact h.one p q _ _ (hold p _ hget hcreating) (hold q _ hget' hcreating') hcreating hcreating'
  · intro process' hmem options key w hwrite
    obtain ⟨p, hget⟩ := List.mem_iff_getElem?.mp hmem
    have hget := hold p process' hget (by rw [hwrite]; rfl)
    exact h.creating process' (List.mem_of_getElem? hget) options key w hwrite
  · intro w wr hwr htarget hactive
    obtain ⟨process', hmem, hrest⟩ := h.active w wr hwr htarget hactive
    exact ⟨process', List.mem_append_left _ hmem, hrest⟩

omit [Formats] in
/-- A process makes up a key, alone. -/
theorem create (h : OneKey home s) {p : ℕ} {process : Process} {options : ServerOptions} {key : SecretKey}
    {bytes : List UInt8} (hprocess : s.processes[p]? = some process)
    (hnone : s.dir.files (trackerPath home SERVER_KEY_FILE) = none)
    (halone : ∀ process' ∈ s.processes, process'.phase.isCreating = false)
    (hbytes : OpenSsh.toOpenssh key = some bytes) :
    OneKey home { s with
      dir := s.dir.start (trackerPath home SERVER_KEY_FILE) bytes
      processes := s.processes.set p
        { process with phase := .WriteKey options key s.dir.writers.length } } := by
  obtain ⟨hlt, _⟩ := List.getElem?_eq_some_iff.mp hprocess
  have honly : ∀ (q : ℕ) process', (s.processes.set p
      { process with phase := .WriteKey options key s.dir.writers.length })[q]? = some process' →
      process'.phase.isCreating = true → q = p := by
    intro q process' hget hcreating
    by_contra hq
    rw [List.getElem?_set_ne (Ne.symm hq)] at hget
    rw [halone process' (List.mem_of_getElem? hget)] at hcreating
    cases hcreating
  refine ⟨?_, ?_, ?_, h.fresh, h.held⟩
  · intro q r process₁ process₂ hget hget' hcreating hcreating'
    rw [honly q _ hget hcreating, honly r _ hget' hcreating']
  · intro process' hmem options' key' w hwrite
    obtain ⟨q, hget⟩ := List.mem_iff_getElem?.mp hmem
    obtain rfl := honly q process' hget (by rw [hwrite]; rfl)
    rw [List.getElem?_set_self hlt] at hget
    rw [← Option.some.inj hget] at hwrite
    obtain ⟨_, rfl, rfl⟩ := StartPhase.WriteKey.inj hwrite
    refine ⟨_, List.getElem?_concat_length, rfl, hbytes, fun heq => (by cases heq), fun _ => hnone⟩
  · intro w wr hwr htarget hactive
    rw [Directory.start, List.getElem?_append] at hwr
    split_ifs at hwr with hw
    · obtain ⟨process', hmem, options', key', hwrite⟩ := h.active w wr hwr htarget hactive
      have hcreating := halone process' hmem
      rw [hwrite] at hcreating
      cases hcreating
    · obtain ⟨hlast, _⟩ := List.getElem?_eq_some_iff.mp hwr
      have hw : w = s.dir.writers.length := by
        rw [List.length_singleton] at hlast
        omega
      exact ⟨_, List.mem_of_getElem? (List.getElem?_set_self hlt), options, key, by rw [hw]⟩

omit [Formats] in
/-- While there is a key, nobody is about to write one. -/
theorem files_of_active (h : OneKey home s) {w : ℕ} {wr : Writer UnixPath}
    (hwr : s.dir.writers[w]? = some wr) (htarget : wr.target = trackerPath home SERVER_KEY_FILE)
    (hactive : wr.phase.isActive = true) :
    s.dir.files (trackerPath home SERVER_KEY_FILE) = none ∧ ∃ (p : ℕ) (process : Process) (options : _) (key : _),
      s.processes[p]? = some process ∧ process.phase = .WriteKey options key w ∧
        OpenSsh.toOpenssh key = some wr.data := by
  obtain ⟨process, hmem, options, key, hwrite⟩ := h.active w wr hwr htarget hactive
  obtain ⟨wr', hwr', _, hkey, _, hnone⟩ := h.creating process hmem options key w hwrite
  obtain rfl := Option.some.inj (hwr.symm.trans hwr')
  obtain ⟨p, hp⟩ := List.mem_iff_getElem?.mp hmem
  refine ⟨hnone fun heq => ?_, p, process, options, key, hp, hwrite, hkey⟩
  rw [heq] at hactive
  cases hactive

/-- **A writer acts.**  If it puts the key file in place, there was none before. -/
theorem act (h : OneKey home s) (hdir : DirInv home initial s.dir) {i : ℕ} {act : Act UnixPath}
    (hstep : s.dir.step (IsTemp home) (.Act i act) = some dir') : OneKey home { s with dir := dir' } := by
  have hkey : ¬ IsTemp home (trackerPath home SERVER_KEY_FILE) := not_isTemp (by decide) (by decide)
  obtain ⟨wr, phase, hwr, hactive, hwriters, hfiles⟩ := hdir.inv.act_files hstep
  obtain ⟨hlt, _⟩ := List.getElem?_eq_some_iff.mp hwr
  -- another writer stays as it is
  have hother : ∀ {j : ℕ} {wr' : Writer UnixPath}, j ≠ i → (dir'.writers[j]? = some wr' ↔
      s.dir.writers[j]? = some wr') := by
    intro j wr' hj
    rw [hwriters, List.getElem?_set_ne (Ne.symm hj)]
  have hself : dir'.writers[i]? = some { wr with phase } := by rw [hwriters, List.getElem?_set_self hlt]
  by_cases htarget : wr.target = trackerPath home SERVER_KEY_FILE
  · obtain ⟨hnone, p, process, options, key, hprocess, hwrite, hdata⟩ := h.files_of_active hwr htarget hactive
    have hidentities := h.fresh hnone
    have hfile : (phase = .Renamed →
        dir'.files (trackerPath home SERVER_KEY_FILE) = some wr.data) ∧
        (phase ≠ .Renamed → dir'.files (trackerPath home SERVER_KEY_FILE) = none) := by
      rcases hfiles with ⟨hrenamed, hfiles⟩ | ⟨hphase, hfiles⟩
      · refine ⟨fun _ => ?_, fun hphase => absurd hrenamed hphase⟩
        rw [hfiles _ hkey, htarget, if_pos rfl]
      · exact ⟨fun hrenamed => absurd hrenamed hphase, fun _ => (hfiles _ hkey).trans hnone⟩
    refine ⟨h.one, ?_, ?_, fun _ => hidentities, fun _ _ key hmem => ?_⟩
    · intro process' hmem options' key' w hwrite'
      obtain ⟨q, hget⟩ := List.mem_iff_getElem?.mp hmem
      obtain rfl := h.one p q process process' hprocess hget (by rw [hwrite]; rfl) (by rw [hwrite']; rfl)
      obtain rfl := Option.some.inj (hprocess.symm.trans hget)
      obtain ⟨_, rfl, rfl⟩ := StartPhase.WriteKey.inj (hwrite.symm.trans hwrite')
      exact ⟨_, hself, htarget, hdata, hfile.1, hfile.2⟩
    · intro w wr' hwr' htarget' hactive'
      by_cases hw : w = i
      · obtain rfl := hw
        exact ⟨process, List.mem_of_getElem? hprocess, options, key, hwrite⟩
      · exact h.active w wr' ((hother hw).mp hwr') htarget' hactive'
    · rw [hidentities] at hmem
      cases hmem
  · have hfile : dir'.files (trackerPath home SERVER_KEY_FILE)
        = s.dir.files (trackerPath home SERVER_KEY_FILE) := by
      rcases hfiles with ⟨_, hfiles⟩ | ⟨_, hfiles⟩
      · rw [hfiles _ hkey, if_neg (Ne.symm htarget)]
      · exact hfiles _ hkey
    refine ⟨h.one, ?_, ?_, ?_, ?_⟩
    · intro process hmem options key w hwrite
      obtain ⟨wr', hwr', htarget', hrest⟩ := h.creating process hmem options key w hwrite
      have hw : w ≠ i := by
        rintro rfl
        obtain rfl := Option.some.inj (hwr.symm.trans hwr')
        exact htarget htarget'
      refine ⟨wr', (hother hw).mpr hwr', htarget', ?_⟩
      show _ ∧ (_ → dir'.files _ = _) ∧ (_ → dir'.files _ = _)
      rw [hfile]
      exact hrest
    · intro w wr' hwr' htarget' hactive'
      have hw : w ≠ i := by
        rintro rfl
        rw [← Option.some.inj (hself.symm.trans hwr')] at htarget'
        exact htarget htarget'
      exact h.active w wr' ((hother hw).mp hwr') htarget' hactive'
    · show dir'.files _ = none → _
      rw [hfile]
      exact h.fresh
    · show ∀ bytes, dir'.files _ = some bytes → _
      rw [hfile]
      exact h.held

omit [Formats] in
/-- A process that makes up a key comes to run with it, when the file is in place. -/
theorem key_of_renamed (h : OneKey home s) (hopenssh : OpenSsh.Lawful) {p : ℕ} {process : Process}
    {options : ServerOptions} {key : SecretKey} {w : ℕ} {wr : Writer UnixPath}
    (hprocess : s.processes[p]? = some process) (hwrite : process.phase = .WriteKey options key w)
    (hwr : s.dir.writers[w]? = some wr) (hrenamed : wr.phase = .Renamed) :
    ∃ bytes, s.dir.files (trackerPath home SERVER_KEY_FILE) = some bytes ∧ readSecretKey bytes = .ok key := by
  obtain ⟨wr', hwr', _, hdata, hfile, _⟩ :=
    h.creating process (List.mem_of_getElem? hprocess) options key w hwrite
  obtain rfl := Option.some.inj (hwr.symm.trans hwr')
  refine ⟨wr.data, hfile hrenamed, ?_⟩
  rw [readSecretKey, hopenssh key wr.data hdata]

omit [Formats] in
/-- A process goes on, and does not come to run with a key. -/
theorem idle (h : OneKey home s) {p : ℕ} {process : Process} (hprocess : s.processes[p]? = some process)
    (hidentity : phase'.identity? = none) (hphase : phase'.isCreating = false)
    (hdone : ∀ options key w, process.phase = .WriteKey options key w →
      ∀ wr, s.dir.writers[w]? = some wr → wr.phase.isActive = false) :
    OneKey home ⟨s.dir, s.processes.set p { process with phase := phase' },
      s.identities ++ phase'.identity?.toList⟩ := by
  rw [hidentity, Option.toList_none, List.append_nil]
  exact h.setPhase hprocess hphase hdone

/-- A process goes on. -/
theorem advance (h : OneKey home s) (hopenssh : OpenSsh.Lawful) {p : ℕ} {process : Process}
    {generated : SecretKey} (hprocess : s.processes[p]? = some process)
    (halone : Alone home s (.Continue p generated))
    (hstep : Tracker.advance home s.dir process.args generated process.phase = some (dir', phase')) :
    OneKey home ⟨dir', s.processes.set p { process with phase := phase' },
      s.identities ++ phase'.identity?.toList⟩ := by
  rcases advance_cases hstep with ⟨rfl, rfl, hstopped⟩ | ⟨w, bytes, hphase, _, _, rfl, rfl⟩ |
    ⟨w, hphase, rfl, rfl⟩ | ⟨o, hphase, _, rfl, rfl⟩ | ⟨options, hphase, rfl, rfl⟩ |
    ⟨options, bytes, hphase, hnone, hbytes, _, rfl, rfl⟩ |
    ⟨options, bytes, key, hphase, hbytes, hkey, rfl, rfl⟩ |
    ⟨options, key, w, wr, hphase, hwr, hrenamed, rfl, rfl⟩
  · refine h.idle hprocess rfl rfl fun options key w hwrite wr hwr => ?_
    obtain ⟨wr', hwr', hphase⟩ := hstopped options key w hwrite
    obtain rfl := Option.some.inj (hwr.symm.trans hwr')
    rw [hphase, Phase.isActive]
  · have hpath : trackerPath home CONFIG_DEBUG_FILE ≠ trackerPath home SERVER_KEY_FILE :=
      fun heq => absurd (trackerPath_injective (by decide) (by decide) heq) (by decide)
    exact (h.start hpath bytes).idle hprocess rfl rfl
      fun _ _ _ hwrite => by cases hphase.symm.trans hwrite
  · exact h.idle hprocess rfl rfl fun _ _ _ hwrite => by cases hphase.symm.trans hwrite
  · exact h.idle hprocess rfl rfl fun _ _ _ hwrite => by cases hphase.symm.trans hwrite
  · exact h.idle hprocess rfl rfl fun _ _ _ hwrite => by cases hphase.symm.trans hwrite
  · show OneKey home ⟨_, _, s.identities ++ []⟩
    rw [List.append_nil]
    have hloading : (s.processes[p]?.any fun process => process.phase.isLoading) = true := by
      rw [hprocess, Option.any_some, hphase, StartPhase.isLoading]
    exact h.create hprocess hnone (halone hloading hnone) hbytes
  · exact (h.identify hbytes hkey).setPhase hprocess rfl
      fun _ _ _ hwrite => by cases hphase.symm.trans hwrite
  · obtain ⟨bytes, hbytes, hkey⟩ := h.key_of_renamed hopenssh hprocess hphase hwr hrenamed
    refine (h.identify hbytes hkey).setPhase hprocess rfl fun options' key' w' hwrite wr' hwr' => ?_
    obtain ⟨_, _, rfl⟩ := StartPhase.WriteKey.inj (hphase.symm.trans hwrite)
    obtain rfl := Option.some.inj (hwr.symm.trans hwr')
    rw [hrenamed, Phase.isActive]

/-- **A step of a process that is alone with its key.** -/
theorem step (h : OneKey home s) (hinv : s.Inv home initial) (hopenssh : OpenSsh.Lawful)
    (halone : Alone home s move) (hstep : Startup.step home s move = some s') : OneKey home s' := by
  cases move with
  | Launch args =>
      obtain ⟨⟨dir, phase⟩, hstart, hs⟩ := Option.bind_eq_some_iff.mp hstep
      obtain rfl := Option.some.inj hs
      rcases startWriter_cases hstart with ⟨rfl, rfl⟩ | ⟨bytes, _, _, rfl, rfl⟩
      · exact h.launch rfl
      · have hpath : trackerPath home CONFIG_DEFAULTS_FILE ≠ trackerPath home SERVER_KEY_FILE :=
          fun heq => absurd (trackerPath_injective (by decide) (by decide) heq) (by decide)
        exact (h.start hpath bytes).launch rfl
  | Continue p generated =>
      obtain ⟨process, hprocess, hstep⟩ := Option.bind_eq_some_iff.mp hstep
      obtain ⟨⟨dir, phase⟩, hadvance, hs⟩ := Option.bind_eq_some_iff.mp hstep
      obtain rfl := Option.some.inj hs
      exact h.advance hopenssh hprocess halone hadvance
  | Act writer act =>
      obtain ⟨dir, hdir, rfl⟩ := step_act hstep
      exact h.act hinv.dir hdir
  | Kill p =>
      obtain ⟨process, dir, hprocess, hdir, rfl⟩ := step_kill hstep
      rcases hdir with ⟨rfl, hnone⟩ | ⟨w, hw, hdir⟩
      · refine h.setPhase hprocess rfl fun options key w hwrite wr hwr => ?_
        exact Directory.isActive_of_step_kill (hnone w (by rw [hwrite]; rfl)) hwr
      · refine (h.act hinv.dir hdir).setPhase hprocess rfl fun options key w' hwrite wr hwr => ?_
        rw [hwrite] at hw
        obtain rfl := Option.some.inj hw
        obtain ⟨wr', hwr', hstopped⟩ := Directory.step_kill hdir
        obtain rfl := Option.some.inj (hwr.symm.trans hwr')
        rw [hstopped, Phase.isActive]

/-- A key file is not replaced by a writer. -/
theorem act_keeps (h : OneKey home s) (hdir : DirInv home initial s.dir) {i : ℕ} {act : Act UnixPath}
    {bytes : List UInt8} (hbytes : s.dir.files (trackerPath home SERVER_KEY_FILE) = some bytes)
    (hstep : s.dir.step (IsTemp home) (.Act i act) = some dir') :
    dir'.files (trackerPath home SERVER_KEY_FILE) = some bytes := by
  have hkey : ¬ IsTemp home (trackerPath home SERVER_KEY_FILE) := not_isTemp (by decide) (by decide)
  obtain ⟨wr, phase, hwr, hactive, _, hfiles⟩ := hdir.inv.act_files hstep
  have htarget : wr.target ≠ trackerPath home SERVER_KEY_FILE := by
    intro htarget
    obtain ⟨hnone, _⟩ := h.files_of_active hwr htarget hactive
    rw [hbytes] at hnone
    cases hnone
  rcases hfiles with ⟨_, hfiles⟩ | ⟨_, hfiles⟩
  · rw [hfiles _ hkey, if_neg (Ne.symm htarget), hbytes]
  · rw [hfiles _ hkey, hbytes]

/-- A key file is not replaced. -/
theorem keeps (h : OneKey home s) (hinv : s.Inv home initial) {bytes : List UInt8}
    (hbytes : s.dir.files (trackerPath home SERVER_KEY_FILE) = some bytes)
    (hstep : Startup.step home s move = some s') :
    s'.dir.files (trackerPath home SERVER_KEY_FILE) = some bytes := by
  cases move with
  | Launch args =>
      obtain ⟨⟨dir, phase⟩, hstart, hs⟩ := Option.bind_eq_some_iff.mp hstep
      obtain rfl := Option.some.inj hs
      rcases startWriter_cases hstart with ⟨rfl, _⟩ | ⟨_, _, _, rfl, _⟩
      · exact hbytes
      · exact hbytes
  | Continue p generated =>
      obtain ⟨process, hprocess, hstep⟩ := Option.bind_eq_some_iff.mp hstep
      obtain ⟨⟨dir, phase⟩, hadvance, hs⟩ := Option.bind_eq_some_iff.mp hstep
      obtain rfl := Option.some.inj hs
      rw [show dir.files = s.dir.files from advance_files hadvance]
      exact hbytes
  | Act writer act =>
      obtain ⟨dir, hdir, rfl⟩ := step_act hstep
      exact h.act_keeps hinv.dir hbytes hdir
  | Kill p =>
      obtain ⟨process, dir, _, hdir, rfl⟩ := step_kill hstep
      rcases hdir with ⟨rfl, _⟩ | ⟨w, _, hdir⟩
      · exact hbytes
      · exact h.act_keeps hinv.dir hbytes hdir

end OneKey

/-! ## Runs -/

variable {moves : List StartMove}

theorem inv_of_run (hrun : Transition.run (step home) (new initial) moves = some s) : s.Inv home initial :=
  Transition.run_invariant (inv_new home initial) (fun _ _ _ h hstep => h.step hstep) hrun

theorem oneKey_of_run (hopenssh : OpenSsh.Lawful)
    (halone : Transition.Conforms (step home) (Alone home) (new initial) moves)
    (hrun : Transition.run (step home) (new initial) moves = some s) : OneKey home s :=
  (Transition.run_invariant_of_conforms (I := fun s => s.Inv home initial ∧ OneKey home s)
    ⟨inv_new home initial, OneKey.new home initial⟩
    (fun _ _ _ h halone hstep => ⟨h.1.step hstep, h.2.step h.1 hopenssh halone hstep⟩) halone hrun).2

/-- Nobody makes up a key if there is one at first. -/
theorem oneKey_of_initial (hopenssh : OpenSsh.Lawful) {bytes : List UInt8}
    (hbytes : initial (trackerPath home SERVER_KEY_FILE) = some bytes)
    (hrun : Transition.run (step home) (new initial) moves = some s) :
    OneKey home s ∧ s.dir.files (trackerPath home SERVER_KEY_FILE) = some bytes := by
  refine (Transition.run_invariant (I := fun s => s.Inv home initial ∧ OneKey home s ∧
      s.dir.files (trackerPath home SERVER_KEY_FILE) = some bytes)
    ⟨inv_new home initial, OneKey.new home initial, hbytes⟩ ?_ hrun).2
  rintro m move m' ⟨hinv, hone, hfile⟩ hstep
  have halone : Alone home m move := by
    cases move with
    | Continue p generated =>
        intro _ hnone
        rw [hfile] at hnone
        cases hnone
    | _ => trivial
  exact ⟨hinv.step hstep, hone.step hinv hopenssh halone hstep, hone.keeps hinv hfile hstep⟩

/-- A sample file is as it was, or it is whole. -/
theorem Inv.sample (h : s.Inv home initial) (hformats : Formats.Lawful) (hhome : home.isAbsolute = true)
    {fileName : UnixPath} {options : ServerOptions} (hunbound : options.Unbound)
    (hfile : fileName.isAbsolute = false) (htemp : ¬ ".tmp".toList <+: fileName)
    (hnames : fileName.names ≠ []) (hext : fileName.extension = some "toml".toList)
    (hwritten : ∀ data, Written home (trackerPath home fileName) data →
      saveToFile options (trackerPath home fileName) = .ok data) :
    s.dir.files (trackerPath home fileName) = initial (trackerPath home fileName) ∨
      loadFromFile s.dir.files (trackerPath home fileName) = .ok options := by
  have hbase : home ≠ [] := by
    rintro rfl
    cases hhome
  rcases h.dir.files hfile htemp with ⟨data, hdata, heq⟩ | heq
  · refine .inr (loadFromFile_of_saveToFile hformats hunbound (UnixPath.isAbsolute_join hhome _) ?_
      (hwritten data hdata) heq)
    rw [trackerPath, UnixPath.extension_join hbase hfile hnames, hext]
  · exact .inl heq

/-- The sample files, with the options that are in them. -/
def samples : List (UnixPath × ServerOptions) :=
  [(CONFIG_DEFAULTS_FILE, .default), (CONFIG_DEBUG_FILE, .debug)]

theorem sample_of_mem (h : s.Inv home initial) (hformats : Formats.Lawful) (hhome : home.isAbsolute = true)
    {sample : UnixPath × ServerOptions} (hmem : sample ∈ samples) :
    s.dir.files (trackerPath home sample.1) = initial (trackerPath home sample.1) ∨
      loadFromFile s.dir.files (trackerPath home sample.1) = .ok sample.2 := by
  rcases List.mem_cons.mp hmem with rfl | hmem
  · refine h.sample hformats hhome ⟨rfl, rfl⟩ (by decide) (by decide) (by decide) (by decide)
      fun data hwritten => ?_
    generalize hpath : trackerPath home CONFIG_DEFAULTS_FILE = path at hwritten
    cases hwritten with
    | defaults hdata => exact hpath ▸ hdata
    | _ => exact absurd (trackerPath_injective (by decide) (by decide) hpath) (by decide)
  · rw [List.mem_singleton.mp hmem]
    refine h.sample hformats hhome ⟨rfl, rfl⟩ (by decide) (by decide) (by decide) (by decide)
      fun data hwritten => ?_
    generalize hpath : trackerPath home CONFIG_DEBUG_FILE = path at hwritten
    cases hwritten with
    | debug hdata => exact hpath ▸ hdata
    | _ => exact absurd (trackerPath_injective (by decide) (by decide) hpath) (by decide)

/-- The key file can be read, whoever wrote it. -/
theorem readSecretKey_of_inv (h : s.Inv home initial) (hopenssh : OpenSsh.Lawful)
    (hinitial : ∀ bytes, initial (trackerPath home SERVER_KEY_FILE) = some bytes →
      ∃ key, readSecretKey bytes = .ok key)
    {bytes : List UInt8} (hbytes : s.dir.files (trackerPath home SERVER_KEY_FILE) = some bytes) :
    ∃ key, readSecretKey bytes = .ok key := by
  rcases h.dir.files (show SERVER_KEY_FILE.isAbsolute = false by decide) (by decide) with
    ⟨data, hwritten, heq⟩ | heq
  · obtain rfl := Option.some.inj (heq.symm.trans hbytes)
    generalize hpath : trackerPath home SERVER_KEY_FILE = path at hwritten
    cases hwritten with
    | key hdata => exact ⟨_, by rw [readSecretKey, hopenssh _ data hdata]⟩
    | _ => exact absurd (trackerPath_injective (by decide) (by decide) hpath) (by decide)
  · exact hinitial bytes (heq.symm.trans hbytes)

/-- **Trackers that start in one home directory**, any number of times, also at the same time, and whenever
they fail or are killed.

The key file can always be read, the sample files are whole, and every process has the options of the user.
If there was a key at first, or no two processes ever made one up at the same time, then all processes that
came to run have had the key that is in the file. -/
theorem startup_of_run (hformats : Formats.Lawful) (hopenssh : OpenSsh.Lawful)
    (hhome : home.isAbsolute = true)
    (hinitial : ∀ bytes, initial (trackerPath home SERVER_KEY_FILE) = some bytes →
      ∃ key, readSecretKey bytes = .ok key)
    (hrun : Transition.run (step home) (new initial) moves = some s) :
    (∀ bytes, s.dir.files (trackerPath home SERVER_KEY_FILE) = some bytes →
        ∃ key, readSecretKey bytes = .ok key) ∧
      (∀ sample ∈ samples, s.dir.files (trackerPath home sample.1) = initial (trackerPath home sample.1) ∨
        loadFromFile s.dir.files (trackerPath home sample.1) = .ok sample.2) ∧
      s.dir.files (trackerPath home CONFIG_FILE) = initial (trackerPath home CONFIG_FILE) ∧
      (∀ process ∈ s.processes, Configured home initial process) ∧
      (initial (trackerPath home SERVER_KEY_FILE) ≠ none ∨
          Transition.Conforms (step home) (Alone home) (new initial) moves →
        ∀ key ∈ s.identities, ∃ bytes, s.dir.files (trackerPath home SERVER_KEY_FILE) = some bytes ∧
          readSecretKey bytes = .ok key) := by
  have hinv := inv_of_run hrun
  refine ⟨fun bytes hbytes => readSecretKey_of_inv hinv hopenssh hinitial hbytes,
    fun sample hmem => sample_of_mem hinv hformats hhome hmem, hinv.dir.config, hinv.configured,
    fun hcase key hmem => ?_⟩
  have hone : OneKey home s := by
    rcases hcase with hsome | halone
    · obtain ⟨bytes, hbytes⟩ := Option.ne_none_iff_exists'.mp hsome
      exact (oneKey_of_initial hopenssh hbytes hrun).1
    · exact oneKey_of_run hopenssh halone hrun
  cases hfile : s.dir.files (trackerPath home SERVER_KEY_FILE) with
  | none =>
      rw [hone.fresh hfile] at hmem
      cases hmem
  | some bytes => exact ⟨bytes, rfl, hone.held bytes hfile key hmem⟩

end Startup

/-! ## Two starts -/

/-- Lines of ASCII text. -/
def asciiLines (lines : List String) : List UInt8 :=
  lines.flatMap fun line => (line.toList ++ ['\n']).map fun c => UInt8.ofNat c.toNat

def defaultsToml : List UInt8 := asciiLines
  ["announce_timeout = \"12h\"", "announce_expiry = \"3days 12h\"", "probe_timeout = \"12h\"",
    "probe_expiry = \"3days 12h\"", "gc_interval = \"5m\"", "probe_interval = \"1h\"",
    "dht_announce_interval = \"6h\"", "max_hash_seq_size = 524288", "announce_data_path = \"announce.redb\""]

def debugToml : List UInt8 := asciiLines
  ["announce_timeout = \"1m\"", "announce_expiry = \"2m\"", "probe_timeout = \"1m\"", "probe_expiry = \"3m\"",
    "gc_interval = \"20s\"", "probe_interval = \"20s\"", "dht_announce_interval = \"20s\"",
    "max_hash_seq_size = 524288", "dial_log = \"dial.log\"", "probe_log = \"probe.log\"",
    "announce_data_path = \"announce.redb\""]

def encodeSample (options : ServerOptions) : Option (List UInt8) :=
  if options = .default then some defaultsToml else if options = .debug then some debugToml else none

def decodeSample (bytes : List UInt8) : Option ServerOptions :=
  if bytes = defaultsToml then some .default else if bytes = debugToml then some .debug else none

/-- Formats that know the sample files. -/
@[reducible] def Formats.ofSamples : Formats where
  toml := ⟨encodeSample, decodeSample⟩
  json := ⟨fun _ => none, fun _ => none⟩
  postcard := ⟨fun _ => none, fun _ => none⟩

/-- Key files that are keys. -/
@[reducible] def OpenSsh.plain : OpenSsh where
  toOpenssh key := some key.toList
  fromOpenssh bytes := if h : bytes.length = 32 then some (.Ed25519 ⟨bytes, h⟩) else none

theorem OpenSsh.plain_lawful : @OpenSsh.Lawful OpenSsh.plain := by
  rintro key bytes heq
  rw [← Option.some.inj heq]
  exact dif_pos key.toList_length

theorem Formats.ofSamples_lawful : @Formats.Lawful Formats.ofSamples := by
  rintro options bytes - heq
  change encodeSample options = some bytes at heq
  change decodeSample bytes = some options
  rw [encodeSample] at heq
  split_ifs at heq with hdefault hdebug
  · rw [← Option.some.inj heq, hdefault, decodeSample, if_pos rfl]
  · have hne : debugToml ≠ defaultsToml := by decide
    rw [← Option.some.inj heq, hdebug, decodeSample, if_neg hne, if_pos rfl]

attribute [local instance] Formats.ofSamples OpenSsh.plain

/-- A writer writes all of a file. -/
def writeAll (writer : ℕ) (temp : String) : List StartMove :=
  [.Act writer (.Create (trackerPath "/home".toList temp.toList)), .Act writer (.Write 1000),
    .Act writer .Rename]

/-- A key that is made up. -/
def someKey (b : UInt8) : SecretKey := List.Vector.replicate 32 b

/-- A process starts and comes to its key, which it makes up if there is none. -/
def untilKey (p writer : ℕ) (generated : SecretKey) : List StartMove :=
  .Launch ⟨none, none⟩ :: (writeAll writer ".tmp1" ++ .Continue p generated :: writeAll (writer + 1) ".tmp2"
    ++ [.Continue p generated, .Continue p generated, .Continue p generated])

/-- The first process is killed while it writes its key. -/
def killedMoves : List StartMove :=
  untilKey 0 0 (someKey 1)
    ++ [.Act 2 (.Create (trackerPath "/home".toList ".tmp3".toList)), .Act 2 (.Write 20), .Kill 0]
    ++ untilKey 1 3 (someKey 2) ++ writeAll 5 ".tmp4" ++ [.Continue 1 (someKey 2)]
    ++ untilKey 2 6 (someKey 3) ++ [.Continue 2 (someKey 3)]

/-- A process that is killed while it writes its key leaves nothing behind that matters: the next one makes
up a key, and the one after it finds that. -/
theorem Startup.startup_of_run_killed :
    ∃ s, Transition.run (step "/home".toList) (new fun _ => none) killedMoves = some s ∧
      s.identities = [someKey 2, someKey 2] ∧
      ∀ key ∈ s.identities, ∃ bytes,
        s.dir.files (trackerPath "/home".toList SERVER_KEY_FILE) = some bytes ∧ readSecretKey bytes = .ok key := by
  have hids : (Transition.run (step "/home".toList) (new fun _ => none) killedMoves).map Startup.identities
      = some [someKey 2, someKey 2] := by decide +kernel
  obtain ⟨s, hrun, hids⟩ := Option.map_eq_some_iff.mp hids
  refine ⟨s, hrun, hids, ?_⟩
  exact (startup_of_run Formats.ofSamples_lawful OpenSsh.plain_lawful (by decide) (fun _ h => by cases h)
    hrun).2.2.2.2 (.inr (by decide +kernel))

/-- Two processes that make up keys at the same time. -/
def twoMoves : List StartMove :=
  untilKey 0 0 (someKey 1) ++ untilKey 1 3 (someKey 2) ++ writeAll 2 ".tmp3" ++ writeAll 5 ".tmp4"
    ++ [.Continue 0 (someKey 1), .Continue 1 (someKey 2)]

-- the condition is needed: these two run with different keys
example :
    (Transition.run (Startup.step "/home".toList) (Startup.new fun _ => none) twoMoves).map Startup.identities
      = some [someKey 1, someKey 2] := by decide +kernel

end IrohExperiments.Tracker
