import IrohExperiments.Lib.Transition
import Mathlib.Logic.Function.Basic

/-!
# Files that are replaced at once

A program that must not leave half a file behind writes to a temporary file, and renames it when it is
complete.  `Directory` has the files and any number of such programs, each of which writes in any number of parts,
may fail with an error, and may be killed at any time.

The temporary files have names that nobody else uses (`IsTemp`).  All other files are like registers that
are written by the renames and by nothing else (`Directory.Inv.act_files`): each of them holds all of what was
last renamed to it, or what it held at first.
-/

namespace IrohExperiments.AtomicReplace

variable {Path : Type*}

abbrev Files (Path : Type*) := Path → Option (List UInt8)

/-- Where a writer stands.  Before a rename, the rest of the data is yet to be written. -/
inductive Phase (Path : Type*) where
  | Create
  | Write (temp : Path) (rest : List UInt8)
  | Renamed
  | Stopped

structure Writer (Path : Type*) where
  target : Path
  data : List UInt8
  phase : Phase Path

/-- What a writer does next.  It may write any part of what is left. -/
inductive Act (Path : Type*) where
  | Create (temp : Path)
  | Write (n : ℕ)
  | Rename
  /-- An operation fails.  The temporary file is removed. -/
  | Fail
  /-- The program is killed.  The temporary file stays. -/
  | Kill

structure Directory (Path : Type*) where
  files : Files Path
  writers : List (Writer Path)
  /-- The renames so far. -/
  renames : List (Path × List UInt8)

inductive Move (Path : Type*) where
  | Start (target : Path) (data : List UInt8)
  | Act (i : ℕ) (act : Act Path)

/-! ## Steps -/

variable [DecidableEq Path] (IsTemp : Path → Prop) [DecidablePred IsTemp]

/-- What is in the files after renames. -/
def contents (files : Files Path) (renames : List (Path × List UInt8)) : Files Path :=
  renames.foldl (fun files r => Function.update files r.1 (some r.2)) files

/-- What an act of a writer does to the files, and where it leads the writer. -/
def Writer.act (files : Files Path) (self : Writer Path) (act : Act Path) :
    Option (Files Path × Phase Path) :=
  match act, self.phase with
  | .Create temp, .Create =>
      -- the name of a temporary file is not in use
      if IsTemp temp ∧ files temp = none then
        some (Function.update files temp (some []), .Write temp self.data)
      else none
  | .Write n, .Write temp rest =>
      some (Function.update files temp ((files temp).map (· ++ rest.take n)), .Write temp (rest.drop n))
  | .Rename, .Write temp [] =>
      some (Function.update (Function.update files self.target (files temp)) temp none, .Renamed)
  | .Fail, .Create => some (files, .Stopped)
  | .Fail, .Write temp _ => some (Function.update files temp none, .Stopped)
  | .Kill, .Create => some (files, .Stopped)
  | .Kill, .Write _ _ => some (files, .Stopped)
  | _, _ => none

/-- What a writer adds to the renames. -/
def Writer.renamed (self : Writer Path) : Act Path → List (Path × List UInt8)
  | .Rename => [(self.target, self.data)]
  | _ => []

/-- One more writer. -/
def Directory.start (self : Directory Path) (target : Path) (data : List UInt8) : Directory Path :=
  { self with writers := self.writers ++ [⟨target, data, .Create⟩] }

def Directory.step (self : Directory Path) : Move Path → Option (Directory Path)
  | .Start target data => if IsTemp target then none else some (self.start target data)
  | .Act i act => do
      let w ← self.writers[i]?
      let (files, phase) ← w.act IsTemp self.files act
      return ⟨files, self.writers.set i { w with phase }, self.renames ++ w.renamed act⟩

/-! ## One writer -/

/-- The temporary file of a writer. -/
def Phase.temp? : Phase Path → Option Path
  | .Write temp _ => some temp
  | _ => none

/-- A writer that is not done, one way or another. -/
def Phase.isActive : Phase Path → Bool
  | .Create | .Write _ _ => true
  | .Renamed | .Stopped => false

/-- A writer has what it wrote so far in a temporary file. -/
def Writer.Owns (files : Files Path) (w : Writer Path) : Prop :=
  ∀ temp rest, w.phase = .Write temp rest →
    IsTemp temp ∧ ∃ written, files temp = some written ∧ written ++ rest = w.data

variable {IsTemp} {files files' : Files Path} {w : Writer Path} {act : Act Path} {phase : Phase Path}

theorem Writer.act_cases (h : w.act IsTemp files act = some (files', phase)) :
    (∃ temp, act = .Create temp ∧ w.phase = .Create ∧ IsTemp temp ∧ files temp = none ∧
        files' = Function.update files temp (some []) ∧ phase = .Write temp w.data) ∨
    (∃ n temp rest, act = .Write n ∧ w.phase = .Write temp rest ∧
        files' = Function.update files temp ((files temp).map (· ++ rest.take n)) ∧
        phase = .Write temp (rest.drop n)) ∨
    (∃ temp, act = .Rename ∧ w.phase = .Write temp [] ∧
        files' = Function.update (Function.update files w.target (files temp)) temp none ∧
        phase = .Renamed) ∨
    w.phase.isActive = true ∧ w.renamed act = [] ∧ phase = .Stopped ∧
      (files' = files ∨ ∃ temp, w.phase.temp? = some temp ∧ files' = Function.update files temp none) := by
  unfold Writer.act at h
  split at h
  · rename_i temp hphase
    split_ifs at h with hfree
    obtain ⟨rfl, rfl⟩ := Prod.mk.inj (Option.some.inj h)
    exact .inl ⟨temp, rfl, hphase, hfree.1, hfree.2, rfl, rfl⟩
  · rename_i n temp rest hphase
    obtain ⟨rfl, rfl⟩ := Prod.mk.inj (Option.some.inj h)
    exact .inr (.inl ⟨n, temp, rest, rfl, hphase, rfl, rfl⟩)
  · rename_i temp hphase
    obtain ⟨rfl, rfl⟩ := Prod.mk.inj (Option.some.inj h)
    exact .inr (.inr (.inl ⟨temp, rfl, hphase, rfl, rfl⟩))
  · rename_i hphase
    obtain ⟨rfl, rfl⟩ := Prod.mk.inj (Option.some.inj h)
    exact .inr (.inr (.inr ⟨by rw [hphase, Phase.isActive], rfl, rfl, .inl rfl⟩))
  · rename_i temp rest hphase
    obtain ⟨rfl, rfl⟩ := Prod.mk.inj (Option.some.inj h)
    exact .inr (.inr (.inr ⟨by rw [hphase, Phase.isActive], rfl, rfl,
      .inr ⟨temp, by rw [hphase, Phase.temp?], rfl⟩⟩))
  · rename_i hphase
    obtain ⟨rfl, rfl⟩ := Prod.mk.inj (Option.some.inj h)
    exact .inr (.inr (.inr ⟨by rw [hphase, Phase.isActive], rfl, rfl, .inl rfl⟩))
  · rename_i hphase
    obtain ⟨rfl, rfl⟩ := Prod.mk.inj (Option.some.inj h)
    exact .inr (.inr (.inr ⟨by rw [hphase, Phase.isActive], rfl, rfl, .inl rfl⟩))
  · cases h

/-- What is known of an act, for the files of others: a temporary file stays as it is, unless it is the one
of the writer, and other files change with the renames only. -/
structure Spec (IsTemp : Path → Prop) (files files' : Files Path) (w : Writer Path) (phase : Phase Path)
    (renames : List (Path × List UInt8)) : Prop where
  owns : Writer.Owns IsTemp files' { w with phase }
  fresh : ∀ temp, phase.temp? = some temp → w.phase.temp? = some temp ∨ files temp = none
  temp : ∀ path, IsTemp path → w.phase.temp? ≠ some path → files path ≠ none → files' path = files path
  files : ∀ path, ¬ IsTemp path → files' path = contents files renames path

omit [DecidableEq Path] [DecidablePred IsTemp] in
theorem Writer.Owns.isTemp (howns : w.Owns IsTemp files) {temp : Path} (h : w.phase.temp? = some temp) :
    IsTemp temp := by
  cases hphase : w.phase with
  | Write temp' rest =>
      rw [hphase] at h
      rw [← Option.some.inj h]
      exact (howns temp' rest hphase).1
  | _ =>
      rw [hphase] at h
      cases h

/-- **What an act does.** -/
theorem Writer.act_spec (htarget : ¬ IsTemp w.target) (howns : w.Owns IsTemp files)
    (h : w.act IsTemp files act = some (files', phase)) :
    Spec IsTemp files files' w phase (w.renamed act) := by
  -- an update of the temporary file does not touch other files
  have hother : ∀ {temp path : Path} (v : Option (List UInt8)), w.phase.temp? = some temp →
      w.phase.temp? ≠ some path → Function.update files temp v path = files path := by
    rintro temp path v htemp hpath
    exact Function.update_of_ne (fun heq => hpath (by rw [heq, htemp])) _ _
  have hfile : ∀ {temp path : Path} (files : Files Path) (v : Option (List UInt8)), IsTemp temp →
      ¬ IsTemp path → Function.update files temp v path = files path := by
    rintro temp path files v htemp hpath
    exact Function.update_of_ne (fun heq => hpath (by rw [heq]; exact htemp)) _ _
  rcases Writer.act_cases h with ⟨temp, rfl, hphase, htemp, hnone, rfl, rfl⟩ |
    ⟨n, temp, rest, rfl, hphase, rfl, rfl⟩ | ⟨temp, rfl, hphase, rfl, rfl⟩ | ⟨_, hrenamed, rfl, hfiles⟩
  · refine ⟨?_, ?_, fun path _ _ hsome => ?_, fun path hpath => hfile _ _ htemp hpath⟩
    · rintro temp' rest' heq
      cases heq
      exact ⟨htemp, [], Function.update_self _ _ _, rfl⟩
    · rintro temp' heq
      cases heq
      exact .inr hnone
    · exact Function.update_of_ne (fun heq => hsome (by rw [heq, hnone])) _ _
  · obtain ⟨htemp, written, hwritten, hdata⟩ := howns temp rest hphase
    have htemp? : w.phase.temp? = some temp := by rw [hphase, Phase.temp?]
    refine ⟨?_, ?_, fun path _ hpath _ => hother _ htemp? hpath, fun path hpath => hfile _ _ htemp hpath⟩
    · rintro temp' rest' heq
      cases heq
      refine ⟨htemp, written ++ rest.take n, ?_, ?_⟩
      · rw [Function.update_self, hwritten, Option.map_some]
      · rw [List.append_assoc, List.take_append_drop, hdata]
    · rintro temp' heq
      cases heq
      exact .inl htemp?
  · obtain ⟨htemp, written, hwritten, hdata⟩ := howns temp [] hphase
    have htemp? : w.phase.temp? = some temp := by rw [hphase, Phase.temp?]
    rw [List.append_nil] at hdata
    refine ⟨fun _ _ heq => (by cases heq), fun _ heq => (by cases heq), fun path hpath hne _ => ?_,
      fun path hpath => ?_⟩
    · have htemp_ne : path ≠ temp := fun heq => hne (by rw [heq, htemp?])
      have htarget_ne : path ≠ w.target := fun heq => htarget (by rw [← heq]; exact hpath)
      rw [Function.update_of_ne htemp_ne, Function.update_of_ne htarget_ne]
    · rw [hfile _ _ htemp hpath, hwritten, hdata]
      rfl
  · rw [hrenamed]
    refine ⟨fun _ _ heq => (by cases heq), fun _ heq => (by cases heq), fun path _ hne _ => ?_,
      fun path hpath => ?_⟩
    · rcases hfiles with rfl | ⟨temp, htemp?, rfl⟩
      · rfl
      · exact hother _ htemp? hne
    · rcases hfiles with rfl | ⟨temp, htemp?, rfl⟩
      · rfl
      · exact hfile _ _ (howns.isTemp htemp?) hpath

/-! ## Contents -/

theorem contents_append (files : Files Path) (renames renames' : List (Path × List UInt8)) :
    contents files (renames ++ renames') = contents (contents files renames) renames' :=
  List.foldl_append

/-- The contents of a file depend on this file only. -/
theorem contents_congr {files files' : Files Path} {path : Path} (h : files path = files' path)
    (renames : List (Path × List UInt8)) : contents files renames path = contents files' renames path := by
  induction renames generalizing files files' with
  | nil => exact h
  | cons r renames ih =>
      refine ih ?_
      show Function.update files r.1 (some r.2) path = Function.update files' r.1 (some r.2) path
      by_cases hpath : path = r.1
      · rw [hpath, Function.update_self, Function.update_self]
      · rw [Function.update_of_ne hpath, Function.update_of_ne hpath, h]

/-- What was last renamed to a file, or what it held at first. -/
theorem contents_cases (files : Files Path) (renames : List (Path × List UInt8)) (path : Path) :
    (∃ data, (path, data) ∈ renames ∧ contents files renames path = some data) ∨
      (∀ data, (path, data) ∉ renames) ∧ contents files renames path = files path := by
  induction renames using List.reverseRecOn with
  | nil => exact .inr ⟨fun _ h => absurd h List.not_mem_nil, rfl⟩
  | append_singleton renames r ih =>
      rw [contents_append]
      by_cases hpath : path = r.1
      · refine .inl ⟨r.2, List.mem_append_right _ ?_, ?_⟩
        · rw [hpath]
          exact List.mem_singleton_self r
        · rw [hpath]
          exact Function.update_self _ _ _
      · have hlast : contents (contents files renames) [r] path = contents files renames path :=
          Function.update_of_ne hpath _ _
        rw [hlast]
        rcases ih with ⟨data, hmem, heq⟩ | ⟨hnone, heq⟩
        · exact .inl ⟨data, List.mem_append_left _ hmem, heq⟩
        · refine .inr ⟨fun data hmem => ?_, heq⟩
          rcases List.mem_append.mp hmem with hmem | hmem
          · exact hnone data hmem
          · exact hpath (by rw [← List.mem_singleton.mp hmem])

/-! ## All writers -/

namespace Directory

variable {dir dir' : Directory Path}

/-- A directory without writers. -/
def new (files : Files Path) : Directory Path := ⟨files, [], []⟩

/-- All writers have files of their own, and all other files are what the renames made of them. -/
structure Inv (IsTemp : Path → Prop) (initial : Files Path) (dir : Directory Path) : Prop where
  target : ∀ w ∈ dir.writers, ¬ IsTemp w.target
  owns : ∀ w ∈ dir.writers, w.Owns IsTemp dir.files
  distinct : ∀ (i j : ℕ) w w' temp, dir.writers[i]? = some w → dir.writers[j]? = some w' →
    w.phase.temp? = some temp → w'.phase.temp? = some temp → i = j
  files : ∀ path, ¬ IsTemp path → dir.files path = contents initial dir.renames path
  renames : ∀ r ∈ dir.renames, ∃ w ∈ dir.writers, (w.target, w.data) = r

theorem inv_new (IsTemp : Path → Prop) (files : Files Path) : (new files).Inv IsTemp files where
  target _ h := absurd h List.not_mem_nil
  owns _ h := absurd h List.not_mem_nil
  distinct _ _ _ _ _ h := by cases h
  files _ _ := rfl
  renames _ h := absurd h List.not_mem_nil

variable {initial : Files Path}

omit [DecidablePred IsTemp] in
theorem Inv.start (h : dir.Inv IsTemp initial) {target : Path} (htarget : ¬ IsTemp target)
    (data : List UInt8) : (dir.start target data).Inv IsTemp initial where
  target w hw := by
    rcases List.mem_append.mp hw with hw | hw
    · exact h.target w hw
    · rw [List.mem_singleton.mp hw]
      exact htarget
  owns w hw := by
    rcases List.mem_append.mp hw with hw | hw
    · exact h.owns w hw
    · rw [List.mem_singleton.mp hw]
      exact fun _ _ heq => by cases heq
  distinct i j w w' temp hw hw' htemp htemp' := by
    -- the new writer has no temporary file
    have hold : ∀ (i : ℕ) (w : Writer Path),
        (dir.writers ++ [⟨target, data, .Create⟩])[i]? = some w → w.phase.temp? = some temp →
        dir.writers[i]? = some w := by
      intro i w hw htemp
      rw [List.getElem?_append] at hw
      split_ifs at hw with hlt
      · exact hw
      · rw [List.mem_singleton.mp (List.mem_of_getElem? hw)] at htemp
        cases htemp
    exact h.distinct i j w w' temp (hold i w hw htemp) (hold j w' hw' htemp') htemp htemp'
  files := h.files
  renames r hr := by
    obtain ⟨w, hw, heq⟩ := h.renames r hr
    exact ⟨w, List.mem_append_left _ hw, heq⟩

/-- **An act of a writer.** -/
theorem Inv.writer (h : dir.Inv IsTemp initial) {i : ℕ} (hw : dir.writers[i]? = some w)
    (hact : w.act IsTemp dir.files act = some (files', phase)) :
    (Directory.mk files' (dir.writers.set i { w with phase }) (dir.renames ++ w.renamed act)).Inv IsTemp
      initial := by
  have hmem := List.mem_of_getElem? hw
  obtain ⟨hlt, _⟩ := List.getElem?_eq_some_iff.mp hw
  have hspec := Writer.act_spec (h.target w hmem) (h.owns w hmem) hact
  -- another writer, at another place
  have hothers : ∀ (j : ℕ) w', (dir.writers.set i { w with phase })[j]? = some w' →
      j = i ∧ w' = { w with phase } ∨ j ≠ i ∧ dir.writers[j]? = some w' := by
    intro j w' hget
    by_cases hj : i = j
    · obtain rfl := hj
      rw [List.getElem?_set_self hlt] at hget
      exact .inl ⟨rfl, (Option.some.inj hget).symm⟩
    · rw [List.getElem?_set_ne hj] at hget
      exact .inr ⟨Ne.symm hj, hget⟩
  -- its temporary file is not the one of this writer
  have hapart : ∀ (j : ℕ) w' temp, j ≠ i → dir.writers[j]? = some w' → w'.phase.temp? = some temp →
      w.phase.temp? ≠ some temp := fun j w' temp hj hw' htemp' htemp =>
    hj (h.distinct j i w' w temp hw' hw htemp' htemp)
  have hheld : ∀ w' ∈ dir.writers, ∀ temp, w'.phase.temp? = some temp → dir.files temp ≠ none := by
    intro w' hw' temp htemp
    cases hphase : w'.phase with
    | Write temp' rest =>
        rw [hphase] at htemp
        obtain rfl := Option.some.inj htemp
        obtain ⟨_, written, hwritten, _⟩ := h.owns w' hw' _ rest hphase
        rw [hwritten]
        exact Option.some_ne_none _
    | _ =>
        rw [hphase] at htemp
        cases htemp
  refine ⟨fun w' hw' => ?_, fun w' hw' => ?_, ?_, fun path hpath => ?_, fun r hr => ?_⟩
  · obtain ⟨j, hget⟩ := List.mem_iff_getElem?.mp hw'
    rcases hothers j w' hget with ⟨_, rfl⟩ | ⟨_, hget⟩
    · exact h.target w hmem
    · exact h.target w' (List.mem_of_getElem? hget)
  · obtain ⟨j, hget⟩ := List.mem_iff_getElem?.mp hw'
    rcases hothers j w' hget with ⟨_, rfl⟩ | ⟨hj, hget⟩
    · exact hspec.owns
    · intro temp rest hphase
      obtain ⟨htemp, written, hwritten, hdata⟩ := h.owns w' (List.mem_of_getElem? hget) temp rest hphase
      have htemp? : w'.phase.temp? = some temp := by rw [hphase, Phase.temp?]
      refine ⟨htemp, written, ?_, hdata⟩
      rw [← hwritten]
      refine hspec.temp temp htemp (hapart j w' temp hj hget htemp?) ?_
      rw [hwritten]
      exact Option.some_ne_none _
  · -- a new temporary file was not there before
    have hnew : ∀ (j : ℕ) w' temp, j ≠ i → dir.writers[j]? = some w' → w'.phase.temp? = some temp →
        phase.temp? ≠ some temp := by
      intro j w' temp hj hget htemp' htemp
      rcases hspec.fresh temp htemp with hold | hnone
      · exact hapart j w' temp hj hget htemp' hold
      · exact hheld w' (List.mem_of_getElem? hget) temp htemp' hnone
    intro j k w₁ w₂ temp hget hget' htemp htemp'
    rcases hothers j w₁ hget with ⟨rfl, rfl⟩ | ⟨hj, hold⟩
    · rcases hothers k w₂ hget' with ⟨rfl, _⟩ | ⟨hk, hold'⟩
      · rfl
      · exact absurd htemp (hnew k w₂ temp hk hold' htemp')
    · rcases hothers k w₂ hget' with ⟨rfl, rfl⟩ | ⟨hk, hold'⟩
      · exact absurd htemp' (hnew j w₁ temp hj hold htemp)
      · exact h.distinct j k w₁ w₂ temp hold hold' htemp htemp'
  · show files' path = contents initial (dir.renames ++ w.renamed act) path
    rw [hspec.files path hpath, contents_append]
    exact contents_congr (h.files path hpath) _
  · rcases List.mem_append.mp hr with hr | hr
    · obtain ⟨w', hw', heq⟩ := h.renames r hr
      obtain ⟨j, hget⟩ := List.mem_iff_getElem?.mp hw'
      by_cases hj : i = j
      · obtain rfl := hj
        obtain rfl := Option.some.inj (hw.symm.trans hget)
        exact ⟨_, List.mem_of_getElem? (List.getElem?_set_self hlt), heq⟩
      · exact ⟨w', List.mem_of_getElem? ((List.getElem?_set_ne hj).trans hget), heq⟩
    · refine ⟨_, List.mem_of_getElem? (List.getElem?_set_self hlt), ?_⟩
      cases act with
      | Rename => exact (List.mem_singleton.mp hr).symm
      | _ => exact absurd hr List.not_mem_nil

theorem Inv.step (h : dir.Inv IsTemp initial) {move : Move Path}
    (hstep : dir.step IsTemp move = some dir') : dir'.Inv IsTemp initial := by
  cases move with
  | Start target data =>
      rw [Directory.step] at hstep
      split_ifs at hstep with htarget
      obtain rfl := Option.some.inj hstep
      exact h.start htarget data
  | Act i act =>
      obtain ⟨w, hw, hstep⟩ := Option.bind_eq_some_iff.mp hstep
      obtain ⟨⟨files', phase⟩, hact, hdir⟩ := Option.bind_eq_some_iff.mp hstep
      obtain rfl := Option.some.inj hdir
      exact h.writer hw hact

/-- **An act, seen from outside.**  A rename puts all of the data in place, and nothing else changes a file
that is not a temporary one. -/
theorem Inv.act_files (h : dir.Inv IsTemp initial) {i : ℕ}
    (hstep : dir.step IsTemp (.Act i act) = some dir') :
    ∃ w phase, dir.writers[i]? = some w ∧ w.phase.isActive = true ∧
      dir'.writers = dir.writers.set i { w with phase } ∧
      (phase = .Renamed ∧ (∀ path, ¬ IsTemp path →
          dir'.files path = if path = w.target then some w.data else dir.files path) ∨
        phase ≠ .Renamed ∧ ∀ path, ¬ IsTemp path → dir'.files path = dir.files path) := by
  obtain ⟨w, hw, hstep⟩ := Option.bind_eq_some_iff.mp hstep
  obtain ⟨⟨files', phase⟩, hact, hdir⟩ := Option.bind_eq_some_iff.mp hstep
  obtain rfl := Option.some.inj hdir
  have hmem := List.mem_of_getElem? hw
  have hspec := Writer.act_spec (h.target w hmem) (h.owns w hmem) hact
  refine ⟨w, phase, hw, ?_, rfl, ?_⟩
  · rcases Writer.act_cases hact with ⟨_, _, hphase, _⟩ | ⟨_, _, _, _, hphase, _⟩ | ⟨_, _, hphase, _⟩ |
      hstopped
    · rw [hphase, Phase.isActive]
    · rw [hphase, Phase.isActive]
    · rw [hphase, Phase.isActive]
    · exact hstopped.1
  · rcases Writer.act_cases hact with ⟨_, rfl, _, _, _, _, rfl⟩ | ⟨_, _, _, rfl, _, _, rfl⟩ |
      ⟨_, rfl, _, _, rfl⟩ | ⟨_, hrenamed, rfl, _⟩
    · exact .inr ⟨fun heq => (by cases heq), fun path hpath => hspec.files path hpath⟩
    · exact .inr ⟨fun heq => (by cases heq), fun path hpath => hspec.files path hpath⟩
    · refine .inl ⟨rfl, fun path hpath => ?_⟩
      exact (hspec.files path hpath).trans (Function.update_apply _ _ _ _)
    · refine .inr ⟨fun heq => (by cases heq), fun path hpath => ?_⟩
      rw [hrenamed] at hspec
      exact hspec.files path hpath

/-- A writer that is killed stops. -/
theorem step_kill {i : ℕ} (h : dir.step IsTemp (.Act i .Kill) = some dir') :
    ∃ w, dir'.writers[i]? = some w ∧ w.phase = .Stopped := by
  obtain ⟨w, hw, hstep⟩ := Option.bind_eq_some_iff.mp h
  obtain ⟨⟨files', phase⟩, hact, hdir⟩ := Option.bind_eq_some_iff.mp hstep
  obtain rfl := Option.some.inj hdir
  obtain ⟨hlt, _⟩ := List.getElem?_eq_some_iff.mp hw
  refine ⟨_, List.getElem?_set_self hlt, ?_⟩
  rcases Writer.act_cases hact with ⟨_, heq, _⟩ | ⟨_, _, _, heq, _⟩ | ⟨_, heq, _⟩ | ⟨_, _, hphase, _⟩
  · cases heq
  · cases heq
  · cases heq
  · exact hphase

/-- A writer that cannot be killed is done. -/
theorem isActive_of_step_kill {i : ℕ} (h : dir.step IsTemp (.Act i .Kill) = none)
    (hw : dir.writers[i]? = some w) : w.phase.isActive = false := by
  cases hphase : w.phase with
  | Renamed | Stopped => rfl
  | _ => simp [Directory.step, hw, Writer.act, hphase] at h

end Directory

end IrohExperiments.AtomicReplace
