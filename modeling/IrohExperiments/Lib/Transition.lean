import Mathlib.Data.List.Induction
import Mathlib.Algebra.GroupWithZero.Nat

/-!
# Runs of labelled transition systems

A transition system is given by a partial step function `step : σ → ι → Option σ`.  The label of a
step stands for everything that the system does not decide itself: which party moves, what arrives,
how an operation of the environment turns out.  A label for which `step` is `none` is not enabled.

A **run** is a list of labels, each enabled in the state the ones before lead to.  A property of all
runs is a property of all lists of labels, so it is proved by induction on the list, and the
inductions are done here once:

* `run_induction`: a property of the labels so far and the state holds along every run;
* `run_invariant` and `run_invariant_of_conforms`: an invariant of the steps, or of those steps
  that a condition allows, holds in every state of a run;
* `run_related`: what no step takes back is not taken back by a run;
* `always_iff_conforms`: if the condition is exact for one step, it is exact for runs;
* `length_le_of_potential`: a potential that every step but the paid-for ones lowers bounds the
  length of the runs.

A system that keeps a trace of its events has properties of **histories**, which relate each event to
the ones before it.  `Always` is such a property of a whole trace, and `Always.concat` extends it by
an event.
-/

namespace IrohExperiments.Transition

variable {σ ι : Type*} {step : σ → ι → Option σ} {s s' : σ}

/-- Take the steps of a list of labels, one after the other. -/
def run (step : σ → ι → Option σ) (s : σ) (labels : List ι) : Option σ := labels.foldlM step s

@[simp] theorem run_nil (step : σ → ι → Option σ) (s : σ) : run step s [] = some s := rfl

@[simp] theorem run_cons (step : σ → ι → Option σ) (s : σ) (i : ι) (labels : List ι) :
    run step s (i :: labels) = (step s i).bind fun m => run step m labels := rfl

theorem run_append (step : σ → ι → Option σ) (s : σ) (labels labels' : List ι) :
    run step s (labels ++ labels') = (run step s labels).bind fun m => run step m labels' :=
  List.foldlM_append

theorem run_concat (step : σ → ι → Option σ) (s : σ) (labels : List ι) (i : ι) :
    run step s (labels ++ [i]) = (run step s labels).bind fun m => step m i := by
  rw [run_append]
  congr 1
  funext m
  rw [run_cons]
  cases step m i <;> rfl

theorem run_concat_eq_some {labels : List ι} {i : ι} :
    run step s (labels ++ [i]) = some s' ↔ ∃ m, run step s labels = some m ∧ step m i = some s' := by
  rw [run_concat, Option.bind_eq_some_iff]

/-- The first of a number of equal labels. -/
theorem run_replicate_succ {i : ι} {m : σ} (h : step s i = some m) (n : ℕ) :
    run step s (List.replicate (n + 1) i) = run step m (List.replicate n i) := by
  rw [List.replicate_succ, run_cons, h, Option.bind_some]

/-- If every label is enabled in every state, so is every list of them. -/
theorem exists_run {labels : List ι} (h : ∀ i ∈ labels, ∀ m, ∃ m', step m i = some m') (s : σ) :
    ∃ s', run step s labels = some s' := by
  induction labels generalizing s with
  | nil => exact ⟨s, rfl⟩
  | cons i labels ih =>
      obtain ⟨m, hm⟩ := h i List.mem_cons_self s
      obtain ⟨s', hs'⟩ := ih (fun j hj => h j (List.mem_cons_of_mem _ hj)) m
      refine ⟨s', ?_⟩
      rw [run_cons, hm, Option.bind_some, hs']

/-- **Induction on a run.**  A property of the labels taken so far and of the state they lead to
holds along every run if it holds at the start and every step keeps it. -/
theorem run_induction {P : List ι → σ → Prop} (init : P [] s)
    (next : ∀ labels m i m', run step s labels = some m → P labels m → step m i = some m' →
      P (labels ++ [i]) m')
    {labels : List ι} (h : run step s labels = some s') : P labels s' := by
  induction labels using List.reverseRecOn generalizing s' with
  | nil =>
      rw [run_nil, Option.some.injEq] at h
      exact h ▸ init
  | append_singleton labels i ih =>
      obtain ⟨m, hm, hstep⟩ := run_concat_eq_some.mp h
      exact next labels m i s' hm (ih hm) hstep

/-- **The invariant rule.** -/
theorem run_invariant {I : σ → Prop} (init : I s)
    (next : ∀ m i m', I m → step m i = some m' → I m')
    {labels : List ι} (h : run step s labels = some s') : I s' :=
  run_induction (P := fun _ m => I m) init (fun _ m i m' _ hm hstep => next m i m' hm hstep) h

/-- **What never goes back.**  A preorder that every step respects holds between the two ends of a
run. -/
theorem run_related {R : σ → σ → Prop} (refl : ∀ m, R m m)
    (trans : ∀ {a b c}, R a b → R b c → R a c) (next : ∀ m i m', step m i = some m' → R m m')
    {labels : List ι} (h : run step s labels = some s') : R s s' :=
  run_invariant (I := R s) (refl s) (fun m i m' hm hstep => trans hm (next m i m' hstep)) h

/-! ## Runs with one label -/

section Leads

variable {i : ι} {goal : σ → Prop}

/-- So many steps with the label lead to the goal. -/
def Leads (step : σ → ι → Option σ) (i : ι) (goal : σ → Prop) (n : ℕ) (s : σ) : Prop :=
  ∃ s', run step s (List.replicate n i) = some s' ∧ goal s'

theorem leads_succ_iff {m : σ} (h : step s i = some m) (n : ℕ) :
    Leads step i goal (n + 1) s ↔ Leads step i goal n m := by
  rw [Leads, Leads, run_replicate_succ h]

/-- A system that is stuck before the goal does not get there. -/
theorem not_leads_of_stuck (hstuck : step s i = none) (hgoal : ¬ goal s) (n : ℕ) :
    ¬ Leads step i goal n s := by
  rintro ⟨s', hrun, hs'⟩
  cases n with
  | zero =>
      cases hrun
      exact hgoal hs'
  | succ n =>
      rw [List.replicate_succ, run_cons, hstuck] at hrun
      cases hrun

end Leads

/-! ## Runs whose steps all meet a condition -/

/-- Every step of the run is taken in a state that allows its label. -/
def Conforms (step : σ → ι → Option σ) (ok : σ → ι → Prop) : σ → List ι → Prop
  | _, [] => True
  | s, i :: labels => ok s i ∧ ∀ m ∈ step s i, Conforms step ok m labels

instance Conforms.decidable {ok : σ → ι → Prop} [∀ s i, Decidable (ok s i)] :
    (s : σ) → (labels : List ι) → Decidable (Conforms step ok s labels)
  | _, [] => .isTrue trivial
  | s, i :: labels =>
      have : ∀ m, Decidable (Conforms step ok m labels) := fun m => Conforms.decidable m labels
      inferInstanceAs (Decidable (ok s i ∧ ∀ m ∈ step s i, Conforms step ok m labels))

/-- A condition on the labels alone. -/
theorem conforms_of_forall {ok : σ → ι → Prop} {labels : List ι}
    (h : ∀ i ∈ labels, ∀ m, ok m i) : Conforms step ok s labels := by
  induction labels generalizing s with
  | nil => trivial
  | cons i labels ih =>
      exact ⟨h i List.mem_cons_self s, fun m _ => ih fun j hj => h j (List.mem_cons_of_mem _ hj)⟩

/-- **One more label.** -/
theorem conforms_concat_iff {ok : σ → ι → Prop} {labels : List ι} {i : ι} :
    Conforms step ok s (labels ++ [i])
      ↔ Conforms step ok s labels ∧ ∀ m ∈ run step s labels, ok m i := by
  induction labels generalizing s with
  | nil => simp [Conforms]
  | cons j labels ih =>
      rw [List.cons_append, Conforms, Conforms, run_cons, and_assoc]
      refine and_congr_right fun _ => ?_
      constructor
      · intro h
        refine ⟨fun m hm => (ih.mp (h m hm)).1, fun m hm => ?_⟩
        obtain ⟨m', hm', hrun⟩ := Option.bind_eq_some_iff.mp hm
        exact (ih.mp (h m' hm')).2 m hrun
      · intro h m hm
        refine ih.mpr ⟨h.1 m hm, fun m' hm' => h.2 m' ?_⟩
        exact Option.bind_eq_some_iff.mpr ⟨m, hm, hm'⟩

/-- **More labels.** -/
theorem conforms_append_iff {ok : σ → ι → Prop} {labels labels' : List ι} :
    Conforms step ok s (labels ++ labels')
      ↔ Conforms step ok s labels ∧ ∀ m ∈ run step s labels, Conforms step ok m labels' := by
  induction labels' using List.reverseRecOn with
  | nil => simp [Conforms]
  | append_singleton labels' i ih =>
      rw [← List.append_assoc, conforms_concat_iff, ih, run_append, and_assoc]
      refine and_congr_right fun _ => ?_
      constructor
      · rintro ⟨hconforms, hlast⟩ m hm
        refine conforms_concat_iff.mpr ⟨hconforms m hm, fun m' hm' => hlast m' ?_⟩
        exact Option.bind_eq_some_iff.mpr ⟨m, hm, hm'⟩
      · intro h
        refine ⟨fun m hm => (conforms_concat_iff.mp (h m hm)).1, fun m' hm' => ?_⟩
        obtain ⟨m, hm, hrun⟩ := Option.bind_eq_some_iff.mp hm'
        exact (conforms_concat_iff.mp (h m hm)).2 m' hrun

/-- The invariant rule for steps that meet a condition. -/
theorem run_invariant_of_conforms {ok : σ → ι → Prop} {I : σ → Prop} (init : I s)
    (next : ∀ m i m', I m → ok m i → step m i = some m' → I m')
    {labels : List ι} (hok : Conforms step ok s labels) (h : run step s labels = some s') :
    I s' := by
  have hrun : Conforms step ok s labels → I s' := by
    refine run_induction (P := fun labels m => Conforms step ok s labels → I m)
      (fun _ => init) ?_ h
    intro labels m i m' hm ih hstep hok
    obtain ⟨hlabels, hlast⟩ := conforms_concat_iff.mp hok
    exact next m i m' (ih hlabels) (hlast m hm) hstep
  exact hrun hok

/-- **The condition is exact.**  If a step from a state with the property leads to one with the
property exactly when the condition allows it, then the runs that have the property all the way are
the runs that conform. -/
theorem always_iff_conforms {ok : σ → ι → Prop} {I : σ → Prop} {labels : List ι} (init : I s)
    (next : ∀ m, ∀ i ∈ labels, ∀ m', I m → step m i = some m' → (I m' ↔ ok m i))
    (h : run step s labels = some s') :
    (∀ earlier later, labels = earlier ++ later → ∀ m, run step s earlier = some m → I m)
      ↔ Conforms step ok s labels := by
  induction labels generalizing s with
  | nil =>
      refine iff_of_true (fun earlier later hlabels m hm => ?_) trivial
      obtain ⟨rfl, _⟩ := List.append_eq_nil_iff.mp hlabels.symm
      cases hm
      exact init
  | cons i labels ih =>
      obtain ⟨m, hstep, hrun⟩ := Option.bind_eq_some_iff.mp h
      have hnext := fun m i hi => next m i (List.mem_cons_of_mem _ hi)
      constructor
      · intro hall
        have hm : I m := hall [i] labels rfl m (by rw [run_cons, hstep]; rfl)
        refine ⟨(next s i List.mem_cons_self m init hstep).mp hm, fun m' hm' => ?_⟩
        obtain rfl := Option.mem_unique hstep hm'
        refine (ih hm hnext hrun).mp fun earlier later hlabels m' hm' => ?_
        refine hall (i :: earlier) later (by rw [hlabels]; rfl) m' ?_
        rw [run_cons, hstep, Option.bind_some, hm']
      · rintro ⟨hok, hconforms⟩ earlier later hlabels m' hm'
        cases earlier with
        | nil =>
            cases hm'
            exact init
        | cons j earlier =>
            obtain ⟨rfl, rfl⟩ := List.cons.inj hlabels
            rw [run_cons, hstep, Option.bind_some] at hm'
            have hm : I m := (next s i List.mem_cons_self m init hstep).mpr hok
            exact (ih hm hnext hrun).mpr (hconforms m hstep) earlier later rfl m' hm'

/-! ## Bounds on the length of a run -/

/-- **Termination with a budget.**  If every step lowers the potential, except that a label may pay
for a rise with its cost, then a run is no longer than the potential at its start and the costs of
its labels together. -/
theorem length_le_of_potential (potential : σ → ℕ) (cost : ι → ℕ) {I : σ → Prop} (init : I s)
    (next : ∀ m i m', I m → step m i = some m' → I m' ∧ potential m' + 1 ≤ potential m + cost i)
    {labels : List ι} (h : run step s labels = some s') :
    labels.length ≤ potential s + (labels.map cost).sum := by
  have hbound : I s' ∧ labels.length + potential s' ≤ potential s + (labels.map cost).sum := by
    refine run_induction (P := fun labels m =>
      I m ∧ labels.length + potential m ≤ potential s + (labels.map cost).sum) ⟨init, by simp⟩ ?_ h
    intro labels m i m' _ hm hstep
    obtain ⟨hinv, hpot⟩ := next m i m' hm.1 hstep
    refine ⟨hinv, ?_⟩
    have hlabels := hm.2
    simp only [List.length_append, List.length_singleton, List.map_append, List.map_cons,
      List.map_nil, List.sum_append_nat, List.sum_cons, List.sum_nil]
    omega
  omega

/-! ## Histories -/

section Histories

variable {ε : Type*} {P : List ε → ε → Prop} {trace : List ε} {e : ε}

/-- Each event of the trace is related to the events before it. -/
def Always (P : List ε → ε → Prop) (trace : List ε) : Prop :=
  ∀ earlier e later, trace = earlier ++ e :: later → P earlier e

theorem Always.nil : Always P [] := fun _ _ _ heq =>
  absurd heq.symm (List.append_ne_nil_of_right_ne_nil _ (List.cons_ne_nil _ _))

/-- **One more event.** -/
theorem Always.concat (h : Always P trace) (he : P trace e) : Always P (trace ++ [e]) := by
  intro earlier e' later heq
  rcases List.eq_nil_or_concat later with rfl | ⟨later', last, rfl⟩
  · obtain ⟨htrace, hlast⟩ := List.append_inj' heq rfl
    cases hlast
    exact htrace ▸ he
  · have hinit : trace ++ [e] = (earlier ++ e' :: later') ++ [last] := by
      rw [heq, List.append_assoc, List.cons_append, List.concat_eq_append]
    obtain ⟨htrace, _⟩ := List.append_inj' hinit rfl
    exact h earlier e' later' htrace

end Histories

end IrohExperiments.Transition
