import Mathlib.Data.Set.Function
import Mathlib.Data.List.Induction
import Mathlib.Logic.Function.Basic
import Mathlib.Order.Defs.LinearOrder

/-!
# Registers that keep the latest value

A register holds one value, or none, and it is written with a rule: a value replaces the one before
only if its time is later.  So after any writes the register holds a latest value of all that it ever
held or was written (`IsLatest`).

`writeAt` is a write to one register of a family.  After any list of writes each register of the family
is the latest of its own (`isLatest_foldl`).  If no two values of a register have the same time there
is only one latest, and then neither the order of the writes nor their repetition makes a difference
(`foldl_writeAt_eq`).
-/

namespace IrohExperiments.Register

variable {V T : Type*} [LinearOrder T] {time : V → T} {values : Set V} {r r' : Option V}

/-- What a register holds after a value was written to it. -/
def write (time : V → T) (v : V) : Option V → Option V
  | some prev => if time prev < time v then some v else some prev
  | none => some v

/-- The register holds a latest one of the values, if there is any. -/
structure IsLatest (time : V → T) (values : Set V) (r : Option V) : Prop where
  mem : ∀ v ∈ r, v ∈ values
  latest : ∀ v ∈ values, ∃ w ∈ r, time v ≤ time w

theorem IsLatest.refl (time : V → T) (r : Option V) : IsLatest time {v | v ∈ r} r where
  mem _ hv := hv
  latest v hv := ⟨v, hv, le_refl _⟩

/-- **The step**: a write adds its value. -/
theorem IsLatest.write (h : IsLatest time values r) (v : V) :
    IsLatest time (insert v values) (Register.write time v r) := by
  cases r with
  | none =>
      refine ⟨fun w hw => ?_, fun w hw => ⟨v, rfl, ?_⟩⟩
      · exact Or.inl (Option.some.inj hw).symm
      · rcases hw with rfl | hw
        · exact le_refl _
        · obtain ⟨u, hu, _⟩ := h.latest w hw
          exact absurd hu (Option.not_mem_none u)
  | some prev =>
      have hprev : ∀ w ∈ values, time w ≤ time prev := by
        intro w hw
        obtain ⟨u, hu, hle⟩ := h.latest w hw
        rwa [← Option.some.inj hu] at hle
      rw [Register.write]
      split_ifs with hlater
      · refine ⟨fun w hw => Or.inl (Option.some.inj hw).symm, fun w hw => ⟨v, rfl, ?_⟩⟩
        rcases hw with rfl | hw
        · exact le_refl _
        · exact (hprev w hw).trans hlater.le
      · refine ⟨fun w hw => Or.inr (h.mem w hw), fun w hw => ⟨prev, rfl, ?_⟩⟩
        rcases hw with rfl | hw
        · exact not_lt.mp hlater
        · exact hprev w hw

/-- **There is one latest value**, if the times differ. -/
theorem IsLatest.unique (h : IsLatest time values r) (h' : IsLatest time values r')
    (htime : values.InjOn time) : r = r' := by
  have hsome : ∀ {r r' : Option V}, IsLatest time values r → IsLatest time values r' →
      ∀ v ∈ r, v ∈ r' := by
    intro r r' h h' v hv
    obtain ⟨w, hw, hvw⟩ := h'.latest v (h.mem v hv)
    obtain ⟨u, hu, hwu⟩ := h.latest w (h'.mem w hw)
    obtain rfl := Option.mem_unique hu hv
    rwa [htime (h.mem _ hv) (h'.mem w hw) (le_antisymm hvw hwu)]
  exact Option.ext fun v => ⟨hsome h h' v, hsome h' h v⟩

/-! ## Families of registers -/

section Families

variable {K : Type*} [DecidableEq K]

/-- Write a value to the register of a key. -/
def writeAt (time : V → T) (m : K → Option V) (w : K × V) : K → Option V :=
  Function.update m w.1 (write time w.2 (m w.1))

/-- What the register of a key held at the start, or was written. -/
def history (m : K → Option V) (writes : List (K × V)) (k : K) : Set V :=
  {v | v ∈ m k ∨ (k, v) ∈ writes}

/-- **The run**: after a list of writes, each register is the latest of its history. -/
theorem isLatest_foldl (time : V → T) (m : K → Option V) (writes : List (K × V)) (k : K) :
    IsLatest time (history m writes k) (writes.foldl (writeAt time) m k) := by
  induction writes using List.reverseRecOn with
  | nil =>
      have hhistory : history m [] k = {v | v ∈ m k} := by simp [history]
      rw [hhistory]
      exact IsLatest.refl time (m k)
  | append_singleton writes w ih =>
      obtain ⟨k', v⟩ := w
      simp only [List.foldl_append, List.foldl_cons, List.foldl_nil, writeAt]
      by_cases hk : k = k'
      · subst hk
        have hhistory : history m (writes ++ [(k, v)]) k = insert v (history m writes k) := by
          ext u
          simp only [history, List.mem_append, List.mem_singleton, Prod.mk.injEq, true_and,
            Set.mem_ofPred_eq, Set.mem_insert_iff]
          tauto
        rw [hhistory, Function.update_self]
        exact ih.write v
      · have hhistory : history m (writes ++ [(k', v)]) k = history m writes k := by
          ext u
          simp [history, hk]
        rw [hhistory, Function.update_of_ne hk]
        exact ih

/-- **Order and repetition do not matter**: lists of the same writes have the same outcome. -/
theorem foldl_writeAt_eq {m : K → Option V} {writes writes' : List (K × V)}
    (hsame : ∀ w, w ∈ writes ↔ w ∈ writes') (htime : ∀ k, (history m writes k).InjOn time) :
    writes.foldl (writeAt time) m = writes'.foldl (writeAt time) m := by
  funext k
  have hhistory : history m writes' k = history m writes k := by
    ext v
    simp [history, hsame]
  exact (isLatest_foldl time m writes k).unique (hhistory ▸ isLatest_foldl time m writes' k) (htime k)

end Families

end IrohExperiments.Register
