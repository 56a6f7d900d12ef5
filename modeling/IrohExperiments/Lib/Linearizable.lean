import IrohExperiments.Lib.Transition

/-!
# Calls that take effect at one point

Clients call a server, and their calls overlap.  A history has an event for each call that is invoked, for
each effect on the server, and for each call that returns, with an answer or without one.

The history is linearizable if a call takes effect at most once, after it was invoked, and if the answer it
returns with is the one it got there.  A call that returns without an answer may have had its effect, and may
have it later.  So may a call whose answer tells nothing: those are *excused*.

What one knows of the calls then is what one knows of the effects, one after the other.  The order of these
is the one that clients see: `Linearizable.effect_before` says that a call which has returned with an answer
takes effect before all calls that are invoked after that.
-/

namespace IrohExperiments

open Transition

/-- A server that deals with one effect after the other. -/
structure SerialServer (σ ι ε α : Type*) where
  start : σ
  apply : σ → ε → Option σ
  /-- The effects that a call may have. -/
  asks : ι → ε → Prop
  /-- What a call returns that takes effect in this state. -/
  answers : σ → ε → α → Prop

namespace SerialServer

inductive CallEvent (ι ε α : Type*) where
  | Invoke (call : ι)
  /-- An effect of a call, or one that is the server's own. -/
  | Effect (call : Option ι) (effect : ε)
  | Return (call : ι) (answer : Option α)
  deriving DecidableEq

variable {σ ι ε α : Type*}

/-- The effects in a history. -/
def effects (history : List (CallEvent ι ε α)) : List ε :=
  history.filterMap fun
    | .Effect _ effect => some effect
    | _ => none

theorem effects_append (earlier later : List (CallEvent ι ε α)) :
    effects (earlier ++ later) = effects earlier ++ effects later := List.filterMap_append

/-- The state of the server after a history. -/
def after (server : SerialServer σ ι ε α) (history : List (CallEvent ι ε α)) : Option σ :=
  run server.apply server.start (effects history)

/-- An event that is not an effect does not change the state. -/
theorem after_concat_of_ne (server : SerialServer σ ι ε α) (history : List (CallEvent ι ε α)) {e : CallEvent ι ε α}
    (he : effects [e] = []) : server.after (history ++ [e]) = server.after history := by
  rw [after, effects_append, he, List.append_nil, after]

theorem after_concat_effect (server : SerialServer σ ι ε α) (history : List (CallEvent ι ε α)) (call : Option ι)
    (effect : ε) : server.after (history ++ [.Effect call effect])
      = (server.after history).bind fun s => server.apply s effect := by
  rw [after, effects_append]
  exact run_concat _ _ _ _

/-- The call has taken effect, in a state and with an effect that have a property. -/
def Took (server : SerialServer σ ι ε α) (history : List (CallEvent ι ε α)) (call : ι) (P : σ → ε → Prop) : Prop :=
  ∃ earlier effect later s, history = earlier ++ .Effect (some call) effect :: later ∧
    server.after earlier = some s ∧ P s effect

variable {server : SerialServer σ ι ε α} {history earlier later : List (CallEvent ι ε α)} {call other : ι}
  {P Q : σ → ε → Prop}

theorem Took.append (h : server.Took history call P) (more : List (CallEvent ι ε α)) :
    server.Took (history ++ more) call P := by
  obtain ⟨earlier, effect, later, s, rfl, hrest⟩ := h
  exact ⟨earlier, effect, later ++ more, s, by rw [List.append_assoc, List.cons_append], hrest⟩

theorem Took.mono (h : server.Took history call P) (hPQ : ∀ s effect, P s effect → Q s effect) :
    server.Took history call Q := by
  obtain ⟨earlier, effect, later, s, hhistory, hs, hP⟩ := h
  exact ⟨earlier, effect, later, s, hhistory, hs, hPQ s effect hP⟩

/-- What an event has to do with the events before it, except for what an excused call returns with. -/
def Orderly (server : SerialServer σ ι ε α) (excused : ι → Prop) (earlier : List (CallEvent ι ε α)) :
    CallEvent ι ε α → Prop
  | .Invoke call => .Invoke call ∉ earlier
  | .Effect call effect =>
      (∃ s s', server.after earlier = some s ∧ server.apply s effect = some s') ∧
        ∀ c, call = some c → server.asks c effect ∧ .Invoke c ∈ earlier ∧
          ∀ effect', .Effect (some c) effect' ∉ earlier
  | .Return call answer =>
      .Invoke call ∈ earlier ∧ (∀ answer', .Return call answer' ∉ earlier) ∧
        ∀ a, answer = some a → excused call ∨ server.Took earlier call fun s effect => server.answers s effect a

/-- **Each call takes effect at one point** between its invocation and its return with an answer, if it is not
excused. -/
def Linearizable (server : SerialServer σ ι ε α) (excused : ι → Prop) (history : List (CallEvent ι ε α)) : Prop :=
  Always (server.Orderly excused) history

variable {excused excused' : ι → Prop}

namespace Linearizable

/-- More calls may be excused. -/
theorem mono (h : server.Linearizable excused history) (hsub : ∀ call, excused call → excused' call) :
    server.Linearizable excused' history := by
  intro earlier e later heq
  have horder := h earlier e later heq
  cases e with
  | Invoke call => exact horder
  | Effect call effect => exact horder
  | Return call answer =>
      exact ⟨horder.1, horder.2.1, fun a ha => (horder.2.2 a ha).imp_left (hsub call)⟩

/-- A call that has returned with an answer got it where it took effect. -/
theorem took (h : server.Linearizable excused history) {a : α}
    (heq : history = earlier ++ .Return call (some a) :: later) (hcall : ¬ excused call) :
    server.Took earlier call fun s effect => server.answers s effect a :=
  ((h earlier _ later heq).2.2 a rfl).resolve_left hcall

theorem invoke_of_effect (h : server.Linearizable excused history) {effect : ε}
    (hmem : .Effect (some call) effect ∈ history) : .Invoke call ∈ history := by
  obtain ⟨earlier, later, rfl⟩ := List.append_of_mem hmem
  exact List.mem_append_left _ ((h earlier _ later rfl).2 call rfl).2.1

theorem invoke_of_return (h : server.Linearizable excused history) {answer : Option α}
    (hmem : .Return call answer ∈ history) : .Invoke call ∈ history := by
  obtain ⟨earlier, later, rfl⟩ := List.append_of_mem hmem
  exact List.mem_append_left _ (h earlier _ later rfl).1

/-- An effect is one that its call asks for. -/
theorem asks (h : server.Linearizable excused history) {effect : ε}
    (heq : history = earlier ++ .Effect (some call) effect :: later) : server.asks call effect :=
  ((h earlier _ later heq).2 call rfl).1

/-- A call has no other effect. -/
theorem effect_once (h : server.Linearizable excused history) {effect : ε}
    (heq : history = earlier ++ .Effect (some call) effect :: later) (effect' : ε) :
    .Effect (some call) effect' ∉ earlier ∧ .Effect (some call) effect' ∉ later := by
  refine ⟨((h earlier _ later heq).2 call rfl).2.2 effect', fun hmem => ?_⟩
  obtain ⟨before, rest, rfl⟩ := List.append_of_mem hmem
  have horder := h (earlier ++ .Effect (some call) effect :: before) _ rest
    (by rw [heq, List.append_assoc, List.cons_append])
  exact (horder.2 call rfl).2.2 effect (List.mem_append_right _ List.mem_cons_self)

/-- Nothing happens to a call before it is invoked. -/
theorem effect_of_invoke (h : server.Linearizable excused history)
    (heq : history = earlier ++ .Invoke call :: later) {effect : ε}
    (heffect : .Effect (some call) effect ∈ history) : .Effect (some call) effect ∈ later := by
  rw [heq] at heffect
  rcases List.mem_append.mp heffect with hmem | hmem
  · obtain ⟨before, rest, rfl⟩ := List.append_of_mem hmem
    have hsplit : history =
        before ++ CallEvent.Effect (some call) effect :: (rest ++ CallEvent.Invoke call :: later) := by
      rw [heq, List.append_assoc, List.cons_append]
    have hinvoked : CallEvent.Invoke call ∈ before := ((h before _ _ hsplit).2 call rfl).2.1
    exact absurd (List.mem_append_left _ hinvoked) (h _ _ later heq)
  · exact (List.mem_cons.mp hmem).resolve_left fun heq => by cases heq

/-- **The order of the effects is the one that clients see.** -/
theorem effect_before (h : server.Linearizable excused history) {a : α}
    (heq : history = earlier ++ .Return call (some a) :: later) (hcall : ¬ excused call)
    (hinvoke : .Invoke other ∈ later) {effect : ε}
    (heffect : .Effect (some other) effect ∈ history) :
    server.Took earlier call (fun s effect => server.answers s effect a) ∧
      .Effect (some other) effect ∈ later := by
  refine ⟨h.took heq hcall, ?_⟩
  obtain ⟨before, rest, rfl⟩ := List.append_of_mem hinvoke
  have hsplit : history = (earlier ++ .Return call (some a) :: before) ++ .Invoke other :: rest := by
    rw [heq, List.append_assoc, List.cons_append]
  have hmem := h.effect_of_invoke hsplit heffect
  exact List.mem_append_right _ (List.mem_cons_of_mem _ hmem)

/-- There is only one place where a call takes effect. -/
theorem effect_split (h : server.Linearizable excused history)
    {earlier' later' : List (CallEvent ι ε α)} {effect effect' : ε}
    (heq : history = earlier ++ .Effect (some call) effect :: later)
    (heq' : history = earlier' ++ .Effect (some call) effect' :: later') : earlier = earlier' := by
  rcases List.append_eq_append_iff.mp (heq.symm.trans heq') with ⟨x, rfl, hx⟩ | ⟨x, rfl, hx⟩
  · cases x with
    | nil => exact (List.append_nil _).symm
    | cons e x =>
        obtain ⟨rfl, _⟩ := List.cons.inj hx
        exact absurd (List.mem_append_right _ List.mem_cons_self) (h.effect_once heq' effect).1
  · cases x with
    | nil => exact List.append_nil _
    | cons e x =>
        obtain ⟨rfl, _⟩ := List.cons.inj hx
        exact absurd (List.mem_append_right _ List.mem_cons_self) (h.effect_once heq effect').1

/-- **What a later call sees.**  If a call is invoked after another one has returned with an answer, and neither
is excused, then the state where it takes effect is one to which the effect of the other one has led. -/
theorem sees (h : server.Linearizable excused history) {a b : α}
    (heq : history = earlier ++ .Return call (some a) :: later) (hinvoke : .Invoke other ∈ later)
    (hreturn : .Return other (some b) ∈ history) (hcall : ¬ excused call) (hother : ¬ excused other) :
    ∃ before effect between effect' rest s s',
      effects history = before ++ effect :: (between ++ effect' :: rest) ∧
      run server.apply server.start before = some s ∧ server.asks call effect ∧ server.answers s effect a ∧
      run server.apply s (effect :: between) = some s' ∧ .Effect (some other) effect' ∈ history ∧
      server.asks other effect' ∧ server.answers s' effect' b := by
  obtain ⟨m₁, effect, m₂, s, rfl, hs, ha⟩ := h.took heq hcall
  obtain ⟨l₁, l₂, hsplit⟩ := List.append_of_mem hreturn
  obtain ⟨n₁, effect', n₂, s', rfl, hs', hb⟩ := h.took hsplit hother
  rw [List.append_assoc, List.cons_append] at hsplit
  -- the effect of the other call is in the later part
  have hmem : CallEvent.Effect (some other) effect' ∈ later := by
    refine (h.effect_before heq hcall hinvoke ?_).2
    rw [hsplit]
    exact List.mem_append_right _ List.mem_cons_self
  obtain ⟨k₁, k₂, rfl⟩ := List.append_of_mem hmem
  have hsplit' : history = m₁ ++ .Effect (some call) effect :: (m₂ ++ .Return call (some a) :: k₁)
      ++ .Effect (some other) effect' :: k₂ := by
    rw [heq]
    simp only [List.append_assoc, List.cons_append]
  obtain rfl := h.effect_split hsplit hsplit'
  rw [List.append_assoc] at heq
  refine ⟨effects m₁, effect, effects (m₂ ++ .Return call (some a) :: k₁), effect', effects k₂, s, s', ?_, hs,
    h.asks heq, ha, ?_, ?_, h.asks hsplit', hb⟩
  · rw [hsplit', effects_append, effects_append, List.append_assoc]
    rfl
  · unfold after at hs hs'
    rw [effects_append, run_append, hs, Option.bind_some] at hs'
    exact hs'
  · rw [hsplit']
    exact List.mem_append_right _ List.mem_cons_self

end Linearizable

end SerialServer

end IrohExperiments
