import Mathlib.Logic.Relation

/-!
# Guarded runs of a transition system

`System.Reach ok` are the states reached by runs all of whose steps meet the guard `ok`,
a condition on the state before the step and on its label.
-/

namespace GuardedRun

/-- A transition system with labelled steps. -/
structure System (State Label : Type*) where
  init : State → Prop
  step : State → Label → State → Prop

namespace System

variable {State Label : Type*} {T : System State Label} {ok ok' : State → Label → Prop}
variable {s s' : State} {a : Label}

/-- The states reached by runs whose steps all meet the guard. -/
inductive Reach (T : System State Label) (ok : State → Label → Prop) : State → Prop where
  | init {s : State} : T.init s → Reach T ok s
  /-- A run goes on with a step that meets the guard. -/
  | step {s s' : State} {a : Label} : Reach T ok s → ok s a → T.step s a s' → Reach T ok s'

/-- The invariant rule: what holds initially and is kept by guarded steps holds in every state
reached. -/
theorem Reach.invariant {I : State → Prop} (hinit : ∀ s, T.init s → I s)
    (hstep : ∀ s a s', I s → ok s a → T.step s a s' → I s') (h : T.Reach ok s) : I s := by
  induction h with
  | init hs => exact hinit _ hs
  | step _ hok hs ih => exact hstep _ _ _ ih hok hs

/-- Runs under a guard are runs under a weaker one. -/
theorem Reach.mono (h : T.Reach ok s) (hok : ∀ s a, ok s a → ok' s a) : T.Reach ok' s := by
  induction h with
  | init hinit => exact .init hinit
  | step _ hstep hone ih => exact .step ih (hok _ _ hstep) hone

/-- `s'` comes after `s`, by steps that all meet the guard. -/
def Later (T : System State Label) (ok : State → Label → Prop) : State → State → Prop :=
  Relation.ReflTransGen fun s s' => ∃ a, ok s a ∧ T.step s a s'

/-- The rule for preorders: what every step respects is respected by what comes after. -/
theorem Later.rule {I : State → Prop} {R : State → State → Prop} (hrefl : ∀ s, R s s)
    (htrans : ∀ {s s' s''}, R s s' → R s' s'' → R s s'')
    (hstep : ∀ s a s', I s → ok s a → T.step s a s' → I s' ∧ R s s') (hs : I s)
    (h : T.Later ok s s') : I s' ∧ R s s' := by
  induction h with
  | refl => exact ⟨hs, hrefl s⟩
  | tail _ hlast ih =>
    obtain ⟨a, hok, hone⟩ := hlast
    obtain ⟨hI, hR⟩ := hstep _ a _ ih.1 hok hone
    exact ⟨hI, htrans ih.2 hR⟩

/-- Executes labels as long as the check passes. -/
def run (next : State → Label → Option State) (check : State → Label → Bool) :
    State → List Label → Option State
  | s, [] => some s
  | s, a :: as => if check s a then (next s a).bind (run next check · as) else none

/-- An executed run reaches the state it ends in. -/
theorem Reach.of_run {next : State → Label → Option State} {check : State → Label → Bool}
    (hnext : ∀ s a s', next s a = some s' → T.step s a s')
    (hcheck : ∀ s a, check s a = true → ok s a) :
    ∀ {as : List Label} {s s' : State}, T.Reach ok s → run next check s as = some s' →
      T.Reach ok s'
  | [], s, s', hs, h => by
    rw [run, Option.some.injEq] at h
    exact h ▸ hs
  | a :: as, s, s', hs, h => by
    rw [run] at h
    split at h
    · rename_i ha
      obtain ⟨s₁, h₁, h⟩ := Option.bind_eq_some_iff.mp h
      exact Reach.of_run hnext hcheck (.step hs (hcheck s a ha) (hnext s a s₁ h₁)) h
    · cases h

end System
end GuardedRun
