import Mathlib.Logic.Basic

/-!
# Calls with fuel

A call that may not return is modelled with a bound on its loops, and `stop` is the
error of a bound that was too small. `LoopsOnly` is compositional: a call put together
from calls that loop under a condition only is one of them.
-/

namespace Fuelled

variable {ε α β : Type*} {stop : ε} {f : Nat → Except ε α} {g : Nat → α → Except ε β}

/-- More fuel changes nothing once the call has returned. -/
def Stable (stop : ε) (f : Nat → Except ε α) : Prop :=
  ∀ n m, n ≤ m → f n = .error stop ∨ f m = f n

/-- The call does not return, whatever the fuel. -/
def Loops (stop : ε) (f : Nat → Except ε α) : Prop := ∀ n, f n = .error stop

theorem not_loops_iff : ¬Loops stop f ↔ ∃ n, f n ≠ .error stop := by
  simp only [Loops, not_forall, ne_eq]

/-- A stable call that loops under a condition only. -/
structure LoopsOnly (stop : ε) (cause : Prop) (f : Nat → Except ε α) : Prop where
  stable : Stable stop f
  loops : Loops stop f → cause

namespace Stable

/-- With more fuel a call that has returned returns the same. -/
theorem eq_of_le (hf : Stable stop f) {n m : Nat} (hle : n ≤ m) (hn : f n ≠ .error stop) :
    f m = f n :=
  (hf n m hle).resolve_left hn

/-- With another amount of fuel the call returns the same, or not yet. -/
theorem stop_or_eq (hf : Stable stop f) {n : Nat} {a : α} (hn : f n = .ok a) (m : Nat) :
    f m = .error stop ∨ f m = .ok a := by
  rcases Nat.le_total n m with hle | hle
  · refine .inr ((hf.eq_of_le hle ?_).trans hn)
    rw [hn]
    exact nofun
  · exact (hf m n hle).imp_right fun hsame => hsame.symm.trans hn

end Stable

namespace LoopsOnly

variable {cause cause' : Prop}

theorem const {x : Except ε α} (hx : x ≠ .error stop) : LoopsOnly stop cause fun _ => x :=
  ⟨fun _ _ _ => .inr rfl, fun h => absurd (h 0) hx⟩

theorem mono (hf : LoopsOnly stop cause f) (h : cause → cause') : LoopsOnly stop cause' f :=
  ⟨hf.stable, fun hloops => h (hf.loops hloops)⟩

theorem ite {c : Prop} [Decidable c] {f' : Nat → Except ε α} (hf : LoopsOnly stop cause f)
    (hf' : LoopsOnly stop cause f') :
    LoopsOnly stop cause fun n => if c then f n else f' n := by
  by_cases hc : c
  · simpa only [hc, if_true] using hf
  · simpa only [hc, if_false] using hf'

/-- A sequence of two calls loops in the first one, or in the second after what the first
returns. -/
theorem bind (hf : LoopsOnly stop cause f)
    (hg : ∀ n a, f n = .ok a → LoopsOnly stop cause fun m => g m a) :
    LoopsOnly stop cause fun n => (f n).bind (g n) := by
  refine ⟨fun n m hle => ?_, fun hloops => ?_⟩
  · rcases hf.stable n m hle with hstop | hsame
    · exact .inl (by simp only [hstop, Except.bind])
    · cases hn : f n with
      | error e => exact .inr (by simp only [hsame, hn, Except.bind])
      | ok a =>
        simp only [hsame, hn, Except.bind]
        exact (hg n a hn).stable n m hle
  · by_cases hfirst : Loops stop f
    · exact hf.loops hfirst
    obtain ⟨n, hn⟩ := not_loops_iff.mp hfirst
    have hbind := hloops n
    simp only at hbind
    cases hfn : f n with
    | error e =>
      rw [hfn] at hn hbind
      exact absurd (congrArg Except.error (Except.error.inj hbind)) hn
    | ok a =>
      refine (hg n a hfn).loops fun m => ?_
      have hmax := hloops (max n m)
      simp only [hf.stable.eq_of_le (Nat.le_max_left n m) hn, hfn, Except.bind] at hmax
      rcases (hg n a hfn).stable m (max n m) (Nat.le_max_right n m) with hstop | hsame
      · exact hstop
      · exact hsame.symm.trans hmax

theorem map {h : α → β} (hf : LoopsOnly stop cause f) :
    LoopsOnly stop cause fun n => (f n).map h := by
  have hbind : ∀ n, (f n).map h = (f n).bind fun a => .ok (h a) := fun n => by cases f n <;> rfl
  simp only [hbind]
  exact hf.bind fun _ _ _ => .const nofun

end LoopsOnly

end Fuelled
