import Mathlib.Logic.Basic

/-!
# Results of calls that may fail

From what was computed of the result of a call, that the call has returned.
-/

namespace Except

variable {ε α β : Type*} {r : Except ε α} {f : α → β} {a : α} {b : β}

theorem map_eq_ok_iff : r.map f = .ok b ↔ ∃ a, r = .ok a ∧ f a = b := by
  cases r with
  | error e => simp [Except.map]
  | ok a => simp [Except.map]

theorem bind_eq_ok_iff {g : α → Except ε β} :
    r.bind g = .ok b ↔ ∃ a, r = .ok a ∧ g a = .ok b := by
  cases r with
  | error e => simp [Except.bind]
  | ok a => simp [Except.bind]

theorem toOption_eq_some_iff : r.toOption = some a ↔ r = .ok a := by
  cases r with
  | error e => simp [Except.toOption]
  | ok a' => simp [Except.toOption]

theorem toOption_map_eq_some_iff : r.toOption.map f = some b ↔ ∃ a, r = .ok a ∧ f a = b := by
  simp only [Option.map_eq_some_iff, toOption_eq_some_iff]

theorem exists_ok_of_isSome (h : r.toOption.isSome = true) : ∃ a, r = .ok a := by
  obtain ⟨a, ha⟩ := Option.isSome_iff_exists.mp h
  exact ⟨a, toOption_eq_some_iff.mp ha⟩

end Except
