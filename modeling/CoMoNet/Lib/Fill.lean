import Mathlib.Logic.Function.Basic
import Mathlib.Data.List.Basic

/-!
# Filling a table along parent links

Each key has a value that is computed from the value of its parent. When the keys are
sorted with parents first, one pass makes every entry right (`fill_eq`).
-/

namespace Fill

variable {κ β : Type*} [DecidableEq κ] {parent : κ → Option κ}
variable {step : κ → Option β → β} {v table : κ → β}

/-- Enter the values of a list of keys, in order. -/
def fill (parent : κ → Option κ) (step : κ → Option β → β) (table : κ → β) (keys : List κ) :
    κ → β :=
  keys.foldl (fun table k => Function.update table k (step k ((parent k).map table))) table

/-- The loop, when the entries of `done` are right and parents are in `done` or still to come. -/
theorem fill_spec {keys : List κ} (rank : κ → Nat) (done : κ → Prop)
    (hv : ∀ k ∈ keys, v k = step k ((parent k).map v))
    (hsorted : keys.Pairwise fun a b => rank a ≤ rank b)
    (hparent : ∀ k ∈ keys, ∀ q, parent k = some q → done q ∨ q ∈ keys ∧ rank q < rank k)
    (hdone : ∀ k, done k → table k = v k) :
    ∀ k, done k ∨ k ∈ keys → fill parent step table keys k = v k := by
  induction keys generalizing table done with
  | nil => exact fun k hk => hdone k (hk.resolve_right (List.not_mem_nil))
  | cons a keys ih =>
    obtain ⟨hle, hsorted⟩ := List.pairwise_cons.mp hsorted
    have hentry : step a ((parent a).map table) = v a := by
      rw [hv a List.mem_cons_self]
      cases hq : parent a with
      | none => rfl
      | some q =>
        have hdoneq : done q := by
          rcases hparent a List.mem_cons_self q hq with h | ⟨h, hlt⟩
          · exact h
          · rcases List.mem_cons.mp h with rfl | h
            · exact absurd hlt (Nat.lt_irrefl _)
            · exact absurd (hle q h) (Nat.not_le_of_lt hlt)
        rw [Option.map_some, Option.map_some, hdone q hdoneq]
    intro k hk
    rw [fill, List.foldl_cons]
    refine ih (fun x => done x ∨ x = a) (fun x hx => hv x (List.mem_cons_of_mem _ hx))
      hsorted (fun x hx q hq => ?_) (fun x hx => ?_) k ?_
    · rcases hparent x (List.mem_cons_of_mem _ hx) q hq with h | ⟨h, hlt⟩
      · exact .inl (.inl h)
      · rcases List.mem_cons.mp h with rfl | h
        · exact .inl (.inr rfl)
        · exact .inr ⟨h, hlt⟩
    · by_cases hxa : x = a
      · rw [hxa, Function.update_self]
        exact hentry
      · rw [Function.update_of_ne hxa]
        exact hdone x (hx.resolve_right hxa)
    · rcases hk with hk | hk
      · exact .inl (.inl hk)
      · rcases List.mem_cons.mp hk with rfl | hk
        · exact .inl (.inr rfl)
        · exact .inr hk

/-- After one pass over sorted keys every entry is right. -/
theorem fill_eq {keys : List κ} (rank : κ → Nat)
    (hv : ∀ k ∈ keys, v k = step k ((parent k).map v))
    (hsorted : keys.Pairwise fun a b => rank a ≤ rank b)
    (hparent : ∀ k ∈ keys, ∀ q, parent k = some q → q ∈ keys ∧ rank q < rank k) :
    ∀ k ∈ keys, fill parent step table keys k = v k := fun k hk =>
  fill_spec rank (fun _ => False) hv hsorted (fun k hk q hq => .inr (hparent k hk q hq))
    nofun k (.inr hk)

end Fill
