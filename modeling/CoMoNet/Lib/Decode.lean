import Mathlib.Algebra.Ring.Nat
import Mathlib.Data.List.Basic

/-!
# Reading from a stream

A reader takes a value off the front of a list of symbols; readers of a record are `do`
blocks over the readers of its fields. `Reads r code a` says that `r` reads `code` as
`a` and stops right behind it, and its rules follow the way a reader is put together.
-/

namespace Decode

variable {β α γ : Type}

/-- A reader: it fails, or gives a value and what it left. -/
abbrev Reader (β : Type) := StateT (List β) Option

/-- Read the next `n` symbols. -/
def take (n : Nat) : Reader β (List β) := fun code =>
  if code.length < n then none else some (code.take n, code.drop n)

/-- Move on by `n` symbols, possibly past the end. -/
def skip (n : Nat) : Reader β Unit := fun code => some ((), code.drop n)

/-- The reader that reads nothing. -/
def fail : Reader β α := fun _ => none

/-- Read `n` values, one after the other. -/
def times (r : Reader β α) : Nat → Reader β (List α)
  | 0 => pure []
  | n + 1 => do
    let a ← r
    let as ← times r n
    return a :: as

/-- The reader takes exactly `code` off the front and gives `a`. -/
def Reads (r : Reader β α) (code : List β) (a : α) : Prop :=
  ∀ rest, r (code ++ rest) = some (a, rest)

namespace Reads

variable {r : Reader β α} {f : α → Reader β γ} {code code' : List β} {a : α} {c : γ}

theorem pure (a : α) : Reads (Pure.pure a : Reader β α) [] a := fun _ => rfl

/-- The codes of the parts are concatenated. -/
theorem bind (h : Reads r code a) (hf : Reads (f a) code' c) :
    Reads (r >>= f) (code ++ code') c := by
  intro rest
  have hr : r (code ++ code' ++ rest) = some (a, code' ++ rest) := by
    rw [List.append_assoc]
    exact h (code' ++ rest)
  change (r (code ++ code' ++ rest)).bind (fun x => f x.1 x.2) = _
  rw [hr, Option.bind_some]
  exact hf rest

theorem map (g : α → γ) (h : Reads r code a) : Reads (g <$> r) code (g a) := by
  intro rest
  change (r (code ++ rest)).bind (fun x => some (g x.1, x.2)) = _
  rw [h rest, Option.bind_some]

/-- The end of a record: give the value made of what was read. -/
theorem bind_pure (g : α → γ) (h : Reads r code a) :
    Reads (r >>= fun x => Pure.pure (g x)) code (g a) := by
  have hread := h.bind (f := fun x => Pure.pure (g x)) (Reads.pure (g a))
  rwa [List.append_nil] at hread

/-- Values that are written one after the other are read one after the other. -/
theorem times {as : List α} {write : α → List β} (h : ∀ a ∈ as, Reads r (write a) a) :
    Reads (Decode.times r as.length) (as.flatMap write) as := by
  induction as with
  | nil => exact Reads.pure []
  | cons a as ih =>
    rw [List.flatMap_cons]
    refine (h a List.mem_cons_self).bind ?_
    exact (ih fun x hx => h x (List.mem_cons_of_mem a hx)).bind_pure (a :: ·)

theorem take {n : Nat} (h : code.length = n) : Reads (Decode.take n) code code := by
  intro rest
  have hle : ¬(code ++ rest).length < n := by
    rw [List.length_append]
    omega
  rw [Decode.take, if_neg hle, ← h, List.take_left, List.drop_left]

theorem skip {n : Nat} (h : code.length = n) : Reads (Decode.skip n) code () := by
  intro rest
  rw [Decode.skip, ← h, List.drop_left]

/-- What is read from a code is read from any stream that starts with it. -/
theorem run_prefix (h : Reads r code a) {stream : List β} (hpre : code <+: stream) :
    ∃ rest, r stream = some (a, rest) := by
  obtain ⟨rest, rfl⟩ := hpre
  exact ⟨rest, h rest⟩

end Reads

/-! ## What a reader leaves -/

/-- A sequence reads what its parts read. -/
theorem run_bind {r : Reader β α} {f : α → Reader β γ} {code rest : List β} {c : γ} :
    (r >>= f) code = some (c, rest) ↔
      ∃ a mid, r code = some (a, mid) ∧ f a mid = some (c, rest) := by
  change (r code).bind (fun x => f x.1 x.2) = some (c, rest) ↔ _
  simp [Option.bind_eq_some_iff]

theorem run_map {r : Reader β α} {g : α → γ} {code rest : List β} {c : γ} :
    (g <$> r) code = some (c, rest) ↔ ∃ a, r code = some (a, rest) ∧ g a = c := by
  change (r code).bind (fun x => some (g x.1, x.2)) = some (c, rest) ↔ _
  simp [Option.bind_eq_some_iff]

theorem run_pure {a c : α} {code rest : List β} :
    (pure a : Reader β α) code = some (c, rest) ↔ a = c ∧ code = rest := by
  change some (a, code) = some (c, rest) ↔ _
  simp

theorem run_take {n : Nat} {code part rest : List β} :
    take n code = some (part, rest) ↔ n ≤ code.length ∧ part = code.take n ∧
      rest = code.drop n := by
  rw [take]
  split
  · simp
    omega
  · simp [eq_comm]
    omega

/-- The reader takes at least so much as the value it gives has room for. -/
def Consumes (r : Reader β α) (size : α → Nat) : Prop :=
  ∀ code a rest, r code = some (a, rest) → size a + rest.length ≤ code.length

/-- Reading `n` values takes the sum of their sizes. -/
theorem Consumes.times {r : Reader β α} {size : α → Nat} (h : Consumes r size) (n : Nat) :
    ∀ code as rest, Decode.times r n code = some (as, rest) →
      as.length = n ∧ (as.map size).sum + rest.length ≤ code.length := by
  induction n with
  | zero =>
    intro code as rest hrun
    obtain ⟨rfl, rfl⟩ := run_pure.mp hrun
    simp
  | succ n ih =>
    intro code as rest hrun
    obtain ⟨a, mid, hone, hrun⟩ := run_bind.mp hrun
    obtain ⟨tail, last, hmany, hrun⟩ := run_bind.mp hrun
    obtain ⟨rfl, rfl⟩ := run_pure.mp hrun
    obtain ⟨hlen, hsum⟩ := ih _ _ _ hmany
    have := h _ _ _ hone
    refine ⟨by rw [List.length_cons, hlen], ?_⟩
    rw [List.map_cons, List.sum_cons]
    omega

end Decode
