import Mathlib.Algebra.Order.Group.Nat

/-!
# Numbers with a mantissa of fixed length

A number is written with an exponent `s` in base `B` and a mantissa, its part above `B ^
s` moved up by `k` digits. A code that puts the exponent above the mantissa keeps the
order (`Normalised.code_le`).
-/

namespace Mantissa

/-- The mantissa of `x` for the exponent `s`. -/
def mantissa (B k x s : Nat) : Nat := x * B ^ k / B ^ s

/-- The mantissa is between `L` and `L * B`. -/
def Normalised (B L k x s : Nat) : Prop := L ≤ mantissa B k x s ∧ mantissa B k x s < L * B

variable {B L k x y s t : Nat}

theorem mantissa_mono (h : x ≤ y) : mantissa B k x s ≤ mantissa B k y s :=
  Nat.div_le_div_right (Nat.mul_le_mul_right _ h)

theorem mantissa_of_le (hB : 0 < B) (h : s ≤ k) : mantissa B k x s = x * B ^ (k - s) := by
  obtain ⟨d, rfl⟩ := Nat.exists_eq_add_of_le h
  rw [mantissa, Nat.pow_add, Nat.mul_left_comm, Nat.mul_div_cancel_left _ (Nat.pow_pos hB),
    Nat.add_sub_cancel_left]

theorem mantissa_of_ge (hB : 0 < B) (h : k ≤ s) : mantissa B k x s = x / B ^ (s - k) := by
  obtain ⟨d, rfl⟩ := Nat.exists_eq_add_of_le h
  rw [mantissa, Nat.pow_add, Nat.mul_comm x, Nat.mul_div_mul_left _ _ (Nat.pow_pos hB),
    Nat.add_sub_cancel_left]

/-- The next exponent takes the last digit off. -/
theorem mantissa_succ : mantissa B k x (s + 1) = mantissa B k x s / B := by
  rw [mantissa, mantissa, Nat.pow_succ, Nat.div_div_eq_div_mul]

namespace Normalised

theorem mul_pow_le (hB : 0 < B) (h : Normalised B L k x s) : L * B ^ s ≤ x * B ^ k :=
  (Nat.le_div_iff_mul_le (Nat.pow_pos hB)).mp h.1

theorem lt_mul_pow (hB : 0 < B) (h : Normalised B L k x s) : x * B ^ k < L * B ^ (s + 1) := by
  have hlt := (Nat.div_lt_iff_lt_mul (Nat.pow_pos hB)).mp h.2
  rwa [Nat.mul_assoc, ← Nat.pow_succ'] at hlt

/-- A greater number has no lower exponent. -/
theorem exponent_le (hB : 1 < B) (hx : Normalised B L k x s) (hy : Normalised B L k y t)
    (h : x ≤ y) : s ≤ t := by
  have hlt : L * B ^ s < L * B ^ (t + 1) :=
    calc L * B ^ s ≤ x * B ^ k := hx.mul_pow_le (by omega)
      _ ≤ y * B ^ k := Nat.mul_le_mul_right _ h
      _ < L * B ^ (t + 1) := hy.lt_mul_pow (by omega)
  exact Nat.lt_succ_iff.mp ((Nat.pow_lt_pow_iff_right hB).mp (Nat.lt_of_mul_lt_mul_left hlt))

/-- The exponent of a normalised number is unique. -/
theorem exponent_unique (hB : 1 < B) (hs : Normalised B L k x s) (ht : Normalised B L k x t) :
    s = t :=
  Nat.le_antisymm (hs.exponent_le hB ht (Nat.le_refl x)) (ht.exponent_le hB hs (Nat.le_refl x))

/-- The code keeps the order of the numbers. -/
theorem code_le {C : Nat} (hB : 1 < B) (hC : L * B ≤ C) (hx : Normalised B L k x s)
    (hy : Normalised B L k y t) (h : x ≤ y) :
    mantissa B k x s + s * C ≤ mantissa B k y t + t * C := by
  rcases Nat.eq_or_lt_of_le (hx.exponent_le hB hy h) with rfl | hlt
  · exact Nat.add_le_add_right (mantissa_mono h) _
  · calc mantissa B k x s + s * C ≤ C + s * C :=
          Nat.add_le_add_right (Nat.le_of_lt (Nat.lt_of_lt_of_le hx.2 hC)) _
      _ = (s + 1) * C := by rw [Nat.succ_mul, Nat.add_comm]
      _ ≤ t * C := Nat.mul_le_mul_right _ hlt
      _ ≤ mantissa B k y t + t * C := Nat.le_add_left _ _

/-- A number that has lost what is below its mantissa. -/
theorem mantissa_round (hB : 0 < B) (hy : y * B ^ k = mantissa B k x s * B ^ s) :
    mantissa B k y s = mantissa B k x s := by
  rw [mantissa, hy, Nat.mul_div_cancel _ (Nat.pow_pos hB)]

end Normalised

end Mantissa
