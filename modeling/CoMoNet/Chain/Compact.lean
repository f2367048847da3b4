import CoMoNet.Chain.Accept
import CoMoNet.Lib.Mantissa
import Mathlib.Algebra.Order.Ring.Int
import Mathlib.Tactic.Ring

/-!
# Compact numbers

A target has an exponent in base 256 and a mantissa between `2 ^ 15` and `2 ^ 23`, as
its top bit is a sign. `GetCompact` rounds down and keeps the order.
-/

namespace CoMoNet

open Mantissa (mantissa Normalised mantissa_of_le mantissa_of_ge mantissa_succ)

theorem size_bounds {x : Nat} (hpos : 0 < x) :
    256 ^ (x.log2 / 8) ≤ x ∧ x < 256 ^ (x.log2 / 8 + 1) := by
  constructor
  · calc 256 ^ (x.log2 / 8) = 2 ^ (8 * (x.log2 / 8)) := by rw [Nat.pow_mul]
      _ ≤ 2 ^ x.log2 := Nat.pow_le_pow_right (by decide) (by omega)
      _ ≤ x := Nat.log2_self_le (by omega)
  · calc x < 2 ^ (x.log2 + 1) := Nat.lt_log2_self
      _ ≤ 2 ^ (8 * (x.log2 / 8 + 1)) := Nat.pow_le_pow_right (by decide) (by omega)
      _ = 256 ^ (x.log2 / 8 + 1) := by rw [Nat.pow_mul]

/-- The mantissa and the exponent. -/
theorem getCompact_normalised {x : Nat} (hpos : 0 < x) :
    ∃ s, Normalised 256 (2 ^ 15) 3 x s ∧ getCompact x = mantissa 256 3 x s + s * 2 ^ 24 := by
  obtain ⟨n, hn⟩ : ∃ n, x.log2 / 8 = n := ⟨_, rfl⟩
  obtain ⟨hlow, hhigh⟩ := size_bounds hpos
  rw [hn] at hlow hhigh
  have hshift : (if n + 1 ≤ 3 then x * 2 ^ (8 * (3 - (n + 1))) else x / 2 ^ (8 * (n + 1 - 3))) =
      mantissa 256 3 x (n + 1) := by
    split
    · next hle => rw [mantissa_of_le (by decide) hle, Nat.pow_mul]
    · next hgt => rw [mantissa_of_ge (by decide) (by omega), Nat.pow_mul]
  have hpow : 0 < 256 ^ (n + 1) := Nat.pow_pos (by decide)
  have hword : 2 ^ 16 ≤ mantissa 256 3 x (n + 1) := by
    refine (Nat.le_div_iff_mul_le hpow).mpr ?_
    calc 2 ^ 16 * 256 ^ (n + 1) = 256 ^ n * 256 ^ 3 := by ring
      _ ≤ x * 256 ^ 3 := Nat.mul_le_mul_right _ hlow
  have htop : mantissa 256 3 x (n + 1) < 2 ^ 24 := by
    refine (Nat.div_lt_iff_lt_mul hpow).mpr ?_
    calc x * 256 ^ 3 < 256 ^ (n + 1) * 256 ^ 3 := Nat.mul_lt_mul_of_pos_right hhigh (by decide)
      _ = 2 ^ 24 * 256 ^ (n + 1) := by ring
  simp only [getCompact, if_neg (by omega : ¬ x = 0), hn, hshift]
  split
  · have hnext : mantissa 256 3 x (n + 2) = mantissa 256 3 x (n + 1) / 256 := mantissa_succ
    refine ⟨n + 2, ?_, ?_⟩
    · rw [Normalised, hnext]
      omega
    · omega
  · exact ⟨n + 1, ⟨by omega, by omega⟩, rfl⟩

theorem getCompact_of_normalised {x s : Nat} (h : Normalised 256 (2 ^ 15) 3 x s) :
    getCompact x = mantissa 256 3 x s + s * 2 ^ 24 := by
  have hpos : 0 < x := by
    rcases Nat.eq_zero_or_pos x with rfl | hpos
    · have := h.1
      simp [mantissa] at this
    · exact hpos
  obtain ⟨t, ht, hcode⟩ := getCompact_normalised hpos
  rw [hcode, ht.exponent_unique (by decide) h]

/-- `GetCompact` keeps the order. -/
theorem getCompact_mono {x y : Nat} (h : x ≤ y) : getCompact x ≤ getCompact y := by
  rcases Nat.eq_zero_or_pos x with rfl | hpos
  · exact Nat.zero_le _
  · obtain ⟨s, hs, hx⟩ := getCompact_normalised hpos
    obtain ⟨t, ht, hy⟩ := getCompact_normalised (Nat.lt_of_lt_of_le hpos h)
    rw [hx, hy]
    exact hs.code_le (by decide) (by decide) ht h

/-- The number that a compact form with a plain mantissa stands for. -/
theorem setCompact_code {word size : Nat} (hword : word < 2 ^ 23) :
    setCompact (word + size * 2 ^ 24) =
      ((if size ≤ 3 then word / 2 ^ (8 * (3 - size))
        else word * 2 ^ (8 * (size - 3)) : Nat) : Int) := by
  have hsize : (word + size * 2 ^ 24) / 2 ^ 24 = size := by omega
  have hmant : (word + size * 2 ^ 24) % 2 ^ 23 = word := by omega
  have hsign : ¬ (word + size * 2 ^ 24) / 2 ^ 23 % 2 = 1 := by omega
  simp only [setCompact, hsize, hmant, if_neg hsign]

/-- What is left of a number: all of it, or the mantissa. -/
theorem setCompact_of_normalised {x s : Nat} (h : Normalised 256 (2 ^ 15) 3 x s) :
    setCompact (getCompact x) =
      ((if s ≤ 3 then x else mantissa 256 3 x s * 256 ^ (s - 3) : Nat) : Int) := by
  rw [getCompact_of_normalised h, setCompact_code h.2]
  congr 1
  split
  · next hle =>
      rw [mantissa_of_le (by decide) hle, Nat.pow_mul]
      exact Nat.mul_div_cancel x (Nat.pow_pos (by decide))
  · rw [Nat.pow_mul]

theorem setCompact_getCompact_eq (x : Nat) :
    ∃ e, setCompact (getCompact x) = ((x / 256 ^ e * 256 ^ e : Nat) : Int) ∧
      (e = 0 ∨ 2 ^ 15 * 256 ^ e ≤ x) := by
  rcases Nat.eq_zero_or_pos x with rfl | hpos
  · exact ⟨0, by decide, .inl rfl⟩
  obtain ⟨s, hs, -⟩ := getCompact_normalised hpos
  rw [setCompact_of_normalised hs]
  split
  · exact ⟨0, by simp, .inl rfl⟩
  · next hgt =>
      have hword := mantissa_of_ge (x := x) (by decide : 0 < 256) (by omega : 3 ≤ s)
      refine ⟨s - 3, by rw [hword], .inr ?_⟩
      exact (Nat.le_div_iff_mul_le (Nat.pow_pos (by decide))).mp (hword ▸ hs.1)

/-- Rounding down keeps numbers with a short mantissa. -/
theorem short_le_roundDown {m k e x : Nat} (hm : m < 2 ^ 23)
    (he : e = 0 ∨ 2 ^ 15 * 256 ^ e ≤ x) (h : m * 256 ^ k ≤ x) :
    m * 256 ^ k ≤ x / 256 ^ e * 256 ^ e := by
  have hpos : 0 < 256 ^ e := Nat.pow_pos (by decide)
  rcases Nat.lt_or_ge k e with hlt | hle
  · have hbig := he.resolve_left (by omega)
    calc m * 256 ^ k ≤ 2 ^ 23 * 256 ^ (e - 1) :=
          Nat.mul_le_mul (Nat.le_of_lt hm) (Nat.pow_le_pow_right (by decide) (by omega))
      _ = 2 ^ 15 * 256 ^ e := by
          obtain ⟨d, rfl⟩ : ∃ d, e = d + 1 := ⟨e - 1, by omega⟩
          rw [Nat.add_sub_cancel, Nat.pow_succ 256 d]
          omega
      _ ≤ x / 256 ^ e * 256 ^ e :=
          Nat.mul_le_mul_right _ ((Nat.le_div_iff_mul_le hpos).mpr hbig)
  · obtain ⟨d, rfl⟩ : ∃ d, k = e + d := ⟨k - e, by omega⟩
    have hmul : m * 256 ^ (e + d) = m * 256 ^ d * 256 ^ e := by
      rw [Nat.pow_add]
      ring
    rw [hmul] at h ⊢
    exact Nat.mul_le_mul_right _ ((Nat.le_div_iff_mul_le hpos).mpr h)

/-- Compact numbers have a short mantissa. -/
theorem setCompact_short {nCompact : Nat} (h : 0 ≤ setCompact nCompact) :
    ∃ m k, m < 2 ^ 23 ∧ setCompact nCompact = ((m * 256 ^ k : Nat) : Int) := by
  have hword : nCompact % 2 ^ 23 < 2 ^ 23 := Nat.mod_lt _ (by decide)
  have hmagnitude : ∃ m k, m < 2 ^ 23 ∧ (if nCompact / 2 ^ 24 ≤ 3
      then nCompact % 2 ^ 23 / 2 ^ (8 * (3 - nCompact / 2 ^ 24))
      else nCompact % 2 ^ 23 * 2 ^ (8 * (nCompact / 2 ^ 24 - 3))) = m * 256 ^ k := by
    split
    · exact ⟨_, 0, Nat.lt_of_le_of_lt (Nat.div_le_self _ _) hword,
        by rw [Nat.pow_zero, Nat.mul_one]⟩
    · exact ⟨_, _, hword, by rw [Nat.pow_mul]⟩
  obtain ⟨m, k, hm, hvalue⟩ := hmagnitude
  rw [setCompact] at h ⊢
  simp only [hvalue] at h ⊢
  split at h
  · next hsign =>
      refine ⟨0, 0, by decide, ?_⟩
      rw [if_pos hsign]
      omega
  · next hsign => exact ⟨m, k, hm, if_neg hsign⟩

/-- `GetCompact` rounds down to the numbers with a compact form. -/
theorem setCompact_le_getCompact_iff {nCompact : Nat} {x : Nat} :
    setCompact nCompact ≤ setCompact (getCompact x) ↔ setCompact nCompact ≤ x := by
  obtain ⟨e, hround, he⟩ := setCompact_getCompact_eq x
  rw [hround]
  constructor
  · intro h
    exact h.trans (Int.ofNat_le.mpr (Nat.div_mul_le_self x _))
  · intro h
    rcases Int.lt_or_le (setCompact nCompact) 0 with hneg | hnonneg
    · exact hneg.le.trans (Int.natCast_nonneg _)
    · obtain ⟨m, k, hm, hvalue⟩ := setCompact_short hnonneg
      rw [hvalue] at h ⊢
      exact Int.ofNat_le.mpr (short_le_roundDown hm he (Int.ofNat_le.mp h))

theorem setCompact_getCompact_nonneg (x : Nat) : 0 ≤ setCompact (getCompact x) := by
  have hzero : setCompact 0 = 0 := by decide
  rw [← hzero, setCompact_le_getCompact_iff, hzero]
  exact Int.natCast_nonneg x

theorem setCompact_getCompact_le (x : Nat) : setCompact (getCompact x) ≤ x :=
  setCompact_le_getCompact_iff.mp le_rfl

/-- A compact form is the one that `GetCompact` gives. -/
def Canonical (nBits : Nat) : Prop := getCompact (setCompact nBits).toNat = nBits

theorem canonical_getCompact (x : Nat) : Canonical (getCompact x) := by
  rw [Canonical]
  rcases Nat.eq_zero_or_pos x with rfl | hpos
  · decide
  obtain ⟨s, hs, hcode⟩ := getCompact_normalised hpos
  rw [setCompact_of_normalised hs, Int.toNat_natCast]
  split
  · rfl
  · next hgt =>
      have hleft : mantissa 256 3 (mantissa 256 3 x s * 256 ^ (s - 3)) s = mantissa 256 3 x s := by
        refine Normalised.mantissa_round (by decide) ?_
        rw [Nat.mul_assoc, ← Nat.pow_add, show s - 3 + 3 = s by omega]
      have hnormal : Normalised 256 (2 ^ 15) 3 (mantissa 256 3 x s * 256 ^ (s - 3)) s := by
        rw [Normalised, hleft]
        exact hs
      rw [getCompact_of_normalised hnormal, hleft, hcode]

theorem Canonical.nonneg {nBits : Nat} (h : Canonical nBits) : 0 ≤ setCompact nBits := by
  rw [← h]
  exact setCompact_getCompact_nonneg _

end CoMoNet
