import Mathlib.Data.List.Prime
import Mathlib.Data.Nat.Prime.Int
import Mathlib.NumberTheory.LucasPrimality

/-!
# Primes with a certificate

A number `p` is prime if some `a` has order `p - 1` modulo `p`, which a few powers
computed by `powMod` show.
-/

namespace Lucas

/-- The power `a ^ n` modulo `m`, for `n` of at most `bits` bits. -/
def powMod (m : ℕ) : ℕ → ℕ → ℕ → ℕ
  | 0, _, _ => 1 % m
  | bits + 1, a, n =>
    let half := powMod m bits (a * a % m) (n / 2)
    if n % 2 = 0 then half else a * half % m

/-- `powMod` is the power modulo `m`. -/
theorem powMod_eq {m bits a n : ℕ} (h : n < 2 ^ bits) : powMod m bits a n = a ^ n % m := by
  induction bits generalizing a n with
  | zero =>
    rw [pow_zero, Nat.lt_one_iff] at h
    rw [powMod, h, pow_zero]
  | succ bits ih =>
    have hhalf : powMod m bits (a * a % m) (n / 2) = a ^ (2 * (n / 2)) % m := by
      rw [ih (by rw [pow_succ] at h; omega), ← Nat.pow_mod, pow_mul, pow_two]
    rw [powMod, hhalf]
    rcases Nat.even_or_odd' n with ⟨k, rfl | rfl⟩
    · rw [if_pos (by omega), Nat.mul_div_cancel_left k (by omega)]
    · have hk : (2 * k + 1) / 2 = k := by omega
      rw [if_neg (by omega), hk, Nat.mul_mod_mod, pow_succ, Nat.mul_comm]

theorem natCast_pow_eq_one_iff {p : ℕ} (hp : 1 < p) (a n : ℕ) :
    (a : ZMod p) ^ n = 1 ↔ a ^ n % p = 1 := by
  have hcast : (a : ZMod p) ^ n = 1 ↔ ((a ^ n : ℕ) : ZMod p) = ((1 : ℕ) : ZMod p) := by
    push_cast
    rfl
  rw [hcast, ZMod.natCast_eq_natCast_iff', Nat.mod_eq_of_lt hp]

/-- The test of a certificate: the factors of `p - 1` and a number of order
`p - 1`. -/
def isOrder (p a bits : ℕ) (factors : List ℕ) : Bool :=
  1 < p && p ≤ 2 ^ bits && factors.prod == p - 1 && powMod p bits a (p - 1) == 1 &&
    factors.all fun q => powMod p bits a ((p - 1) / q) != 1

/-- A number with an element of order `p - 1` is prime. -/
theorem prime_of_isOrder {p a bits : ℕ} {factors : List ℕ}
    (h : isOrder p a bits factors = true) (hfactors : factors.Forall Nat.Prime) : p.Prime := by
  simp only [isOrder, Bool.and_eq_true, decide_eq_true_eq, beq_iff_eq, List.all_eq_true,
    bne_iff_ne] at h
  obtain ⟨⟨⟨⟨hp, hbits⟩, hprod⟩, hone⟩, hne⟩ := h
  refine lucas_primality p (a : ZMod p) ?_ fun q hq hdvd => ?_
  · have hlt : p - 1 < 2 ^ bits := by omega
    rw [natCast_pow_eq_one_iff hp, ← powMod_eq hlt, hone]
  · rw [← hprod] at hdvd
    obtain ⟨f, hf, hqf⟩ := (Prime.dvd_prod_iff hq.prime).mp hdvd
    obtain rfl : q = f := (Nat.prime_dvd_prime_iff_eq hq
      (List.forall_iff_forall_mem.mp hfactors f hf)).mp hqf
    have hlt : (p - 1) / q < 2 ^ bits := lt_of_le_of_lt (Nat.div_le_self _ _) (by omega)
    rw [ne_eq, natCast_pow_eq_one_iff hp, ← powMod_eq hlt]
    exact hne q hf

/-- A product of two different primes that divides a power divides its base. -/
theorem dvd_of_dvd_pow {p q n : ℕ} {a : ℤ} (hp : p.Prime) (hq : q.Prime) (hpq : p ≠ q)
    (h : ((p * q : ℕ) : ℤ) ∣ a ^ n) : ((p * q : ℕ) : ℤ) ∣ a := by
  rw [Nat.cast_mul] at h ⊢
  have hp' : (p : ℤ) ∣ a := (Nat.prime_iff_prime_int.mp hp).dvd_of_dvd_pow (dvd_of_mul_right_dvd h)
  have hq' : (q : ℤ) ∣ a := (Nat.prime_iff_prime_int.mp hq).dvd_of_dvd_pow (dvd_of_mul_left_dvd h)
  have hcoprime : IsCoprime (p : ℤ) (q : ℤ) :=
    Nat.isCoprime_iff_coprime.mpr ((Nat.coprime_primes hp hq).mpr hpq)
  exact hcoprime.mul_dvd hp' hq'

end Lucas
