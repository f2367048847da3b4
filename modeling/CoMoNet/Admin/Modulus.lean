import CoMoNet.Admin.Accumulator
import CoMoNet.Lib.Lucas
import Mathlib.Tactic.NormNum.Prime

/-!
# The modulus

The modulus of `isAdmin` is the product of two known primes. That they differ makes a
power of a witness vanish only if the witness does (`checkWitness_zero_iff`).
-/

namespace CoMoNet

open Lucas (isOrder prime_of_isOrder)

/-! ## The factors -/

/-- The first factor. -/
def factorP : Nat := 197899090780910381591344560809268599693

/-- The second factor. -/
def factorQ : Nat := 224822915879642673565057005023579115539

theorem prime_factorP : Nat.Prime factorP := by
  obtain ⟨h₁, h₂, h₃, h₄, h₅⟩ :
      isOrder 14327318189 2 34 [2, 2, 233, 15372659] = true ∧
        isOrder 9484684641119 14 44 [2, 331, 14327318189] = true ∧
        isOrder 31658054039 19 35 [2, 13, 293, 421, 9871] = true ∧
        isOrder 14564097812317717 2 54 [2, 2, 3, 3, 13, 983, 31658054039] = true ∧
        isOrder factorP 2 128 [2, 2, 7, 43, 1189901, 9484684641119, 14564097812317717] = true := by
    decide +kernel
  have hp₁ : Nat.Prime 14327318189 := prime_of_isOrder h₁ (by norm_num)
  have hp₂ : Nat.Prime 9484684641119 := prime_of_isOrder h₂ ⟨by norm_num, by norm_num, hp₁⟩
  have hp₃ : Nat.Prime 31658054039 := prime_of_isOrder h₃ (by norm_num)
  have hp₄ : Nat.Prime 14564097812317717 :=
    prime_of_isOrder h₄ ⟨by norm_num, by norm_num, by norm_num, by norm_num, by norm_num,
      by norm_num, hp₃⟩
  exact prime_of_isOrder h₅ ⟨by norm_num, by norm_num, by norm_num, by norm_num, by norm_num,
    hp₂, hp₄⟩

theorem prime_factorQ : Nat.Prime factorQ := by
  obtain ⟨h₁, h₂, h₃, h₄⟩ :
      isOrder 280434752461 2 39 [2, 2, 3, 3, 5, 383, 599, 6791] = true ∧
        isOrder 2804347524611 2 42 [2, 5, 280434752461] = true ∧
        isOrder 5525044302155478103 5 63 [2, 3, 3, 61, 67644803, 74387333] = true ∧
        isOrder factorQ 2 128 [2, 19, 421, 907, 2804347524611, 5525044302155478103] = true := by
    decide +kernel
  have hp₁ : Nat.Prime 280434752461 := prime_of_isOrder h₁ (by norm_num)
  have hp₂ : Nat.Prime 2804347524611 := prime_of_isOrder h₂ ⟨by norm_num, by norm_num, hp₁⟩
  have hp₃ : Nat.Prime 5525044302155478103 := prime_of_isOrder h₃ (by norm_num)
  exact prime_of_isOrder h₄ ⟨by norm_num, by norm_num, by norm_num, by norm_num, hp₂, hp₃⟩

/-! ## Powers of a witness -/

/-- The modulus is the product of the factors. -/
theorem modulo_eq : modulo = factorP * factorQ := by
  norm_num [modulo, factorP, factorQ]

/-- The comparison with a zero cache succeeds exactly for multiples of the
modulus. -/
theorem checkWitness_zero_iff {mapToPrime : Bytes → Nat} {username witness : Bytes}
    (hprime : (mapToPrime username).Prime) :
    checkWitness mapToPrime username witness 0 = true ↔ (modulo : Int) ∣ mpReadRadix witness := by
  rw [checkWitness, beq_iff_eq, Nat.cast_zero, ← Int.dvd_iff_emod_eq_zero, modulo_eq]
  constructor
  · exact Lucas.dvd_of_dvd_pow prime_factorP prime_factorQ (by decide)
  · intro h
    exact dvd_pow h hprime.ne_zero

end CoMoNet
