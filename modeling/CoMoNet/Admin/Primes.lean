import Mathlib.Data.Fintype.BigOperators
import Mathlib.Order.Interval.Finset.Nat
import CoMoNet.Admin.Accumulator
import CoMoNet.Chain.Run

/-!
# The prime of a user

`mapToPrime` seeds a generator of 2³¹ - 2 states with the hash of the user name, so two
user names share a prime, whatever the hash is (`mapToPrime_collides`).
-/

namespace CoMoNet

/-! ## The generator -/

/-- The modulus of `minstd_rand0`. -/
def minstdModulus : Nat := 2147483647

/-- A state of the generator. -/
abbrev MinstdState := { x : Nat // x ∈ Finset.Ioo 0 minstdModulus }

/-- `minstd_rand0 gen(seed)`: zero is not a state and becomes one. -/
def seedState (seed : Nat) : MinstdState :=
  if h : seed % minstdModulus = 0 then ⟨1, Finset.mem_Ioo.2 (by decide)⟩
  else ⟨seed % minstdModulus,
    Finset.mem_Ioo.2 ⟨Nat.pos_of_ne_zero h, Nat.mod_lt _ (by decide)⟩⟩

/-- The state after `n` draws. -/
def minstdAfter (x : Nat) : Nat → Nat
  | 0 => x
  | n + 1 => 16807 * minstdAfter x n % minstdModulus

/-- The bytes that the callback `cb` hands out. -/
def cbStream (state : MinstdState) (n : Nat) : UInt8 :=
  UInt8.ofNat (minstdAfter state.1 (n + 1))

/-- `LTM_PRIME_SAFE`. -/
def ltmPrimeSafe : Nat := 2

/-- `static_cast<unsigned>(hash.Get64())`. -/
def seedOf (hash : Uint256) : Nat := hash % 2 ^ 64 % 2 ^ 32

/-- `mapToPrime`; `mp_prime_random_ex` is a function of its parameters and the bytes drawn. -/
def mapToPrime (env : Env) (mpPrimeRandomEx : Nat → Nat → Nat → (Nat → UInt8) → Nat)
    (username : Bytes) : Nat :=
  mpPrimeRandomEx 8 256 ltmPrimeSafe (cbStream (seedState (seedOf (env.usernameHash username))))

/-! ## User names -/

/-- The characters of a user name: letters, digits and the underscore. -/
def usernameChar (i : Fin 37) : UInt8 :=
  if i.1 < 26 then UInt8.ofNat (0x61 + i.1)
  else if i.1 < 36 then UInt8.ofNat (0x30 + (i.1 - 26))
  else 0x5f

theorem usernameChar_injective : Function.Injective usernameChar := by decide

theorem checkUsernameChar_usernameChar (i : Fin 37) :
    checkUsernameChar (usernameChar i) = none := by
  revert i
  decide

/-- The user name with these characters. -/
def usernameOf {n : Nat} (chars : Fin n → Fin 37) : Bytes :=
  List.ofFn fun i => usernameChar (chars i)

theorem usernameOf_injective {n : Nat} :
    Function.Injective (usernameOf : (Fin n → Fin 37) → Bytes) := by
  intro chars chars' h
  have hchars := List.ofFn_injective h
  funext i
  exact usernameChar_injective (congrFun hchars i)

theorem checkUsername_usernameOf {n : Nat} (hpos : 0 < n) (hn : n ≤ maxUsernameSize)
    (chars : Fin n → Fin 37) : checkUsername (usernameOf chars) = .valid := by
  have hlen : (usernameOf chars).length = n := List.length_ofFn
  refine checkUsername_iff.mpr ⟨List.ne_nil_of_length_pos (hlen.symm ▸ hpos), hlen.symm ▸ hn,
    fun c hc => ?_⟩
  obtain ⟨i, rfl⟩ := List.mem_ofFn.1 hc
  exact checkUsernameChar_usernameChar _

/-! ## Two users, one prime -/

variable {env : Env} {mpPrimeRandomEx : Nat → Nat → Nat → (Nat → UInt8) → Nat}

/-- The state the generator of a user starts in. -/
def primeState (env : Env) (username : Bytes) : MinstdState :=
  seedState (seedOf (env.usernameHash username))

/-- The state decides the prime. -/
theorem mapToPrime_eq_of_state {u v : Bytes} (h : primeState env u = primeState env v) :
    mapToPrime env mpPrimeRandomEx u = mapToPrime env mpPrimeRandomEx v := by
  rw [primeState, primeState] at h
  rw [mapToPrime, mapToPrime, h]

/-- Of more user names than there are states, two share a prime. -/
theorem exists_shared (env : Env)
    (mpPrimeRandomEx : Nat → Nat → Nat → (Nat → UInt8) → Nat) {names : Finset Bytes}
    (h : 2147483646 < names.card) : ∃ u ∈ names, ∃ v ∈ names, u ≠ v ∧
      mapToPrime env mpPrimeRandomEx u = mapToPrime env mpPrimeRandomEx v := by
  have hcard : (Finset.Ioo 0 minstdModulus).card < names.card := by
    rw [Nat.card_Ioo]
    exact h
  obtain ⟨u, hu, v, hv, hne, hstate⟩ := Finset.exists_ne_map_eq_of_card_lt_of_maps_to hcard
    (f := fun username => (primeState env username).1) fun username _ => (primeState env username).2
  exact ⟨u, hu, v, hv, hne, mapToPrime_eq_of_state (Subtype.ext hstate)⟩

/-- The user names of six characters. -/
def sixCharacters : Finset Bytes :=
  Finset.univ.image (usernameOf : (Fin 6 → Fin 37) → Bytes)

theorem card_sixCharacters : sixCharacters.card = 37 ^ 6 := by
  rw [sixCharacters, Finset.card_image_of_injective _ usernameOf_injective, Finset.card_univ,
    Fintype.card_fun, Fintype.card_fin, Fintype.card_fin]

theorem checkUsername_sixCharacters {u : Bytes} (h : u ∈ sixCharacters) :
    checkUsername u = .valid := by
  obtain ⟨chars, -, rfl⟩ := Finset.mem_image.1 h
  exact checkUsername_usernameOf (by decide) (by decide) chars

/-- Primes differ only if the states do. So two of any 2³¹ - 1 user names share a prime, and there
are two valid ones that do. -/
theorem mapToPrime_collides (env : Env)
    (mpPrimeRandomEx : Nat → Nat → Nat → (Nat → UInt8) → Nat) :
    (∀ u v, mapToPrime env mpPrimeRandomEx u ≠ mapToPrime env mpPrimeRandomEx v →
      primeState env u ≠ primeState env v) ∧
    (∀ names : Finset Bytes, 2147483646 < names.card → ∃ u ∈ names, ∃ v ∈ names, u ≠ v ∧
      mapToPrime env mpPrimeRandomEx u = mapToPrime env mpPrimeRandomEx v) ∧
    ∃ u v, checkUsername u = .valid ∧ checkUsername v = .valid ∧ u ≠ v ∧
      mapToPrime env mpPrimeRandomEx u = mapToPrime env mpPrimeRandomEx v := by
  refine ⟨fun u v hne hstate => hne (mapToPrime_eq_of_state hstate),
    fun names h => exists_shared env mpPrimeRandomEx h, ?_⟩
  have hmany : 2147483646 < sixCharacters.card := by
    rw [card_sixCharacters]
    decide
  obtain ⟨u, hu, v, hv, hne, hprime⟩ := exists_shared env mpPrimeRandomEx hmany
  exact ⟨u, v, checkUsername_sixCharacters hu, checkUsername_sixCharacters hv, hne, hprime⟩

/-- In the small network `alice` and `alicf` have different hashes and the same prime. -/
theorem mapToPrime_collides_alice : ∃ u v : Bytes,
    checkUsername u = .valid ∧ checkUsername v = .valid ∧
    smallNet.usernameHash u ≠ smallNet.usernameHash v ∧
    ∀ mpPrimeRandomEx,
      mapToPrime smallNet mpPrimeRandomEx u = mapToPrime smallNet mpPrimeRandomEx v := by
  refine ⟨ascii "alice", ascii "alicf", by decide, by decide, by decide, fun _ => ?_⟩
  exact mapToPrime_eq_of_state (by decide)

end CoMoNet
