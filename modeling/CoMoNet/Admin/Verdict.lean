import CoMoNet.Admin.Modulus
import CoMoNet.Admin.Quorum

/-!
# Verdicts and the cache

`isAdmin` compares with the cached accumulator whether or not the update succeeded.
Before the first success the cache is zero and a zero witness passes (`not_admin_iff`).
Verdicts of two nodes agree if the update succeeds or the caches were equal
(`verdict_agrees`).
-/

namespace CoMoNet

open GuardedRun (System)

/-! ## A process -/

/-- The cache after a call of `updateAccumulator`, which may have thrown. -/
def afterUpdate (env : Env) (w : World) (cache : Nat) : Nat :=
  match updateAccumulator env w cache with
  | .error _ => cache
  | .ok (_, cache') => cache'

/-- The cache of a process: it starts with zero and is changed by updates only. -/
def cacheSystem (env : Env) : System Nat World where
  init cache := cache = 0
  step cache w cache' := cache' = afterUpdate env w cache

/-- The update validates no accumulator other than zero. -/
def NotValidated (env : Env) (cache : Nat) (w : World) : Prop :=
  ∀ r cache', updateAccumulator env w cache = .ok (r, cache') →
    r ≠ .accChanged ∧ (r = .accUnchanged → cache' = 0)

section Validated

variable {env : Env} {w : World} {mapToPrime : Bytes → Nat} {cache : Nat}
variable {username witness : Bytes} {answer : AdminAnswer}

/-- Such an update leaves the cache zero. -/
theorem NotValidated.update (h : NotValidated env 0 w) {r : AccResult} {cache' : Nat}
    (hup : updateAccumulator env w 0 = .ok (r, cache')) : cache' = 0 := by
  obtain ⟨hchanged, hunchanged⟩ := h r cache' hup
  rcases updateAccumulator_cases hup with ⟨-, hsame⟩ | ⟨herror, -⟩
  · exact hsame
  · cases r with
    | accError => exact absurd rfl herror
    | accUnchanged => exact hunchanged rfl
    | accChanged => exact absurd rfl hchanged

/-- Without a validated accumulator the cache is zero. -/
theorem cache_zero (h : (cacheSystem env).Reach (NotValidated env) cache) : cache = 0 := by
  refine h.invariant (I := fun cache => cache = 0) (fun _ h0 => h0) ?_
  rintro c w c' rfl hok hstep
  rw [show c' = afterUpdate env w 0 from hstep, afterUpdate]
  cases hup : updateAccumulator env w 0 with
  | error e => rfl
  | ok result => exact hok.update hup

/-- Without a validated accumulator the verdict is negative unless the user is registered and the
witness is a multiple of the modulus. -/
theorem not_admin_iff (hreach : (cacheSystem env).Reach (NotValidated env) cache)
    (hnow : NotValidated env cache w) (hprime : (mapToPrime username).Prime)
    (h : isAdminWitness env mapToPrime w cache username witness = .ok answer) :
    answer.verdict = false ↔ w.getTransaction username = none ∨ witness = [] ∨
      ¬(modulo : Int) ∣ mpReadRadix witness := by
  obtain rfl := cache_zero hreach
  rw [isAdminWitness] at h
  split at h
  · rename_i hempty
    cases h
    exact iff_of_true rfl (.inr (.inl (List.isEmpty_iff.mp hempty)))
  rename_i hnonempty
  split at h
  · rename_i hnone
    cases h
    exact iff_of_true rfl (.inl hnone)
  rename_i tx htx
  split at h
  · cases h
  rename_i r cache' hup
  split at h
  swap
  · cases h
  cases h
  obtain rfl := hnow.update hup
  have hwitness : witness ≠ [] := fun h => hnonempty (List.isEmpty_iff.mpr h)
  simp only [htx, hwitness, reduceCtorEq, false_or]
  rw [← checkWitness_zero_iff hprime, Bool.not_eq_true]

end Validated

/-- A node where alice is registered and no accumulator is. -/
def noAdminWorld : World := worldOf [memberTx "alice" 1] []

theorem not_admin_iff_alice :
    isAdminWitness signNet (fun _ => 3) noAdminWorld 0 (ascii "alice") (ascii "2") =
        .ok ⟨false, .noError, 0⟩ ∧
      (false = false ↔ noAdminWorld.getTransaction (ascii "alice") = none ∨ ascii "2" = [] ∨
        ¬(modulo : Int) ∣ mpReadRadix (ascii "2")) := by
  have hup : updateAccumulator signNet noAdminWorld 0 = .ok (.accError, 0) := by decide +kernel
  have hnow : NotValidated signNet 0 noAdminWorld := by
    intro r cache' h
    rw [hup] at h
    cases h
    exact ⟨nofun, nofun⟩
  have h : isAdminWitness signNet (fun _ => 3) noAdminWorld 0 (ascii "alice") (ascii "2") =
      .ok ⟨false, .noError, 0⟩ := by decide +kernel
  exact ⟨h, not_admin_iff (.init rfl) hnow Nat.prime_three h⟩

/-- Alice is an administrator with the witness 0. -/
theorem zero_is_admin :
    updateAccumulator signNet noAdminWorld 0 = .ok (.accError, 0) ∧
      isAdminWitness signNet (fun _ => 3) noAdminWorld 0 (ascii "alice") (ascii "0") =
        .ok ⟨true, .noError, 0⟩ := by
  decide +kernel

/-! ## Two nodes -/

section Agreement

variable {env : Env} {w w' : World} {mapToPrime : Bytes → Nat} {cache cache' acc : Nat}
variable {username witness : Bytes} {r : AccResult}

/-- What an accepted update puts into the cache does not depend on what was
there. -/
theorem checkSignatures_cache {tx : CTransaction} {needed : Nat} {result : List Json}
    (hr : r ≠ .accError) (h : checkSignatures env w cache tx needed result = .ok (r, acc))
    (cache' : Nat) : ∃ r', checkSignatures env w cache' tx needed result = .ok (r', acc) := by
  rw [checkSignatures] at h ⊢
  split at h
  · cases h
    exact absurd rfl hr
  rename_i hne
  rw [if_neg hne]
  split at h
  · cases h
  rename_i validated hcount
  split at h
  · cases h
    exact absurd rfl hr
  rename_i henough
  rcases takeOver_cases h with ⟨hfail, -⟩ | ⟨-, hvalue, -⟩
  · exact absurd hfail hr
  · exact ⟨_, by rw [if_neg henough, takeOver_accepts hvalue]⟩

/-- The value taken over does not depend on the cache. -/
theorem updateAccumulator_cache (hr : r ≠ .accError)
    (h : updateAccumulator env w cache = .ok (r, acc)) (cache' : Nat) :
    ∃ r', updateAccumulator env w cache' = .ok (r', acc) := by
  cases hfirst : w.getTransaction (adminName 1) with
  | none =>
    rw [updateAccumulator_none hfirst] at h
    cases h
    exact absurd rfl hr
  | some first =>
    obtain ⟨n, previous, tx, hlast, -⟩ := exists_lastAdmin hfirst
    rw [updateAccumulator_eq hlast, updateFrom] at h ⊢
    split at h
    · cases h
    split at h
    · cases h
    exact checkSignatures_cache hr h cache'

theorem countValid_congr (env : Env) (message : Bytes) {entries : List (Bytes × Json)}
    (hkey : ∀ entry ∈ entries, verifyKey w' entry.1 = verifyKey w entry.1) :
    countValid env w' message entries = countValid env w message entries := by
  induction entries with
  | nil => rfl
  | cons entry entries ih =>
    have hone : ∀ signature, verifymessage env w' entry.1 signature message =
        verifymessage env w entry.1 signature message := fun signature => by
      rw [verifymessage, verifymessage, hkey entry List.mem_cons_self]
    simp only [countValid, hone, ih fun e he => hkey e (List.mem_cons_of_mem _ he)]

/-- The update depends on chain, replies and keys. -/
theorem updateAccumulator_congr (env : Env) (cache : Nat)
    (hchain : w'.getTransaction = w.getTransaction)
    (hdht : w'.dhtget = w.dhtget)
    (hkey : ∀ address, ∀ entry ∈ entriesAt w 1 address,
      verifyKey w' entry.1 = verifyKey w entry.1) :
    updateAccumulator env w' cache = updateAccumulator env w cache := by
  have hcheck : ∀ tx needed address, checkSignatures env w' cache tx needed (w.dhtget 1 address) =
      checkSignatures env w cache tx needed (w.dhtget 1 address) := by
    intro tx needed address
    have hcount := countValid_congr env (signedText tx) (hkey address)
    rw [entriesAt] at hcount
    rw [checkSignatures, checkSignatures, hcount]
  simp only [updateAccumulator, updateFrom, hchain, hdht, hcheck]

/-- Nodes with the same chain, DHT answers and keys give the same verdict, if their caches were
equal or the update succeeds. -/
theorem verdict_agrees (hchain : w'.getTransaction = w.getTransaction)
    (hdht : w'.dhtget = w.dhtget)
    (hkey : ∀ address, ∀ entry ∈ entriesAt w 1 address, verifyKey w' entry.1 = verifyKey w entry.1)
    (hcache : cache' = cache ∨
      ∃ r acc, r ≠ .accError ∧ updateAccumulator env w cache = .ok (r, acc)) :
    (isAdminWitness env mapToPrime w' cache' username witness).map AdminAnswer.verdict =
      (isAdminWitness env mapToPrime w cache username witness).map AdminAnswer.verdict := by
  have hup := fun cache => updateAccumulator_congr env cache hchain hdht hkey
  simp only [isAdminWitness, hchain, hup]
  rcases hcache with rfl | ⟨r, acc, hr, hacc⟩
  · rfl
  · obtain ⟨r', hacc'⟩ := updateAccumulator_cache hr hacc cache'
    rw [hacc, hacc']
    split
    · rfl
    · cases w.getTransaction username with
      | none => rfl
      | some tx => rfl

end Agreement

/-- The node after the revocation, when the DHT has lost the signatures. -/
def forgottenWorld : World := worldOf revokedTxs []

theorem verdict_agrees_revoked :
    (isAdminWitness signNet (fun _ => 2) revokedWorld 0 (ascii "alice") (ascii "3")).map
        AdminAnswer.verdict =
      (isAdminWitness signNet (fun _ => 2) revokedWorld 7 (ascii "alice") (ascii "3")).map
        AdminAnswer.verdict :=
  verdict_agrees rfl rfl (fun _ _ _ => rfl)
    (.inr ⟨.accChanged, 9, nofun, by decide +kernel⟩)

/-- The same node with another key of its own under the name of alice. -/
def otherKeyWorld : World :=
  { revokedWorld with
      wallet :=
        { mapKeyMetadata := [(5, ⟨ascii "alice", []⟩)]
          getPubKey := fun _ => some (2 :: List.replicate 32 5)
          nodup := List.nodup_singleton 5 } }

/-- Processes with different pasts, and new processes with different keys. -/
theorem verdict_depends_on_node :
    (cacheSystem signNet).Reach (fun _ _ => True) 9 ∧
      (cacheSystem signNet).Reach (fun _ _ => True) 0 ∧
      (isAdminWitness signNet (fun _ => 2) forgottenWorld 9 (ascii "alice") (ascii "3")).map
        AdminAnswer.verdict = .ok true ∧
      (isAdminWitness signNet (fun _ => 2) forgottenWorld 0 (ascii "alice") (ascii "3")).map
        AdminAnswer.verdict = .ok false ∧
      (isAdminWitness signNet (fun _ => 2) revokedWorld 0 (ascii "alice") (ascii "3")).map
        AdminAnswer.verdict = .ok true ∧
      (isAdminWitness signNet (fun _ => 2) otherKeyWorld 0 (ascii "alice") (ascii "3")).map
        AdminAnswer.verdict = .ok false := by
  have hup : 9 = afterUpdate signNet revokedWorld 0 := by decide +kernel
  exact ⟨.step (a := revokedWorld) (.init rfl) trivial hup, .init rfl, by decide +kernel⟩

end CoMoNet
