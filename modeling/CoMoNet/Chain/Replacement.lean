import CoMoNet.Chain.Arrival
import CoMoNet.Admin.Quorum

/-!
# Key replacements

The signature of a replacement covers the new key only, not the user or the place in its
history, so the two pushes can be copied (`replacement_accepted_iff`).
-/

namespace CoMoNet

open CScript (extractPushData)

/-- The key a transaction registers, as `verifyDuplicateOrReplacementTx` reads
it. -/
def registeredKey (tx : CTransaction) : Option Bytes :=
  match extractPushData tx.pubKey with
  | some (vch :: _) => some (cPubKey vch)
  | _ => none

section Replacement

variable {env : Env} {fuel : Nat} {s : ChainState} {tx old : CTransaction} {maxHeight : Int}
variable {newKey sig oldKey : Bytes} {more : List Bytes}

/-- Pushes signed by `oldKey` replace a key with its id, and no other. -/
theorem isKeyReplacement_iff
    (hpushes : extractPushData tx.pubKey = some (newKey :: sig :: more))
    (hsigned : env.recoverCompact (env.messageHash newKey) sig = some oldKey) :
    isKeyReplacement env old tx = true ↔
      ∃ key, registeredKey old = some key ∧ env.hash160 oldKey = env.hash160 key := by
  rw [isKeyReplacement, registeredKey]
  simp only [hpushes, hsigned]
  cases hold : extractPushData old.pubKey with
  | none => simp
  | some pushes =>
    cases pushes with
    | nil => simp
    | cons vch rest => simp

/-- What `verifyDuplicateOrReplacementTx` says about a replacement. -/
theorem verifyReplacement_eq {found : Option (CTransaction × Uint256)}
    (hfound : getTransaction env fuel s tx.getUsername maxHeight = .ok found) :
    verifyDuplicateOrReplacementTx env fuel s tx false true maxHeight false =
      .ok (found.any fun old => isKeyReplacement env old.1 tx, s) := by
  rw [verifyDuplicateOrReplacementTx, hfound]
  cases found with
  | none => rfl
  | some old => rfl

/-- A transaction with pushes signed by `oldKey`, for any user and height, is accepted as a
replacement exactly if the user's key there is `oldKey`. Distinct keys have distinct ids. -/
theorem replacement_accepted_iff {copy : CTransaction} {found : Option (CTransaction × Uint256)}
    (hpushes : extractPushData tx.pubKey = some (newKey :: sig :: more))
    (hsigned : env.recoverCompact (env.messageHash newKey) sig = some oldKey)
    (hcopy : (extractPushData copy.pubKey).map (List.take 2) =
      (extractPushData tx.pubKey).map (List.take 2))
    (hfound : getTransaction env fuel s copy.getUsername maxHeight = .ok found)
    (hids : ∀ old hash key, found = some (old, hash) → registeredKey old = some key →
      env.hash160 oldKey = env.hash160 key → oldKey = key) :
    verifyDuplicateOrReplacementTx env fuel s copy false true maxHeight false = .ok (true, s) ↔
      ∃ old hash, found = some (old, hash) ∧ registeredKey old = some oldKey := by
  rw [verifyReplacement_eq hfound]
  obtain ⟨more', hpair⟩ : ∃ more', extractPushData copy.pubKey =
      some (newKey :: sig :: more') := by
    rw [hpushes, Option.map_some, Option.map_eq_some_iff] at hcopy
    obtain ⟨pushes, hpushes', htake⟩ := hcopy
    refine ⟨pushes.drop 2, ?_⟩
    rw [hpushes', ← List.take_append_drop 2 pushes, htake]
    simp
  cases found with
  | none => simp
  | some found =>
    obtain ⟨old, hash⟩ := found
    simp only [Option.any_some, Except.ok.injEq, Prod.mk.injEq, and_true,
      isKeyReplacement_iff hpair hsigned]
    constructor
    · rintro ⟨key, hkey, hid⟩
      obtain rfl := hids old hash key rfl hkey hid
      exact ⟨old, hash, rfl, hkey⟩
    · rintro ⟨old', hash', heq, hkey⟩
      cases heq
      exact ⟨oldKey, hkey, rfl⟩

end Replacement

/-! ### Two users with one key

Alice and bob register the same key.  Alice moves to a second key and back to the
first one. -/

/-- A key. -/
def numberedKey (k : UInt8) : Bytes := 2 :: List.replicate 32 k

/-- A registration. -/
def keyRegistration (user : String) (k : UInt8) (nonce : Nat) : CTransaction :=
  { userName := CScript.push (ascii user), pubKey := CScript.push (numberedKey k), nNonce := nonce }

/-- A replacement. -/
def keyReplacement (user : String) (k before : UInt8) (nonce : Nat) : CTransaction :=
  let sig : Bytes := [before, UInt8.ofNat (signNet.messageHash (numberedKey k) % 251)]
  { userName := CScript.push (ascii user)
    pubKey := CScript.push (numberedKey k) ++ CScript.push sig
    nNonce := nonce }

/-- Registrations and replacements. -/
def keyBlocks : List CBlockIndex :=
  let first := smallIndex smallGenesis (smallBlock smallNet.genesisBlock 1
    [keyRegistration "alice" 1 10, keyRegistration "bob" 1 11])
  let second := smallIndex first (smallBlock first.block 2 [keyReplacement "alice" 2 1 12])
  let third := smallIndex second (smallBlock second.block 3 [keyReplacement "alice" 1 2 13])
  [smallGenesis, first, second, third]

/-- The chain after `n` of the blocks. -/
def keyState (n : Nat) : ChainState :=
  stateAfter signNet (fun _ _ => true) ((keyBlocks.take n).flatMap arrive)

theorem replacement_accepted_iff_bob :
    verifyDuplicateOrReplacementTx signNet 8 (keyState 3) (keyReplacement "bob" 2 1 14)
      false true (-1) false = .ok (true, keyState 3) := by
  obtain ⟨hpushes, hsigned, hcopy, hfound, hkey⟩ :
      extractPushData (keyReplacement "alice" 2 1 12).pubKey =
        some [numberedKey 2, [1, UInt8.ofNat (signNet.messageHash (numberedKey 2) % 251)]] ∧
      signNet.recoverCompact (signNet.messageHash (numberedKey 2))
          [1, UInt8.ofNat (signNet.messageHash (numberedKey 2) % 251)] = some (numberedKey 1) ∧
      (extractPushData (keyReplacement "bob" 2 1 14).pubKey).map (List.take 2) =
        (extractPushData (keyReplacement "alice" 2 1 12).pubKey).map (List.take 2) ∧
      getTransaction signNet 8 (keyState 3) (keyReplacement "bob" 2 1 14).getUsername (-1) =
        .ok (some (keyRegistration "bob" 1 11, 1)) ∧
      registeredKey (keyRegistration "bob" 1 11) = some (numberedKey 1) := by
    decide +kernel
  refine (replacement_accepted_iff hpushes hsigned hcopy hfound ?_).mpr ⟨_, _, rfl, hkey⟩
  intro old hash key hold hregistered _
  cases hold
  rw [hkey] at hregistered
  exact Option.some.inj hregistered

/-- The first replacement of alice is accepted when issued, for bob, and once more when alice is
back at the first key. -/
theorem copied_pair_accepted :
    (Reachable signNet (keyState 2) ∧ Reachable signNet (keyState 3) ∧
      Reachable signNet (keyState 4)) ∧
    (verifyDuplicateOrReplacementTx signNet 8 (keyState 2) (keyReplacement "alice" 2 1 12)
        false true (-1) false).map Prod.fst = .ok true ∧
    (verifyDuplicateOrReplacementTx signNet 8 (keyState 3) (keyReplacement "bob" 2 1 14)
        false true (-1) false).map Prod.fst = .ok true ∧
    (getTransaction signNet 8 (keyState 3) (ascii "alice") (-1)).map
        (fun found => found.bind fun old => registeredKey old.1) = .ok (some (numberedKey 2)) ∧
    (verifyDuplicateOrReplacementTx signNet 8 (keyState 4) (keyReplacement "alice" 2 1 15)
        false true (-1) false).map Prod.fst = .ok true := by
  obtain ⟨h₂, h₃, h₄, hcalls⟩ :
      (runLabels signNet (fun _ _ => true) {} ((keyBlocks.take 2).flatMap arrive)).isSome = true ∧
      (runLabels signNet (fun _ _ => true) {} ((keyBlocks.take 3).flatMap arrive)).isSome = true ∧
      (runLabels signNet (fun _ _ => true) {} ((keyBlocks.take 4).flatMap arrive)).isSome = true ∧
      (verifyDuplicateOrReplacementTx signNet 8 (keyState 2) (keyReplacement "alice" 2 1 12)
        false true (-1) false).map Prod.fst = .ok true ∧
      (verifyDuplicateOrReplacementTx signNet 8 (keyState 3) (keyReplacement "bob" 2 1 14)
        false true (-1) false).map Prod.fst = .ok true ∧
      (getTransaction signNet 8 (keyState 3) (ascii "alice") (-1)).map
        (fun found => found.bind fun old => registeredKey old.1) = .ok (some (numberedKey 2)) ∧
      (verifyDuplicateOrReplacementTx signNet 8 (keyState 4) (keyReplacement "alice" 2 1 15)
        false true (-1) false).map Prod.fst = .ok true := by
    decide +kernel
  have hreach : ∀ n, (runLabels signNet (fun _ _ => true) {}
      ((keyBlocks.take n).flatMap arrive)).isSome = true → Reachable signNet (keyState n) :=
    fun n h => reach_stateAfter (fun _ _ _ => trivial) h
  exact ⟨⟨hreach 2 h₂, hreach 3 h₃, hreach 4 h₄⟩, hcalls⟩

end CoMoNet
