import CoMoNet.Admin.Quorum

/-!
# When an update returns

An update returns exactly if nothing that it reads from the chain and from the DHT makes
one of the functions throw that it calls (`update_returns_iff`).
-/

namespace CoMoNet

/-! ## What an update reads -/

/-- Nothing read for the last two accumulators throws: addresses are hexadecimal, entries can be
checked, and an accumulator with enough signatures has a push. -/
structure Readable (env : Env) (w : World) (isFirst : Bool) (previous tx : CTransaction)
    (address addressPrevious : Bytes) : Prop where
  decodes : unhex (CScript.toStr tx.pubKey) = some address
  decodesPrevious : unhex (CScript.toStr (if isFirst then tx else previous).pubKey) =
    some addressPrevious
  entries : ∀ entry ∈ entriesAt w 1 address, Checkable w entry
  push : w.dhtget 1 address ≠ [] →
    computeNeededSignatures (w.dhtget 0 addressPrevious) isFirst ≤
      (entriesAt w 1 address).countP (validEntry env w (signedText tx)) →
    CScript.extractPushData tx.accumulator ≠ some []

/-- The accumulators that are registered, if any, are readable. -/
def Answerable (env : Env) (w : World) : Prop :=
  ∀ n previous tx, LastAdmin w n previous tx →
    ∃ address addressPrevious, Readable env w (n = 1) previous tx address addressPrevious

section Returns

variable {env : Env} {w : World} {cache needed : Nat} {previous tx : CTransaction}
variable {isFirst : Bool} {result : List Json}

/-- Only an accumulator without a push makes the end of an update throw. -/
theorem takeOver_returns_iff : (∃ x, takeOver cache tx = .ok x) ↔
    CScript.extractPushData tx.accumulator ≠ some [] := by
  rw [takeOver]
  cases CScript.extractPushData tx.accumulator with
  | none => exact iff_of_true ⟨_, rfl⟩ (by simp)
  | some pushes =>
    cases pushes with
    | nil => exact iff_of_false (by simp) fun h => h rfl
    | cons vch rest =>
      refine iff_of_true ?_ (by simp)
      by_cases hsame : cache = bigEndian vch
      · exact ⟨_, if_pos hsame⟩
      · exact ⟨_, if_neg hsame⟩

theorem checkSignatures_returns_iff :
    (∃ x, checkSignatures env w cache tx needed result = .ok x) ↔
      (∀ entry ∈ signatureEntries result, Checkable w entry) ∧
        (result ≠ [] →
          needed ≤ (signatureEntries result).countP (validEntry env w (signedText tx)) →
          CScript.extractPushData tx.accumulator ≠ some []) := by
  rw [checkSignatures]
  cases result with
  | nil =>
    exact iff_of_true ⟨_, rfl⟩ ⟨fun _ h => absurd h List.not_mem_nil, fun h => absurd rfl h⟩
  | cons object rest =>
    simp only [List.isEmpty_cons, Bool.false_eq_true, if_false, ne_eq, reduceCtorEq,
      not_false_eq_true, forall_const]
    rw [← show (∃ k, countValid env w (signedText tx)
      (signatureEntries (object :: rest)) = .ok k) ↔ _
      from countValid_returns_iff]
    cases hcount : countValid env w (signedText tx) (signatureEntries (object :: rest)) with
    | error e =>
      refine iff_of_false (by simp) fun h => ?_
      obtain ⟨⟨k, hk⟩, -⟩ := h
      cases hk
    | ok validated =>
      rw [← countValid_eq hcount]
      by_cases hfew : validated < needed
      · simp only [if_pos hfew]
        exact iff_of_true ⟨_, rfl⟩ ⟨⟨_, rfl⟩, fun h => by omega⟩
      · simp only [if_neg hfew, takeOver_returns_iff]
        exact ⟨fun h => ⟨⟨_, rfl⟩, fun _ => h⟩, fun h => h.2 (by omega)⟩

/-- The rest of an update returns iff what it reads is readable. -/
theorem updateFrom_returns_iff :
    (∃ x, updateFrom env w cache isFirst previous tx = .ok x) ↔
      ∃ address addressPrevious, Readable env w isFirst previous tx address addressPrevious := by
  rw [updateFrom]
  cases haddress : unhex (CScript.toStr tx.pubKey) with
  | none =>
    refine iff_of_false (by simp) ?_
    rintro ⟨_, _, h⟩
    rw [h.decodes] at haddress
    cases haddress
  | some address =>
    cases hprevious : unhex (CScript.toStr (if isFirst then tx else previous).pubKey) with
    | none =>
      refine iff_of_false (by simp) ?_
      rintro ⟨_, _, h⟩
      rw [h.decodesPrevious] at hprevious
      cases hprevious
    | some addressPrevious =>
      simp only [checkSignatures_returns_iff]
      refine ⟨fun h => ⟨_, _, haddress, hprevious, h.1, h.2⟩, ?_⟩
      rintro ⟨_, _, h⟩
      obtain rfl := Option.some.inj (haddress.symm.trans h.decodes)
      obtain rfl := Option.some.inj (hprevious.symm.trans h.decodesPrevious)
      exact ⟨h.entries, h.push⟩

/-- An update returns, with the cache unchanged if it is `ACC_ERROR`, exactly if what it reads
does not throw. -/
theorem update_returns_iff :
    (∃ r cache', updateAccumulator env w cache = .ok (r, cache') ∧
      (r = .accError → cache' = cache)) ↔ Answerable env w := by
  have hcodes : (∃ r cache', updateAccumulator env w cache = .ok (r, cache') ∧
      (r = .accError → cache' = cache)) ↔ ∃ x, updateAccumulator env w cache = .ok x := by
    refine ⟨fun ⟨r, cache', h, _⟩ => ⟨_, h⟩, ?_⟩
    rintro ⟨⟨r, cache'⟩, h⟩
    refine ⟨r, cache', h, fun hr => ?_⟩
    rcases updateAccumulator_cases h with ⟨-, hsame⟩ | ⟨hne, -⟩
    · exact hsame
    · exact absurd hr hne
  rw [hcodes]
  cases hfirst : w.getTransaction (adminName 1) with
  | none =>
    refine iff_of_true ⟨_, updateAccumulator_none hfirst⟩ ?_
    intro n previous tx h
    have hregistered := h.registered 1 (Nat.le_refl 1) h.pos
    rw [hfirst] at hregistered
    cases hregistered
  | some first =>
    obtain ⟨n, previous, tx, hlast, -⟩ := exists_lastAdmin hfirst
    rw [updateAccumulator_eq hlast, updateFrom_returns_iff]
    refine ⟨fun h m previous' tx' hlast' => ?_, fun h => h n previous tx hlast⟩
    have hsame : updateFrom env w cache (m = 1) previous' tx' =
        updateFrom env w cache (n = 1) previous tx := by
      rw [← updateAccumulator_eq hlast', ← updateAccumulator_eq hlast]
    rw [← updateFrom_returns_iff] at h ⊢
    rwa [hsame]

end Returns

theorem update_returns_revoked : Answerable signNet revokedWorld := by
  have h : updateAccumulator signNet revokedWorld 7 = .ok (.accChanged, 9) := by decide +kernel
  exact update_returns_iff.mp ⟨_, _, h, nofun⟩

/-! ## Updates that throw -/

/-- An address of three bytes, which a script prints as a number. -/
def shortAddressTx : CTransaction := adminTx 1 "abc" 7

/-- An accumulator without a push. -/
def noPushTx : CTransaction := { adminTx 1 "addr1" 7 with accumulator := [] }

/-- An entry that is no text, one of an unregistered user, an address that is not hexadecimal, an
accumulator without a push. -/
theorem updates_throw :
    (∀ tx ∈ [memberTx "alice" 1, adminTx 1 "addr1" 7, shortAddressTx, noPushTx],
        (checkTransaction signNet tx).isValid = true) ∧
      updateAccumulator signNet
        (worldOf [memberTx "alice" 1, adminTx 1 "addr1" 7] [("addr1", reply [("alice", .int 1)])])
        0 = .error (.runtime "value is type int, expected str") ∧
      updateAccumulator signNet
        (worldOf [memberTx "alice" 1, adminTx 1 "addr1" 7]
          [("addr1", reply [("bob", memberSign 2 7)])]) 0 =
        .error (.rpc rpcWalletInvalidAccountName
          "Error: this username does not exist in tx database") ∧
      updateAccumulator signNet (worldOf [shortAddressTx] []) 0 = .error .hexDecode ∧
      updateAccumulator signNet (worldOf [noPushTx] [("addr1", [.obj []])]) 0 =
        .error .outOfRange := by
  decide +kernel

end CoMoNet
