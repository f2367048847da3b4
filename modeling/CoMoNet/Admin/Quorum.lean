import CoMoNet.Admin.Accumulator
import CoMoNet.Chain.Run

/-!
# The quorum of an update

An update takes over the accumulator of `_admin_n` when more than half as many entries
have valid signatures as are listed at the address of `_admin_(n-1)` (`update_quorum`).
Who signed is not compared with who is listed (`strangers_take_over`), and old
signatures stay valid (`replay_accepted_iff`).
-/

namespace CoMoNet

open CScript (toStr)

section Quorum

variable {env : Env} {w : World} {cache cache' n acc : Nat} {r : AccResult}
variable {previous tx : CTransaction} {address addressPrevious : Bytes}

/-- The entries of a reply. -/
def entriesAt (w : World) (call : Nat) (address : Bytes) : List (Bytes × Json) :=
  signatureEntries (w.dhtget call address)

/-- An accepted update has valid signatures of more than half as many entries as the address
before lists. -/
theorem update_quorum (h : updateAccumulator env w cache = .ok (r, cache'))
    (hr : r ≠ .accError) :
    ∃ n previous tx, LastAdmin w n previous tx ∧ accumulatorValue tx = some cache' ∧
      (2 ≤ n → ∃ address addressPrevious,
        unhex (toStr tx.pubKey) = some address ∧
        unhex (toStr previous.pubKey) = some addressPrevious ∧
        (entriesAt w 0 addressPrevious).length <
          2 * (entriesAt w 1 address).countP (validEntry env w (signedText tx))) := by
  rcases updateAccumulator_cases h with ⟨hfail, -⟩ |
    ⟨-, -, n, previous, tx, hlast, hvalue, address, addressPrevious, haddress, hprevious, hcount⟩
  · exact absurd hfail hr
  · refine ⟨n, previous, tx, hlast, hvalue, fun hn => ⟨address, addressPrevious, haddress, ?_, ?_⟩⟩
    · rwa [if_neg (by omega)] at hprevious
    · have hone : n ≠ 1 := by omega
      simp only [computeNeededSignatures, hone, decide_false, Bool.false_eq_true,
        if_false] at hcount
      simp only [entriesAt]
      omega

/-- When an update with readable replies is accepted. -/
theorem updateFrom_accepts_iff (hisFirst : n ≠ 1)
    (haddress : unhex (toStr tx.pubKey) = some address)
    (hprevious : unhex (toStr previous.pubKey) = some addressPrevious)
    (hcheck : ∀ entry ∈ entriesAt w 1 address, Checkable w entry)
    (hvalue : accumulatorValue tx = some acc) :
    (∃ r, r ≠ .accError ∧ updateFrom env w cache (n = 1) previous tx = .ok (r, acc)) ↔
      (entriesAt w 0 addressPrevious).length <
        2 * (entriesAt w 1 address).countP (validEntry env w (signedText tx)) := by
  obtain ⟨k, hk⟩ : ∃ k, countValid env w (signedText tx) (entriesAt w 1 address) = .ok k :=
    countValid_returns_iff.mpr hcheck
  have hcount := countValid_eq hk
  simp only [updateFrom, hisFirst, haddress, decide_false, Bool.false_eq_true, if_false, hprevious,
    computeNeededSignatures, checkSignatures]
  rw [entriesAt] at hk
  rw [← hcount, hk]
  constructor
  · rintro ⟨r, hr, h⟩
    split at h
    · cases h
      exact absurd rfl hr
    simp only at h
    split at h
    · cases h
      exact absurd rfl hr
    · rename_i henough
      simp only [entriesAt]
      omega
  · intro henough
    simp only [entriesAt] at henough
    have hne : (w.dhtget 1 address).isEmpty = false := by
      cases hreply : w.dhtget 1 address with
      | nil =>
        rw [hreply] at hk
        cases hk
        omega
      | cons v vs => rfl
    simp only [hne, Bool.false_eq_true, if_false]
    rw [if_neg (by omega), takeOver_accepts hvalue]
    exact ⟨_, by split <;> simp, rfl⟩

/-- `_admin_(n+1)` registered with the accumulator and address of an older transaction is accepted
exactly if its signatures are valid for more than half as many entries as `_admin_n` has. -/
theorem replay_accepted_iff {w' : World} {old replayed : CTransaction}
    (hn : LastAdmin w n previous tx) (hroom : n ≤ maxTries)
    (hsame : ∀ j, 1 ≤ j → j ≤ n →
      w'.getTransaction (adminName j) = w.getTransaction (adminName j))
    (hnext : w'.getTransaction (adminName (n + 1)) = some replayed)
    (hstop : n + 1 ≤ maxTries → w'.getTransaction (adminName (n + 2)) = none)
    (hacc : replayed.accumulator = old.accumulator) (hkey : replayed.pubKey = old.pubKey)
    (haddress : unhex (toStr old.pubKey) = some address)
    (hprevious : unhex (toStr tx.pubKey) = some addressPrevious)
    (hcheck : ∀ entry ∈ entriesAt w' 1 address, Checkable w' entry)
    (hvalue : accumulatorValue old = some acc) :
    (∃ r, r ≠ .accError ∧ updateAccumulator env w' cache = .ok (r, acc)) ↔
      (entriesAt w' 0 addressPrevious).length <
        2 * (entriesAt w' 1 address).countP (validEntry env w' (signedText old)) := by
  have hlast : LastAdmin w' (n + 1) tx replayed := by
    refine ⟨by omega, by omega, ?_, hnext, fun _ => ?_, hstop⟩
    · intro j hj hjn
      rcases Nat.lt_or_ge n j with hlt | hge
      · rw [show j = n + 1 by omega, hnext]
        rfl
      · rw [hsame j hj hge]
        exact hn.registered j hj hge
    · rw [Nat.add_sub_cancel, hsame n hn.pos (Nat.le_refl n)]
      exact hn.last
  have htext : signedText replayed = signedText old := by rw [signedText, hacc]; rfl
  rw [updateAccumulator_eq hlast, ← htext]
  refine updateFrom_accepts_iff (by have := hn.pos; omega) ?_ hprevious hcheck ?_
  · rw [hkey]
    exact haddress
  · rw [accumulatorValue, hacc]
    exact hvalue

end Quorum

/-! ## A small group

Signatures of the small network: the key byte of the signer and a checksum of
the text, in base64. -/

/-- A network where a signature is a key and a checksum. -/
def signNet : Env :=
  { smallNet with
      recoverCompact := fun hash vchSig =>
        match vchSig with
        | [k, c] => if c.toNat = hash % 251 then some (2 :: List.replicate 32 k) else none
        | _ => none }

/-- A registration of a member. -/
def memberTx (name : String) (k : UInt8) : CTransaction :=
  { userName := CScript.push (ascii name), pubKey := CScript.push (2 :: List.replicate 32 k) }

/-- The registration of `_admin_i` with an address and an accumulator. -/
def adminTx (i : Nat) (address : String) (acc : UInt8) : CTransaction :=
  { userName := CScript.push (adminName i), pubKey := CScript.push (ascii address),
    accumulator := CScript.push [acc] }

/-- The signature of an accumulator. -/
def memberSign (k acc : UInt8) : Json :=
  let c := signNet.messageHash (signedText (adminTx 1 "" acc)) % 251
  let digit (n : Nat) : UInt8 :=
    (ascii "ABCDEFGHIJKLMNOPQRSTUVWXYZabcdefghijklmnopqrstuvwxyz0123456789+/").getD n 0
  .str [digit (k.toNat / 4), digit (k.toNat % 4 * 16 + c / 16), digit (c % 16 * 4), 61]

/-- A reply with signatures. -/
def reply (signatures : List (String × Json)) : List Json :=
  [.obj [(ascii "p", .obj [(ascii "v", .obj (signatures.map fun m => (ascii m.1, m.2)))])]]

/-- A node with an empty wallet, its chain and the replies of the DHT. -/
def worldOf (txs : List CTransaction) (replies : List (String × List Json)) : World where
  getTransaction u := txs.find? fun tx => tx.getUsername == u
  dhtget _ address := ((replies.find? fun r => ascii r.1 == address).map Prod.snd).getD []
  wallet := ⟨[], fun _ => none, List.nodup_nil⟩

/-! ### Strangers -/

/-- The users listed at the address before, and those of them who validly signed. -/
def listedAndSigned (env : Env) (w : World) (previous tx : CTransaction) :
    Option (List Bytes × List Bytes) :=
  match unhex (toStr previous.pubKey), unhex (toStr tx.pubKey) with
  | some addressPrevious, some address =>
    let listed := ((entriesAt w 0 addressPrevious).map Prod.fst).dedup
    some (listed, listed.filter fun u => (entriesAt w 1 address).any fun entry =>
      entry.1 == u && validEntry env w (signedText tx) entry)
  | _, _ => none

/-- The members are alice and bob; mallory and trudy sign for a new value. -/
def strangersTxs : List CTransaction :=
  [memberTx "mallory" 3, memberTx "trudy" 4, adminTx 1 "addr1" 7, adminTx 2 "addr2" 9]

/-- The node that sees it. -/
def strangersWorld : World :=
  worldOf strangersTxs
    [("addr1", reply [("alice", memberSign 1 7), ("bob", memberSign 2 7)]),
      ("addr2", reply [("mallory", memberSign 3 9), ("trudy", memberSign 4 9)])]

/-- Nobody of the group has signed. -/
theorem strangers_take_over :
    (∀ tx ∈ strangersTxs, (checkTransaction signNet tx).isValid = true) ∧
      updateAccumulator signNet strangersWorld 7 = .ok (.accChanged, 9) ∧
      listedAndSigned signNet strangersWorld (adminTx 1 "addr1" 7) (adminTx 2 "addr2" 9) =
        some ([ascii "alice", ascii "bob"], []) := by
  decide +kernel

/-! ### A replay -/

/-- Three members and two accumulators; carol is not in the second one. -/
def revokedTxs : List CTransaction :=
  [memberTx "alice" 1, memberTx "bob" 2, memberTx "carol" 3, adminTx 1 "addr1" 7,
    adminTx 2 "addr2" 9]

/-- What the members have published. -/
def publishedReplies : List (String × List Json) :=
  [("addr1", reply [("alice", memberSign 1 7), ("bob", memberSign 2 7), ("carol", memberSign 3 7)]),
    ("addr2", reply [("alice", memberSign 1 9), ("bob", memberSign 2 9)])]

/-- The node that sees it. -/
def revokedWorld : World := worldOf revokedTxs publishedReplies

/-- Someone registers the first accumulator and its address again. -/
def replayedWorld : World := worldOf (revokedTxs ++ [adminTx 3 "addr1" 7]) publishedReplies

theorem update_quorum_revoked :
    updateAccumulator signNet revokedWorld 7 = .ok (.accChanged, 9) ∧
      ∃ n previous tx, LastAdmin revokedWorld n previous tx ∧ accumulatorValue tx = some 9 ∧
        (2 ≤ n → ∃ address addressPrevious,
          unhex (toStr tx.pubKey) = some address ∧
          unhex (toStr previous.pubKey) = some addressPrevious ∧
          (entriesAt revokedWorld 0 addressPrevious).length <
            2 * (entriesAt revokedWorld 1 address).countP
              (validEntry signNet revokedWorld (signedText tx))) := by
  have h : updateAccumulator signNet revokedWorld 7 = .ok (.accChanged, 9) := by decide +kernel
  exact ⟨h, update_quorum h nofun⟩

/-- The old value is put back with the old signatures. -/
theorem replay_undoes_revocation :
    (∀ tx ∈ revokedTxs ++ [adminTx 3 "addr1" 7], (checkTransaction signNet tx).isValid = true) ∧
      updateAccumulator signNet revokedWorld 7 = .ok (.accChanged, 9) ∧
      updateAccumulator signNet replayedWorld 9 = .ok (.accChanged, 7) := by
  decide +kernel

theorem revokedWorld_lastAdmin :
    LastAdmin revokedWorld 2 (adminTx 1 "addr1" 7) (adminTx 2 "addr2" 9) where
  pos := by decide
  le := by decide
  registered := by
    intro i hi hi'
    obtain rfl | rfl : i = 1 ∨ i = 2 := by omega
    · decide +kernel
    · decide +kernel
  last := by decide +kernel
  before _ := by decide +kernel
  stop _ := by decide +kernel

theorem replay_accepted_iff_revoked :
    (∃ r, r ≠ .accError ∧ updateAccumulator signNet replayedWorld 9 = .ok (r, 7)) ↔
      (entriesAt replayedWorld 0 (ascii "addr2")).length <
        2 * (entriesAt replayedWorld 1 (ascii "addr1")).countP
          (validEntry signNet replayedWorld (signedText (adminTx 1 "addr1" 7))) := by
  have hsame : ∀ j, 1 ≤ j → j ≤ 2 →
      replayedWorld.getTransaction (adminName j) = revokedWorld.getTransaction (adminName j) := by
    intro j hj hj'
    obtain rfl | rfl : j = 1 ∨ j = 2 := by omega
    · decide +kernel
    · decide +kernel
  have hnext : replayedWorld.getTransaction (adminName 3) = some (adminTx 3 "addr1" 7) := by
    decide +kernel
  have hcount : countValid signNet replayedWorld (signedText (adminTx 1 "addr1" 7))
      (entriesAt replayedWorld 1 (ascii "addr1")) = .ok 3 := by decide +kernel
  exact replay_accepted_iff revokedWorld_lastAdmin (by decide) hsame hnext
    (fun _ => by decide +kernel) rfl rfl (by decide +kernel) (by decide +kernel)
    (countValid_returns_iff.mp ⟨3, hcount⟩) (by decide +kernel)

end CoMoNet
