import CoMoNet.Merkle.Partial
import Mathlib.Algebra.Group.Action.Defs
import Mathlib.Algebra.Order.BigOperators.Group.List

/-!
# Merkle blocks

A `CMerkleBlock` is a header and the partial Merkle tree of the transactions a filter
matches. `ExtractMatches` refuses more than `MAX_BLOCK_SIZE / 60` transactions, though a
registration can take 15 bytes (`merkleBlock_iff`).
-/

namespace CoMoNet

/-- `CMerkleBlock`. -/
structure CMerkleBlock where
  header : CBlockHeader
  txn : CPartialMerkleTree
  vMatchedTxn : List (Nat × Uint256)

section Build

variable {Filter : Type} (isRelevantAndUpdate : Filter → CTransaction → Uint256 → Bool × Filter)

/-- The loop of the constructor: mask, matches and filter. The first transaction always matches. -/
def matchTransactions (env : Env) : Nat → Filter → List CTransaction →
    List Bool × List (Nat × Uint256) × Filter
  | _, filter, [] => ([], [], filter)
  | i, filter, tx :: vtx =>
    let hash := env.txHash tx
    let (fMatch, filter) := if i = 0 then (true, filter) else isRelevantAndUpdate filter tx hash
    let (vMatch, vMatchedTxn, filter) := matchTransactions env (i + 1) filter vtx
    (fMatch :: vMatch, if fMatch then (i, hash) :: vMatchedTxn else vMatchedTxn, filter)

/-- The constructor of `CMerkleBlock`. -/
def merkleBlock (env : Env) (block : CBlock) (filter : Filter) : CMerkleBlock :=
  let (vMatch, vMatchedTxn, _) := matchTransactions isRelevantAndUpdate env 0 filter block.vtx
  { header := block.toCBlockHeader
    txn := CPartialMerkleTree.build env (block.vtx.map env.txHash) vMatch
    vMatchedTxn }

variable {isRelevantAndUpdate} {env : Env} {filter : Filter}

theorem length_matchTransactions {i : Nat} {vtx : List CTransaction} :
    (matchTransactions isRelevantAndUpdate env i filter vtx).1.length = vtx.length := by
  induction vtx generalizing i filter with
  | nil => rfl
  | cons tx vtx ih => simp [matchTransactions, ih]

/-- Transactions of 60 bytes are not too many. -/
theorem length_le_of_sizes {block : CBlock} (hsize : block.serializeSize ≤ maxBlockSize)
    (h : ∀ tx ∈ block.vtx, 60 ≤ tx.serializeSize) : block.vtx.length ≤ maxBlockSize / 60 := by
  have hsum : block.vtx.length * 60 ≤ (block.vtx.map CTransaction.serializeSize).sum := by
    have := List.card_nsmul_le_sum (block.vtx.map CTransaction.serializeSize) 60 (by simpa using h)
    rwa [List.length_map, smul_eq_mul] at this
  rw [CBlock.serializeSize] at hsize
  rw [Nat.le_div_iff_mul_le (by decide)]
  omega

/-- A tree of too many transactions is refused. -/
theorem extractMatches_refused {t : CPartialMerkleTree}
    (h : maxBlockSize / 60 < t.nTransactions) : t.extractMatches env = (0, []) := by
  rw [CPartialMerkleTree.extractMatches, if_neg (by omega), if_pos h]

theorem extractMatches_merkleBlock {block : CBlock} (hne : block.vtx ≠ []) :
    ((merkleBlock isRelevantAndUpdate env block filter).txn.extractMatches env).1 =
      if block.vtx.length ≤ maxBlockSize / 60 then buildMerkleTree env block.vtx else 0 := by
  have hids : block.vtx.map env.txHash ≠ [] := by simpa using hne
  have hmask : (matchTransactions isRelevantAndUpdate env 0 filter block.vtx).1.length =
      (block.vtx.map env.txHash).length := by
    rw [length_matchTransactions, List.length_map]
  obtain ⟨bits, hashes, hbuild, -, -, -, hextract⟩ := build_spec env hids hmask
  have htxn : (merkleBlock isRelevantAndUpdate env block filter).txn =
      ⟨(block.vtx.map env.txHash).length, bits, hashes, false⟩ := hbuild
  rw [List.length_map] at htxn hextract
  rw [htxn]
  split
  · next hfew =>
      have hread := hextract 0 rfl hfew
      rw [List.replicate_zero, List.append_nil] at hread
      rw [hread, buildMerkleTree]
  · next hmany => rw [extractMatches_refused (Nat.not_le.mp hmany)]

/-- **Which Merkle blocks can be read.** For an accepted block and any filter, `ExtractMatches`
returns the root, and not 0, iff there are at most `MAX_BLOCK_SIZE / 60` transactions and the root
is not 0. -/
theorem merkleBlock_iff (now : Int) (block : CBlock) (fCheckPOW : Bool)
    (isRelevantAndUpdate : Filter → CTransaction → Uint256 → Bool × Filter) (filter : Filter)
    (hvalid : checkBlock env now block fCheckPOW true = .valid) :
    (((merkleBlock isRelevantAndUpdate env block filter).txn.extractMatches env).1 =
          block.hashMerkleRoot ∧
        ((merkleBlock isRelevantAndUpdate env block filter).txn.extractMatches env).1 ≠ 0 ↔
      block.vtx.length ≤ maxBlockSize / 60 ∧ block.hashMerkleRoot ≠ 0) ∧
    ((∀ tx ∈ block.vtx, 60 ≤ tx.serializeSize) → block.vtx.length ≤ maxBlockSize / 60) := by
  have valid := checkBlock_iff.mp hvalid
  refine ⟨?_, length_le_of_sizes valid.size⟩
  rw [extractMatches_merkleBlock valid.nonempty, ← valid.merkle rfl]
  split
  · next hfew => simp [hfew]
  · next hmany => simp [hmany]

end Build

/-! ## A block of many short transactions -/

/-- A block with three registrations, for a peer that waits for bob. -/
theorem merkleBlock_iff_bob :
    let block := smallBlock smallNet.genesisBlock 1
      [registration "alice" "a" 2, registration "bob" "b" 3, registration "carol" "c" 4]
    let waits := fun (names : List Bytes) (tx : CTransaction) (_ : Uint256) =>
      (names.contains tx.getUsername, names)
    (merkleBlock waits smallNet block [ascii "bob"]).vMatchedTxn = [(0, 1), (2, 3)] ∧
      ((merkleBlock waits smallNet block [ascii "bob"]).txn.extractMatches smallNet).1 =
        block.hashMerkleRoot := by
  intro block waits
  obtain ⟨hvalid, hmatched, hroot⟩ :
      checkBlock smallNet smallNet.startTime block true true = .valid ∧
      (merkleBlock waits smallNet block [ascii "bob"]).vMatchedTxn = [(0, 1), (2, 3)] ∧
      block.hashMerkleRoot ≠ 0 := by
    decide +kernel
  exact ⟨hmatched, ((merkleBlock_iff smallNet.startTime block true waits [ascii "bob"] hvalid).1.mpr
    ⟨by decide, hroot⟩).1⟩

/-- A digit. -/
def digitByte (d : Nat) : UInt8 := UInt8.ofNat (0x30 + d)

/-- A registration of three digits. -/
def shortTx (i : Nat) : CTransaction :=
  { userName := CScript.push [digitByte (i / 100), digitByte (i / 10 % 10), digitByte (i % 10)]
    pubKey := CScript.push (ascii "k")
    nNonce := i + 2 }

/-- A block with 834 of them. -/
def crowdedBlock : CBlock := smallBlock smallNet.genesisBlock 1 ((List.range 834).map shortTx)

theorem getUsernameHash_shortTx {i : Nat} (hi : i < 1000) :
    getUsernameHash smallNet (shortTx i) =
      0x303031 + i / 100 + 256 * (i / 10 % 10) + 65536 * (i % 10) := by
  have hdigit : ∀ d < 10, (digitByte d).toNat = 0x30 + d := by decide
  have hhash : getUsernameHash smallNet (shortTx i) =
      littleEndian [digitByte (i / 100), digitByte (i / 10 % 10), digitByte (i % 10)] + 1 := rfl
  rw [hhash]
  simp only [littleEndian, hdigit (i / 100) (by omega), hdigit (i / 10 % 10) (by omega),
    hdigit (i % 10) (by omega)]
  ring

/-- Different numbers make different names: the hash has their digits. -/
theorem getUsernameHash_shortTx_inj {i j : Nat} (hi : i < 1000) (hj : j < 1000)
    (h : getUsernameHash smallNet (shortTx i) = getUsernameHash smallNet (shortTx j)) : i = j := by
  have hdigits : ∀ a b c a' b' c' : Nat, a < 10 → b < 10 → a' < 10 → b' < 10 →
      0x303031 + a + 256 * b + 65536 * c = 0x303031 + a' + 256 * b' + 65536 * c' →
      a = a' ∧ b = b' ∧ c = c' := by
    intros
    omega
  rw [getUsernameHash_shortTx hi, getUsernameHash_shortTx hj] at h
  obtain ⟨hhigh, hmid, hlow⟩ :=
    hdigits _ _ _ _ _ _ (by omega) (by omega) (by omega) (by omega) h
  have hi' := Nat.div_div_eq_div_mul i 10 10
  have hj' := Nat.div_div_eq_div_mul j 10 10
  omega

theorem checkTransaction_shortTx {i : Nat} (hi : i < 1000) :
    checkTransaction smallNet (shortTx i) = .valid := by
  have hdigit : ∀ d < 10, checkUsernameChar (digitByte d) = none := by decide
  have hname : checkUsername (CScript.extractSmallString (shortTx i).userName) = .valid := by
    change checkUsername [digitByte (i / 100), digitByte (i / 10 % 10), digitByte (i % 10)] = _
    simp [checkUsername, maxUsernameSize, hdigit (i / 100) (by omega),
      hdigit (i / 10 % 10) (by omega), hdigit (i % 10) (by omega)]
  have hhash : getUsernameHash smallNet (shortTx i) ≠ 0 := by
    rw [getUsernameHash_shortTx hi, Nat.add_assoc, Nat.add_assoc]
    exact Nat.ne_of_gt (Nat.add_pos_left (by decide) _)
  have hregistration : checkRegistration smallNet (shortTx i) = .valid :=
    checkRegistration_iff.mpr ⟨List.cons_ne_nil _ _, List.cons_ne_nil _ _, rfl, hhash, hname⟩
  have hwork : checkProofOfWork smallNet (i + 2) smallNet.txBits = true := by
    have htarget : setCompact smallNet.txBits = 0x0300ff * 2 ^ 224 := by decide +kernel
    have hbounds : (decide (setCompact smallNet.txBits ≤ 0) ||
        decide (setCompact smallNet.txBits > smallNet.proofOfWorkLimit)) = false := by
      decide +kernel
    have hlow : ¬((i + 2 : Nat) : Int) > setCompact smallNet.txBits := by
      rw [htarget]
      omega
    simp only [checkProofOfWork, hbounds, decide_eq_false hlow, Bool.not_false, Bool.and_true]
  have hsize : (shortTx i).serializeSize = 18 := rfl
  exact checkTransaction_iff.mpr ⟨hregistration, by rw [hsize]; decide, fun _ => hwork⟩

/-- A block of the small network is accepted if what follows its first transaction is. -/
theorem checkBlock_smallBlock {prev : CBlock} {vtx : List CTransaction}
    (htime : (prev.nTime : Int) + 600 ≤ smallNet.startTime)
    (hsize : (vtx.map CTransaction.serializeSize).sum ≤ 40000) (hcount : vtx.length < 60000)
    (hspam : ∀ tx ∈ vtx, tx.isSpamMessage = false)
    (hchecked : ∀ tx ∈ vtx, checkTransaction smallNet tx = .valid)
    (hnonces : (vtx.map CTransaction.nNonce).Nodup) (hfresh : ∀ tx ∈ vtx, tx.nNonce ≠ 1)
    (husers : (vtx.map (getUsernameHash smallNet)).Nodup) :
    checkBlock smallNet smallNet.startTime (smallBlock prev 1 vtx) true true = .valid := by
  have hfirst : ∃ spam, (smallBlock prev 1 vtx).vtx = spam :: vtx ∧ spam.serializeSize ≤ 60 ∧
      checkTransaction smallNet spam = .valid ∧ spam.nNonce = 1 :=
    ⟨_, rfl, by decide +kernel, by decide +kernel, rfl⟩
  obtain ⟨spam, hcons, hspamSize, hspamChecked, hnonce⟩ := hfirst
  refine checkBlock_iff.mpr ⟨List.cons_ne_nil _ _, ?_, ?_, ?_, rfl, hspam, ?_, ?_, husers,
    fun _ => rfl⟩
  · have hcompact : sizeOfCompactSize (vtx.length + 1) ≤ 3 := by
      rw [sizeOfCompactSize]
      split
      · decide
      · rw [if_pos (by omega)]
    simp only [CBlock.serializeSize, hcons, List.length_cons, List.map_cons, List.sum_cons,
      maxBlockSize]
    omega
  · intro _
    change checkProofOfWork smallNet 0 0x1f02ffff = true
    decide +kernel
  · change ((prev.nTime + 600 : Nat) : Int) ≤ _
    push_cast
    omega
  · rw [hcons]
    intro tx htx
    rcases List.mem_cons.mp htx with rfl | htx
    · exact hspamChecked
    · exact hchecked tx htx
  · change ((smallBlock prev 1 vtx).vtx.map CTransaction.nNonce).Nodup
    rw [hcons, List.map_cons, List.nodup_cons, hnonce]
    refine ⟨fun hmem => ?_, hnonces⟩
    obtain ⟨tx, htx, heq⟩ := List.mem_map.mp hmem
    exact hfresh tx htx heq

theorem checkBlock_crowdedBlock :
    checkBlock smallNet smallNet.startTime crowdedBlock true true = .valid := by
  have hmem : ∀ tx ∈ (List.range 834).map shortTx, ∃ i < 834, shortTx i = tx := by
    intro tx htx
    obtain ⟨i, hi, heq⟩ := List.mem_map.mp htx
    exact ⟨i, List.mem_range.mp hi, heq⟩
  refine checkBlock_smallBlock (by decide) ?_ (by simp) ?_ ?_ ?_ ?_ ?_
  · have hsizes : ((List.range 834).map shortTx).map CTransaction.serializeSize =
        List.replicate 834 18 := by
      rw [List.map_map, List.eq_replicate_iff]
      refine ⟨by simp, fun size hsize => ?_⟩
      obtain ⟨i, -, rfl⟩ := List.mem_map.mp hsize
      rfl
    rw [hsizes, List.sum_replicate]
    decide
  · intro tx htx
    obtain ⟨i, -, rfl⟩ := hmem tx htx
    rfl
  · intro tx htx
    obtain ⟨i, hi, rfl⟩ := hmem tx htx
    exact checkTransaction_shortTx (by omega)
  · rw [List.map_map]
    exact List.nodup_range.map fun i j h => Nat.add_right_cancel (m := 2) h
  · intro tx htx
    obtain ⟨i, -, rfl⟩ := hmem tx htx
    change i + 2 ≠ 1
    omega
  · rw [List.map_map]
    refine List.Nodup.map_on ?_ List.nodup_range
    intro i hi j hj h
    rw [List.mem_range] at hi hj
    change getUsernameHash smallNet (shortTx i) = getUsernameHash smallNet (shortTx j) at h
    exact getUsernameHash_shortTx_inj (by omega) (by omega) h

/-- The root of transactions with hashes above 0 in the small network. -/
theorem buildMerkleTree_pos {vtx : List CTransaction} (hne : vtx ≠ [])
    (h : ∀ tx ∈ vtx, 0 < tx.nNonce) : 0 < buildMerkleTree smallNet vtx := by
  obtain ⟨height, -, hrow⟩ := row_buildMerkleTree smallNet hne
  have hpair : ∀ a b, 0 < a → 0 < b → 0 < smallNet.pairHash a b := by
    intro a b _ hb
    exact Nat.add_pos_right _ hb
  have hleaf : ∀ hash ∈ vtx.map smallNet.txHash, 0 < hash := by
    intro hash hmem
    obtain ⟨tx, htx, rfl⟩ := List.mem_map.mp hmem
    exact h tx htx
  exact Merkle.row_forall hpair hleaf height _ (by rw [hrow]; exact List.mem_singleton_self _)

/-- A registration takes less than 60 bytes. -/
theorem merkleBlock_refused :
    ∃ (env : Env) (block : CBlock), checkBlock env env.startTime block true true = .valid ∧
      maxBlockSize / 60 < block.vtx.length ∧ block.hashMerkleRoot ≠ 0 ∧
      ((merkleBlock (fun (_ : Unit) _ _ => (false, ())) env block ()).txn.extractMatches env).1 =
        0 := by
  have hlength : crowdedBlock.vtx.length = 835 := by
    simp [crowdedBlock, smallBlock]
  have hmany : maxBlockSize / 60 < crowdedBlock.vtx.length := by
    rw [hlength]
    decide
  have hcons : ∃ spam, crowdedBlock.vtx = spam :: (List.range 834).map shortTx ∧ 0 < spam.nNonce :=
    ⟨_, rfl, Nat.one_pos⟩
  obtain ⟨spam, hcons, hspam⟩ := hcons
  have hne : crowdedBlock.vtx ≠ [] := by simp [hcons]
  have hnonce : ∀ tx ∈ crowdedBlock.vtx, 0 < tx.nNonce := by
    intro tx htx
    rw [hcons] at htx
    rcases List.mem_cons.mp htx with rfl | htx
    · exact hspam
    · obtain ⟨i, -, rfl⟩ := List.mem_map.mp htx
      exact Nat.succ_pos _
  refine ⟨smallNet, crowdedBlock, checkBlock_crowdedBlock, hmany, ?_, ?_⟩
  · rw [(checkBlock_iff.mp checkBlock_crowdedBlock).merkle rfl]
    exact Nat.ne_of_gt (buildMerkleTree_pos hne hnonce)
  · rw [extractMatches_merkleBlock hne, if_neg (Nat.not_le.mpr hmany)]

end CoMoNet
