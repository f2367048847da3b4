import CoMoNet.Core
import Mathlib.Data.List.Dedup
import Mathlib.Data.List.Pairwise

/-!
# Context-free checks

The checks of a transaction or a block alone. Hash functions, signature recovery and
network parameters are fields of `Env`, of which nothing is assumed; the time is an
argument. `Verdict.invalid` is the state that `CValidationState::DoS` leaves.
-/

namespace CoMoNet

open CScript (extractPushDataString extractSmallString isSmallString)

/-- What the code takes from outside: hashes, signatures, network parameters, the time at the
start. -/
structure Env where
  /-- `CTransaction::GetHash`. -/
  txHash : CTransaction → Uint256
  /-- `SerializeHash` of a user name. -/
  usernameHash : Bytes → Uint256
  /-- `CBlockHeader::GetHash`. -/
  headerHash : CBlockHeader → Uint256
  /-- `CBlockHeader::GetPoWHash`. -/
  powHash : CBlockHeader → Uint256
  /-- `Hash` of two nodes of a Merkle tree. -/
  pairHash : Uint256 → Uint256 → Uint256
  /-- The hash of `strMessageMagic` followed by a text. -/
  messageHash : Bytes → Uint256
  /-- `CPubKey::RecoverCompact`: the key recovered from a hash and a signature. -/
  recoverCompact : Uint256 → Bytes → Option Bytes
  /-- `Hash160` of the bytes of a key. -/
  hash160 : Bytes → Nat
  txBits : Nat
  proofOfWorkLimit : Nat
  /-- The fields of `Params().GenesisBlock()` that differ between networks. -/
  genesisTime : Nat
  genesisBits : Nat
  genesisNonce : Nat
  testNet : Bool
  /-- The checkpoints of the network, by increasing height; none when
  `Checkpoints::fEnabled` is off. -/
  checkpoints : List (Nat × Uint256)
  softCheckpoints : Bool
  /-- `GetAdjustedTime()` when the node starts. -/
  startTime : Int

/-- The result of a check. -/
inductive Verdict where
  | valid
  /-- The check failed, with the score of `DoS` and the logged errors. -/
  | invalid (nDoS : Nat) (errors : List String)
deriving DecidableEq, Repr

namespace Verdict

/-- `state.DoS(level, error(text))` after a check that may have failed before. -/
def dos : Verdict → Nat → String → Verdict
  | .valid, level, text => .invalid level [text]
  | .invalid nDoS errors, level, text => .invalid (nDoS + level) (errors ++ [text])

/-- The verdict is `valid`. -/
def isValid : Verdict → Bool
  | .valid => true
  | .invalid .. => false

end Verdict

/-! ## Proof of work -/

/-- `SetCompact`: the number with a compact form. -/
def setCompact (nCompact : Nat) : Int :=
  let nSize := nCompact / 2 ^ 24
  let nWord := nCompact % 2 ^ 23
  let magnitude : Nat :=
    if nSize ≤ 3 then nWord / 2 ^ (8 * (3 - nSize)) else nWord * 2 ^ (8 * (nSize - 3))
  if nCompact / 2 ^ 23 % 2 = 1 then -(magnitude : Int) else magnitude

/-- `CheckProofOfWork`. -/
def checkProofOfWork (env : Env) (hash : Uint256) (nBits : Nat) : Bool :=
  let bnTarget := setCompact nBits
  !(bnTarget ≤ 0 || bnTarget > env.proofOfWorkLimit) && !((hash : Int) > bnTarget)

/-! ## UTF-8 -/

/-- `sequence_length`: the length a lead byte announces, 0 if it is none. -/
def sequenceLength (lead : Nat) : Nat :=
  if lead < 0x80 then 1
  else if lead / 32 = 0x6 then 2
  else if lead / 16 = 0xe then 3
  else if lead / 8 = 0x1e then 4
  else 0

/-- `is_overlong_sequence`. -/
def isOverlongSequence (cp length : Nat) : Bool :=
  if cp < 0x80 then length ≠ 1
  else if cp < 0x800 then length ≠ 2
  else if cp < 0x10000 then length ≠ 3
  else false

/-- `validate_next`: the bytes after one well-formed character. -/
def validateNext : Bytes → Option Bytes
  | [] => none
  | lead :: rest =>
    let length := sequenceLength lead.toNat
    let trail := rest.take (length - 1)
    let payload := if length = 1 then lead.toNat else lead.toNat % 2 ^ (7 - length)
    let cp := trail.foldl (fun cp b => cp * 64 + b.toNat % 64) payload
    if length = 0 then none
    else if trail.length < length - 1 then none
    else if trail.any fun b => b.toNat / 64 ≠ 2 then none
    else if 0x10ffff < cp || (0xd800 ≤ cp && cp ≤ 0xdfff) then none
    else if isOverlongSequence cp length then none
    else some (rest.drop (length - 1))

/-- The loop of `utf8::num_characters`. -/
def numCharactersFrom : Nat → Bytes → Nat → Option Nat
  | _, [], count => some count
  | 0, _ :: _, _ => none
  | fuel + 1, it@(_ :: _), count =>
    match validateNext it with
    | none => none
    | some rest => numCharactersFrom fuel rest (count + 1)

/-- `num_characters`, `none` for -1. -/
def numCharacters (s : Bytes) : Option Nat := numCharactersFrom s.length s 0

/-! ## Transactions -/

/-- `MAX_SPAM_MSG_SIZE`. -/
def maxSpamMsgSize : Nat := 140

/-- `MAX_USERNAME_SIZE`. -/
def maxUsernameSize : Nat := 16

/-- The check of one character of a user name, `none` when it is allowed. -/
def checkUsernameChar (c : UInt8) : Option String :=
  let isLower := 0x61 ≤ c && c ≤ 0x7a
  let isUpper := 0x41 ≤ c && c ≤ 0x5a
  let isDigit := 0x30 ≤ c && c ≤ 0x39
  let isSpace := c = 0x20 || (0x09 ≤ c && c ≤ 0x0d)
  if isLower then none
  else if isUpper then some "CheckUsername() : username must be lowercase"
  else if isDigit then none
  else if isSpace then some "CheckUsername() : username spaces not allowed"
  else if c = 0x5f then none
  else some "CheckUsername() : invalid username character"

/-- `CheckUsername`. -/
def checkUsername (userName : Bytes) : Verdict :=
  if userName.length = 0 || maxUsernameSize < userName.length then
    .invalid 10 ["CheckUsername() : username size out of limits"]
  else
    match userName.findSome? checkUsernameChar with
    | some text => .invalid 10 [text]
    | none => .valid

/-- `GetUsernameHash`. -/
def getUsernameHash (env : Env) (tx : CTransaction) : Uint256 :=
  if isSmallString tx.userName then env.usernameHash tx.getUsername else 0

/-- The part of `CheckTransaction` for spam messages. -/
def checkSpamMessage (tx : CTransaction) : Verdict :=
  let spamMsg := extractPushDataString tx.message 0
  let spamUser := extractPushDataString tx.userName 0
  if spamMsg = [] then .invalid 100 ["CheckTransaction() : invalid or empty spam message"]
  else
    match numCharacters spamMsg with
    | none => .invalid 100 ["CheckTransaction() : spam message invalid utf8"]
    | some size =>
      if maxSpamMsgSize < size then .invalid 100 ["CheckTransaction() : spam message too big"]
      else if spamUser = [] || maxUsernameSize < spamUser.length then
        .invalid 100 ["CheckTransaction() : spam user size invalid"]
      else .valid

/-- The part of `CheckTransaction` for registrations. -/
def checkRegistration (env : Env) (tx : CTransaction) : Verdict :=
  if tx.userName = [] then .invalid 10 ["CheckTransaction() : username empty"]
  else if tx.pubKey = [] then .invalid 10 ["CheckTransaction() : pubKey empty"]
  else if !isSmallString tx.userName then
    .invalid 10 ["CheckTransaction() : username not smallstring"]
  else if getUsernameHash env tx = 0 then .invalid 10 ["CheckTransaction() : username hash error"]
  else
    match checkUsername (extractSmallString tx.userName) with
    | .valid => .valid
    | bad => bad.dos 10 "CheckTransaction() : username check failed"

/-- `CheckTransaction`. -/
def checkTransaction (env : Env) (tx : CTransaction) : Verdict :=
  match if tx.isSpamMessage then checkSpamMessage tx else checkRegistration env tx with
  | .invalid nDoS errors => .invalid nDoS errors
  | .valid =>
    if 512 < tx.serializeSize then
      .invalid 100 ["CTransaction::CheckTransaction() : size limits failed"]
    else if !tx.isSpamMessage && !checkProofOfWork env (env.txHash tx) env.txBits then
      .invalid 50 ["CheckTransaction() : proof of work failed"]
    else .valid

/-! ## Blocks -/

/-- `MAX_BLOCK_SIZE`. -/
def maxBlockSize : Nat := 50000

/-- One level of the Merkle tree: an odd last node is paired with itself. -/
def merkleLevel (env : Env) : List Uint256 → List Uint256
  | [] => []
  | [a] => [env.pairHash a a]
  | a :: b :: rest => env.pairHash a b :: merkleLevel env rest

/-- The levels of the Merkle tree up to its root. -/
def merkleRootFrom (env : Env) : Nat → List Uint256 → Uint256
  | _, [] => 0
  | _, [root] => root
  | 0, _ :: _ :: _ => 0
  | fuel + 1, level@(_ :: _ :: _) => merkleRootFrom env fuel (merkleLevel env level)

/-- `BuildMerkleTree`: the root of the tree over the transaction hashes. -/
def buildMerkleTree (env : Env) (vtx : List CTransaction) : Uint256 :=
  merkleRootFrom env vtx.length (vtx.map env.txHash)

/-- `CBlock::GetHash`: a block is known by the hash of its header. -/
def Env.blockHash (env : Env) (block : CBlock) : Uint256 := env.headerHash block.toCBlockHeader

/-- The loop of `CheckBlock` over the transactions. -/
def checkTransactions (env : Env) : List CTransaction → Verdict
  | [] => .valid
  | tx :: vtx =>
    match checkTransaction env tx with
    | .valid => checkTransactions env vtx
    | .invalid nDoS errors =>
      .invalid nDoS (errors ++ ["CheckBlock() : CheckTransaction failed"])

/-- `CheckBlock` at the time `now`; the sizes of sets are lengths of lists without duplicates. -/
def checkBlock (env : Env) (now : Int) (block : CBlock) (fCheckPOW fCheckMerkleRoot : Bool) :
    Verdict :=
  let txids := block.vtx.map env.txHash
  let users := block.vtx.tail.map (getUsernameHash env)
  if block.vtx = [] || maxBlockSize < block.vtx.length || maxBlockSize < block.serializeSize then
    .invalid 100 ["CheckBlock() : size limits failed"]
  else if fCheckPOW && !checkProofOfWork env (env.powHash block.toCBlockHeader) block.nBits then
    .invalid 50 ["CheckBlock() : proof of work failed"]
  else if (block.nTime : Int) > now + 2 * 60 * 60 then
    .invalid 0 ["CheckBlock() : block timestamp too far in the future"]
  else if !(block.vtx.head?.any CTransaction.isSpamMessage) then
    .invalid 100 ["CheckBlock() : first tx is not coinbase"]
  else if block.vtx.tail.any CTransaction.isSpamMessage then
    .invalid 100 ["CheckBlock() : more than one coinbase"]
  else
    match checkTransactions env block.vtx with
    | .invalid nDoS errors => .invalid nDoS errors
    | .valid =>
      if txids.dedup.length ≠ block.vtx.length then
        .invalid 100 ["CheckBlock() : duplicate transaction"]
      else if users.dedup.length ≠ block.vtx.length - 1 then
        .invalid 100 ["CheckBlock() : duplicate username"]
      else if fCheckMerkleRoot && block.hashMerkleRoot ≠ buildMerkleTree env block.vtx then
        .invalid 100 ["CheckBlock() : hashMerkleRoot mismatch"]
      else .valid

/-- A test of a check that fails with an error. -/
theorem Verdict.ite_eq_valid {c : Prop} [Decidable c] {nDoS : Nat} {errors : List String}
    {v : Verdict} : (if c then .invalid nDoS errors else v) = .valid ↔ ¬c ∧ v = .valid := by
  split <;> simp [*]

/-- The names that pass. -/
theorem checkUsername_iff {userName : Bytes} : checkUsername userName = .valid ↔
    userName ≠ [] ∧ userName.length ≤ maxUsernameSize ∧
      ∀ c ∈ userName, checkUsernameChar c = none := by
  rw [checkUsername, ← List.findSome?_eq_none_iff]
  cases userName.findSome? checkUsernameChar with
  | none => simp
  | some text => simp [Verdict.ite_eq_valid]

/-- The spam messages that pass. -/
theorem checkSpamMessage_iff {tx : CTransaction} : checkSpamMessage tx = .valid ↔
    extractPushDataString tx.message 0 ≠ [] ∧
    (∃ size, numCharacters (extractPushDataString tx.message 0) = some size ∧
      size ≤ maxSpamMsgSize) ∧
    extractPushDataString tx.userName 0 ≠ [] ∧
    (extractPushDataString tx.userName 0).length ≤ maxUsernameSize := by
  rw [checkSpamMessage]
  cases numCharacters (extractPushDataString tx.message 0) with
  | none => simp [Verdict.ite_eq_valid]
  | some size => simp [Verdict.ite_eq_valid]

/-- The registrations that pass. -/
theorem checkRegistration_iff {env : Env} {tx : CTransaction} :
    checkRegistration env tx = .valid ↔ tx.userName ≠ [] ∧ tx.pubKey ≠ [] ∧
      isSmallString tx.userName = true ∧ getUsernameHash env tx ≠ 0 ∧
      checkUsername (extractSmallString tx.userName) = .valid := by
  rw [checkRegistration]
  cases checkUsername (extractSmallString tx.userName) with
  | valid => simp [Verdict.ite_eq_valid]
  | invalid nDoS errors => simp [Verdict.ite_eq_valid, Verdict.dos]

/-- The transactions that pass. -/
theorem checkTransaction_iff {env : Env} {tx : CTransaction} :
    checkTransaction env tx = .valid ↔
      (if tx.isSpamMessage then checkSpamMessage tx else checkRegistration env tx) = .valid ∧
      tx.serializeSize ≤ 512 ∧
      (tx.isSpamMessage = false → checkProofOfWork env (env.txHash tx) env.txBits = true) := by
  rw [checkTransaction]
  cases if tx.isSpamMessage then checkSpamMessage tx else checkRegistration env tx with
  | valid => simp [Verdict.ite_eq_valid]
  | invalid nDoS errors => simp

theorem isSmallString_of_checkTransaction {env : Env} {tx : CTransaction}
    (h : checkTransaction env tx = .valid) (hspam : tx.isSpamMessage = false) :
    isSmallString tx.userName = true := by
  have hregistration := (checkTransaction_iff.mp h).1
  rw [hspam, if_neg Bool.false_ne_true] at hregistration
  exact (checkRegistration_iff.mp hregistration).2.2.1

theorem nodup_iff_dedup_length {l : List Uint256} : l.dedup.length = l.length ↔ l.Nodup := by
  constructor
  · intro h
    rw [← (List.dedup_sublist l).eq_of_length h]
    exact List.nodup_dedup l
  · intro h
    rw [h.dedup]

theorem checkTransactions_iff {env : Env} {vtx : List CTransaction} :
    checkTransactions env vtx = .valid ↔ ∀ tx ∈ vtx, checkTransaction env tx = .valid := by
  induction vtx with
  | nil => simp [checkTransactions]
  | cons tx vtx ih =>
    rw [checkTransactions, List.forall_mem_cons, ← ih]
    cases checkTransaction env tx with
    | valid => simp
    | invalid nDoS errors => simp

/-- What `CheckBlock` asks of a block. -/
structure BlockValid (env : Env) (now : Int) (block : CBlock)
    (fCheckPOW fCheckMerkleRoot : Bool) : Prop where
  nonempty : block.vtx ≠ []
  size : block.serializeSize ≤ maxBlockSize
  pow : fCheckPOW = true →
    checkProofOfWork env (env.powHash block.toCBlockHeader) block.nBits = true
  time : (block.nTime : Int) ≤ now + 2 * 60 * 60
  head : block.vtx.head?.any CTransaction.isSpamMessage = true
  tail : ∀ tx ∈ block.vtx.tail, tx.isSpamMessage = false
  checked : ∀ tx ∈ block.vtx, checkTransaction env tx = .valid
  ids : (block.vtx.map env.txHash).Nodup
  users : (block.vtx.tail.map (getUsernameHash env)).Nodup
  merkle : fCheckMerkleRoot = true → block.hashMerkleRoot = buildMerkleTree env block.vtx

theorem length_le_serializeSize (block : CBlock) : block.vtx.length ≤ block.serializeSize := by
  have hsum : ∀ vtx : List CTransaction,
      vtx.length ≤ (vtx.map CTransaction.serializeSize).sum := by
    intro vtx
    induction vtx with
    | nil => exact Nat.le_refl 0
    | cons tx vtx ih =>
      have hpos : 1 ≤ tx.serializeSize := by
        rw [CTransaction.serializeSize]
        omega
      rw [List.length_cons, List.map_cons, List.sum_cons]
      omega
  have := hsum block.vtx
  rw [CBlock.serializeSize]
  omega

/-- The blocks that pass. -/
theorem checkBlock_iff {env : Env} {now : Int} {block : CBlock}
    {fCheckPOW fCheckMerkleRoot : Bool} :
    checkBlock env now block fCheckPOW fCheckMerkleRoot = .valid ↔
      BlockValid env now block fCheckPOW fCheckMerkleRoot := by
  have hids : (block.vtx.map env.txHash).dedup.length = block.vtx.length ↔
      (block.vtx.map env.txHash).Nodup := by
    rw [← nodup_iff_dedup_length, List.length_map]
  have husers : (block.vtx.tail.map (getUsernameHash env)).dedup.length = block.vtx.length - 1 ↔
      (block.vtx.tail.map (getUsernameHash env)).Nodup := by
    rw [← nodup_iff_dedup_length, List.length_map, List.length_tail]
  cases hchecked : checkTransactions env block.vtx with
  | invalid nDoS errors =>
    have hnot : ¬∀ tx ∈ block.vtx, checkTransaction env tx = .valid := by
      rw [← checkTransactions_iff, hchecked]
      nofun
    refine iff_of_false ?_ fun h => hnot h.checked
    simp [checkBlock, hchecked, Verdict.ite_eq_valid]
  | valid =>
    simp only [checkBlock, hchecked, Verdict.ite_eq_valid, ne_eq, not_not, hids, husers]
    constructor
    · rintro ⟨hsize, hpow, htime, hhead, htail, hids, husers, hmerkle, -⟩
      simp only [Bool.or_eq_true, decide_eq_true_eq, not_or, Nat.not_lt] at hsize
      refine ⟨hsize.1.1, hsize.2, fun hcheck => ?_, Int.not_lt.mp htime, by simpa using hhead,
        by simpa using htail, checkTransactions_iff.mp hchecked, hids, husers, fun hcheck => ?_⟩
      · simpa [hcheck] using hpow
      · simpa [hcheck] using hmerkle
    · intro h
      have hlen := Nat.le_trans (length_le_serializeSize block) h.size
      refine ⟨by simp [h.nonempty, hlen, h.size], ?_, Int.not_lt.mpr h.time, by simp [h.head],
        by simpa using h.tail, h.ids, h.users, ?_, trivial⟩
      · cases fCheckPOW with
        | false => simp
        | true => simp [h.pow rfl]
      · cases fCheckMerkleRoot with
        | false => simp
        | true => simp [h.merkle rfl]

/-- A block that passes at some time passes at any time not two hours before its own. -/
theorem checkBlock_at {env : Env} {now now' : Int} {block : CBlock}
    {fCheckPOW fCheckMerkleRoot : Bool}
    (h : checkBlock env now block fCheckPOW fCheckMerkleRoot = .valid)
    (htime : (block.nTime : Int) ≤ now' + 2 * 60 * 60) :
    checkBlock env now' block fCheckPOW fCheckMerkleRoot = .valid :=
  checkBlock_iff.mpr { checkBlock_iff.mp h with time := htime }

/-- A spam message and registrations of pairwise different users. -/
structure BlockShape (env : Env) (block : CBlock) (spam : CTransaction)
    (vtx : List CTransaction) : Prop where
  vtx_eq : block.vtx = spam :: vtx
  spam : spam.isSpamMessage = true
  not_spam : ∀ tx ∈ vtx, tx.isSpamMessage = false
  small : ∀ tx ∈ vtx, isSmallString tx.userName = true
  users : (vtx.map (getUsernameHash env)).Nodup

theorem checkBlock_size {env : Env} {now : Int} {block : CBlock}
    {fCheckPOW fCheckMerkleRoot : Bool}
    (h : checkBlock env now block fCheckPOW fCheckMerkleRoot = .valid) :
    block.serializeSize ≤ maxBlockSize :=
  (checkBlock_iff.mp h).size

/-- A block that passes has this shape. -/
theorem checkBlock_shape {env : Env} {now : Int} {block : CBlock}
    {fCheckPOW fCheckMerkleRoot : Bool}
    (h : checkBlock env now block fCheckPOW fCheckMerkleRoot = .valid) :
    ∃ spam vtx, BlockShape env block spam vtx := by
  have hvalid := checkBlock_iff.mp h
  cases hvtx : block.vtx with
  | nil => exact absurd hvtx hvalid.nonempty
  | cons spam vtx =>
    obtain ⟨hhead, htail, hchecked, husers⟩ :=
      And.intro hvalid.head (And.intro hvalid.tail (And.intro hvalid.checked hvalid.users))
    rw [hvtx] at hhead htail hchecked husers
    refine ⟨spam, vtx, hvtx, by simpa using hhead, htail, fun tx htx => ?_, husers⟩
    exact isSmallString_of_checkTransaction (hchecked tx (List.mem_cons_of_mem spam htx))
      (htail tx htx)

theorem CTransaction.registers_iff {u : Bytes} {tx : CTransaction} :
    tx.registers u = true ↔ tx.isSpamMessage = false ∧ tx.getUsername = u := by
  simp [registers]

namespace BlockShape

variable {env : Env} {block : CBlock} {spam tx : CTransaction} {vtx : List CTransaction}
variable {u : Bytes}

/-- The users are pairwise different. -/
theorem nodup (shape : BlockShape env block spam vtx) :
    (vtx.map CTransaction.getUsername).Nodup := by
  refine List.pairwise_map.mpr ((List.pairwise_map.mp shape.users).imp_of_mem ?_)
  intro a b ha hb hne hab
  apply hne
  rw [getUsernameHash, getUsernameHash, shape.small a ha, shape.small b hb, hab]

theorem unique (shape : BlockShape env block spam vtx) (u : Bytes) :
    block.vtx.Pairwise fun a b => ¬(a.registers u = true ∧ b.registers u = true) := by
  rw [shape.vtx_eq, List.pairwise_cons]
  constructor
  · intro b _ hab
    rw [CTransaction.registers_iff, shape.spam] at hab
    cases hab.1.1
  · refine (List.pairwise_map.mp shape.nodup).imp ?_
    intro a b hne hab
    apply hne
    rw [(CTransaction.registers_iff.mp hab.1).2, (CTransaction.registers_iff.mp hab.2).2]

/-- The transaction for a user is one of the registrations. -/
theorem mem_of_txFor (shape : BlockShape env block spam vtx) (h : block.txFor u = some tx) :
    tx ∈ vtx ∧ tx.registers u = true := by
  have hreg : tx.registers u = true := List.find?_some h
  have hmem := List.mem_of_find?_eq_some h
  rw [shape.vtx_eq, List.mem_cons] at hmem
  rcases hmem with hmem | hmem
  · rw [CTransaction.registers_iff, hmem, shape.spam] at hreg
    cases hreg.1
  · exact ⟨hmem, hreg⟩

/-- A registration of the block is the transaction for its user. -/
theorem txFor_of_mem (shape : BlockShape env block spam vtx) (h : tx ∈ vtx) :
    block.txFor tx.getUsername = some tx := by
  have hreg : tx.registers tx.getUsername = true :=
    CTransaction.registers_iff.mpr ⟨shape.not_spam tx h, rfl⟩
  have hmem : tx ∈ block.vtx := by
    rw [shape.vtx_eq]
    exact List.mem_cons_of_mem _ h
  rw [CBlock.txFor]
  cases hf : block.vtx.find? (CTransaction.registers tx.getUsername) with
  | none => exact absurd hreg (List.find?_eq_none.mp hf tx hmem)
  | some t =>
    by_contra hne
    have hsymm : Std.Symm fun a b : CTransaction =>
        ¬(a.registers tx.getUsername = true ∧ b.registers tx.getUsername = true) :=
      ⟨fun a b hab hba => hab ⟨hba.2, hba.1⟩⟩
    have hpair := (shape.unique tx.getUsername).forall (List.mem_of_find?_eq_some hf) hmem
      (fun heq => hne (by rw [heq]))
    exact hpair ⟨List.find?_some hf, hreg⟩

end BlockShape

/-! ## The genesis block -/

/-- `pszTimestamp`. -/
def genesisMessage : String :=
  "The Times 03/Apr/2014 Obama signs law on loan guarantees for Ukraine, imposition of " ++
    "sanctions against Russia."

/-- The spam message of the genesis block. -/
def genesisTx : CTransaction :=
  { message := CScript.push (ascii genesisMessage), userName := CScript.push (ascii "nobody") }

/-- The genesis block of the network. -/
def Env.genesisBlock (env : Env) : CBlock :=
  { nVersion := 1
    nHeight := 0
    hashPrevBlock := 0
    hashMerkleRoot := buildMerkleTree env [genesisTx]
    nTime := env.genesisTime
    nBits := env.genesisBits
    nNonce := env.genesisNonce
    vtx := [genesisTx] }

/-- Its hash. -/
def Env.hashGenesisBlock (env : Env) : Uint256 := env.blockHash env.genesisBlock

end CoMoNet
