import CoMoNet.Chain.Lookup
import CoMoNet.Lib.Decode

/-!
# Blocks as bytes

`GetTransaction` reads the header at a block's position, moves on by `nTxOffset` and
reads a transaction. The offset `ConnectBlock` adds up is where the code of the
transaction starts, for blocks whose fields fit (`CBlock.Fits`).
-/

namespace CoMoNet

open Decode (Reader Reads)

/-! ## Numbers -/

/-- The lowest `width` bytes of a number, low byte first. -/
def writeLE : Nat → Nat → Bytes
  | 0, _ => []
  | width + 1, n => UInt8.ofNat n :: writeLE width (n / 256)

/-- `READDATA` of an unsigned number. -/
def readLE (width : Nat) : Reader UInt8 Nat := littleEndian <$> Decode.take width

/-- Reads an `int`. -/
def readInt : Reader UInt8 Int :=
  (fun n : Nat => if n < 2 ^ 31 then (n : Int) else n - 2 ^ 32) <$> readLE 4

/-- Writes an `int`. -/
def writeInt (n : Int) : Bytes := writeLE 4 (n % 2 ^ 32).toNat

@[simp] theorem length_writeLE (width n : Nat) : (writeLE width n).length = width := by
  induction width generalizing n with
  | zero => rfl
  | succ width ih => simp [writeLE, ih]

theorem littleEndian_writeLE (width n : Nat) :
    littleEndian (writeLE width n) = n % 256 ^ width := by
  induction width generalizing n with
  | zero => simp [writeLE, littleEndian, Nat.mod_one]
  | succ width ih =>
    have hpow : 256 ^ (width + 1) = 256 * 256 ^ width := Nat.pow_succ'
    rw [writeLE, littleEndian, ih, UInt8.toNat_ofNat', hpow, Nat.mod_mul]

theorem reads_LE {width n : Nat} (h : n < 256 ^ width) :
    Reads (readLE width) (writeLE width n) n := by
  have hread := Reads.map littleEndian (Reads.take (length_writeLE width n))
  rwa [littleEndian_writeLE, Nat.mod_eq_of_lt h] at hread

theorem reads_int {n : Int} (h : -2 ^ 31 ≤ n ∧ n < 2 ^ 31) : Reads readInt (writeInt n) n := by
  have hlt : (n % 2 ^ 32).toNat < 256 ^ 4 := by omega
  have hread := Reads.map (fun n : Nat => if n < 2 ^ 31 then (n : Int) else n - 2 ^ 32)
    (reads_LE hlt)
  have hval : (if (n % 2 ^ 32).toNat < 2 ^ 31 then ((n % 2 ^ 32).toNat : Int)
      else (n % 2 ^ 32).toNat - 2 ^ 32) = n := by
    split <;> omega
  simp only [hval] at hread
  exact hread

/-! ## Length fields and scripts -/

/-- `MAX_SIZE`: longer vectors are not read back. -/
def maxSize : Nat := 0x02000000

/-- `WriteCompactSize`: one byte, or a marker and a number of the width it
announces. -/
def writeCompactSize (n : Nat) : Bytes :=
  if n < 253 then writeLE 1 n
  else if n ≤ 0xffff then writeLE 1 253 ++ writeLE 2 n
  else if n ≤ 0xffffffff then writeLE 1 254 ++ writeLE 4 n
  else writeLE 1 255 ++ writeLE 8 n

/-- What `ReadCompactSize` reads after the first byte. -/
def readSize (chSize : Nat) : Reader UInt8 Nat :=
  if chSize < 253 then pure chSize
  else if chSize = 253 then readLE 2
  else if chSize = 254 then readLE 4
  else readLE 8

/-- `ReadCompactSize`. Longer forms are read too; sizes above `MAX_SIZE` throw. -/
def readCompactSize : Reader UInt8 Nat := do
  let chSize ← readLE 1
  let nSizeRet ← readSize chSize
  if nSizeRet > maxSize then Decode.fail else pure nSizeRet

/-- Writes a script. -/
def serializeScript (script : CScript) : Bytes := writeCompactSize script.length ++ script

/-- Reads a script. -/
def unserializeScript : Reader UInt8 CScript := do
  let nSize ← readCompactSize
  Decode.take nSize

theorem length_writeCompactSize (n : Nat) : (writeCompactSize n).length = sizeOfCompactSize n := by
  unfold writeCompactSize sizeOfCompactSize
  split
  · simp
  split
  · simp
  split <;> simp

theorem reads_compactSize_of {n chSize : Nat} {code : Bytes} (h : n ≤ maxSize)
    (hch : chSize < 256) (hcode : Reads (readSize chSize) code n) :
    Reads readCompactSize (writeLE 1 chSize ++ code) n := by
  refine (reads_LE hch).bind ?_
  rw [← List.append_nil code]
  refine hcode.bind ?_
  rw [if_neg (Nat.not_lt.mpr h)]
  exact Reads.pure n

/-- Sizes are read back. -/
theorem reads_compactSize {n : Nat} (h : n ≤ maxSize) :
    Reads readCompactSize (writeCompactSize n) n := by
  rw [writeCompactSize]
  split
  · next hlt =>
    rw [← List.append_nil (writeLE 1 n)]
    refine reads_compactSize_of h (by omega) ?_
    rw [readSize, if_pos hlt]
    exact Reads.pure n
  split
  · exact reads_compactSize_of h (by decide) (reads_LE (by omega))
  split
  · exact reads_compactSize_of h (by decide) (reads_LE (by omega))
  · next hlong => exact absurd (h.trans (by decide)) hlong

theorem reads_script {script : CScript} (h : script.length ≤ maxSize) :
    Reads unserializeScript (serializeScript script) script :=
  (reads_compactSize h).bind (Reads.take rfl)

/-! ## Transactions and headers -/

/-- Writes a transaction. -/
def CTransaction.serialize (tx : CTransaction) : Bytes :=
  writeInt tx.nVersion ++ (serializeScript tx.message ++ (serializeScript tx.userName ++
    (serializeScript tx.pubKey ++ (serializeScript tx.accumulator ++ writeLE 4 tx.nNonce))))

/-- Reads a transaction. -/
def CTransaction.unserialize : Reader UInt8 CTransaction := do
  let nVersion ← readInt
  let message ← unserializeScript
  let userName ← unserializeScript
  let pubKey ← unserializeScript
  let accumulator ← unserializeScript
  let nNonce ← readLE 4
  return { nVersion, message, userName, pubKey, accumulator, nNonce }

/-- Writes a header. -/
def CBlockHeader.serialize (header : CBlockHeader) : Bytes :=
  writeInt header.nVersion ++ (writeInt header.nHeight ++ (writeLE 32 header.hashPrevBlock ++
    (writeLE 32 header.hashMerkleRoot ++ (writeLE 4 header.nTime ++ (writeLE 4 header.nBits ++
      writeLE 4 header.nNonce)))))

/-- Reads a header. -/
def CBlockHeader.unserialize : Reader UInt8 CBlockHeader := do
  let nVersion ← readInt
  let nHeight ← readInt
  let hashPrevBlock ← readLE 32
  let hashMerkleRoot ← readLE 32
  let nTime ← readLE 4
  let nBits ← readLE 4
  let nNonce ← readLE 4
  return { nVersion, nHeight, hashPrevBlock, hashMerkleRoot, nTime, nBits, nNonce }

/-- Writes header, number of transactions and transactions. -/
def CBlock.serialize (block : CBlock) : Bytes :=
  block.toCBlockHeader.serialize ++
    (writeCompactSize block.vtx.length ++ block.vtx.flatMap CTransaction.serialize)

/-- The fields of a transaction are in the range of their types. -/
structure CTransaction.Fits (tx : CTransaction) : Prop where
  nVersion : -2 ^ 31 ≤ tx.nVersion ∧ tx.nVersion < 2 ^ 31
  nNonce : tx.nNonce < 2 ^ 32

/-- The fields fit their types. -/
structure CBlockHeader.Fits (header : CBlockHeader) : Prop where
  nVersion : -2 ^ 31 ≤ header.nVersion ∧ header.nVersion < 2 ^ 31
  nHeight : -2 ^ 31 ≤ header.nHeight ∧ header.nHeight < 2 ^ 31
  hashPrevBlock : header.hashPrevBlock < 2 ^ 256
  hashMerkleRoot : header.hashMerkleRoot < 2 ^ 256
  nTime : header.nTime < 2 ^ 32
  nBits : header.nBits < 2 ^ 32
  nNonce : header.nNonce < 2 ^ 32

/-- The fields fit their types. -/
structure CBlock.Fits (block : CBlock) : Prop where
  header : block.toCBlockHeader.Fits
  vtx : ∀ tx ∈ block.vtx, tx.Fits

@[simp] theorem length_serializeScript (script : CScript) :
    (serializeScript script).length = sizeOfCompactSize script.length + script.length := by
  rw [serializeScript, List.length_append, length_writeCompactSize]

/-- The size is the length. -/
@[simp] theorem CTransaction.length_serialize (tx : CTransaction) :
    tx.serialize.length = tx.serializeSize := by
  simp only [serialize, serializeSize, List.length_append, length_serializeScript, writeInt,
    length_writeLE]
  omega

/-- A transaction is read back. -/
theorem reads_transaction {tx : CTransaction} (hfits : tx.Fits)
    (hsize : tx.serializeSize ≤ maxSize) : Reads CTransaction.unserialize tx.serialize tx := by
  simp only [CTransaction.serializeSize] at hsize
  refine (reads_int hfits.nVersion).bind ?_
  refine (reads_script (by omega)).bind ?_
  refine (reads_script (by omega)).bind ?_
  refine (reads_script (by omega)).bind ?_
  refine (reads_script (by omega)).bind ?_
  exact (reads_LE hfits.nNonce).bind_pure _

/-- A header is read back. -/
theorem reads_header {header : CBlockHeader} (hfits : header.Fits) :
    Reads CBlockHeader.unserialize header.serialize header := by
  refine (reads_int hfits.nVersion).bind ?_
  refine (reads_int hfits.nHeight).bind ?_
  refine (reads_LE hfits.hashPrevBlock).bind ?_
  refine (reads_LE hfits.hashMerkleRoot).bind ?_
  refine (reads_LE hfits.nTime).bind ?_
  refine (reads_LE hfits.nBits).bind ?_
  exact (reads_LE hfits.nNonce).bind_pure _

/-! ## Reading one transaction -/

/-- The reads of `GetTransaction` from the position of a block on. -/
def readAtOffset (nTxOffset : Nat) : Reader UInt8 (CBlockHeader × CTransaction) := do
  let header ← CBlockHeader.unserialize
  Decode.skip nTxOffset
  let tx ← CTransaction.unserialize
  return (header, tx)

/-- What `GetTransaction` reads at a position of the block files. -/
def readTransaction (files : Nat → Bytes) (pos : CDiskTxPos) :
    Option (CBlockHeader × CTransaction) :=
  (readAtOffset pos.nTxOffset ((files pos.nFile).drop pos.nPos)).map Prod.fst

/-- The block is at this place. -/
def StoredAt (files : Nat → Bytes) (pos : CDiskBlockPos) (block : CBlock) : Prop :=
  block.serialize <+: (files pos.nFile).drop pos.nPos

/-- A transaction that starts at an offset is behind transactions of that size. -/
theorem CBlock.readTx_split {vtx : List CTransaction} {at_ nTxOffset : Nat} {tx : CTransaction}
    (h : readTx vtx at_ nTxOffset = some tx) :
    ∃ front back, vtx = front ++ tx :: back ∧
      nTxOffset = at_ + (front.map CTransaction.serializeSize).sum := by
  induction vtx generalizing at_ with
  | nil => cases h
  | cons t vtx ih =>
    rw [readTx] at h
    split at h
    · next hat =>
      cases h
      exact ⟨[], vtx, rfl, by simp [hat]⟩
    · obtain ⟨front, back, hvtx, hoff⟩ := ih h
      refine ⟨t :: front, back, by rw [hvtx]; rfl, ?_⟩
      rw [hoff, List.map_cons, List.sum_cons, Nat.add_assoc]

/-- Reading at the offset of a transaction gives the header and that transaction. -/
theorem readTransaction_eq {files : Nat → Bytes} {pos : CDiskBlockPos} {block : CBlock}
    {nTxOffset : Nat} {tx : CTransaction} (hstored : StoredAt files pos block)
    (hfits : block.Fits) (hsize : tx.serializeSize ≤ maxSize)
    (htx : CBlock.readTx block.vtx (sizeOfCompactSize block.vtx.length) nTxOffset = some tx) :
    readTransaction files { pos with nTxOffset } = some (block.toCBlockHeader, tx) := by
  obtain ⟨front, back, hvtx, hoff⟩ := CBlock.readTx_split htx
  have hmem : tx ∈ block.vtx := by simp [hvtx]
  let skipped := writeCompactSize block.vtx.length ++ front.flatMap CTransaction.serialize
  have hskipped : skipped.length = nTxOffset := by
    rw [hoff, List.length_append, length_writeCompactSize, List.length_flatMap]
    simp only [CTransaction.length_serialize]
  have hread : Reads (readAtOffset nTxOffset)
      (block.toCBlockHeader.serialize ++ (skipped ++ tx.serialize)) (block.toCBlockHeader, tx) := by
    refine (reads_header hfits.header).bind ?_
    refine (Reads.skip hskipped).bind ?_
    exact (reads_transaction (hfits.vtx tx hmem) hsize).bind_pure _
  have hpre : block.toCBlockHeader.serialize ++ (skipped ++ tx.serialize) <+: block.serialize := by
    refine ⟨back.flatMap CTransaction.serialize, ?_⟩
    rw [CBlock.serialize, hvtx]
    simp [skipped, hvtx]
  obtain ⟨rest, hrest⟩ := hread.run_prefix (hpre.trans hstored)
  rw [readTransaction, hrest, Option.map_some]

theorem CBlock.serializeSize_le {block : CBlock} {tx : CTransaction} (h : tx ∈ block.vtx) :
    tx.serializeSize ≤ block.serializeSize := by
  obtain ⟨front, back, hvtx⟩ := List.append_of_mem h
  rw [CBlock.serializeSize, hvtx, List.map_append, List.map_cons, List.sum_append, List.sum_cons]
  omega

/-- The writes leave the position as the newest entry; at height 0 the saved one has the same
key. -/
theorem applyWrites_newest {s : ChainState} {block : CBlock} {pos : CDiskTxPos}
    {tx : CTransaction} (hheight : block.nHeight ≠ 0) (idx : TxKey → Option CDiskTxPos) :
    applyWrites idx (indexWrites s block pos tx) ⟨tx.getUsername, -1⟩ = some pos := by
  have hne : ¬(-1 = block.nHeight - 1) := by omega
  rw [indexWrites]
  split
  · simp [applyWrites]
  · split <;> simp [applyWrites, hne]

/-- Connecting a block records, for each transaction but the first, a position at which
`GetTransaction` reads it back. -/
theorem connectBlock_position {env : Env} {fuel : Nat} {s s' : ChainState}
    {view view' : Option CBlockIndex} {p : CBlockIndex}
    (h : connectBlock env fuel s view p.block p false = .ok (.valid, s', view'))
    (hgenesis : env.blockHash p.block ≠ env.hashGenesisBlock) {files : Nat → Bytes}
    (hstored : StoredAt files p.pos p.block) (hfits : p.block.Fits) {i : Nat}
    {tx : CTransaction} (hi : 1 ≤ i) (htx : p.block.vtx[i]? = some tx) :
    ∃ s₁ before after pos, connectChecks env fuel s p.block = .ok (.valid, s₁) ∧
      s' = connectWrites s₁ p.block p ∧
      collectWrites s₁ p.block { p.pos with nTxOffset := sizeOfCompactSize p.block.vtx.length }
        p.block.vtx = before ++ indexWrites s₁ p.block pos tx ++ after ∧
      (p.block.nHeight ≠ 0 → s'.txIndex ⟨tx.getUsername, -1⟩ = some pos) ∧
      pos.toCDiskBlockPos = p.pos ∧
      readTransaction files pos = some (p.block.toCBlockHeader, tx) := by
  rcases connectBlock_cases h with ⟨_, _, -, hv, -⟩ | ⟨-, -, hgen, -⟩ |
    ⟨-, hcheck, -, v, s₁, hchecks, rfl, hvalid, -⟩
  · cases hv
  · exact absurd hgen hgenesis
  obtain ⟨rfl, -⟩ := hvalid rfl
  obtain ⟨spam, vtx, shape⟩ := checkBlock_shape hcheck
  have hmem : tx ∈ vtx := by
    rw [shape.vtx_eq, ← Nat.sub_add_cancel hi, List.getElem?_cons_succ] at htx
    exact List.mem_of_getElem? htx
  have hfor := shape.txFor_of_mem hmem
  have hsize : tx.serializeSize ≤ maxSize :=
    (CBlock.serializeSize_le (List.mem_of_getElem? htx)).trans
      ((checkBlock_size hcheck).trans (by decide))
  let start : CDiskTxPos := { p.pos with nTxOffset := sizeOfCompactSize p.block.vtx.length }
  obtain ⟨before, after, hwrites, -, hafter⟩ : ∃ before after,
      collectWrites s₁ p.block start p.block.vtx = before ++ _ ++ after ∧ _ :=
    collectWrites_split (shape.unique tx.getUsername) hfor start
  refine ⟨s₁, before, after, p.txPos tx.getUsername, hchecks, rfl, hwrites, fun hheight => ?_,
    rfl, readTransaction_eq hstored hfits hsize (CBlock.readTx_txOffset _ hfor)⟩
  rw [connectWrites_txIndex, hwrites, applyWrites_append, applyWrites_append,
    applyWrites_of_ne fun w hw hk => hafter w hw (by rw [← hk]), applyWrites_newest hheight]
  rfl

/-- The registration of alice, read from a file with other bytes before. -/
theorem connectBlock_position_alice :
    ∃ s' view' pos,
      connectBlock smallNet 8 (stateAfter smallNet (succeeds smallNet) (arrive smallGenesis))
        (some smallGenesis) aliceBlock.block aliceBlock false = .ok (.valid, s', view') ∧
      s'.txIndex ⟨ascii "alice", -1⟩ = some pos ∧
      readTransaction (fun _ => List.replicate 1000 0 ++ aliceBlock.block.serialize) pos =
        some (aliceBlock.block.toCBlockHeader, registration "alice" "alice's key" 10) := by
  obtain ⟨hconnect, hgenesis, hheight, htx, hname⟩ :
      ((connectBlock smallNet 8 (stateAfter smallNet (succeeds smallNet) (arrive smallGenesis))
        (some smallGenesis) aliceBlock.block aliceBlock false).toOption.map Prod.fst) =
          some .valid ∧
        smallNet.blockHash aliceBlock.block ≠ smallNet.hashGenesisBlock ∧
        aliceBlock.block.nHeight ≠ 0 ∧
        aliceBlock.block.vtx[1]? = some (registration "alice" "alice's key" 10) ∧
        (registration "alice" "alice's key" 10).getUsername = ascii "alice" := by
    decide +kernel
  have hfits : aliceBlock.block.Fits :=
    ⟨⟨by decide, by decide, by decide, by decide, by decide, by decide, by decide⟩,
      fun tx htx => ⟨by revert tx; decide, by revert tx; decide⟩⟩
  obtain ⟨⟨v, s', view'⟩, hs', rfl⟩ := Except.toOption_map_eq_some_iff.mp hconnect
  have hstored : StoredAt (fun _ => List.replicate 1000 0 ++ aliceBlock.block.serialize)
      aliceBlock.pos aliceBlock.block := by
    have hpos : aliceBlock.pos.nPos = (List.replicate 1000 (0 : UInt8)).length := by
      rw [List.length_replicate]
      rfl
    rw [StoredAt, hpos]
    exact ⟨[], by rw [List.append_nil, List.drop_left]⟩
  obtain ⟨_, _, _, pos, -, -, -, hindex, -, hread⟩ :=
    connectBlock_position hs' hgenesis hstored hfits (Nat.le_refl 1) htx
  rw [hname] at hindex
  exact ⟨s', view', pos, hs', hindex hheight, hread⟩

end CoMoNet
