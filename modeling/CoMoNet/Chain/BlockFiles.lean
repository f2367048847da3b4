import CoMoNet.Chain.Disk
import CoMoNet.Lib.Reach

/-!
# Where blocks are stored

A new block goes to `nSize`, the counted end of the last file; a block that is reindexed
keeps its place. If a stored block is skipped, a new one is written over those behind it
(`stored_overlap`); with no byte left out, places are disjoint (`stored_disjoint`).
-/

namespace CoMoNet

open Decode (Reader run_bind run_map run_pure run_take)

/-! ## Reading a block -/

/-- Reads a block. -/
def CBlock.unserialize : Reader UInt8 CBlock := do
  let header ← CBlockHeader.unserialize
  let nSize ← readCompactSize
  let vtx ← Decode.times CTransaction.unserialize nSize
  return { header with vtx }

theorem littleEndian_lt (bytes : Bytes) : littleEndian bytes < 256 ^ bytes.length := by
  induction bytes with
  | nil => simp [littleEndian]
  | cons b bytes ih =>
    have hb := b.toNat_lt
    have hpow : 256 ^ (bytes.length + 1) = 256 * 256 ^ bytes.length := Nat.pow_succ'
    rw [littleEndian, List.length_cons, hpow]
    omega

theorem run_readLE {width n : Nat} {code rest : Bytes} (h : readLE width code = some (n, rest)) :
    n < 256 ^ width ∧ width + rest.length = code.length := by
  obtain ⟨part, hpart, rfl⟩ := run_map.mp h
  obtain ⟨hle, rfl, rfl⟩ := run_take.mp hpart
  have hlt := littleEndian_lt (code.take width)
  rw [List.length_take, Nat.min_eq_left hle] at hlt
  exact ⟨hlt, by rw [List.length_drop]; omega⟩

theorem run_readInt {n : Int} {code rest : Bytes} (h : readInt code = some (n, rest)) :
    4 + rest.length = code.length := by
  obtain ⟨m, hm, -⟩ := run_map.mp h
  exact (run_readLE hm).2

theorem consumes_compactSize : Decode.Consumes readCompactSize sizeOfCompactSize := by
  intro code n rest h
  obtain ⟨chSize, mid, hch, h⟩ := run_bind.mp h
  obtain ⟨nSizeRet, last, hsize, h⟩ := run_bind.mp h
  have hfirst := run_readLE hch
  have hret : nSizeRet = n ∧ last = rest := by
    split at h
    · cases h
    · exact run_pure.mp h
  obtain ⟨rfl, rfl⟩ := hret
  rw [readSize] at hsize
  unfold sizeOfCompactSize
  split at hsize
  · obtain ⟨rfl, rfl⟩ := run_pure.mp hsize
    split <;> omega
  split at hsize
  · have := run_readLE hsize
    split
    · omega
    split <;> omega
  split at hsize
  · have := run_readLE hsize
    split
    · omega
    split
    · omega
    split <;> omega
  · have := run_readLE hsize
    split
    · omega
    split
    · omega
    split <;> omega

theorem run_script {script : CScript} {code rest : Bytes}
    (h : unserializeScript code = some (script, rest)) :
    sizeOfCompactSize script.length + script.length + rest.length ≤ code.length := by
  obtain ⟨nSize, mid, hsize, h⟩ := run_bind.mp h
  obtain ⟨hle, rfl, rfl⟩ := run_take.mp h
  have := consumes_compactSize _ _ _ hsize
  rw [List.length_take, Nat.min_eq_left hle, List.length_drop]
  omega

/-- A transaction takes its size. -/
theorem consumes_transaction :
    Decode.Consumes CTransaction.unserialize CTransaction.serializeSize := by
  intro code tx rest h
  obtain ⟨nVersion, c₁, h₁, h⟩ := run_bind.mp h
  obtain ⟨message, c₂, h₂, h⟩ := run_bind.mp h
  obtain ⟨userName, c₃, h₃, h⟩ := run_bind.mp h
  obtain ⟨pubKey, c₄, h₄, h⟩ := run_bind.mp h
  obtain ⟨accumulator, c₅, h₅, h⟩ := run_bind.mp h
  obtain ⟨nNonce, c₆, h₆, h⟩ := run_bind.mp h
  obtain ⟨rfl, rfl⟩ := run_pure.mp h
  have := run_readInt h₁
  have := run_script h₂
  have := run_script h₃
  have := run_script h₄
  have := run_script h₅
  have := (run_readLE h₆).2
  simp only [CTransaction.serializeSize]
  omega

theorem run_header {header : CBlockHeader} {code rest : Bytes}
    (h : CBlockHeader.unserialize code = some (header, rest)) :
    84 + rest.length = code.length := by
  obtain ⟨nVersion, c₁, h₁, h⟩ := run_bind.mp h
  obtain ⟨nHeight, c₂, h₂, h⟩ := run_bind.mp h
  obtain ⟨hashPrevBlock, c₃, h₃, h⟩ := run_bind.mp h
  obtain ⟨hashMerkleRoot, c₄, h₄, h⟩ := run_bind.mp h
  obtain ⟨nTime, c₅, h₅, h⟩ := run_bind.mp h
  obtain ⟨nBits, c₆, h₆, h⟩ := run_bind.mp h
  obtain ⟨nNonce, c₇, h₇, h⟩ := run_bind.mp h
  obtain ⟨-, rfl⟩ := run_pure.mp h
  have := run_readInt h₁
  have := run_readInt h₂
  have := (run_readLE h₃).2
  have := (run_readLE h₄).2
  have := (run_readLE h₅).2
  have := (run_readLE h₆).2
  have := (run_readLE h₇).2
  omega

theorem consumes_block : Decode.Consumes CBlock.unserialize CBlock.serializeSize := by
  intro code block rest h
  obtain ⟨header, c₁, h₁, h⟩ := run_bind.mp h
  obtain ⟨nSize, c₂, h₂, h⟩ := run_bind.mp h
  obtain ⟨vtx, c₃, h₃, h⟩ := run_bind.mp h
  obtain ⟨rfl, rfl⟩ := run_pure.mp h
  have := run_header h₁
  have := consumes_compactSize _ _ _ h₂
  obtain ⟨hlen, hsum⟩ := consumes_transaction.times _ _ _ _ h₃
  simp only [CBlock.serializeSize, hlen]
  omega

/-! ## The search for a place -/

/-- `MAX_BLOCKFILE_SIZE`, 128 MiB. -/
def maxBlockFileSize : Nat := 0x8000000

/-- The sum of two `unsigned int`. -/
def addUint (a b : Nat) : Nat := (a + b) % 2 ^ 32

/-- `CBlockFileInfo`. -/
structure CBlockFileInfo where
  nBlocks : Nat := 0
  nSize : Nat := 0
  nUndoSize : Nat := 0
  nHeightFirst : Nat := 0
  nHeightLast : Nat := 0
  nTimeFirst : Nat := 0
  nTimeLast : Nat := 0
deriving DecidableEq, Repr

/-- `AddBlock`, which does not update `nSize`. -/
def CBlockFileInfo.addBlock (info : CBlockFileInfo) (nHeightIn nTimeIn : Nat) : CBlockFileInfo :=
  let nHeightFirst :=
    if info.nBlocks = 0 ∨ info.nHeightFirst > nHeightIn then nHeightIn else info.nHeightFirst
  let nTimeFirst :=
    if info.nBlocks = 0 ∨ info.nTimeFirst > nTimeIn then nTimeIn else info.nTimeFirst
  { info with
      nBlocks := addUint info.nBlocks 1
      nHeightFirst := nHeightFirst
      nTimeFirst := nTimeFirst
      nHeightLast := if nHeightIn > nHeightFirst then nHeightIn else info.nHeightLast
      nTimeLast := if nTimeIn > info.nTimeLast then nTimeIn else info.nTimeLast }

/-- The state of the block files. -/
structure BlockFiles where
  nLastBlockFile : Nat := 0
  infoLastBlockFile : CBlockFileInfo := {}
  /-- The `CBlockFileInfo` entries of `pblocktree`, the newest first. -/
  fileInfo : List (Nat × CBlockFileInfo) := []
  /-- The number of the last file in `pblocktree`. -/
  lastBlockFile : Option Nat := none
deriving DecidableEq, Repr

namespace BlockFiles

/-- `SetNull` and then `ReadBlockFileInfo`. -/
def readBlockFileInfo (st : BlockFiles) (nFile : Nat) : CBlockFileInfo :=
  (st.fileInfo.lookup nFile).getD {}

/-- Moves to a file. -/
def moveTo (st : BlockFiles) (nFile : Nat) : BlockFiles :=
  { st with nLastBlockFile := nFile, infoLastBlockFile := st.readBlockFileInfo nFile }

/-- The loop that leaves full files, with `fUpdatedLast`. -/
def leaveFull (nAddSize : Nat) : Nat → BlockFiles → Bool → Option (BlockFiles × Bool)
  | 0, _, _ => none
  | fuel + 1, st, fUpdatedLast =>
    if addUint st.infoLastBlockFile.nSize nAddSize ≥ maxBlockFileSize then
      leaveFull nAddSize fuel (st.moveTo (st.nLastBlockFile + 1)) true
    else some (st, fUpdatedLast)

/-- The end of `FindBlockPos`: count the block and write what is known of its
file. -/
def count (st : BlockFiles) (nAddSize nHeight nTime : Nat) (fUpdatedLast : Bool) : BlockFiles :=
  let nSize := addUint st.infoLastBlockFile.nSize nAddSize
  let info := { st.infoLastBlockFile with nSize := nSize }.addBlock nHeight nTime
  { st with
      infoLastBlockFile := info
      fileInfo := (st.nLastBlockFile, info) :: st.fileInfo
      lastBlockFile := if fUpdatedLast then some st.nLastBlockFile else st.lastBlockFile }

/-- `FindBlockPos`, with the position if it is known. -/
def findBlockPos (fuel : Nat) (st : BlockFiles) (nAddSize nHeight nTime : Nat) :
    Option CDiskBlockPos → Option (CDiskBlockPos × BlockFiles)
  | some pos =>
    if st.nLastBlockFile ≠ pos.nFile then
      some (pos, (st.moveTo pos.nFile).count nAddSize nHeight nTime true)
    else some (pos, st.count nAddSize nHeight nTime false)
  | none =>
    (leaveFull nAddSize fuel st false).map fun (st, fUpdatedLast) =>
      (⟨st.nLastBlockFile, st.infoLastBlockFile.nSize⟩,
        st.count nAddSize nHeight nTime fUpdatedLast)

/-- The part of `AcceptBlock` that stores a block, behind eight bytes of its own. -/
def storeBlock (fuel : Nat) (st : BlockFiles) (block : CBlock) (nHeight : Nat)
    (dbp : Option CDiskBlockPos) : Option (CDiskBlockPos × BlockFiles) :=
  match findBlockPos fuel st (block.serializeSize + 8) nHeight block.nTime dbp with
  | none => none
  | some (blockPos, st) =>
    if dbp.isSome then some (blockPos, st)
    else some ({ blockPos with nPos := addUint blockPos.nPos 8 }, st)

/-- `LoadBlockIndexDB`, as far as it is about the block files. -/
def reload (st : BlockFiles) : BlockFiles := st.moveTo (st.lastBlockFile.getD 0)

end BlockFiles

/-! ## Reading a block file -/

/-- What a round of the loop of `LoadExternalBlockFile` comes to. -/
inductive ScanRound where
  | done
  /-- No block is read; the next round starts at `nRewind`. -/
  | skip (nRewind : Nat)
  /-- A block is read at `nBlockPos`; the next round starts at `nRewind`. -/
  | found (nBlockPos : Nat) (block : CBlock) (nRewind : Nat)

/-- A round of the loop that starts at a position of the file. -/
def scanRound (messageStart blkdat : Bytes) (start : Nat) : ScanRound :=
  match (blkdat.drop start).findIdx? (· == messageStart.headD 0) with
  | none => .done
  | some i =>
    let header := blkdat.drop (start + i)
    let nRewind := start + i + 1
    if header.length < 4 then .done
    else if header.take 4 ≠ messageStart then .skip nRewind
    else if header.length < 8 then .done
    else
      let nSize := littleEndian ((header.drop 4).take 4)
      if nSize < 80 ∨ nSize > maxBlockSize then .skip nRewind
      else
        let nBlockPos := start + i + 8
        let limited := (blkdat.drop nBlockPos).take nSize
        match CBlock.unserialize limited with
        | none => .skip nRewind
        | some (block, left) => .found nBlockPos block (nBlockPos + (limited.length - left.length))

/-- A block is found behind the start, and the next round starts behind it. -/
theorem scanRound_found {messageStart blkdat : Bytes} {start nBlockPos nRewind : Nat}
    {block : CBlock} (h : scanRound messageStart blkdat start = .found nBlockPos block nRewind) :
    start + 8 ≤ nBlockPos ∧ nBlockPos + block.serializeSize ≤ nRewind := by
  rw [scanRound] at h
  split at h
  · cases h
  simp only at h
  split at h
  · cases h
  split at h
  · cases h
  split at h
  · cases h
  split at h
  · cases h
  split at h
  · cases h
  · next hread =>
    cases h
    have := consumes_block _ _ _ hread
    omega

theorem scanRound_skip {messageStart blkdat : Bytes} {start nRewind : Nat}
    (h : scanRound messageStart blkdat start = .skip nRewind) : start ≤ nRewind := by
  rw [scanRound] at h
  split at h
  · cases h
  simp only at h
  split at h
  · cases h
  split at h
  · cases h
    omega
  split at h
  · cases h
  split at h
  · cases h
    omega
  split at h
  · cases h
    omega
  · cases h

/-! ## What the search does to the counts -/

namespace BlockFiles

variable {st st' : BlockFiles} {nAddSize nHeight nTime fuel nFile : Nat}

/-- The count of a file in `pblocktree`. -/
def persisted (st : BlockFiles) (nFile : Nat) : Nat := (st.readBlockFileInfo nFile).nSize

/-- The count that the next block in a file is added to. -/
def counted (st : BlockFiles) (nFile : Nat) : Nat :=
  if st.nLastBlockFile = nFile then st.infoLastBlockFile.nSize else st.persisted nFile

/-- The highest count at which no sum with the size of a block overflows. -/
def countLimit : Nat := 0xffff0000

/-- The counts are in step. -/
structure OK (st : BlockFiles) : Prop where
  /-- Nothing is counted in `pblocktree` only. -/
  synced : st.persisted st.nLastBlockFile ≤ st.infoLastBlockFile.nSize
  /-- The counts are below the limit. -/
  bounded : st.infoLastBlockFile.nSize ≤ countLimit
  /-- Those in `pblocktree` as well. -/
  persisted_le : ∀ nFile, st.persisted nFile ≤ countLimit

theorem OK.moveTo (h : st.OK) (nFile : Nat) : (st.moveTo nFile).OK where
  synced := Nat.le_refl _
  bounded := h.persisted_le nFile
  persisted_le := h.persisted_le

theorem OK.persisted_le_counted (h : st.OK) (nFile : Nat) :
    st.persisted nFile ≤ st.counted nFile := by
  rw [counted]
  split
  · next heq => exact heq ▸ h.synced
  · exact Nat.le_refl _

theorem persisted_count (fUpdatedLast : Bool) :
    (st.count nAddSize nHeight nTime fUpdatedLast).persisted nFile =
      if nFile = st.nLastBlockFile then addUint st.infoLastBlockFile.nSize nAddSize
      else st.persisted nFile := by
  rw [persisted, readBlockFileInfo, count]
  by_cases h : nFile = st.nLastBlockFile
  · simp [h, CBlockFileInfo.addBlock]
  · rw [List.lookup_cons, beq_false_of_ne h, if_neg h]
    rfl

theorem OK.count (h : st.OK)
    (hle : addUint st.infoLastBlockFile.nSize nAddSize ≤ countLimit) (fUpdatedLast : Bool) :
    (st.count nAddSize nHeight nTime fUpdatedLast).OK where
  synced := by
    rw [persisted_count]
    exact (if_pos rfl).le
  bounded := hle
  persisted_le nFile := by
    rw [persisted_count]
    split
    · exact hle
    · exact h.persisted_le nFile

/-- A known position is kept, and its file counts the block. -/
theorem OK.findBlockPos_known (h : st.OK) (fuel nHeight nTime : Nat) (pos : CDiskBlockPos)
    (hle : st.counted pos.nFile + nAddSize ≤ countLimit) :
    ∃ st', findBlockPos fuel st nAddSize nHeight nTime (some pos) = some (pos, st') ∧ st'.OK ∧
      st'.persisted pos.nFile = st.counted pos.nFile + nAddSize ∧
      ∀ nFile, nFile ≠ pos.nFile → st'.persisted nFile = st.persisted nFile := by
  have hsum : addUint (st.counted pos.nFile) nAddSize = st.counted pos.nFile + nAddSize :=
    Nat.mod_eq_of_lt (hle.trans_lt (by decide))
  rw [findBlockPos]
  by_cases hfile : st.nLastBlockFile ≠ pos.nFile
  · rw [if_pos hfile]
    rw [counted, if_neg hfile] at hle hsum ⊢
    refine ⟨_, rfl, (h.moveTo pos.nFile).count (hsum.trans_le hle) true, ?_, fun nFile hne => ?_⟩
    · rw [persisted_count]
      exact (if_pos rfl).trans hsum
    · rw [persisted_count]
      exact if_neg hne
  · rw [if_neg hfile]
    rw [not_not] at hfile
    rw [counted, if_pos hfile] at hle hsum ⊢
    refine ⟨_, rfl, h.count (hsum.trans_le hle) false, ?_, fun nFile hne => ?_⟩
    · rw [persisted_count, if_pos hfile.symm, hsum]
    · rw [persisted_count, if_neg (hfile ▸ hne)]

/-- Leaving full files changes no count, and ends at a file with room. -/
theorem leaveFull_spec (h : st.OK) {fUpdatedLast fUpdatedLast' : Bool}
    (hleave : leaveFull nAddSize fuel st fUpdatedLast = some (st', fUpdatedLast')) :
    st'.OK ∧ (∀ nFile, st'.persisted nFile = st.persisted nFile) ∧
      addUint st'.infoLastBlockFile.nSize nAddSize < maxBlockFileSize := by
  induction fuel generalizing st fUpdatedLast with
  | zero => cases hleave
  | succ fuel ih =>
    rw [leaveFull] at hleave
    split at hleave
    · obtain ⟨hok, hsame, hroom⟩ := ih (h.moveTo _) hleave
      exact ⟨hok, hsame, hroom⟩
    · next hroom =>
      cases hleave
      exact ⟨h, fun _ => rfl, Nat.not_le.mp hroom⟩

/-- A run of full files is a run of counted files. -/
theorem mem_of_leaveFull_none (hadd : nAddSize < maxBlockFileSize) {fUpdatedLast : Bool}
    (h : leaveFull nAddSize fuel (st.moveTo nFile) fUpdatedLast = none) {i : Nat} (hi : i < fuel) :
    nFile + i ∈ st.fileInfo.map Prod.fst := by
  induction fuel generalizing nFile fUpdatedLast i with
  | zero => cases hi
  | succ fuel ih =>
    rw [leaveFull] at h
    split at h
    · next hfull =>
      cases i with
      | zero =>
        by_contra hmem
        have hnone : st.fileInfo.lookup nFile = none := by
          rw [List.lookup_eq_none_iff]
          intro x hx
          exact bne_iff_ne.mpr fun heq => hmem (heq ▸ List.mem_map_of_mem hx)
        have hzero : (st.moveTo nFile).infoLastBlockFile.nSize = 0 := by
          rw [moveTo, readBlockFileInfo, hnone]
          rfl
        have hsum : addUint 0 nAddSize = nAddSize := by
          rw [addUint, Nat.zero_add]
          exact Nat.mod_eq_of_lt (hadd.trans (by decide))
        rw [hzero, hsum] at hfull
        exact Nat.not_lt.mpr hfull hadd
      | succ i =>
        have := ih h (Nat.lt_of_succ_lt_succ hi)
        rwa [show nFile + (i + 1) = nFile + 1 + i by omega]
    · cases h

/-- The loop ends, since only finitely many files are counted. -/
theorem leaveFull_returns (hadd : nAddSize < maxBlockFileSize) (fUpdatedLast : Bool) :
    (leaveFull nAddSize (st.fileInfo.length + 2) st fUpdatedLast).isSome = true := by
  rw [leaveFull]
  split
  · rw [Option.isSome_iff_ne_none]
    intro hnone
    have hsub : List.range' (st.nLastBlockFile + 1) (st.fileInfo.length + 1) ⊆
        st.fileInfo.map Prod.fst := by
      intro n hn
      obtain ⟨hlow, hhigh⟩ := List.mem_range'_1.mp hn
      obtain ⟨i, rfl⟩ := Nat.exists_eq_add_of_le hlow
      exact mem_of_leaveFull_none hadd hnone (by omega)
    have hlen := (List.subperm_of_subset List.nodup_range' hsub).length_le
    rw [List.length_range', List.length_map] at hlen
    omega
  · rfl

theorem leaveFull_returns_full : (leaveFull 1 3 ⟨0, { nSize := maxBlockFileSize },
    [(0, { nSize := maxBlockFileSize })], none⟩ false).isSome = true :=
  leaveFull_returns (by decide) false

theorem findBlockPos_new (h : st.OK) (hadd : nAddSize < 2 ^ 16) {pos : CDiskBlockPos}
    (hfind : findBlockPos fuel st nAddSize nHeight nTime none = some (pos, st')) :
    st'.OK ∧ st.persisted pos.nFile ≤ pos.nPos ∧ pos.nPos + nAddSize < maxBlockFileSize ∧
      st'.persisted pos.nFile = pos.nPos + nAddSize ∧
      ∀ nFile, nFile ≠ pos.nFile → st'.persisted nFile = st.persisted nFile := by
  rw [findBlockPos, Option.map_eq_some_iff] at hfind
  obtain ⟨⟨st₁, fUpdatedLast⟩, hleave, heq⟩ := hfind
  cases heq
  obtain ⟨hok, hsame, hroom⟩ := leaveFull_spec h hleave
  have hbounded := hok.bounded
  have hsum : addUint st₁.infoLastBlockFile.nSize nAddSize =
      st₁.infoLastBlockFile.nSize + nAddSize := by
    apply Nat.mod_eq_of_lt
    rw [countLimit] at hbounded
    omega
  refine ⟨hok.count (hroom.le.trans (by decide)) _, ?_, hsum ▸ hroom, ?_, fun nFile hne => ?_⟩
  · rw [← hsame]
    exact hok.synced
  · rw [persisted_count, if_pos rfl, hsum]
  · rw [persisted_count, if_neg hne, hsame]

end BlockFiles

/-! ## Runs -/

/-- A block of the index with its place.  The eight bytes before it belong to it. -/
structure StoredBlock where
  block : CBlock
  /-- `nFile` and `nDataPos` of its entry. -/
  pos : CDiskBlockPos
deriving DecidableEq, Repr

namespace StoredBlock

/-- The first byte. -/
def first (e : StoredBlock) : Nat := e.pos.nPos - 8

/-- The byte behind. -/
def behind (e : StoredBlock) : Nat := e.pos.nPos + e.block.serializeSize

/-- No byte in common. -/
def Apart (e e' : StoredBlock) : Prop :=
  e.pos.nFile = e'.pos.nFile → e.behind ≤ e'.first ∨ e'.behind ≤ e.first

end StoredBlock

/-- A call of `LoadExternalBlockFile` that reads a block file. -/
structure Scan where
  nFile : Nat
  nStartByte : Nat
  nRewind : Nat
deriving DecidableEq, Repr

/-- Files, stored blocks and the reader. -/
structure StoreState where
  files : BlockFiles := {}
  /-- The blocks that were accepted, the last one first. -/
  stored : List StoredBlock := []
  scan : Option Scan := none
  /-- How far `GetAdjustedTime()` has moved since the start. -/
  clock : Int := 0
deriving DecidableEq, Repr

/-- What can happen. -/
inductive StoreLabel where
  | restart
  /-- `LoadExternalBlockFile` opens a block file. -/
  | openFile (nFile : Nat)
  /-- A round of its loop.  The file may be any; the buffer may have left the
  position behind `nRewind`; `accepted` is what `ProcessBlock` decides of a block
  that passes `CheckBlock`. -/
  | round (blkdat : Bytes) (ahead : Nat) (accepted : Bool) (nHeight : Nat)
  | closeFile
  /-- `AcceptBlock` of a new block. -/
  | newBlock (fuel : Nat) (block : CBlock) (nHeight : Nat)
  | clock (now : Int)

namespace StoreState

/-- Stores a block. -/
def store (s : StoreState) (fuel : Nat) (block : CBlock) (nHeight : Nat)
    (dbp : Option CDiskBlockPos) : Option StoreState :=
  (s.files.storeBlock fuel block nHeight dbp).map fun (pos, files) =>
    { s with files := files, stored := ⟨block, pos⟩ :: s.stored }

/-- A step, `none` if it is not possible. -/
def next (env : Env) (messageStart : Bytes) (s : StoreState) : StoreLabel → Option StoreState
  | .restart => some { s with files := s.files.reload, scan := none }
  | .openFile nFile =>
    let nStartByte := s.files.persisted nFile
    some { s with scan := some ⟨nFile, nStartByte, nStartByte⟩ }
  | .closeFile => some { s with scan := none }
  | .newBlock fuel block nHeight =>
    if checkBlock env (env.startTime + s.clock) block true true = .valid then
      s.store fuel block nHeight none
    else some s
  | .clock now => some { s with clock := now }
  | .round blkdat ahead accepted nHeight =>
    match s.scan with
    | none => none
    | some scan =>
      match scanRound messageStart blkdat (scan.nRewind + ahead) with
      | .done => some { s with scan := none }
      | .skip nRewind => some { s with scan := some { scan with nRewind := nRewind } }
      | .found nBlockPos block nRewind =>
        let s := { s with scan := some { scan with nRewind := nRewind } }
        if scan.nStartByte ≤ nBlockPos ∧ accepted ∧
            checkBlock env (env.startTime + s.clock) block true true = .valid then
          s.store 0 block nHeight (some ⟨scan.nFile, nBlockPos % 2 ^ 32⟩)
        else some s

/-- No byte before the block is left out of the count, and new blocks wait until the file is
read. -/
def Gapless (messageStart : Bytes) (s : StoreState) : StoreLabel → Prop
  | .newBlock .. => s.scan = none
  | .round blkdat ahead true _ =>
    ∀ scan nBlockPos block nRewind, s.scan = some scan →
      scanRound messageStart blkdat (scan.nRewind + ahead) = .found nBlockPos block nRewind →
      nBlockPos ≤ s.files.counted scan.nFile + 8 ∧
        s.files.counted scan.nFile + (block.serializeSize + 8) ≤ BlockFiles.countLimit
  | _ => True

end StoreState

/-- The block files. -/
def storeSystem (env : Env) (messageStart : Bytes) :
    GuardedRun.System StoreState StoreLabel where
  init s := s.stored = [] ∧ s.scan = none ∧ s.files.fileInfo = [] ∧
    s.files.infoLastBlockFile.nSize ≤ BlockFiles.countLimit
  step s a s' := s.next env messageStart a = some s'

/-- What holds of the block files as long as nothing is left out. -/
structure StoreInv (s : StoreState) : Prop where
  files : s.files.OK
  /-- The blocks are counted. -/
  counted : ∀ e ∈ s.stored, e.behind ≤ s.files.persisted e.pos.nFile
  /-- They have no bytes in common. -/
  apart : s.stored.Pairwise StoredBlock.Apart
  /-- Those of the file that is being read are behind the reader. -/
  read : ∀ scan, s.scan = some scan → ∀ e ∈ s.stored, e.pos.nFile = scan.nFile →
    e.behind ≤ scan.nRewind

namespace StoreInv

variable {env : Env} {messageStart : Bytes} {s s' : StoreState} {block : CBlock}

theorem init (h : (storeSystem env messageStart).init s) : StoreInv s := by
  obtain ⟨hstored, hscan, hinfo, hle⟩ := h
  have hpersisted : ∀ nFile, s.files.persisted nFile = 0 := by
    intro nFile
    rw [BlockFiles.persisted, BlockFiles.readBlockFileInfo, hinfo]
    rfl
  refine ⟨⟨?_, hle, fun nFile => ?_⟩, ?_, ?_, ?_⟩
  · rw [hpersisted]
    exact Nat.zero_le _
  · rw [hpersisted]
    exact Nat.zero_le _
  · simp [hstored]
  · simp [hstored]
  · simp [hscan]

/-- A block that starts behind all others of its file. -/
theorem store {files : BlockFiles} {pos : CDiskBlockPos} {scan : Option Scan} (h : StoreInv s)
    (hfiles : files.OK)
    (hbehind : (⟨block, pos⟩ : StoredBlock).behind ≤ files.persisted pos.nFile)
    (hmono : ∀ nFile, s.files.persisted nFile ≤ files.persisted nFile)
    (hfirst : ∀ e ∈ s.stored, e.pos.nFile = pos.nFile →
      e.behind ≤ (⟨block, pos⟩ : StoredBlock).first)
    (hread : ∀ sc, scan = some sc → ∀ e ∈ (⟨block, pos⟩ : StoredBlock) :: s.stored,
      e.pos.nFile = sc.nFile → e.behind ≤ sc.nRewind) :
    StoreInv ⟨files, ⟨block, pos⟩ :: s.stored, scan, s.clock⟩ where
  files := hfiles
  counted e he := by
    rcases List.mem_cons.mp he with rfl | he
    · exact hbehind
    · exact (h.counted e he).trans (hmono _)
  apart := by
    refine List.pairwise_cons.mpr ⟨fun e he hfile => ?_, h.apart⟩
    exact .inr (hfirst e he hfile.symm)
  read := hread

theorem newBlock (h : StoreInv s) (hsize : block.serializeSize ≤ maxBlockSize) {fuel nHeight : Nat}
    (hscan : s.scan = none) (hstore : s.store fuel block nHeight none = some s') :
    StoreInv s' := by
  rw [StoreState.store, Option.map_eq_some_iff] at hstore
  obtain ⟨⟨pos, files⟩, hplace, rfl⟩ := hstore
  rw [BlockFiles.storeBlock] at hplace
  cases hfind : s.files.findBlockPos fuel (block.serializeSize + 8) nHeight block.nTime none with
  | none => rw [hfind] at hplace; cases hplace
  | some r =>
    obtain ⟨blockPos, files'⟩ := r
    simp only [hfind, Option.isSome_none, Bool.false_eq_true, if_false, Option.some.injEq,
      Prod.mk.injEq] at hplace
    obtain ⟨rfl, rfl⟩ := hplace
    have hadd : block.serializeSize + 8 < 2 ^ 16 := by
      rw [maxBlockSize] at hsize
      omega
    obtain ⟨hok, hend, hroom, hcount, hother⟩ := BlockFiles.findBlockPos_new h.files hadd hfind
    have hpos : addUint blockPos.nPos 8 = blockPos.nPos + 8 := by
      apply Nat.mod_eq_of_lt
      rw [maxBlockFileSize] at hroom
      omega
    refine h.store hok ?_ (fun nFile => ?_) (fun e he hfile => ?_) (by simp [hscan])
    · simp only [StoredBlock.behind, hcount, hpos]
      omega
    · by_cases hfile : nFile = blockPos.nFile
      · rw [hfile, hcount]
        exact hend.trans (Nat.le_add_right _ _)
      · rw [hother nFile hfile]
    · have hcounted : e.behind ≤ s.files.persisted blockPos.nFile :=
        (h.counted e he).trans_eq (congrArg _ hfile)
      simp only [StoredBlock.first, hpos]
      omega

/-- A block of the file that is read, when all before it is counted. -/
theorem knownBlock (h : StoreInv s) {scan : Scan} (hscan : s.scan = some scan)
    {nBlockPos nRewind nHeight : Nat} (hlow : scan.nRewind + 8 ≤ nBlockPos)
    (hhigh : nBlockPos + block.serializeSize ≤ nRewind)
    (hgap : nBlockPos ≤ s.files.counted scan.nFile + 8)
    (hlimit : s.files.counted scan.nFile + (block.serializeSize + 8) ≤ BlockFiles.countLimit)
    (hstore : StoreState.store { s with scan := some { scan with nRewind := nRewind } } 0 block
      nHeight (some ⟨scan.nFile, nBlockPos % 2 ^ 32⟩) = some s') : StoreInv s' := by
  have hpos : nBlockPos % 2 ^ 32 = nBlockPos := by
    apply Nat.mod_eq_of_lt
    rw [BlockFiles.countLimit] at hlimit
    omega
  rw [hpos] at hstore
  obtain ⟨files, hfind, hok, hcount, hother⟩ :=
    h.files.findBlockPos_known 0 nHeight block.nTime ⟨scan.nFile, nBlockPos⟩ hlimit
  simp only [StoreState.store, BlockFiles.storeBlock, hfind, Option.isSome_some, if_true,
    Option.map_some, Option.some.injEq] at hstore
  subst hstore
  refine h.store hok ?_ (fun nFile => ?_) (fun e he hfile => ?_) ?_
  · simp only [StoredBlock.behind, hcount]
    omega
  · by_cases hfile : nFile = scan.nFile
    · rw [hfile, hcount]
      exact (h.files.persisted_le_counted _).trans (Nat.le_add_right _ _)
    · rw [hother nFile hfile]
  · have hread := h.read scan hscan e he hfile
    simp only [StoredBlock.first]
    omega
  · rintro sc ⟨⟩ e he hfile
    rcases List.mem_cons.mp he with rfl | he
    · exact hhigh
    · have hread := h.read scan hscan e he hfile
      simp only
      omega

theorem moved (h : StoreInv s) {scan : Option Scan}
    (hread : ∀ sc, scan = some sc → ∀ e ∈ s.stored, e.pos.nFile = sc.nFile →
      e.behind ≤ sc.nRewind) : StoreInv { s with scan := scan } :=
  ⟨h.files, h.counted, h.apart, hread⟩

/-- Every step that leaves nothing out keeps the invariant. -/
theorem step {a : StoreLabel} (h : StoreInv s) (hok : s.Gapless messageStart a)
    (hstep : s.next env messageStart a = some s') : StoreInv s' := by
  cases a with
  | restart =>
    cases hstep
    exact ⟨h.files.moveTo _, h.counted, h.apart, nofun⟩
  | openFile nFile =>
    cases hstep
    refine h.moved ?_
    rintro sc ⟨⟩ e he hfile
    exact (h.counted e he).trans_eq (congrArg _ hfile)
  | closeFile =>
    cases hstep
    exact h.moved nofun
  | clock now =>
    cases hstep
    exact ⟨h.files, h.counted, h.apart, h.read⟩
  | newBlock fuel block nHeight =>
    rw [StoreState.next] at hstep
    split at hstep
    · next hcheck => exact h.newBlock (checkBlock_size hcheck) hok hstep
    · cases hstep
      exact h
  | round blkdat ahead accepted nHeight =>
    rw [StoreState.next] at hstep
    cases hscan : s.scan with
    | none => rw [hscan] at hstep; cases hstep
    | some scan =>
      simp only [hscan] at hstep
      cases hround : scanRound messageStart blkdat (scan.nRewind + ahead) with
      | done =>
        simp only [hround] at hstep
        cases hstep
        exact h.moved nofun
      | skip nRewind =>
        simp only [hround] at hstep
        cases hstep
        have hle := scanRound_skip hround
        refine h.moved ?_
        rintro sc ⟨⟩ e he hfile
        have hread := h.read scan hscan e he hfile
        simp only
        omega
      | found nBlockPos block nRewind =>
        simp only [hround] at hstep
        obtain ⟨hlow, hhigh⟩ := scanRound_found hround
        split at hstep
        · next haccept =>
          obtain ⟨-, rfl, -⟩ := haccept
          obtain ⟨hgap, hlimit⟩ := hok scan nBlockPos block nRewind hscan hround
          exact h.knownBlock hscan (by omega) hhigh hgap hlimit hstep
        · cases hstep
          refine h.moved ?_
          rintro sc ⟨⟩ e he hfile
          have hread := h.read scan hscan e he hfile
          simp only
          omega

end StoreInv

/-- With no byte left out of the count and new blocks waiting for the reader, no two blocks share
a byte. -/
theorem stored_disjoint {env : Env} {messageStart : Bytes} {s : StoreState}
    (h : (storeSystem env messageStart).Reach (StoreState.Gapless messageStart) s) :
    s.stored.Pairwise StoredBlock.Apart :=
  (h.invariant (I := StoreInv) (fun _ => StoreInv.init)
    fun _ _ _ hinv hok hstep => hinv.step hok hstep).apart

/-! ## Small block files -/

/-- The test of a step. -/
def StoreState.gapless (messageStart : Bytes) (s : StoreState) : StoreLabel → Bool
  | .newBlock .. => s.scan.isNone
  | .round blkdat ahead true _ =>
    match s.scan with
    | none => true
    | some scan =>
      match scanRound messageStart blkdat (scan.nRewind + ahead) with
      | .found nBlockPos block _ =>
        nBlockPos ≤ s.files.counted scan.nFile + 8 &&
          s.files.counted scan.nFile + (block.serializeSize + 8) ≤ BlockFiles.countLimit
      | _ => true
  | _ => true

theorem gapless_sound {messageStart : Bytes} {s : StoreState} {a : StoreLabel}
    (h : s.gapless messageStart a = true) : s.Gapless messageStart a := by
  cases a with
  | restart => trivial
  | openFile nFile => trivial
  | closeFile => trivial
  | clock now => trivial
  | newBlock fuel block nHeight => exact Option.isNone_iff_eq_none.mp h
  | round blkdat ahead accepted nHeight =>
    cases accepted with
    | false => trivial
    | true =>
      intro scan nBlockPos block nRewind hscan hround
      simp only [StoreState.gapless, hscan, hround, Bool.and_eq_true, decide_eq_true_eq] at h
      exact h

/-- `pchMessageStart` of the main network. -/
def smallStart : Bytes := [0xf4, 0xd7, 0xbf, 0xca]

/-- A block in a file. -/
def record (block : CBlock) : Bytes :=
  smallStart ++ writeLE 4 block.serializeSize ++ block.serialize

/-- Bob registers. -/
def bobBlock : CBlock := smallBlock aliceBlock.block 2 [registration "bob" "bob's key" 20]

/-- Carol registers. -/
def carolBlock : CBlock := smallBlock bobBlock 3 [registration "carol" "carol's key" 30]

/-- A block without a parent here. -/
def strayBlock : CBlock := smallBlock carolBlock 5 []

/-- Two blocks are indexed from a file, and a third one is new. -/
theorem stored_disjoint_carol :
    ∃ s, (storeSystem smallNet smallStart).Reach (StoreState.Gapless smallStart) s ∧
      (s.stored.map fun e => (e.block, e.first, e.behind)) =
        [(carolBlock, 290, 437), (bobBlock, 147, 290), (aliceBlock.block, 0, 147)] ∧
      s.stored.Pairwise StoredBlock.Apart := by
  let file := record aliceBlock.block ++ record bobBlock
  have hrun : ((GuardedRun.System.run (StoreState.next smallNet smallStart)
      (StoreState.gapless smallStart) {}
      [.openFile 0, .round file 0 true 1, .round file 0 true 2, .round file 0 true 3,
        .newBlock 1 carolBlock 3]).map fun s =>
          s.stored.map fun e => (e.block, e.first, e.behind)) =
      some [(carolBlock, 290, 437), (bobBlock, 147, 290), (aliceBlock.block, 0, 147)] := by
    decide +kernel
  obtain ⟨s, hs, hstored⟩ := Option.map_eq_some_iff.mp hrun
  have hinit : (storeSystem smallNet smallStart).Reach (StoreState.Gapless smallStart) {} :=
    .init ⟨rfl, rfl, rfl, Nat.zero_le _⟩
  have hreach := hinit.of_run (fun _ _ _ h => h) (fun _ _ => gapless_sound) hs
  exact ⟨s, hreach, hstored, stored_disjoint hreach⟩

/-- The first block of a file has no parent and is skipped; a new block is written over the
second. -/
theorem stored_overlap :
    ∃ s, (storeSystem smallNet smallStart).Reach (fun _ _ => True) s ∧
      (s.stored.map fun e => (e.block, e.pos.nFile, e.first, e.behind)) =
        [(bobBlock, 1, 147, 290), (aliceBlock.block, 1, 117, 264)] ∧
      ¬s.stored.Pairwise StoredBlock.Apart := by
  let file := record strayBlock ++ record aliceBlock.block
  have hrun : ((GuardedRun.System.run (StoreState.next smallNet smallStart) (fun _ _ => true) {}
      [.openFile 1, .round file 0 false 0, .round file 0 true 1, .round file 0 true 2,
        .newBlock 1 bobBlock 2]).map fun s =>
          s.stored.map fun e => (e.block, e.pos.nFile, e.first, e.behind)) =
      some [(bobBlock, 1, 147, 290), (aliceBlock.block, 1, 117, 264)] := by
    decide +kernel
  obtain ⟨s, hs, hstored⟩ := Option.map_eq_some_iff.mp hrun
  have hinit : (storeSystem smallNet smallStart).Reach (fun _ _ => True) {} :=
    .init ⟨rfl, rfl, rfl, Nat.zero_le _⟩
  refine ⟨s, hinit.of_run (fun _ _ _ h => h) (fun _ _ _ => trivial) hs, hstored, fun hapart => ?_⟩
  have hmap : (s.stored.map fun e => (e.block, e.pos.nFile, e.first, e.behind)).Pairwise
      fun e e' => e.2.1 = e'.2.1 → e.2.2.2 ≤ e'.2.2.1 ∨ e'.2.2.2 ≤ e.2.2.1 :=
    List.pairwise_map.mpr hapart
  rw [hstored] at hmap
  simp at hmap

end CoMoNet
