import CoMoNet.Chain.Best
import Mathlib.Data.List.Sort

/-!
# Accepting a block

The rules that depend on the parent of a block: target, time, checkpoints, version and
height. The place a block is stored at is an argument.
-/

namespace CoMoNet

/-- `nTargetTimespan`. -/
def nTargetTimespan : Int := 14 * 24 * 60 * 60

/-- `nTargetSpacing`. -/
def nTargetSpacing : Int := 10 * 60

/-- `nInterval`, the number of blocks between two changes of the target. -/
def nInterval : Nat := 2016

/-- `CBigNum::GetCompact` of a number that is not negative. -/
def getCompact (n : Nat) : Nat :=
  let nSize := if n = 0 then 0 else n.log2 / 8 + 1
  let nCompact := if nSize ≤ 3 then n * 2 ^ (8 * (3 - nSize)) else n / 2 ^ (8 * (nSize - 3))
  if nCompact / 2 ^ 23 % 2 = 1 then nCompact / 2 ^ 8 + (nSize + 1) * 2 ^ 24
  else nCompact + nSize * 2 ^ 24

namespace CBlockIndex

/-- The last entry that does not use the easy target testnet allows. -/
def lastHardBits (limitBits : Nat) : CBlockIndex → Nat
  | p@(.root ..) => p.block.nBits
  | p@(.next pprev ..) =>
    if p.nHeight % nInterval ≠ 0 ∧ p.block.nBits = limitBits then pprev.lastHardBits limitBits
    else p.block.nBits

/-- The ancestor a number of steps down, `none` past the root. -/
def stepsDown : Nat → CBlockIndex → Option CBlockIndex
  | 0, p => some p
  | n + 1, p => p.pprev.bind (stepsDown n)

/-- `GetMedianTimePast`: the median time of the last eleven blocks. -/
def getMedianTimePast (p : CBlockIndex) : Nat :=
  let times := ((p.ancestors.take 11).map fun q => q.block.nTime).insertionSort (· ≤ ·)
  times.getD (times.length / 2) 0

end CBlockIndex

/-- `GetNextWorkRequired`. -/
def getNextWorkRequired (env : Env) (pindexLast : CBlockIndex) (block : CBlock) :
    Except Halt Nat :=
  let nProofOfWorkLimit := getCompact env.proofOfWorkLimit
  if (pindexLast.nHeight + 1) % nInterval ≠ 0 then
    if env.testNet then
      if (block.nTime : Int) > pindexLast.block.nTime + nTargetSpacing * 2 then
        .ok nProofOfWorkLimit
      else .ok (pindexLast.lastHardBits nProofOfWorkLimit)
    else .ok pindexLast.block.nBits
  else
    match CBlockIndex.stepsDown (nInterval - 1) pindexLast with
    | none => .error .assertion
    | some pindexFirst =>
      let nActualTimespan : Int := (pindexLast.block.nTime : Int) - pindexFirst.block.nTime
      let nActualTimespan := max nActualTimespan (nTargetTimespan / 4)
      let nActualTimespan := min nActualTimespan (nTargetTimespan * 4)
      let bnNew := setCompact pindexLast.block.nBits * nActualTimespan / nTargetTimespan
      .ok (getCompact (min bnNew env.proofOfWorkLimit).toNat)

/-- `Checkpoints::CheckBlock`, with `SoftCheckpoints::CheckBlock` behind it. -/
def checkpointsCheckBlock (env : Env) (s : ChainState) (nHeight : Nat) (hash : Uint256) : Bool :=
  match env.checkpoints.find? fun c => c.1 == nHeight with
  | none => true
  | some (_, checkpoint) =>
    hash == checkpoint &&
      (!env.softCheckpoints || s.lastSoftCP.1 == 0 || nHeight != s.lastSoftCP.1 ||
        hash == s.lastSoftCP.2)

/-- The rules of `AcceptBlock` for a block with parent `pindexPrev`. -/
def checkContext (env : Env) (s : ChainState) (block : CBlock) (pindexPrev : CBlockIndex) :
    Except Halt Verdict :=
  match getNextWorkRequired env pindexPrev block with
  | .error e => .error e
  | .ok nBits =>
    if block.nBits ≠ nBits then .ok (.invalid 100 ["AcceptBlock() : incorrect proof of work"])
    else if block.nTime ≤ pindexPrev.getMedianTimePast then
      .ok (.invalid 0 ["AcceptBlock() : block's timestamp is too early"])
    else if !checkpointsCheckBlock env s (pindexPrev.nHeight + 1) (env.blockHash block) then
      .ok (.invalid 100 ["AcceptBlock() : rejected by checkpoint lock-in"])
    else if block.nVersion < 2 then
      .ok (.invalid 0 ["AcceptBlock() : rejected nVersion=1 block"])
    else if block.nHeight ≠ pindexPrev.nHeight + 1 then
      .ok (.invalid 100 ["AcceptBlock() : block height mismatch in coinbase"])
    else .ok .valid

/-- The checks of `AcceptBlock`. -/
def acceptChecks (env : Env) (s : ChainState) (block : CBlock) : Except Halt Verdict :=
  match s.findBlockIndex env (env.blockHash block) with
  | some _ => .ok (.invalid 0 ["AcceptBlock() : block already in mapBlockIndex"])
  | none =>
    if env.blockHash block = env.hashGenesisBlock then .ok .valid
    else
      match s.findBlockIndex env block.hashPrevBlock with
      | none => .ok (.invalid 10 ["AcceptBlock() : prev block not found"])
      | some pindexPrev => checkContext env s block pindexPrev

/-- `SetSoftCPBestChain`: moves to the checkpoint if indexed, off the main chain and connected. -/
def setSoftCPBestChain (env : Env) (fuel rounds : Nat) (s : ChainState) :
    Except Halt ChainState :=
  if !env.softCheckpoints || s.lastSoftCP.1 == 0 then .ok s
  else
    match s.findBlockIndex env s.lastSoftCP.2 with
    | none => .ok s
    | some pindex =>
      if s.isInMainChain pindex || !(pindex.ancestors.any s.isInMainChain) then .ok s
      else (setBestChain env fuel rounds s pindex).map Prod.snd

/-- `AcceptBlock`, for a block that passed `CheckBlock`. -/
def acceptBlock (env : Env) (fuel rounds : Nat) (s : ChainState) (block : CBlock)
    (blockPos : CDiskBlockPos) : Except Halt (Bool × ChainState) :=
  match acceptChecks env s block with
  | .error e => .error e
  | .ok (.invalid ..) => .ok (false, s)
  | .ok .valid =>
    match addToBlockIndex env fuel rounds s block blockPos with
    | .error e => .error e
    | .ok (false, s) => .ok (false, s)
    | .ok (true, s) => (setSoftCPBestChain env fuel rounds s).map (true, ·)

/-- Deliver a block: `CheckBlock`, then `AcceptBlock`. -/
def deliver (env : Env) (fuel rounds : Nat) (s : ChainState) (block : CBlock)
    (blockPos : CDiskBlockPos) : Except Halt (Bool × ChainState) :=
  match checkBlock env (s.adjustedTime env) block true true with
  | .invalid .. => .ok (false, s)
  | .valid => acceptBlock env fuel rounds s block blockPos

/-- A block that arrives: its place in the block files and the clock of the node. -/
structure Arrival where
  block : CBlock
  pos : CDiskBlockPos
  clock : Int := 0

/-- Deliver blocks one after the other, whether they are accepted or not. -/
def deliverAll (env : Env) (fuel rounds : Nat) :
    ChainState → List Arrival → Except Halt ChainState
  | s, [] => .ok s
  | s, a :: rest =>
    match deliver env fuel rounds { s with clock := a.clock } a.block a.pos with
    | .error e => .error e
    | .ok (_, s) => deliverAll env fuel rounds s rest

end CoMoNet
