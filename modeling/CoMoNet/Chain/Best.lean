import CoMoNet.Chain.Connect

/-!
# Choosing the best chain

`setBestChain` is cut into the phases of the source: `planReorg`, `disconnectBlocks`,
`connectBlocks` and `switchChain`. A rejected block ends it in the middle, with the
writes to the user name index kept. `connectBestBlock` picks the candidate with the most
work.
-/

namespace CoMoNet

/-! ## The memory pool -/

/-- `MAX_STANDARD_TX_SIZE`. -/
def maxStandardTxSize : Nat := 140 + 16 + 512 + 32

/-- `IsStandardTx`. -/
def isStandardTx (tx : CTransaction) : Bool :=
  !(tx.nVersion > 1) && !(tx.serializeSize ≥ maxStandardTxSize)

/-- `CTxMemPool::accept`; `rateLimited` is the rate limiter's outcome, used with `fLimitFree`. -/
def mempoolAccept (env : Env) (fuel : Nat) (s : ChainState) (tx : CTransaction)
    (fLimitFree rateLimited : Bool) : Except Halt (Bool × ChainState) :=
  if !(checkTransaction env tx).isValid || tx.isSpamMessage then .ok (false, s)
  else if !env.testNet && !isStandardTx tx then .ok (false, s)
  else if s.mapTx.any fun tx' => env.txHash tx' == env.txHash tx then .ok (false, s)
  else
    match getTransaction env fuel s tx.getUsername (-1) with
    | .error e => .error e
    | .ok none =>
      if fLimitFree && rateLimited then .ok (false, s)
      else .ok (true, { s with mapTx := s.mapTx ++ [tx] })
    | .ok (some _) =>
      match verifyDuplicateOrReplacementTx env fuel s tx false true (-1) false with
      | .error e => .error e
      | .ok (false, s) => .ok (false, s)
      | .ok (true, s) =>
        if fLimitFree && rateLimited then .ok (false, s)
        else .ok (true, { s with mapTx := s.mapTx ++ [tx] })

/-- `CTxMemPool::remove`. -/
def mempoolRemove (env : Env) (s : ChainState) (tx : CTransaction) : ChainState :=
  if tx.isSpamMessage then s
  else { s with mapTx := s.mapTx.filter fun tx' => env.txHash tx' ≠ env.txHash tx }

/-- Resurrect the transactions of the disconnected branch, ignoring errors. -/
def resurrect (env : Env) (fuel : Nat) : ChainState → List CTransaction → Except Halt ChainState
  | s, [] => .ok s
  | s, tx :: vResurrect =>
    match mempoolAccept env fuel s tx false false with
    | .error e => .error e
    | .ok (_, s) => resurrect env fuel s vResurrect

/-! ## Marking failed blocks -/

/-- `InvalidChainFound`.  Its log line reads `pindexBest` without a test. -/
def invalidChainFound (s : ChainState) (pindexNew : CBlockIndex) : Except Halt ChainState :=
  match s.pindexBest with
  | none => .error .nullPointer
  | some _ => .ok { s with nBestInvalidWork := max s.nBestInvalidWork pindexNew.nChainWork }

/-- Mark an entry `BLOCK_FAILED_CHILD` and take it out of the candidates. -/
def markFailedChild (s : ChainState) (p : CBlockIndex) : ChainState :=
  let s := s.setStatus p { s.nStatus p with failedChild := true }
  { s with setBlockIndexValid := s.setBlockIndexValid.erase p }.writeBlockIndex p

/-- `InvalidBlockFound`; it calls `ConnectBestBlock`, a parameter, if the block has a successor. -/
def invalidBlockFound (connectBestBlock : ChainState → Except Halt (Bool × ChainState))
    (s : ChainState) (pindex : CBlockIndex) : Except Halt ChainState :=
  let s := (s.setStatus pindex { s.nStatus pindex with failedValid := true }).writeBlockIndex pindex
  let s := { s with setBlockIndexValid := s.setBlockIndexValid.erase pindex }
  match invalidChainFound s pindex with
  | .error e => .error e
  | .ok s =>
    match s.getNextInMainChain pindex with
    | none => .ok s
    | some _ => (connectBestBlock s).map Prod.snd

/-! ## SetBestChain -/

/-- Fills `vConnect` from the new tip down. A failed block marks and empties the list. -/
def collectConnect : ChainState → List CBlockIndex → List CBlockIndex →
    List CBlockIndex × ChainState
  | s, vConnect, [] => (vConnect, s)
  | s, vConnect, pindex :: rest =>
    let vConnect := vConnect ++ [pindex]
    if (s.nStatus pindex).failed then
      collectConnect (vConnect.foldl markFailedChild s) [] rest
    else collectConnect s vConnect rest

/-- `GetTotalBlocksEstimate`. -/
def getTotalBlocksEstimate (env : Env) : Nat :=
  match env.checkpoints.getLast? with
  | none => 0
  | some (height, _) => height

/-- Disconnect the old branch, up to the first block that cannot be
disconnected. -/
def disconnectBlocks : ChainState → Option CBlockIndex → List CBlockIndex →
    Except Halt (Bool × ChainState × Option CBlockIndex)
  | s, view, [] => .ok (true, s, view)
  | s, view, pindex :: vDisconnect =>
    match disconnectBlock s view pindex.block pindex false with
    | .error e => .error e
    | .ok (false, s, view) => .ok (false, s, view)
    | .ok (true, s, view) => disconnectBlocks s view vDisconnect

/-- The transactions queued for the memory pool while disconnecting. -/
def resurrectable (env : Env) (vDisconnect : List CBlockIndex) : List CTransaction :=
  vDisconnect.flatMap fun pindex =>
    pindex.block.vtx.filter fun tx =>
      !tx.isSpamMessage && getTotalBlocksEstimate env < pindex.nHeight

/-- How the loop over `vConnect` ends. -/
inductive Connected where
  | all (s : ChainState) (view : Option CBlockIndex)
  /-- `ConnectBlock` found `pindex` invalid. -/
  | rejected (s : ChainState) (pindex : CBlockIndex)

/-- Connect the new branch, up to the first rejected block. -/
def connectBlocks (env : Env) (fuel : Nat) : ChainState → Option CBlockIndex →
    List CBlockIndex → Except Halt Connected
  | s, view, [] => .ok (.all s view)
  | s, view, pindex :: vConnect =>
    match connectBlock env fuel s view pindex.block pindex false with
    | .error e => .error e
    | .ok (.invalid _ _, s, _) => .ok (.rejected s pindex)
    | .ok (.valid, s, view) => connectBlocks env fuel s view vConnect

/-- `resize` of the vector. -/
def resizeChain (n : Nat) (v : List (Option CBlockIndex)) : List (Option CBlockIndex) :=
  v.take n ++ List.replicate (n - v.length) none

/-- The end of `SetBestChain`: flushes the view and switches the memory structures. -/
def switchChain (env : Env) (fuel : Nat) (s : ChainState) (view : Option CBlockIndex)
    (vDisconnect vConnect : List CBlockIndex) (pindexNew : CBlockIndex) :
    Except Halt ChainState :=
  let v := vConnect.foldl (fun v p => v.set p.nHeight (some p))
    (resizeChain (pindexNew.nHeight + 1) s.vBlockIndexByHeight)
  let s := { s with coinsTip := view, vBlockIndexByHeight := v }
  match resurrect env fuel s (resurrectable env vDisconnect) with
  | .error e => .error e
  | .ok s =>
    let s := (vConnect.flatMap fun p => p.block.vtx).foldl (mempoolRemove env) s
    .ok { s with pindexBest := some pindexNew }

/-- The fork of the coin view with a new tip, `none` for an empty view. -/
def forkWith (view : Option CBlockIndex) (pindexNew : CBlockIndex) :
    Except Halt (Option CBlockIndex) :=
  match view with
  | none => .ok none
  | some best =>
    match CBlockIndex.findFork best pindexNew with
    | none => .error .assertion
    | some pfork => .ok (some pfork)

/-- What `SetBestChain` is going to do. -/
structure Reorg where
  /-- The blocks to disconnect, the tip first. -/
  vDisconnect : List CBlockIndex
  /-- The blocks to connect, the lowest first. -/
  vConnect : List CBlockIndex
  /-- The state, with the failed blocks of the new branch marked. -/
  marked : ChainState

/-- The first part of `SetBestChain`: the fork and the blocks on both sides. -/
def planReorg (s : ChainState) (pindexNew : CBlockIndex) : Except Halt Reorg :=
  match forkWith s.coinsTip pindexNew with
  | .error e => .error e
  | .ok pfork =>
    let collected := collectConnect s [] (pindexNew.above pfork)
    .ok {
      vDisconnect := match s.coinsTip with
        | none => []
        | some best => best.above pfork
      vConnect := collected.1.reverse
      marked := collected.2 }

/-- `SetBestChain`, with the `ConnectBestBlock` of `InvalidBlockFound` as a
parameter. -/
def setBestChainWith (env : Env) (fuel : Nat)
    (connectBestBlock : ChainState → Except Halt (Bool × ChainState))
    (s : ChainState) (pindexNew : CBlockIndex) : Except Halt (Bool × ChainState) :=
  match planReorg s pindexNew with
  | .error e => .error e
  | .ok plan =>
    if plan.vConnect.length < plan.vDisconnect.length then .ok (false, plan.marked)
    else
      match disconnectBlocks plan.marked s.coinsTip plan.vDisconnect with
      | .error e => .error e
      | .ok (false, s, _) => .ok (false, s)
      | .ok (true, s, view) =>
        match connectBlocks env fuel s view plan.vConnect with
        | .error e => .error e
        | .ok (.rejected s pindex) =>
          match invalidChainFound s pindexNew with
          | .error e => .error e
          | .ok s => (invalidBlockFound connectBestBlock s pindex).map (false, ·)
        | .ok (.all s view) =>
          (switchChain env fuel s view plan.vDisconnect plan.vConnect pindexNew).map (true, ·)

/-! ## ConnectBestBlock -/

/-- `CBlockIndexWorkComparator`: more work is greater, then the smaller hash. -/
def workLess (env : Env) (pa pb : CBlockIndex) : Bool :=
  pa.nChainWork < pb.nChainWork ||
    (pa.nChainWork == pb.nChainWork && env.blockHash pa.block > env.blockHash pb.block)

/-- The greatest candidate, `*setBlockIndexValid.rbegin()`. -/
def bestCandidate (env : Env) : List CBlockIndex → Option CBlockIndex
  | [] => none
  | p :: ps =>
    match bestCandidate env ps with
    | none => some p
    | some q => if workLess env p q then some q else some p

/-- What the ancestry check of a candidate finds. -/
inductive Ancestry where
  /-- A failed block; the blocks walked before it are its descendants. -/
  | failed (descendants : List CBlockIndex)
  /-- The blocks to make the tip one after the other. -/
  | attach (vAttach : List CBlockIndex)

/-- The inner loop of `ConnectBestBlock`, from a block down to the main chain. -/
def checkAncestry (s : ChainState) : CBlockIndex → List CBlockIndex → List CBlockIndex → Ancestry
  | p@(.root ..), walked, vAttach =>
    if (s.nStatus p).failed then .failed walked
    else .attach (attachIf p vAttach).reverse
  | p@(.next pprev ..), walked, vAttach =>
    if (s.nStatus p).failed then .failed walked
    else if (s.getNextInMainChain p).isSome then .attach (attachIf p vAttach).reverse
    else checkAncestry s pprev (walked ++ [p]) (attachIf p vAttach)
where
  /-- A block with more work than the best one goes into `vAttach`. -/
  attachIf (p : CBlockIndex) (vAttach : List CBlockIndex) : List CBlockIndex :=
    match s.pindexBest with
    | none => vAttach ++ [p]
    | some best => if p.nChainWork > best.nChainWork then vAttach ++ [p] else vAttach

/-- Make each block of a list the tip, until one fails. -/
def setBestChains (setBestChain : ChainState → CBlockIndex → Except Halt (Bool × ChainState)) :
    ChainState → List CBlockIndex → Except Halt (Bool × ChainState)
  | s, [] => .ok (true, s)
  | s, p :: vAttach =>
    match setBestChain s p with
    | .error e => .error e
    | .ok (false, s) => .ok (false, s)
    | .ok (true, s) => setBestChains setBestChain s vAttach

/-- `ConnectBestBlock`.  `rounds` bounds its outer loop. -/
def connectBestBlock (env : Env) (fuel : Nat) : Nat → ChainState → Except Halt (Bool × ChainState)
  | 0, _ => .error .fuel
  | rounds + 1, s =>
    match bestCandidate env s.setBlockIndexValid with
    | none => .ok (true, s)
    | some pindexNewBest =>
      if s.pindexBest.any fun best => best == pindexNewBest ||
          best.nChainWork == pindexNewBest.nChainWork then .ok (true, s)
      else
        match checkAncestry s pindexNewBest [] [] with
        | .failed descendants =>
          match invalidChainFound (descendants.foldl markFailedChild s) pindexNewBest with
          | .error e => .error e
          | .ok s => connectBestBlock env fuel rounds s
        | .attach vAttach =>
          setBestChains (setBestChainWith env fuel (connectBestBlock env fuel rounds)) s vAttach

/-- `SetBestChain`. -/
def setBestChain (env : Env) (fuel rounds : Nat) (s : ChainState) (pindexNew : CBlockIndex) :
    Except Halt (Bool × ChainState) :=
  setBestChainWith env fuel (connectBestBlock env fuel rounds) s pindexNew

/-! ## A block arrives -/

/-- The entry of a new block. -/
def newBlockIndex (env : Env) (s : ChainState) (block : CBlock) (pos : CDiskBlockPos) :
    CBlockIndex :=
  match s.findBlockIndex env block.hashPrevBlock with
  | none => .root block pos
  | some pprev => .next pprev block pos

/-- Enters it. -/
def insertBlockIndex (s : ChainState) (pindexNew : CBlockIndex) : ChainState :=
  let s := s.setStatus pindexNew { valid := 3, haveData := true }
  { s with
      mapBlockIndex := pindexNew :: s.mapBlockIndex
      setBlockIndexValid := pindexNew :: s.setBlockIndexValid }.writeBlockIndex pindexNew

/-- `AddToBlockIndex`. -/
def addToBlockIndex (env : Env) (fuel rounds : Nat) (s : ChainState) (block : CBlock)
    (pos : CDiskBlockPos) : Except Halt (Bool × ChainState) :=
  match s.findBlockIndex env (env.blockHash block) with
  | some _ => .ok (false, s)
  | none =>
    connectBestBlock env fuel rounds (insertBlockIndex s (newBlockIndex env s block pos))

end CoMoNet
