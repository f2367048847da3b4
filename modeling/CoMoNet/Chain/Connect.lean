import CoMoNet.Chain.State

/-!
# Connecting and disconnecting a block

`connectBlock` runs `checkBlock`, the spam signature check and the overwrite checks, and
then writes the index. The view is the block it stands at. Disk operations succeed.
-/

namespace CoMoNet

/-- The test of a spam signature against the registration of its user. -/
def verifySpamSignature (env : Env) (tx : CTransaction) (vchSig : Bytes) :
    Option CTransaction → Verdict
  | none => .invalid 100 ["ConnectBlock() : spam signed by unknown user"]
  | some txPubKey =>
    match CScript.extractPushData txPubKey.pubKey with
    | none | some [] => .invalid 100 ["ConnectBlock() : spam signed with broken pubkey"]
    | some (pubkey :: _) =>
      match env.recoverCompact (env.messageHash tx.message) vchSig with
      | none => .invalid 100 ["ConnectBlock() : RecoverCompact failed for spammsg"]
      | some pubkeyRec =>
        if env.hash160 pubkeyRec ≠ env.hash160 (cPubKey pubkey) then
          .invalid 100 ["ConnectBlock() : spam signature verification failed"]
        else .valid

/-- A signed spam message is signed by the key its user has at the height of the block. -/
def checkSpamSigner (env : Env) (fuel : Nat) (s : ChainState) (block : CBlock)
    (tx : CTransaction) : Except Halt Verdict :=
  let spamUser := CScript.extractPushDataString tx.userName 0
  let vchSig := CScript.extractPushDataString tx.userName 1
  if spamUser = ascii "nobody" then .ok .valid
  else if vchSig = [] then .ok (.invalid 100 ["ConnectBlock() : spam signature missing"])
  else
    match getTransaction env fuel s spamUser block.nHeight with
    | .error e => .error e
    | .ok found => .ok (verifySpamSignature env tx vchSig (found.map Prod.fst))

/-- One overwrite check. The lookup goes up to the best height, the check to the block's. -/
def checkOverwrite (env : Env) (fuel : Nat) (block : CBlock) (s : ChainState)
    (tx : CTransaction) : Except Halt (Verdict × ChainState) :=
  match getTransaction env fuel s tx.getUsername (-1) with
  | .error e => .error e
  | .ok none => .ok (.valid, s)
  | .ok (some _) =>
    match verifyDuplicateOrReplacementTx env fuel s tx true true block.nHeight true with
    | .error e => .error e
    | .ok (true, s) => .ok (.valid, s)
    | .ok (false, s) =>
      .ok (.invalid 100 ["ConnectBlock() : tried to overwrite transaction"], s)

/-- The loop over the transactions. -/
def checkOverwrites (env : Env) (fuel : Nat) (block : CBlock) :
    ChainState → List CTransaction → Except Halt (Verdict × ChainState)
  | s, [] => .ok (.valid, s)
  | s, tx :: vtx =>
    match checkOverwrite env fuel block s tx with
    | .error e => .error e
    | .ok (.invalid nDoS errors, s) => .ok (.invalid nDoS errors, s)
    | .ok (.valid, s) => checkOverwrites env fuel block s vtx

/-- The writes for a transaction: its entry, and the old one if of another block; `operator!=`
compares block positions only. -/
def indexWrites (s : ChainState) (block : CBlock) (pos : CDiskTxPos) (tx : CTransaction) :
    List (TxKey × CDiskTxPos) :=
  let txid : TxKey := ⟨tx.getUsername, -1⟩
  (txid, pos) ::
    match s.txIndex txid with
    | none => []
    | some oldPos =>
      if pos.toCDiskBlockPos ≠ oldPos.toCDiskBlockPos then
        [(⟨tx.getUsername, block.nHeight - 1⟩, oldPos)]
      else []

/-- The loop that fills `vPos`, walking the offset over the transactions. -/
def collectWrites (s : ChainState) (block : CBlock) :
    CDiskTxPos → List CTransaction → List (TxKey × CDiskTxPos)
  | _, [] => []
  | pos, tx :: vtx =>
    (if tx.isSpamMessage then [] else indexWrites s block pos tx) ++
      collectWrites s block { pos with nTxOffset := pos.nTxOffset + tx.serializeSize } vtx

/-- `WriteBlockIndex`. -/
def ChainState.writeBlockIndex (s : ChainState) (p : CBlockIndex) : ChainState :=
  { s with diskStatus := fun q => if q = p then some (s.nStatus p) else s.diskStatus q }

/-- Sets the status of an entry. -/
def ChainState.setStatus (s : ChainState) (p : CBlockIndex) (st : BlockStatus) : ChainState :=
  { s with nStatus := fun q => if q = p then st else s.nStatus q }

/-- `BLOCK_VALID_SCRIPTS`. -/
def blockValidScripts : Nat := 5

/-- Write the undo data of a block, if it has none, and raise its validity. -/
def writeUndo (s : ChainState) (pindex : CBlockIndex) (block : CBlock) : ChainState :=
  let st := s.nStatus pindex
  if st.undo = none ∨ st.valid < blockValidScripts then
    let vtxundo := (block.vtx.filter fun tx => !tx.isSpamMessage).length
    let st := { st with undo := st.undo <|> some vtxundo, valid := blockValidScripts }
    (s.setStatus pindex st).writeBlockIndex pindex
  else s

/-- The checks of `ConnectBlock` that depend on the chain, which may erase entries. -/
def connectChecks (env : Env) (fuel : Nat) (s : ChainState) (block : CBlock) :
    Except Halt (Verdict × ChainState) :=
  match block.vtx with
  | [] => .error .nullPointer
  | spam :: vtx =>
    match checkSpamSigner env fuel s block spam with
    | .error e => .error e
    | .ok (.invalid nDoS errors) => .ok (.invalid nDoS errors, s)
    | .ok .valid => checkOverwrites env fuel block s vtx

/-- The writes of `ConnectBlock`, made when all its checks have passed. -/
def connectWrites (s : ChainState) (block : CBlock) (pindex : CBlockIndex) : ChainState :=
  let pos : CDiskTxPos := { pindex.pos with nTxOffset := sizeOfCompactSize block.vtx.length }
  (writeUndo s pindex block).writeTxIndex (collectWrites s block pos block.vtx)

/-- `ConnectBlock`: the verdict, the state and the block the view then stands
at. -/
def connectBlock (env : Env) (fuel : Nat) (s : ChainState) (view : Option CBlockIndex)
    (block : CBlock) (pindex : CBlockIndex) (fJustCheck : Bool) :
    Except Halt (Verdict × ChainState × Option CBlockIndex) :=
  match checkBlock env (s.adjustedTime env) block (!fJustCheck) (!fJustCheck) with
  | .invalid nDoS errors => .ok (.invalid nDoS errors, s, view)
  | .valid =>
    if pindex.pprev ≠ view then .error .assertion
    else if env.blockHash block = env.hashGenesisBlock then .ok (.valid, s, some pindex)
    else
      match connectChecks env fuel s block with
      | .error e => .error e
      | .ok (.invalid nDoS errors, s) => .ok (.invalid nDoS errors, s, view)
      | .ok (.valid, s) =>
        if fJustCheck then .ok (.valid, s, view)
        else .ok (.valid, connectWrites s block pindex, some pindex)

/-- The saved entry becomes the newest one; without a saved entry that one stays. -/
def restoreEntry (block : CBlock) (s : ChainState) (tx : CTransaction) : ChainState :=
  match s.txIndex ⟨tx.getUsername, block.nHeight - 1⟩ with
  | none => s
  | some oldPos => s.writeTxIndex [(⟨tx.getUsername, -1⟩, oldPos)]

/-- `DisconnectBlock`: return value, state and the block of the view. -/
def disconnectBlock (s : ChainState) (view : Option CBlockIndex) (block : CBlock)
    (pindex : CBlockIndex) (fJustCheck : Bool) :
    Except Halt (Bool × ChainState × Option CBlockIndex) :=
  if view ≠ some pindex then .error .assertion
  else
    match (s.nStatus pindex).undo, pindex.pprev with
    | none, _ => .ok (false, s, view)
    | some _, none => .error .nullPointer
    | some vtxundo, some _ =>
      if vtxundo + 1 ≠ block.vtx.length then .ok (false, s, view)
      else
        let s := if fJustCheck then s else block.vtx.tail.reverse.foldl (restoreEntry block) s
        .ok (true, s, pindex.pprev)

end CoMoNet
