import CoMoNet.Chain.Index
import CoMoNet.Lib.Results

/-!
# The chain state and the user name index

`ChainState` has the globals of `main.cpp` that block processing uses. In `txIndex` the
entry `(u, -1)` is the newest transaction of `u`, and a block at height `h` saves the
old one as `(u, h - 1)`. `getTransaction` follows the saved entries, with fuel, and
stops outside the main chain.
-/

namespace CoMoNet

/-- The key of an index entry, hashed in the source; distinct pairs have distinct hashes. -/
structure TxKey where
  username : Bytes
  /-- -1 for the newest entry, else the height of the saving block minus one. -/
  height : Int
deriving DecidableEq, Repr

/-- The fields of `nStatus`, with the undo data written for the block. -/
structure BlockStatus where
  /-- The level under `BLOCK_VALID_MASK`. -/
  valid : Nat := 0
  haveData : Bool := false
  /-- `BLOCK_HAVE_UNDO` and the number of entries of the stored `vtxundo`. -/
  undo : Option Nat := none
  failedValid : Bool := false
  failedChild : Bool := false
deriving DecidableEq, Repr

/-- `nStatus & BLOCK_FAILED_MASK`. -/
def BlockStatus.failed (st : BlockStatus) : Bool := st.failedValid || st.failedChild

/-- Why a call of the source does not return. -/
inductive Halt where
  /-- A loop used up its fuel. -/
  | fuel
  /-- An `assert` failed. -/
  | assertion
  | nullPointer
deriving DecidableEq, Repr

/-- The globals of block processing. -/
structure ChainState where
  /-- The entries of `mapBlockIndex`. -/
  mapBlockIndex : List CBlockIndex := []
  nStatus : CBlockIndex → BlockStatus := fun _ => {}
  /-- The last status `WriteBlockIndex` stored for an entry. -/
  diskStatus : CBlockIndex → Option BlockStatus := fun _ => none
  setBlockIndexValid : List CBlockIndex := []
  /-- `vBlockIndexByHeight`; `none` is a null slot. -/
  vBlockIndexByHeight : List (Option CBlockIndex) := []
  /-- `pcoinsTip->GetBestBlock()`. -/
  coinsTip : Option CBlockIndex := none
  /-- `pindexBest`, with which `hashBestChain`, `nBestHeight` and
  `nBestChainWork` are always set. -/
  pindexBest : Option CBlockIndex := none
  /-- The user name index of `pblocktree`. -/
  txIndex : TxKey → Option CDiskTxPos := fun _ => none
  /-- The transactions of `mempool.mapTx`. -/
  mapTx : List CTransaction := []
  nBestInvalidWork : Nat := 0
  /-- `lastSoftCP`, the soft checkpoint last voted in; height 0 when there is
  none. -/
  lastSoftCP : Nat × Uint256 := (0, 0)
  /-- How far `GetAdjustedTime()` has moved since the start. -/
  clock : Int := 0

namespace ChainState

/-- `GetAdjustedTime()`. -/
def adjustedTime (env : Env) (s : ChainState) : Int := env.startTime + s.clock

/-- `nBestHeight`, -1 before the genesis block is connected. -/
def nBestHeight (s : ChainState) : Int :=
  match s.pindexBest with
  | none => -1
  | some p => p.nHeight

/-- The entry of a hash. -/
def findBlockIndex (env : Env) (s : ChainState) (hash : Uint256) : Option CBlockIndex :=
  s.mapBlockIndex.find? fun p => env.blockHash p.block == hash

/-- `IsInMainChain`. -/
def isInMainChain (s : ChainState) (p : CBlockIndex) : Bool :=
  s.vBlockIndexByHeight.getD p.nHeight none == some p

/-- `GetNextInMainChain`. -/
def getNextInMainChain (s : ChainState) (p : CBlockIndex) : Option CBlockIndex :=
  if s.isInMainChain p then s.vBlockIndexByHeight.getD (p.nHeight + 1) none else none

/-- Header and transaction at a position; `none` is a read error. -/
def readTxAt (s : ChainState) (postx : CDiskTxPos) : Option (CBlockHeader × CTransaction) :=
  match s.mapBlockIndex.find? fun p => p.pos == postx.toCDiskBlockPos with
  | none => none
  | some p =>
    (CBlock.readTx p.block.vtx (sizeOfCompactSize p.block.vtx.length) postx.nTxOffset).map
      fun tx => (p.block.toCBlockHeader, tx)

/-- `WriteTxIndex`: a batch of writes, in order. -/
def writeTxIndex (s : ChainState) (vPos : List (TxKey × CDiskTxPos)) : ChainState :=
  { s with txIndex := vPos.foldl (fun idx w k => if k = w.1 then some w.2 else idx k) s.txIndex }

/-- `EraseTxIndex`. -/
def eraseTxIndex (s : ChainState) (txid : TxKey) : ChainState :=
  { s with txIndex := fun k => if k = txid then none else s.txIndex k }

end ChainState

/-! ## Looking a user up -/

/-- The loop of `GetTransaction` from the entry `(username, height)`. -/
def getTransactionFrom (env : Env) (s : ChainState) (username : Bytes) (maxHeight : Int) :
    Nat → Int → Except Halt (Option (CTransaction × Uint256))
  | 0, _ => .error .fuel
  | fuel + 1, height =>
    match s.txIndex ⟨username, height⟩ with
    | none => .ok none
    | some postx =>
      match s.readTxAt postx with
      | none => .ok none
      | some (header, txOut) =>
        if txOut.getUsername ≠ username then .ok none
        else
          match s.findBlockIndex env (env.headerHash header) with
          | none => .ok none
          | some pindex =>
            if header.nHeight ≠ pindex.nHeight then .error .assertion
            else if !s.isInMainChain pindex then .ok none
            else if header.nHeight > maxHeight then
              if header.nHeight - 1 > 0 ∧ header.nHeight - 1 ≥ maxHeight then
                getTransactionFrom env s username maxHeight fuel (header.nHeight - 1)
              else .ok none
            else .ok (some (txOut, env.headerHash header))

/-- `GetTransaction`: the transaction and its block's hash; a negative `maxHeight` is the best
height. -/
def getTransaction (env : Env) (fuel : Nat) (s : ChainState) (username : Bytes)
    (maxHeight : Int) : Except Halt (Option (CTransaction × Uint256)) :=
  getTransactionFrom env s username (if maxHeight < 0 then s.nBestHeight else maxHeight) fuel (-1)

/-! ## Duplicates and replacements -/

/-- `CPubKey(vch)`: a key whose length fits its first byte, else the empty, invalid key. -/
def cPubKey : Bytes → Bytes
  | [] => []
  | header :: rest =>
    let len := if header = 2 || header = 3 then 33
      else if header = 4 || header = 6 || header = 7 then 65 else 0
    if rest.length + 1 = len then header :: rest else []

/-- The second push of `tx.pubKey` signs the first with the key of `oldTx`. -/
def isKeyReplacement (env : Env) (oldTx tx : CTransaction) : Bool :=
  match CScript.extractPushData tx.pubKey with
  | some (newKey :: sig :: _) =>
    match env.recoverCompact (env.messageHash newKey) sig with
    | none => false
    | some pubkeyRec =>
      match CScript.extractPushData oldTx.pubKey with
      | some (oldKey :: _) => env.hash160 pubkeyRec == env.hash160 (cPubKey oldKey)
      | _ => false
  | _ => false

/-- `verifyDuplicateOrReplacementTx`, with the state: `removeOrphan` may erase `(u, -1)`. -/
def verifyDuplicateOrReplacementTx (env : Env) (fuel : Nat) (s : ChainState)
    (tx : CTransaction) (checkDuplicate checkReplacement : Bool) (maxHeight : Int)
    (removeOrphan : Bool) : Except Halt (Bool × ChainState) :=
  match getTransaction env fuel s tx.getUsername maxHeight with
  | .error e => .error e
  | .ok (some (oldTx, _)) =>
    .ok ((checkDuplicate && env.txHash oldTx == env.txHash tx) ||
      (checkReplacement && isKeyReplacement env oldTx tx), s)
  | .ok none =>
    let txid : TxKey := ⟨tx.getUsername, -1⟩
    if removeOrphan && (s.txIndex txid).isSome then .ok (true, s.eraseTxIndex txid)
    else .ok (false, s)

end CoMoNet
