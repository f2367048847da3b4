import CoMoNet.Wallet.Pending
import CoMoNet.Soft.Vote

/-!
# Block templates

`CreateNewBlock` puts the miner's spam message first, then what fits from the pool, and
tests its work with `ConnectBlock`. The extra nonce comes later, into the public key of
the spam message.
-/

namespace CoMoNet

/-! ## The spam message -/

/-- The settings of a miner. -/
structure SpamSettings where
  strSpamUser : Bytes
  strSpamMessage : Bytes

/-- `setspammsg`. -/
def setspammsg (strUsername strMsg : Bytes) : Except CallError SpamSettings :=
  match numCharacters strMsg with
  | none => .error (.rpc rpcInternalError "spam message invalid utf8")
  | some spamMsgUtf8Size =>
    if spamMsgUtf8Size = 0 then .error (.rpc rpcInternalError "empty spam message")
    else if maxSpamMsgSize < spamMsgUtf8Size then
      .error (.rpc rpcInternalError "spam message too big")
    else .ok ⟨strUsername, strMsg⟩

/-- The errors. -/
inductive TemplateError where
  | halt (e : Halt)
  /-- `std::runtime_error(message)`. -/
  | runtime (message : String)
deriving DecidableEq, Repr

section Template

variable (env : Env) (sign : Bytes → Uint256 → Option Bytes) (fuel : Nat) (s : ChainState)
variable (w : KeyWallet)

/-- The first part of `CreateSpamMsgTx`: the user name and the key, 0 for the null id. -/
def spamSigner (strSpamUser : Bytes) : Except Halt (Bytes × Nat) :=
  if strSpamUser = ascii "nobody" then .ok (strSpamUser, 0)
  else
    match getTransaction env fuel s strSpamUser (-1) with
    | .error e => .error e
    | .ok none => .ok (ascii "nobody", 0)
    | .ok (some _) =>
      match w.getKeyIdFromUsername strSpamUser with
      | none => .ok (ascii "nobody", 0)
      | some keyID => .ok (strSpamUser, keyID)

/-- A spam message. -/
def spamMsgTx (strMsg strUsername vchSig salt pubKey : Bytes) : CTransaction :=
  { message := CScript.push strMsg
    userName := CScript.push strUsername ++ CScript.push vchSig ++ CScript.push salt
    pubKey := pubKey
    nNonce := 0 }

/-- The signature with a key of the wallet, `none` if it cannot sign. The null id signs nothing. -/
def spamSignature (strMsg : Bytes) (keyID : Nat) : Option Bytes :=
  if keyID ≠ 0 then
    (w.getKey keyID).bind fun key => sign key (env.messageHash (CScript.push strMsg))
  else some []

/-- `CreateSpamMsgTx`, `none` for false. The verdict of `CheckTransaction` is not used. -/
def createSpamMsgTx (spam : SpamSettings) (salt : Bytes) : Except Halt (Option CTransaction) :=
  (spamSigner env fuel s w spam.strSpamUser).map fun (strUsername, keyID) =>
    (spamSignature env sign w spam.strSpamMessage keyID).map fun vchSig =>
      spamMsgTx spam.strSpamMessage strUsername vchSig salt []

/-! ## The transactions -/

/-- The loop over the pool. -/
def collectTransactions (nBlockMaxSize : Nat) :
    List CTransaction → List Uint256 → Nat → Except Halt (List CTransaction)
  | [], _, _ => .ok []
  | tx :: rest, uniqueUsers, nBlockSize =>
    if tx.isSpamMessage then collectTransactions nBlockMaxSize rest uniqueUsers nBlockSize
    else
      match chainTest env fuel s tx with
      | .error e => .error e
      | .ok false => collectTransactions nBlockMaxSize rest uniqueUsers nBlockSize
      | .ok true =>
        if getUsernameHash env tx ∈ uniqueUsers then
          collectTransactions nBlockMaxSize rest uniqueUsers nBlockSize
        else if nBlockSize + tx.serializeSize ≥ nBlockMaxSize then
          collectTransactions nBlockMaxSize rest (getUsernameHash env tx :: uniqueUsers)
            nBlockSize
        else
          (collectTransactions nBlockMaxSize rest (getUsernameHash env tx :: uniqueUsers)
            (nBlockSize + tx.serializeSize)).map (tx :: ·)

/-- `mempool.mapTx` in the order of its keys. -/
def poolInOrder (pool : List CTransaction) : List CTransaction :=
  pool.insertionSort fun a b => env.txHash a ≤ env.txHash b

/-- The limit of `-blockmaxsize`, from 1000 bytes to 1000 below that of a block. -/
def clampBlockSize (blockmaxsize : Nat) : Nat := max 1000 (min (maxBlockSize - 1000) blockmaxsize)

/-- The block that `CreateNewBlock` fills in, with a target. -/
def templateBlock (pindexPrev : CBlockIndex) (vtx : List CTransaction) (nBits : Nat) : CBlock where
  nVersion := 2
  nHeight := pindexPrev.nHeight + 1
  hashPrevBlock := env.blockHash pindexPrev.block
  hashMerkleRoot := 0
  nTime := (max (pindexPrev.getMedianTimePast + 1 : Int) (s.adjustedTime env)).toNat
  nBits := nBits
  nNonce := 0
  vtx := vtx

/-- `CreateNewBlock`, `none` for a null pointer. -/
def createNewBlock (blockmaxsize : Nat) (spam : SpamSettings) (salt : Bytes) :
    Except TemplateError (Option CBlock × ChainState) :=
  match createSpamMsgTx env sign fuel s w spam salt, s.pindexBest with
  | .error e, _ => .error (.halt e)
  | .ok none, _ => .ok (none, s)
  | .ok (some _), none => .error (.halt .nullPointer)
  | .ok (some txNew), some pindexPrev =>
    match collectTransactions env fuel s (clampBlockSize blockmaxsize) (poolInOrder env s.mapTx)
        [] 1000 with
    | .error e => .error (.halt e)
    | .ok vtx =>
      match getNextWorkRequired env pindexPrev (templateBlock env s pindexPrev [] 0) with
      | .error e => .error (.halt e)
      | .ok nBits =>
        let block := templateBlock env s pindexPrev (txNew :: vtx) nBits
        let indexDummy := CBlockIndex.next pindexPrev block ⟨0, 0⟩
        match connectBlock env fuel s s.coinsTip block indexDummy true with
        | .error e => .error (.halt e)
        | .ok (.invalid .., _) => .error (.runtime "CreateNewBlock() : ConnectBlock failed")
        | .ok (.valid, s, _) => .ok (some block, s)

/-- `COINBASE_FLAGS`. -/
def coinbaseFlags : CScript := CScript.push (ascii "/P2SH/")

/-- `IncrementExtraNonce`, with the value that the extra nonce has got. -/
def incrementExtraNonce (pindexPrev : CBlockIndex) (block : CBlock) (nExtraNonce : Nat) :
    Except Halt CBlock :=
  match block.vtx with
  | [] => .error .nullPointer
  | tx :: vtx =>
    let pubKey := CScript.push (CScript.bigNumBytes nExtraNonce) ++ coinbaseFlags
    if 100 < pubKey.length then .error .assertion
    else
      let vtx := { tx with pubKey := pubKey } :: vtx
      .ok { block with
        nHeight := pindexPrev.nHeight + 1
        vtx := vtx
        hashMerkleRoot := buildMerkleTree env vtx }

end Template

end CoMoNet
