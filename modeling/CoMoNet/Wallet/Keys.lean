import CoMoNet.Chain.MemPool
import CoMoNet.Post.Users

/-!
# Keys of the wallet

`createwalletuser(u, true)` renames the key of `u`, notes it in `mapKeyReplacement` and
makes a new one. `sendnewusertransaction(u)` lets the noted key sign the new one and
erases the note *before* the pool sees the transaction.
-/

namespace CoMoNet

/-! ## The key store -/

/-- `insert` in a `std::map`: a key that is there keeps its value. -/
def mapInsert (key : Nat) (value : Bytes) (m : List (Nat × Bytes)) : List (Nat × Bytes) :=
  if (m.lookup key).isSome then m else mapSet (· < ·) key value m

/-- A key `MakeNewKey` makes. -/
structure NewKey where
  secret : Bytes
  pubkey : Bytes

/-- The keys of a wallet. -/
structure KeyWallet extends WalletKeys where
  /-- The public keys, by their ids. -/
  pubKeys : List (Nat × Bytes) := []
  mapKeyReplacement : List (Nat × Bytes) := []

namespace KeyWallet

/-- `GetKeyIdFromUsername`. -/
def getKeyIdFromUsername (w : KeyWallet) (username : Bytes) : Option Nat :=
  (w.mapKeyMetadata.find? fun m => m.2.username == username).map Prod.fst

/-- `MoveKeyForReplacement`, `none` if the user has no key. -/
def moveKeyForReplacement (w : KeyWallet) (username : Bytes) : Option KeyWallet :=
  match w.mapKeyMetadata.find? fun m => m.2.username == username with
  | none => none
  | some (keyID, data) =>
    let data := { data with username := data.username ++ ascii "/replaced" }
    some { w with
      mapKeyReplacement := mapInsert keyID username w.mapKeyReplacement
      mapKeyMetadata := mapSet (· < ·) keyID data w.mapKeyMetadata }

/-- `GetKeyIdBeingReplaced`. -/
def getKeyIdBeingReplaced (w : KeyWallet) (username : Bytes) : Option Nat :=
  (w.mapKeyReplacement.find? fun m => m.2 == username).map Prod.fst

/-- `ForgetReplacementMap`. -/
def forgetReplacementMap (w : KeyWallet) (username : Bytes) : KeyWallet :=
  { w with mapKeyReplacement := w.mapKeyReplacement.eraseP fun m => m.2 == username }

/-- `GenerateNewKey`. -/
def generateNewKey (w : KeyWallet) (env : Env) (username : Bytes) (new : NewKey) (written : Bool) :
    Bool × KeyWallet :=
  let keyID := env.hash160 new.pubkey
  let (added, keys) :=
    (w.toWalletKeys.setMetadata keyID ⟨username, []⟩).addKeyPubKey keyID new.secret written
  (added, { w with
    toWalletKeys := keys
    pubKeys := if w.isLocked then w.pubKeys else mapSet (· < ·) keyID new.pubkey w.pubKeys })

/-- `createSignature`, empty if it fails; `sign` is `SignCompact`. -/
def createSignature (w : KeyWallet) (env : Env) (sign : Bytes → Uint256 → Option Bytes)
    (strMessage : Bytes) (keyID : Nat) : Bytes :=
  match w.getKey keyID with
  | none => []
  | some key => (sign key (env.messageHash strMessage)).getD []

end KeyWallet

/-! ## The calls -/

/-- The errors of a command. -/
inductive CallError where
  /-- `JSONRPCError(code, message)`. -/
  | rpc (code : Int) (message : String)
  | halt (e : Halt)
deriving DecidableEq, Repr

/-- `RPC_WALLET_ERROR`. -/
def rpcWalletError : Int := -4

/-- `RPC_INVALID_PARAMETER`. -/
def rpcInvalidParameter : Int := -8

/-- `RPC_DESERIALIZATION_ERROR`. -/
def rpcDeserializationError : Int := -22

section Calls

variable (env : Env) (sign : Bytes → Uint256 → Option Bytes) (fuel : Nat) (chain : ChainState)

/-- `createwalletuser`. Only the last error, a key not written, leaves the wallet changed. -/
def createwalletuser (w : KeyWallet) (strUsername : Bytes) (replaceKey : Bool) (new : NewKey)
    (written : Bool) : Except CallError (Bool × KeyWallet) :=
  let keyInWallet := (w.getKeyIdFromUsername strUsername).isSome
  if w.isLocked then
    .error (.rpc rpcWalletUnlockNeeded
      "Error: Please enter the wallet passphrase with walletpassphrase first.")
  else if keyInWallet && !replaceKey then
    .error (.rpc rpcWalletInvalidAccountName "Error: this username exists in wallet")
  else if !keyInWallet && replaceKey then
    .error (.rpc rpcWalletInvalidAccountName "Error: replacekey given but old key not in wallet")
  else
    match getTransaction env fuel chain strUsername (-1) with
    | .error e => .error (.halt e)
    | .ok found =>
      if found.isSome && !replaceKey then
        .error (.rpc rpcWalletInvalidAccountName "Error: this username exists in tx database")
      else
        match if replaceKey then w.moveKeyForReplacement strUsername else some w with
        | none => .error (.rpc rpcWalletError "Error: moving key for replacement")
        | some w => .ok (w.generateNewKey env strUsername new written)

/-- `createrawtransaction` with the nonce of `DoTxProofOfWork`; no signature is no hexadecimal
string. -/
def createrawtransaction (username vch : Bytes) (signedByOldKey : Option Bytes) (nonce : Nat) :
    Except CallError CTransaction :=
  if cPubKey vch = [] then .error (.rpc rpcInternalError "pubkey is not valid")
  else
    match signedByOldKey with
    | none => .ok { userName := CScript.push username, pubKey := CScript.push vch, nNonce := nonce }
    | some vchSign =>
      if vchSign = [] then
        .error (.rpc rpcInvalidParameter "signedByOldKey must be hexadecimal string (not '')")
      else .ok
        { userName := CScript.push username
          pubKey := CScript.push vch ++ CScript.push vchSign
          nNonce := nonce }

/-- What `DoTxProofOfWork` leaves: the first nonce that does, or the last one; 0 without a valid
target. -/
def DoTxProofOfWork (tx : CTransaction) : Prop :=
  let bnTarget := setCompact env.txBits
  if bnTarget ≤ 0 ∨ bnTarget > env.proofOfWorkLimit then tx.nNonce = 0
  else
    (∀ n < tx.nNonce, ¬ (env.txHash { tx with nNonce := n } : Int) < bnTarget) ∧
      (tx.nNonce = 2 ^ 32 - 1 ∨ tx.nNonce < 2 ^ 32 - 1 ∧ (env.txHash tx : Int) < bnTarget)

/-- The first part of `sendnewusertransaction`: whether a key is replaced, and the transaction. -/
def newUserTransaction (w : KeyWallet) (strUsername : Bytes) (nonce : Nat) :
    Except CallError (Bool × CTransaction) :=
  let oldKeyID := w.getKeyIdBeingReplaced strUsername
  match w.getKeyIdFromUsername strUsername with
  | none => .error (.rpc rpcWalletInvalidAccountName "Error: username must exist in wallet")
  | some keyID =>
    match w.pubKeys.lookup keyID with
    | none => .error (.rpc rpcWalletInvalidAccountName "Error: no public key found")
    | some pubkey =>
      match getTransaction env fuel chain strUsername (-1) with
      | .error e => .error (.halt e)
      | .ok found =>
        if oldKeyID.isNone && found.isSome then
          .error (.rpc rpcWalletInvalidAccountName
            "Error: this username exists in tx database")
        else if oldKeyID.isSome && found.isNone then
          .error (.rpc rpcWalletInvalidAccountName
            "Error: key replacemente requires old key in tx database")
        else
          (createrawtransaction strUsername pubkey
            (oldKeyID.map (w.createSignature env sign pubkey)) nonce).map
            fun tx => (oldKeyID.isSome, tx)

/-- `sendrawtransaction`. -/
def sendrawtransaction (tx : CTransaction) : Except CallError ChainState :=
  match getTransaction env fuel chain tx.getUsername (-1) with
  | .error e => .error (.halt e)
  | .ok found =>
    match verifyDuplicateOrReplacementTx env fuel chain tx false true (-1) false with
    | .error e => .error (.halt e)
    | .ok (replaces, _) =>
      match if replaces then none else found with
      | none =>
        match mempoolAccept env fuel chain tx false false with
        | .error e => .error (.halt e)
        | .ok (false, _) => .error (.rpc rpcDeserializationError "TX rejected")
        | .ok (true, chain) => .ok chain
      | some (tx2, hashBlock) =>
        if hashBlock ≠ 0 then
          .error (.rpc rpcInvalidAddressOrKey "transaction already in block chain")
        else if env.txHash tx ≠ env.txHash tx2 then
          .error (.rpc rpcInvalidAddressOrKey
            "conflict transaction detected (same user, different tx)")
        else .ok chain

/-- `sendnewusertransaction`: the outcome, the wallet and the chain after it. -/
def sendnewusertransaction (w : KeyWallet) (strUsername : Bytes) (nonce : Nat) :
    Except CallError Unit × KeyWallet × ChainState :=
  match newUserTransaction env sign fuel chain w strUsername nonce with
  | .error e => (.error e, w, chain)
  | .ok (replaceKey, tx) =>
    let w := if replaceKey then w.forgetReplacementMap strUsername else w
    match sendrawtransaction env fuel chain tx with
    | .error e => (.error e, w, chain)
    | .ok chain => (.ok (), w, chain)

end Calls

end CoMoNet
