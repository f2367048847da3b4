import CoMoNet.Chain.State

/-!
# Signed messages

`verifymessage` decides whether a signature of a text is one of a user, with the key in
the wallet or else the one on the chain. It throws when it cannot decide.
-/

namespace CoMoNet

/-! ## What a node can read -/

/-- A value of `json_spirit`. -/
inductive Json where
  | obj (members : List (Bytes × Json))
  | array (values : List Json)
  | str (text : Bytes)
  | bool (b : Bool)
  | int (n : Int)
  /-- A number that is not an integer; nothing reads its value. -/
  | real
  | null

/-- The exceptions of a command. -/
inductive Exn where
  /-- `JSONRPCError(code, message)`. -/
  | rpc (code : Int) (message : String)
  /-- `runtime_error(message)`. -/
  | runtime (message : String)
  /-- `boost::algorithm::hex_decode_error`. -/
  | hexDecode
  /-- Not an exception: an element past the end of a vector is read. -/
  | outOfRange
  /-- Not an exception: a sum or a difference of type `int` is out of its range. -/
  | intOverflow
  /-- Not an exception: a text is written past the end of its buffer. -/
  | bufferOverrun
deriving DecidableEq, Repr

/-- `RPC_INVALID_ADDRESS_OR_KEY`. -/
def rpcInvalidAddressOrKey : Int := -5

/-- `RPC_WALLET_INVALID_ACCOUNT_NAME`. -/
def rpcWalletInvalidAccountName : Int := -11

/-- `RPC_INTERNAL_ERROR`. -/
def rpcInternalError : Int := -32603

namespace Json

/-- The entry of `Value_type_name`. -/
def typeName : Json → String
  | .obj _ => "obj"
  | .array _ => "array"
  | .str _ => "str"
  | .bool _ => "bool"
  | .int _ => "int"
  | .real => "real"
  | .null => "null"

/-- `get_str`, with the error of `check_type`. -/
def getStr : Json → Except Exn Bytes
  | .str text => .ok text
  | v => .error (.runtime ("value is type " ++ v.typeName ++ ", expected str"))

end Json

/-- What the wallet keeps about a key. -/
structure CKeyMetadata where
  username : Bytes
  /-- The witness of the user, empty for a new key. -/
  witness : Bytes := []

/-- The parts of the wallet that are read. -/
structure CWallet where
  /-- `mapKeyMetadata`, in the order of the key ids. -/
  mapKeyMetadata : List (Nat × CKeyMetadata)
  getPubKey : Nat → Option Bytes
  nodup : (mapKeyMetadata.map Prod.fst).Nodup

/-- `GetKeyIdFromUsername`. -/
def CWallet.getKeyIdFromUsername (wallet : CWallet) (username : Bytes) : Option Nat :=
  (wallet.mapKeyMetadata.find? fun m => m.2.username == username).map Prod.fst

/-- What the code can read during a call. -/
structure World where
  /-- `GetTransaction(username, …)` with the current chain. -/
  getTransaction : Bytes → Option CTransaction
  /-- The answer of the `n`th `dhtget(address, "signature", "s")`. -/
  dhtget : Nat → Bytes → List Json
  /-- `pwalletMain`. -/
  wallet : CWallet

/-! ## Base64 -/

/-- `decode64_table`, `none` for -1. -/
def decode64 (b : UInt8) : Option Nat :=
  let n := b.toNat
  if 65 ≤ n ∧ n ≤ 90 then some (n - 65)
  else if 97 ≤ n ∧ n ≤ 122 then some (n - 97 + 26)
  else if 48 ≤ n ∧ n ≤ 57 then some (n - 48 + 52)
  else if n = 43 then some 62
  else if n = 47 then some 63
  else none

/-- The loop of `DecodeBase64`: mode, bits left over, output and the input it stopped at. -/
def decodeBase64From : Nat → Nat → Bytes → Bytes → Nat × Nat × Bytes × Bytes
  | mode, left, vchRet, [] => (mode, left, vchRet, [])
  | mode, left, vchRet, p :: rest =>
    match decode64 p, mode with
    | none, _ => (mode, left, vchRet, p :: rest)
    | some dec, 0 => decodeBase64From 1 dec vchRet rest
    | some dec, 1 =>
      decodeBase64From 2 (dec % 16) (vchRet ++ [UInt8.ofNat (left * 4 + dec / 16)]) rest
    | some dec, 2 =>
      decodeBase64From 3 (dec % 4) (vchRet ++ [UInt8.ofNat (left * 16 + dec / 4)]) rest
    | some dec, _ => decodeBase64From 0 left (vchRet ++ [UInt8.ofNat (left * 64 + dec)]) rest

/-- `DecodeBase64`, `none` when `fInvalid` is set.  The text ends with a null. -/
def decodeBase64 (text : Bytes) : Option Bytes :=
  let (mode, left, vchRet, p) := decodeBase64From 0 0 [] text
  let stops (k : Nat) : Bool := (decode64 (p.getD k 0)).isNone
  let equals (k : Nat) : Bool := p.getD k 0 == 61
  match mode with
  | 0 => some vchRet
  | 1 => none
  | 2 => if left ≠ 0 || !equals 0 || !equals 1 || !stops 2 then none else some vchRet
  | _ => if left ≠ 0 || !equals 0 || !stops 1 then none else some vchRet

example : decodeBase64 (ascii "TWFuTQ==") = some (ascii "ManM") := by decide

/-! ## verifymessage -/

/-- The key the wallet has for a user: empty, that is invalid, without one. -/
def walletPubKey (w : World) (strUsername : Bytes) : Except Exn Bytes :=
  match w.wallet.getKeyIdFromUsername strUsername with
  | none => .ok []
  | some keyID =>
    match w.wallet.getPubKey keyID with
    | none => .error (.rpc rpcWalletInvalidAccountName "Error: failed to read pubkey from wallet")
    | some pubkey => .ok pubkey

/-- The key of a user from the chain. -/
def chainPubKey (w : World) (strUsername : Bytes) : Except Exn Bytes :=
  match w.getTransaction strUsername with
  | none =>
    .error (.rpc rpcWalletInvalidAccountName
      "Error: this username does not exist in tx database")
  | some txOut =>
    match CScript.extractPushData txOut.pubKey with
    | none | some [] => .error (.rpc rpcInternalError "Error: error extracting pubkey from tx")
    | some (vch :: _) =>
      if cPubKey vch = [] then .error (.rpc rpcInternalError "Error: invalid pubkey data from tx")
      else .ok (cPubKey vch)

/-- The key `verifymessage` checks against. -/
def verifyKey (w : World) (strUsername : Bytes) : Except Exn Bytes :=
  match walletPubKey w strUsername with
  | .error e => .error e
  | .ok pubkey => if pubkey = [] then chainPubKey w strUsername else .ok pubkey

/-- `verifymessage`. -/
def verifymessage (env : Env) (w : World) (strUsername strSign strMessage : Bytes) :
    Except Exn Bool :=
  match verifyKey w strUsername with
  | .error e => .error e
  | .ok pubkey =>
    match decodeBase64 strSign with
    | none => .error (.rpc rpcInvalidAddressOrKey "Malformed base64 encoding")
    | some vchSig =>
      match env.recoverCompact (env.messageHash strMessage) vchSig with
      | none => .ok false
      | some pubkeyRec => .ok (env.hash160 pubkeyRec == env.hash160 pubkey)

/-- The wallet has a valid key for the name, or it has no valid one and the chain does. -/
def HasKey (w : World) (u : Bytes) : Prop :=
  ((∃ keyID, w.wallet.getKeyIdFromUsername u = some keyID ∧
      ∃ pubkey, w.wallet.getPubKey keyID = some pubkey ∧ pubkey ≠ []) ∨
    (∀ keyID, w.wallet.getKeyIdFromUsername u = some keyID →
      w.wallet.getPubKey keyID = some []) ∧
    ∃ tx vch rest, w.getTransaction u = some tx ∧
      CScript.extractPushData tx.pubKey = some (vch :: rest) ∧ cPubKey vch ≠ [])

section Message

variable {env : Env} {w : World} {u sign message : Bytes}

theorem chainPubKey_ok_iff : (∃ k, chainPubKey w u = .ok k) ↔
    ∃ tx vch rest, w.getTransaction u = some tx ∧
      CScript.extractPushData tx.pubKey = some (vch :: rest) ∧ cPubKey vch ≠ [] := by
  rw [chainPubKey]
  cases htx : w.getTransaction u with
  | none => simp
  | some tx =>
    cases hpush : CScript.extractPushData tx.pubKey with
    | none => simp [hpush]
    | some vData =>
      cases vData with
      | nil => simp [hpush]
      | cons vch rest =>
        by_cases hkey : cPubKey vch = []
        · simp [hpush, hkey]
        · simp [hpush, hkey]

theorem verifyKey_ok_iff : (∃ k, verifyKey w u = .ok k) ↔ HasKey w u := by
  rw [verifyKey, walletPubKey, HasKey, ← chainPubKey_ok_iff]
  cases hid : w.wallet.getKeyIdFromUsername u with
  | none => simp
  | some keyID =>
    cases hkey : w.wallet.getPubKey keyID with
    | none => simp [hkey]
    | some pubkey =>
      by_cases hempty : pubkey = []
      · simp [hkey, hempty]
      · simp [hkey, hempty]

/-- It answers if and only if the user has a key and the signature is base64. -/
theorem verifymessage_returns_iff : (∃ b, verifymessage env w u sign message = .ok b) ↔
    HasKey w u ∧ (decodeBase64 sign).isSome = true := by
  rw [← verifyKey_ok_iff, verifymessage]
  cases verifyKey w u with
  | error e => simp
  | ok pubkey =>
    cases decodeBase64 sign with
    | none => simp
    | some vchSig =>
      cases hrec : env.recoverCompact (env.messageHash message) vchSig with
      | none => simp [hrec]
      | some pubkeyRec => simp [hrec]

end Message

end CoMoNet
