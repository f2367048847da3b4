import CoMoNet.Admin.Quorum
import CoMoNet.Post.Verify

/-!
# newpostmsg

`newpostmsg` asks `isAdmin` and goes by the error code, without a branch for an empty
witness (`publishes_for_admin_iff`).
-/

namespace CoMoNet

open CScript (decimal)

/-- `RPC_WALLET_UNLOCK_NEEDED`. -/
def rpcWalletUnlockNeeded : Int := -13

/-- `RPC_INVALID_PARAMS`. -/
def rpcInvalidParams : Int := -32602

/-- `get_int`, with the error of `check_type`. -/
def Json.getInt : Json → Except Exn Int
  | .int n => .ok (toInt32 n)
  | v => .error (.runtime ("value is type " ++ v.typeName ++ ", expected int"))

/-! ## Publishing -/

/-- What a call publishes. -/
inductive Publication where
  /-- `add_piece(k, data)` on the torrent of a user. -/
  | addPiece (username : Bytes) (k : Int) (data : Bytes)
  | dhtPut (username resource : Bytes) (p : Entry) (sig : Bytes)

/-- `dhtPutData`, in the overloads without and with a witness. -/
def dhtPutData (env : Env) (node : PostNode) (username resource : Bytes) (multi : Bool)
    (value : Entry) (sigUser : Bytes) (seq : Int) (witness : Option Bytes) :
    List Publication :=
  let p := Entry.set [] "target" (targetEntry username resource (targetType multi))
  let p := if seq ≥ 0 ∧ multi = false then Entry.set p "seq" (.int seq) else p
  let p := Entry.set p "v" value
  let p := Entry.set p "time" (.int node.adjustedTime)
  let p := Entry.set p "height" (.int (node.bestHeight - 1))
  let p :=
    match witness with
    | none => p
    | some witness =>
      if cString witness = ascii "no_witness" then p else Entry.set p "witness" (.str witness)
  let sigP := createSignature env node (Entry.bencode (.dict p)) sigUser
  if sigP = [] ∨ !node.dhtReady then [] else [.dhtPut username resource (.dict p) sigP]

/-- `msgTokensDelimiter`. -/
def msgTokensDelimiter : Bytes := ascii " \n\t.,:/?!;'\"()[]\x7b\x7d*"

/-- The words of a token and their resource: one after a `#` or `@`, or several. -/
def tokenWords (toLower : Bytes → Bytes) : Bytes → List (Bytes × Bytes)
  | delim :: c :: rest =>
    let target := if delim = 35 then ascii "hashtag" else ascii "mention"
    let word := toLower (c :: rest)
    if delim ≠ 35 ∧ delim ≠ 64 then []
    else if delim ∉ word then [(word, target)]
    else ((word.splitOnP (· == delim)).filter (· ≠ [])).map fun word => (word, target)
  | _ => []

/-- The mentions and hashtags of a text; empty tokens stand for nothing. -/
def messageWords (toLower : Bytes → Bytes) (strMsg : Bytes) : List (Bytes × Bytes) :=
  (strMsg.splitOnP (· ∈ msgTokensDelimiter)).flatMap (tokenWords toLower)

/-- The witness the wallet has for a user, if it has a key for the name. -/
def walletWitness (w : World) (username : Bytes) : Option Bytes :=
  (w.wallet.getKeyIdFromUsername username).map fun keyid =>
    ((w.wallet.mapKeyMetadata.lookup keyid).map CKeyMetadata.witness).getD []

/-- The last part of `newpostmsg`: torrent, DHT, reply, mentions and hashtags. -/
def publishPost (env : Env) (node : PostNode) (strUsername : Bytes) (k : Int)
    (strMsg : Bytes) (v : List (Bytes × Entry)) (strReplyN : Bytes) (replyK : Int) :
    List Publication :=
  let witness := (walletWitness node.toWorld (cString strUsername)).getD []
  let torrent :=
    if node.startTorrentUser strUsername then
      [.addPiece strUsername k (Entry.bencode (.dict v))]
    else dhtPutData env node strUsername (ascii "swarm") false (.dict v) strUsername 1
      (some witness)
  let post := dhtPutData env node strUsername (ascii "post" ++ decimal k) false (.dict v)
    strUsername 1 (some witness)
  let status := dhtPutData env node strUsername (ascii "status") false (.dict v) strUsername k none
  let replies := if strReplyN = [] then []
    else dhtPutData env node strReplyN (ascii "replies" ++ decimal replyK) true (.dict v)
      strUsername 0 none
  let words := (messageWords node.toLower strMsg).flatMap fun word =>
    dhtPutData env node word.1 word.2 true (.dict v) strUsername 0 none
  torrent ++ post ++ status ++ replies ++ words

/-! ## The call -/

/-- The result of a call. -/
structure PostOutcome where
  /-- The post, before it is converted for the client. -/
  result : Except Exn (List (Bytes × Entry))
  published : List Publication
  cache : Nat

/-- `strUsername`, `k` and `strMsg`. -/
def readParams (params : List Json) : Except Exn (Bytes × Int × Bytes) := do
  let strUsername ← (params.getD 0 .null).getStr
  let k ← (params.getD 1 .null).getInt
  let strMsg ← (params.getD 2 .null).getStr
  return (strUsername, k, strMsg)

/-- The post replied to. -/
def readReply (params : List Json) : Except Exn (Bytes × Int) :=
  if params.length = 5 then do
    let strReplyN ← (params.getD 3 .null).getStr
    let replyK ← (params.getD 4 .null).getInt
    return (strReplyN, replyK)
  else .ok ([], 0)

/-- What follows the call of `isAdmin`. -/
def adminGate (answer : AdminAnswer) : Except Exn Unit :=
  if answer.verdict then .ok ()
  else
    match answer.error with
    | .noError =>
      .error (.rpc rpcInternalError "the specified user is not an admin and cannot post")
    | .missingWitness =>
      .error (.rpc rpcInternalError "the specified user has no witness, look it up in the dht")
    | .emptyWitness => .ok ()

/-- What becomes of a post of the node that `acceptSignedPost` does not take. -/
def notAccepted (errmsg : String) : Exn :=
  if overrunsErrbuf errmsg then .bufferOverrun else .rpc rpcInvalidParams errmsg

/-- Make a post and check it. -/
def makePost (env : Env) (node : PostNode) (strUsername : Bytes) (k : Int) (strMsg : Bytes)
    (strReplyN : Bytes) (replyK : Int) : Except Exn (List (Bytes × Entry)) :=
  let lastk := node.lastPublicPost strUsername
  let v := if lastk ≥ 0 then
    Entry.set [] "userpost" (.dict (Entry.set [] "lastk" (.int lastk))) else []
  match createSignedUserpost env node v strUsername k strMsg {} strReplyN replyK with
  | none => .error (.rpc rpcInternalError "error signing post with private key of user")
  | some v =>
    match checkPost env node (Entry.bencode (.dict v)).length (some (Entry.lazy (.dict v)))
        strUsername k with
    | (false, errmsg) => .error (notAccepted errmsg)
    | (true, _) => .ok v

/-- The part of `newpostmsg` after the call of `isAdmin`. -/
def postAfterGate (env : Env) (node : PostNode) (params : List Json) (strUsername : Bytes)
    (k : Int) (strMsg : Bytes) : Except Exn (List (Bytes × Entry) × List Publication) := do
  let (strReplyN, replyK) ← readReply params
  let v ← makePost env node strUsername k strMsg strReplyN replyK
  return (v, publishPost env node strUsername k strMsg v strReplyN replyK)

/-- `newpostmsg`. -/
def newpostmsg (env : Env) (mapToPrime : Bytes → Nat) (node : PostNode) (cache : Nat)
    (params : List Json) (fHelp : Bool) : PostOutcome :=
  if fHelp ∨ (params.length ≠ 3 ∧ params.length ≠ 5) then
    ⟨.error (.runtime ("newpostmsg <username> <k> <msg> [reply_n] [reply_k]\n" ++
      "Post a new message to swarm")), [], cache⟩
  else if node.isLocked then
    ⟨.error (.rpc rpcWalletUnlockNeeded
      "Error: Please enter the wallet passphrase with walletpassphrase first."), [], cache⟩
  else
    match readParams params with
    | .error e => ⟨.error e, [], cache⟩
    | .ok (strUsername, k, strMsg) =>
      match isAdmin env mapToPrime node.toWorld cache (cString strUsername) with
      | .error e => ⟨.error e, [], cache⟩
      | .ok answer =>
        match adminGate answer with
        | .error e => ⟨.error e, [], answer.cache⟩
        | .ok () =>
          match postAfterGate env node params strUsername k strMsg with
          | .error e => ⟨.error e, [], answer.cache⟩
          | .ok (v, published) => ⟨.ok v, published, answer.cache⟩

/-! ## Who can publish -/

section Publishes

variable {env : Env} {mapToPrime : Bytes → Nat} {node : PostNode} {w : World} {cache : Nat}
variable {params : List Json} {fHelp : Bool} {username witness : Bytes} {answer : AdminAnswer}

/-- The gate lets administrators through, and users with an empty witness. -/
theorem adminGate_ok_iff : adminGate answer = .ok () ↔
    answer.verdict = true ∨ answer.error = .emptyWitness := by
  rw [adminGate]
  cases answer.verdict with
  | true => simp
  | false => cases answer.error <;> simp

theorem isAdminWitness_error
    (h : isAdminWitness env mapToPrime w cache username witness = .ok answer) :
    (witness = [] ∧ answer.verdict = false ∧ answer.error = .emptyWitness) ∨
      (witness ≠ [] ∧ answer.error = .noError) := by
  rw [isAdminWitness] at h
  split at h
  · rename_i hempty
    cases h
    exact .inl ⟨List.isEmpty_iff.mp hempty, rfl, rfl⟩
  · rename_i hwitness
    refine .inr ⟨fun h => hwitness (List.isEmpty_iff.mpr h), ?_⟩
    split at h
    · cases h
      rfl
    · split at h
      · cases h
      split at h
      · cases h
        rfl
      · cases h

/-- An empty witness is the only error with a negative verdict. -/
theorem isAdmin_error (h : isAdmin env mapToPrime w cache username = .ok answer) :
    match walletWitness w username with
    | none => answer.verdict = false ∧ answer.error = .missingWitness
    | some witness =>
      (cString witness = [] ∧ answer.verdict = false ∧ answer.error = .emptyWitness) ∨
        (cString witness ≠ [] ∧ answer.error = .noError) := by
  rw [isAdmin] at h
  rw [walletWitness]
  split at h
  · rename_i hkey
    cases h
    simp [hkey]
  · rename_i keyid hkey
    simp only [hkey, Option.map_some]
    exact isAdminWitness_error h

/-- A call that publishes has read its parameters, and the gate of `isAdmin` was open. -/
theorem newpostmsg_published
    (h : (newpostmsg env mapToPrime node cache params fHelp).published ≠ []) :
    ∃ strUsername k strMsg answer, readParams params = .ok (strUsername, k, strMsg) ∧
      isAdmin env mapToPrime node.toWorld cache (cString strUsername) = .ok answer ∧
      adminGate answer = .ok () := by
  rw [newpostmsg] at h
  split at h
  · exact absurd rfl h
  split at h
  · exact absurd rfl h
  split at h
  · exact absurd rfl h
  rename_i strUsername k strMsg hparams
  split at h
  · exact absurd rfl h
  rename_i answer hanswer
  split at h
  · exact absurd rfl h
  rename_i hgate
  exact ⟨strUsername, k, strMsg, answer, hparams, hanswer, hgate⟩

/-- A call that publishes was made for an administrator exactly if the wallet's witness of the
user is not empty. -/
theorem publishes_for_admin_iff {strUsername strMsg : Bytes} {k : Int}
    (hparams : readParams params = .ok (strUsername, k, strMsg))
    (h : (newpostmsg env mapToPrime node cache params fHelp).published ≠ []) :
    (∃ answer, isAdmin env mapToPrime node.toWorld cache (cString strUsername) = .ok answer ∧
      answer.verdict = true) ↔
      (walletWitness node.toWorld (cString strUsername)).map cString ≠ some [] := by
  obtain ⟨strUsername', k', strMsg', answer, hparams', hanswer, hgate⟩ := newpostmsg_published h
  rw [hparams] at hparams'
  cases hparams'
  have hcodes := isAdmin_error hanswer
  have hpass := adminGate_ok_iff.mp hgate
  rw [hanswer]
  cases hwallet : walletWitness node.toWorld (cString strUsername) with
  | none =>
    simp only [hwallet] at hcodes
    simp [hcodes] at hpass
  | some witness =>
    simp only [hwallet] at hcodes
    rcases hcodes with ⟨hempty, hverdict, -⟩ | ⟨hwitness, herror⟩
    · simp [hempty, hverdict]
    · have hverdict : answer.verdict = true := by simpa [herror] using hpass
      simp [hwitness, hverdict]

end Publishes

/-! ### A new key -/

/-- A node with a key of alice. -/
def aliceNode (w : World) (witness : Bytes) : PostNode where
  getTransaction := w.getTransaction
  dhtget := w.dhtget
  wallet :=
    { mapKeyMetadata := [(1, ⟨ascii "alice", witness⟩)]
      getPubKey := fun keyID => some (2 :: List.replicate 32 (UInt8.ofNat keyID))
      nodup := List.nodup_singleton 1 }
  isLocked := false
  signCompact keyID hash := some [UInt8.ofNat keyID, UInt8.ofNat (hash % 251)]
  getTransactionAt u _ := (w.getTransaction u).map fun tx => (tx, 1)
  bestHeight := 5
  adjustedTime := 1000
  lastPublicPost _ := -1
  startTorrentUser _ := true
  dhtReady := true
  toLower := id
  current u := by cases h : w.getTransaction u <;> rfl

/-- Alice is the group. -/
def aliceGroup : World :=
  worldOf [memberTx "alice" 1, adminTx 1 "addr1" 9]
    [("addr1", reply [("alice", memberSign 1 9)])]

/-- The post of alice. -/
def helloParams : List Json := [.str (ascii "alice"), .int 0, .str (ascii "hello #world")]

theorem publishes_for_admin_iff_alice :
    (newpostmsg signNet (fun _ => 2) (aliceNode aliceGroup (ascii "3")) 0 helloParams
        false).published ≠ [] ∧
      ((∃ answer, isAdmin signNet (fun _ => 2) (aliceNode aliceGroup (ascii "3")).toWorld 0
          (cString (ascii "alice")) = .ok answer ∧ answer.verdict = true) ↔
        (walletWitness (aliceNode aliceGroup (ascii "3")).toWorld
          (cString (ascii "alice"))).map cString ≠ some []) := by
  have h : (newpostmsg signNet (fun _ => 2) (aliceNode aliceGroup (ascii "3")) 0 helloParams
      false).published.length = 4 := by decide +kernel
  have hpublished := List.ne_nil_of_length_pos (by rw [h]; decide)
  exact ⟨hpublished, publishes_for_admin_iff rfl hpublished⟩

/-- A user whose key is new posts to a group that nobody is a member of. -/
theorem nobody_posts :
    isAdmin signNet (fun _ => 2) (aliceNode (worldOf [memberTx "alice" 1] []) []).toWorld 0
        (ascii "alice") = .ok ⟨false, .emptyWitness, 0⟩ ∧
      (newpostmsg signNet (fun _ => 2) (aliceNode (worldOf [memberTx "alice" 1] []) []) 0
        helloParams false).published.length = 4 := by
  decide +kernel

end CoMoNet
