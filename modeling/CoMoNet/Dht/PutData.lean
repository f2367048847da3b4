import CoMoNet.Dht.Store
import Mathlib.Data.List.Infix

/-!
# Storing data for others

The handler of `putData` checks the message and, for a post or a swarm item, that the
user is an administrator.
-/

namespace CoMoNet

/-! ## The handler -/

/-- What the handler reads, beside the world of posts. -/
structure DhtNode extends PostNode where
  /-- `verify_token` for the address a message came from: the token and the
  target. -/
  verifyToken : Bytes → Bytes → Bool
  /-- `m_table.find_node` with twice the bucket size: the ids of the nodes, sorted
  by their distance from the target. -/
  findNode : Bytes → List Nat
  bucketSize : Nat
  nid : Nat
  /-- What is read through `received_username`, which points to the characters of
  a string that is no more. -/
  receivedUsername : Bytes → Bytes
  /-- What is read through `received_rsc_type`, a pointer of the same kind. -/
  receivedRscType : Bytes → Bytes

/-- The state of a node that the handler changes. -/
structure DhtState where
  /-- `m_storage_table`. -/
  storage : StorageTable := fun _ => none
  /-- `m_posts_by_user`: the number of posts and the highest number. -/
  postsByUser : Bytes → Int × Int := fun _ => (0, 0)
  /-- The calls of `updateSeenHashtags`, the last one first. -/
  seenHashtags : List (Bytes × Int) := []
  /-- `last_accumulator_cache`. -/
  cache : Nat := 0

/-- The replies. -/
inductive PutReply where
  /-- `incoming_error(e, msg)`. -/
  | refused (msg : String)
  /-- The node is no neighbour of the target. -/
  | ignored
  /-- The item was given to `store_dht_item`. -/
  | handled (stored : Bool)
deriving DecidableEq, Repr

/-- `msg_keys[key]`. -/
def msgKey (keys : List (Option LazyEntry)) (key : MsgKey) : Option LazyEntry :=
  keys.getD key.index none

/-- `msg_keys[key]->…`. -/
def deref (keys : List (Option LazyEntry)) (key : MsgKey) : Except DhtFault LazyEntry :=
  match msgKey keys key with
  | none => .error (.absent key)
  | some e => .ok e

/-- `MAX_TIME_IN_FUTURE`. -/
def maxTimeInFuture : Int := 2 * 60 * 60

/-- `strcmp(r, "swarm") == 0 || strstr(r, "post") != NULL`. -/
def postOrSwarm (r : Bytes) : Bool :=
  cString r == ascii "swarm" || (cString r).tails.any (ascii "post").isPrefixOf

/-- The checks of size, target, token and signature: the error, if there is one. -/
def checkEnvelope (env : DhtEnv) (node : DhtNode) (keys : List (Option LazyEntry)) :
    Except DhtFault (Option String) := do
  let t ← deref keys .t
  let p ← deref keys .p
  let maxSize := if t.stringValue == ascii "m" then 768 else 8192
  if p.dataSection.length > maxSize ∨ p.dataSection.length = 0 then
    return some "message too big"
  let target ← deref keys .target
  if target.dictSize ≠ 3 then
    return some "target dict size != 3"
  let token ← deref keys .token
  if !node.verifyToken token.stringValue (env.hasher target.dataSection) then
    return some "invalid token"
  let sigUser ← deref keys .sigUser
  let sigP ← deref keys .sigP
  if !verifySignature env.toEnv node.toPostNode p.dataSection sigUser.stringValue
      sigP.stringValue (-1) then
    return some "invalid signature"
  return none

/-- The check of the witness: the error, if there is one, and the cache. -/
def checkAdmin (env : DhtEnv) (node : DhtNode) (cache : Nat) (keys : List (Option LazyEntry)) :
    Except DhtFault (Option String × Nat) := do
  let n ← deref keys .n
  let r ← deref keys .r
  if postOrSwarm (node.receivedRscType r.stringValue) then
    let witness ← deref keys .witness
    if witness.stringValue = [] then
      return (some "witness missing, forbidden action", cache)
    match isAdminWitness env.toEnv env.mapToPrime node.toWorld cache
        (cString (node.receivedUsername n.stringValue)) (cString witness.stringValue) with
    | .error e => throw (.exn e)
    | .ok answer =>
      if answer.verdict then return (none, answer.cache)
      else return (some "forbidden action, must be an admin", answer.cache)
  else return (none, cache)

/-- The checks of owner, name, number, height and time: the error, if there is
one. -/
def checkContent (node : DhtNode) (keys : List (Option LazyEntry)) :
    Except DhtFault (Option String) := do
  let t ← deref keys .t
  let multi := t.stringValue == ascii "m"
  let sigUser ← deref keys .sigUser
  let n ← deref keys .n
  if !multi ∧ sigUser.stringValue ≠ n.stringValue then
    return some "only owner is allowed"
  let r ← deref keys .r
  if r.stringValue.length > 32 then
    return some "resource name too big"
  if !multi ∧ (msgKey keys .seq).all (·.intValue < 0) then
    return some "seq is required for single"
  let height ← deref keys .height
  if height.intValue > node.bestHeight + 1 ∧ node.bestHeight > 0 then
    return some "height > getBestHeight"
  let time ← deref keys .time
  if time.intValue > node.adjustedTime + maxTimeInFuture then
    return some "time > GetAdjustedTime"
  return none

/-- The test whether the node may be a neighbour of the target. -/
def possiblyNeighbor (node : DhtNode) (target : Bytes) : Bool :=
  let n := node.findNode target
  if n.length < node.bucketSize then true
  else
    match n.getLast? with
    | none => false
    | some back => (node.nid ^^^ bigEndian target) < (back ^^^ bigEndian target)

/-- The digits of `atoi`. -/
def readDecimal (n : Int) : Bytes → Int
  | [] => n
  | c :: rest =>
    if 48 ≤ c.toNat ∧ c.toNat ≤ 57 then readDecimal (10 * n + (c.toNat - 48 : Nat)) rest else n

/-- `atoi`, by `strtol`. -/
def atoi (text : Bytes) : Int :=
  let n :=
    match text.dropWhile fun c => c = 32 ∨ (9 ≤ c ∧ c ≤ 13) with
    | 45 :: rest => -readDecimal 0 rest
    | 43 :: rest => readDecimal 0 rest
    | rest => readDecimal 0 rest
  toInt32 (max (-2 ^ 63) (min (2 ^ 63 - 1) n))

/-- The part of `process_newly_stored_entry` about hashtags. -/
def updateHashtagsStats (p target : LazyEntry) (s : DhtState) : DhtState :=
  match (p.dictFindDict "v").bind (·.dictFindDict "userpost") with
  | none => s
  | some userpost =>
    let msg := ((userpost.dictFindDict "rt").getD userpost).dictFindStringValue "msg"
    if target.dictFindStringValue "t" == ascii "m" ∨ msg = [] then s
    else { s with seenHashtags := (msg, p.dictFindIntValue "time") :: s.seenHashtags }

/-- The count of posts. -/
def updatePostsStats (target : LazyEntry) (s : DhtState) : DhtState :=
  let username := target.dictFindStringValue "n"
  let resource := target.dictFindStringValue "r"
  if (ascii "post").isPrefixOf resource then
    let resourceNumber := atoi (cString (resource.drop 4))
    let userStats := s.postsByUser username
    let newStats := (userStats.1 + 1, max userStats.2 resourceNumber)
    { s with postsByUser := Function.update s.postsByUser username newStats }
  else s

/-- `process_newly_stored_entry`. -/
def processNewlyStoredEntry (p : LazyEntry) (s : DhtState) : DhtState :=
  match p.dictFindDict "target" with
  | none => s
  | some target => updatePostsStats target (updateHashtagsStats p target s)

/-- The number given to `store_dht_item`. -/
def seqArgument (keys : List (Option LazyEntry)) (multi : Bool) : Except DhtFault Int :=
  if multi then .ok 0 else (deref keys .seq).map LazyEntry.intValue

/-- The last part of the handler. -/
def storeMessage (env : DhtEnv) (node : DhtNode) (s : DhtState) (keys : List (Option LazyEntry)) :
    Except DhtFault (PutReply × DhtState) := do
  let target ← deref keys .target
  let ih := env.hasher target.dataSection
  if !possiblyNeighbor node ih then
    return (.ignored, s)
  let p ← deref keys .p
  let sigP ← deref keys .sigP
  let sigUser ← deref keys .sigUser
  let item : DhtItem := ⟨p.dataSection, sigP.stringValue, sigUser.stringValue⟩
  let v ← deref keys .v
  let t ← deref keys .t
  let multi := t.stringValue == ascii "m"
  let seq ← seqArgument keys multi
  let height ← deref keys .height
  let (stored, storage) ← storeDhtItem env s.storage item ih multi (toInt32 seq)
    (toInt32 height.intValue) v.dataSection
  let s := { s with storage := storage }
  return (.handled stored, if stored then processNewlyStoredEntry p s else s)

/-- The branch `putData` of `incoming_request`. -/
def putData (env : DhtEnv) (node : DhtNode) (s : DhtState) (arg : LazyEntry) :
    Except DhtFault (PutReply × DhtState) :=
  match verifyMessage putDataDesc arg with
  | .error msg => .ok (.refused msg, s)
  | .ok keys => do
    if let some msg ← checkEnvelope env node keys then
      return (.refused msg, s)
    let (refusal, cache) ← checkAdmin env node s.cache keys
    let s := { s with cache := cache }
    if let some msg := refusal then
      return (.refused msg, s)
    if let some msg ← checkContent node keys then
      return (.refused msg, s)
    storeMessage env node s keys

end CoMoNet
