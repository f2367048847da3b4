import CoMoNet.Post.NewPost

/-!
# Local users and groups

What a node keeps for the users of its wallet. A received post may add to all of it, and
a direct message may bring the key of a group to the wallet.
-/

namespace CoMoNet

open CScript (decimal)

/-! ## Maps -/

/-- `m[key] = value` in a `std::map`, whose members are sorted. -/
def mapSet {κ α : Type} [DecidableEq κ] (lt : κ → κ → Bool) (key : κ) (value : α) :
    List (κ × α) → List (κ × α)
  | [] => [(key, value)]
  | (k, v) :: rest =>
    if k = key then (key, value) :: rest
    else if lt key k then (key, value) :: (k, v) :: rest
    else (k, v) :: mapSet lt key value rest

/-- `insert` in a `std::set`.  Nothing depends on the order. -/
def setInsert (key : Bytes) (set : List Bytes) : List Bytes :=
  if key ∈ set then set else set ++ [key]

/-! ## The state -/

/-- `StoredDirectMsg`. -/
structure StoredDirectMsg where
  utcTime : Int
  text : Bytes
  fromMe : Bool
  /-- `m_from`. -/
  sender : Bytes
  k : Int
deriving DecidableEq, Repr

/-- `GroupChat`. -/
structure GroupChat where
  description : Bytes := []
  privKey : Bytes := []
  members : List Bytes := []
deriving DecidableEq, Repr

/-- `UserData`. -/
structure UserData where
  following : List Bytes := []
  directmsg : List (Bytes × List StoredDirectMsg) := []
  mentionsKeys : List Bytes := []
  mentionsPosts : List Entry := []
  ignoreGroups : List Bytes := []

/-- The keys of the wallet. -/
structure WalletKeys where
  mapKeyMetadata : List (Nat × CKeyMetadata) := []
  /-- The private keys, by their ids. -/
  keys : List (Nat × Bytes) := []
  isLocked : Bool := false

namespace WalletKeys

/-- `HaveKey`. -/
def haveKey (wallet : WalletKeys) (keyID : Nat) : Bool := (wallet.keys.lookup keyID).isSome

/-- `GetKey`. -/
def getKey (wallet : WalletKeys) (keyID : Nat) : Option Bytes :=
  if wallet.isLocked then none else wallet.keys.lookup keyID

/-- `mapKeyMetadata[keyID] = data`. -/
def setMetadata (wallet : WalletKeys) (keyID : Nat) (data : CKeyMetadata) : WalletKeys :=
  { wallet with mapKeyMetadata := mapSet (· < ·) keyID data wallet.mapKeyMetadata }

/-- `AddKeyPubKey`: a locked wallet takes no key, and the file of the wallet may fail. -/
def addKeyPubKey (wallet : WalletKeys) (keyID : Nat) (key : Bytes) (written : Bool) :
    Bool × WalletKeys :=
  if wallet.isLocked then (false, wallet)
  else (written, { wallet with keys := mapSet (· < ·) keyID key wallet.keys })

end WalletKeys

/-- The users, groups and keys of a node. -/
structure PostState where
  users : List (Bytes × UserData) := []
  groups : List (Bytes × GroupChat) := []
  /-- `pwalletMain`. -/
  wallet : WalletKeys := {}
  /-- The calls of `startTorrentUser`. -/
  started : List Bytes := []

/-- An `ecies_secure_t`. -/
structure Secured where
  key : Bytes
  mac : Bytes
  orig : Int
  body : Bytes
deriving DecidableEq, Repr

/-- Decoding and decryption. -/
structure PostEnv extends Env where
  /-- What `lazy_bdecode` reads, if it returns 0. -/
  lazyBdecode : Bytes → Option LazyEntry
  /-- `Decrypt` with a private key. -/
  decrypt : Bytes → Secured → Option Bytes
  /-- `CBitcoinSecret::SetString` and `GetKey`. -/
  secretKey : Bytes → Option Bytes
  /-- `GetPubKey().GetID()` of a private key. -/
  keyID : Bytes → Nat
  randomGroupAlias : Bytes
  /-- Whether the file of the wallet takes the key. -/
  writeKey : Nat → Bool

/-! ## Direct messages -/

/-- A message goes before the first one that is not earlier, unless that is the
same. -/
def insertDM (stoDM : StoredDirectMsg) : List StoredDirectMsg → List StoredDirectMsg
  | [] => [stoDM]
  | dm :: rest =>
    if stoDM.utcTime = dm.utcTime ∧ stoDM.text = dm.text then dm :: rest
    else if stoDM.utcTime ≤ dm.utcTime then stoDM :: dm :: rest
    else dm :: insertDM stoDM rest

namespace PostState

/-- Sets the data of a user. -/
def setUser (s : PostState) (name : Bytes) (data : UserData) : PostState :=
  { s with users := mapSet keyLt name data s.users }

/-- Sets a group. -/
def setGroup (s : PostState) (groupAlias : Bytes) (group : GroupChat) : PostState :=
  { s with groups := mapSet keyLt groupAlias group s.groups }

/-- `storeNewDM`. -/
def storeNewDM (s : PostState) (localuser dmUser : Bytes) (stoDM : StoredDirectMsg) : PostState :=
  let data := (s.users.lookup localuser).getD {}
  let dms := (data.directmsg.lookup dmUser).getD []
  s.setUser localuser
    { data with directmsg := mapSet keyLt dmUser (insertDM stoDM dms) data.directmsg }

/-- Whether a local user takes messages of a group. -/
def heeds (s : PostState) (member groupAlias : Bytes) : Bool :=
  match s.users.lookup member with
  | none => false
  | some data => groupAlias ∉ data.ignoreGroups

/-- `storeGroupDM`. -/
def storeGroupDM (s : PostState) (groupAlias : Bytes) (stoDM : StoredDirectMsg) : PostState :=
  match s.groups.lookup groupAlias with
  | none => s
  | some group =>
    group.members.foldl (fun s member =>
      if s.heeds member groupAlias then s.storeNewDM member groupAlias stoDM else s) s

/-- `getGroupAliasByKey`. -/
def getGroupAliasByKey (s : PostState) (privKey : Bytes) : Bytes :=
  ((s.groups.find? fun g => g.2.privKey = privKey).map Prod.fst).getD []

/-- The first part of `registerNewGroup`, for a key of no group. -/
def registerKey (env : PostEnv) (s : PostState) (privKey : Bytes) : Option Bytes × PostState :=
  match env.secretKey privKey with
  | none => (none, s)
  | some key =>
    let vchAddress := env.keyID key
    let known := ((s.wallet.mapKeyMetadata.lookup vchAddress).getD ⟨[], []⟩)
    if s.wallet.haveKey vchAddress ∧ known.username.head? ≠ some 42 then
      (none, { s with wallet := s.wallet.setMetadata vchAddress known })
    else
      let groupAlias := if s.wallet.haveKey vchAddress then known.username
        else env.randomGroupAlias
      let wallet := s.wallet.setMetadata vchAddress ⟨groupAlias, []⟩
      let (added, wallet) := wallet.addKeyPubKey vchAddress key (env.writeKey vchAddress)
      (if added then some groupAlias else none, { s with wallet := wallet })

/-- The last part of `registerNewGroup`. -/
def joinGroup (s : PostState) (groupAlias privKey desc member invitedBy : Bytes) (utcTime k : Int) :
    PostState :=
  let group := (s.groups.lookup groupAlias).getD {}
  let group := { group with description := desc, privKey := privKey }
  let s := s.setGroup groupAlias group
  if member = [] then s
  else if member = groupAlias then
    s.storeGroupDM groupAlias
      { utcTime := utcTime
        text := ascii "*** '" ++ invitedBy ++ ascii "' changed group description to: " ++ desc
        fromMe := false
        sender := invitedBy
        k := k }
  else
    let s := s.setGroup groupAlias { group with members := setInsert member group.members }
    if s.heeds member groupAlias then
      s.storeNewDM member groupAlias
        { utcTime := utcTime
          text := ascii "*** Invited by '" ++ invitedBy ++ ascii "' to group: " ++ desc
          fromMe := false
          sender := invitedBy
          k := k }
    else s

/-- `registerNewGroup`. -/
def registerNewGroup (env : PostEnv) (s : PostState) (privKey desc member invitedBy : Bytes)
    (utcTime k : Int) : PostState :=
  let groupAlias := s.getGroupAliasByKey privKey
  if groupAlias ≠ [] then s.joinGroup groupAlias privKey desc member invitedBy utcTime k
  else
    match s.registerKey env privKey with
    | (none, s) => s
    | (some groupAlias, s) => s.joinGroup groupAlias privKey desc member invitedBy utcTime k

/-- `notifyNewGroupMember`. -/
def notifyNewGroupMember (s : PostState) (groupAlias newmember invitedBy : Bytes)
    (utcTime k : Int) : PostState :=
  match s.groups.lookup groupAlias with
  | none => s
  | some group =>
    if newmember ∈ group.members then s
    else
      let s := s.setGroup groupAlias { group with members := setInsert newmember group.members }
      s.storeGroupDM groupAlias
        { utcTime := utcTime
          text := ascii "*** New member '" ++ newmember ++ ascii "' invited by '" ++ invitedBy ++
            ascii "'"
          fromMe := false
          sender := invitedBy
          k := k }

/-- The loop over new members. -/
def addMembers (s : PostState) (groupAlias invitedBy : Bytes) (utcTime k : Int) :
    List LazyEntry → PostState
  | [] => s
  | e :: rest =>
    let member := e.stringValue
    if member = [] then s.addMembers groupAlias invitedBy utcTime k rest
    else
      let s := s.notifyNewGroupMember groupAlias member invitedBy utcTime k
      let s := { s with started := setInsert member s.started }
      s.addMembers groupAlias invitedBy utcTime k rest

/-- What `processReceivedDM` does with a text that the key of a user decrypts. -/
def receiveText (env : PostEnv) (s : PostState) (post : LazyEntry) (username textOut : Bytes) :
    PostState :=
  let utcTime := post.dictFindIntOr "time" 0
  let sender := post.dictFindStringValue "n"
  let k := toInt32 (post.dictFindIntOr "k" (-1))
  let isGroup := (s.groups.lookup username).isSome
  let notAllowed :=
    match s.users.lookup username with
    | none => false
    | some data => sender ∉ data.following
  if !isGroup && notAllowed then s
  else
    let v := (env.lazyBdecode textOut).filter (·.type = .dict)
    match v.bind (·.dictFindDict "group_invite") with
    | some groupInvite =>
      match groupInvite.dictFindString "desc", groupInvite.dictFindString "key" with
      | some desc, some key =>
        s.registerNewGroup env key.stringValue desc.stringValue username sender utcTime k
      | _, _ => s
    | none =>
      match v.bind (·.dictFindList "group_members"), isGroup with
      | some groupMembers, true =>
        s.addMembers username sender utcTime k groupMembers.listValues
      | _, _ =>
        let (msg, recipient) :=
          match v.bind (·.dictFindString "msg"), v.bind (·.dictFindString "to") with
          | some msg, some recipient => (msg.stringValue, recipient.stringValue)
          | _, _ => (textOut, username)
        if msg = [] ∨ recipient = [] then s
        else
          let stoDM : StoredDirectMsg :=
            { utcTime := utcTime
              text := msg
              fromMe := sender = username
              sender := sender
              k := k }
          if isGroup then s.storeGroupDM username stoDM
          else s.storeNewDM username (if sender = username then recipient else sender) stoDM

/-- The loop over the keys, up to the first that decrypts. -/
def tryKeys (env : PostEnv) (s : PostState) (post : LazyEntry) (sec : Secured) :
    List (Nat × CKeyMetadata) → PostState
  | [] => s
  | (keyID, data) :: rest =>
    match (s.wallet.getKey keyID).bind (env.decrypt · sec) with
    | none => s.tryKeys env post sec rest
    | some textOut => s.receiveText env post data.username textOut

/-- The fields of an `ecies_secure_t` in a direct message. -/
def secured (dm : LazyEntry) : Secured where
  key := dm.dictFindStringValue "key"
  mac := dm.dictFindStringValue "mac"
  orig := dm.dictFindIntOr "orig" 0
  body := dm.dictFindStringValue "body"

/-- Use the direct message of a post. -/
def processReceivedDM (env : PostEnv) (s : PostState) (post : LazyEntry) : PostState :=
  match post.dictFindDict "dm" with
  | none => s
  | some dm => s.tryKeys env post (secured dm) s.wallet.mapKeyMetadata

/-! ## Mentions -/

/-- One token. The post is copied for the user; `none` is the `type_error` of the copy. -/
def mention (node : PostNode) (s : PostState) (v : LazyEntry) (username : Bytes) (time : Int) :
    Bytes → Option PostState
  | 64 :: c :: rest =>
    let mentionUser := node.toLower (c :: rest)
    match s.users.lookup mentionUser with
    | none => some s
    | some data =>
      let postKey := username ++ ascii ";" ++ decimal time
      if username ∉ data.following ∨ postKey ∈ data.mentionsKeys then some s
      else
        (Entry.assign none v).map fun vEntry =>
          s.setUser mentionUser
            { data with
                mentionsKeys := setInsert postKey data.mentionsKeys
                mentionsPosts := data.mentionsPosts ++ [vEntry] }
  | _ => some s

/-- `processReceivedPost`; empty tokens mention nobody. -/
def processReceivedPost (node : PostNode) (s : PostState) (v : LazyEntry) (username : Bytes)
    (time : Int) (msg : Bytes) : Option PostState :=
  (msg.splitOnP (· ∈ msgTokensDelimiter)).foldlM (fun s token =>
    s.mention node v username time token) s

end PostState

end CoMoNet
