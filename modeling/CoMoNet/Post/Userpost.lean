import CoMoNet.Admin.Accumulator

/-!
# Posts

A post is a bencoded dictionary with a signature of one of its members.
-/

namespace CoMoNet

open CScript (decimal)

/-! ## Bencoding -/

/-- An `entry` of libtorrent.  The members of a dictionary are sorted. -/
inductive Entry where
  | int (n : Int)
  | str (s : Bytes)
  | list (values : List Entry)
  | dict (members : List (Bytes × Entry))

/-- The order of the keys of a `std::map`. -/
def keyLt : Bytes → Bytes → Bool
  | _, [] => false
  | [], _ :: _ => true
  | a :: as, b :: bs => a < b || (a == b && keyLt as bs)

namespace Entry

/-- Sets a member. -/
def insert (key : Bytes) (value : Entry) : List (Bytes × Entry) → List (Bytes × Entry)
  | [] => [(key, value)]
  | (k, v) :: rest =>
    if k == key then (key, value) :: rest
    else if keyLt key k then (key, value) :: (k, v) :: rest
    else (k, v) :: insert key value rest

/-- `members[key] = value`. -/
def set (members : List (Bytes × Entry)) (key : String) (value : Entry) : List (Bytes × Entry) :=
  insert (ascii key) value members

mutual

/-- `bencode`. -/
def bencode : Entry → Bytes
  | .int n => ascii "i" ++ decimal n ++ ascii "e"
  | .str s => decimal s.length ++ ascii ":" ++ s
  | .list values => ascii "l" ++ bencodeList values ++ ascii "e"
  | .dict members => ascii "d" ++ bencodeDict members ++ ascii "e"

/-- `bencode` of a list. -/
def bencodeList : List Entry → Bytes
  | [] => []
  | value :: rest => bencode value ++ bencodeList rest

/-- `bencode` of the members. -/
def bencodeDict : List (Bytes × Entry) → Bytes
  | [] => []
  | (key, value) :: rest =>
    decimal key.length ++ ascii ":" ++ key ++ bencode value ++ bencodeDict rest

end

/-- `find_key`. -/
def find (members : List (Bytes × Entry)) (key : String) : Option Entry :=
  members.lookup (ascii key)

/-- A member that is a dictionary. -/
def findDict (members : List (Bytes × Entry)) (key : String) : Option (List (Bytes × Entry)) :=
  match find members key with
  | some (.dict inner) => some inner
  | _ => none

/-- A member that is a string, or empty. -/
def findString (members : List (Bytes × Entry)) (key : String) : Bytes :=
  match find members key with
  | some (.str s) => s
  | _ => []

/-- A member that is an integer, or the default. -/
def findInt (members : List (Bytes × Entry)) (key : String) (defaultVal : Int) : Int :=
  match find members key with
  | some (.int n) => n
  | _ => defaultVal

end Entry

/-- The dictionary `target` of a resource. -/
def targetEntry (username resource type : Bytes) : Entry :=
  let target := Entry.set [] "n" (.str username)
  let target := Entry.set target "r" (.str resource)
  .dict (Entry.set target "t" (.str type))

/-- The member `t` of a target. -/
def targetType (multi : Bool) : Bytes := ascii (if multi then "m" else "s")

/-- The conversion to `int`. -/
def toInt32 (n : Int) : Int := (n + 2 ^ 31) % 2 ^ 32 - 2 ^ 31

theorem toInt32_of_fits {n : Int} (hlow : -2 ^ 31 ≤ n) (hhigh : n < 2 ^ 31) : toInt32 n = n := by
  rw [toInt32]
  omega

/-! ## What a node that posts can read -/

/-- What the code of posts reads, beside the world of the administrators. -/
structure PostNode extends World where
  isLocked : Bool
  /-- `SignCompact` with the private key of a key id, if the wallet has it. -/
  signCompact : Nat → Uint256 → Option Bytes
  /-- `GetTransaction(username, …, maxHeight)`: the transaction and the height of
  its block. -/
  getTransactionAt : Bytes → Int → Option (CTransaction × Int)
  bestHeight : Int
  adjustedTime : Int
  /-- `findLastPublicPostLocalUser`. -/
  lastPublicPost : Bytes → Int
  /-- Whether the handle of `startTorrentUser` is valid. -/
  startTorrentUser : Bytes → Bool
  dhtReady : Bool
  /-- `to_lower`, of the locale if the program is built with one. -/
  toLower : Bytes → Bytes
  /-- The lookup without a height is the one of the world. -/
  current : ∀ u, getTransaction u = (getTransactionAt u (-1)).map Prod.fst

/-! ## Signatures -/

/-- `createSignature`, empty if it fails. -/
def createSignature (env : Env) (node : PostNode) (strMessage strUsername : Bytes) : Bytes :=
  if node.isLocked then []
  else
    match node.wallet.getKeyIdFromUsername strUsername with
    | none => []
    | some keyID => (node.signCompact keyID (env.messageHash strMessage)).getD []

/-- `getUserPubKey`. -/
def getUserPubKey (node : PostNode) (strUsername : Bytes) (maxHeight : Int) : Option Bytes :=
  match node.getTransactionAt strUsername maxHeight with
  | none => none
  | some (txOut, _) =>
    match CScript.extractPushData txOut.pubKey with
    | none | some [] => none
    | some (vch :: _) => if cPubKey vch = [] then none else some (cPubKey vch)

/-- `verifySignature`. -/
def verifySignature (env : Env) (node : PostNode) (strMessage strUsername strSign : Bytes)
    (maxHeight : Int) : Bool :=
  match getUserPubKey node strUsername maxHeight with
  | none => false
  | some pubkey =>
    match env.recoverCompact (env.messageHash strMessage) strSign with
    | none => false
    | some pubkeyRec => env.hash160 pubkeyRec == env.hash160 pubkey

/-- `validatePostNumberForUser`. -/
def validatePostNumberForUser (node : PostNode) (username : Bytes) (k : Int) : Bool :=
  match node.getTransactionAt username (-1) with
  | none => false
  | some (_, nHeight) =>
    if k < 0 then false
    else if node.bestHeight > 0 ∧ k > 2 * (node.bestHeight - nHeight) + 20 then false
    else true

/-! ## Making a post -/

/-- What a post is made of. -/
structure PostParts where
  rt : Option (Entry × Entry) := none
  fav : Option (Entry × Entry) := none
  dm : Option Entry := none
  pfav : Option Entry := none

/-- The members `createSignedUserpost` takes over; `none` for an unknown type. -/
def PostParts.addTo (parts : PostParts) (msg : Bytes) (userpost : List (Bytes × Entry)) :
    Option (List (Bytes × Entry)) :=
  match parts.rt, parts.fav, parts.dm, parts.pfav with
  | some (rt, sigRt), _, _, _ => some (Entry.set (Entry.set userpost "rt" rt) "sig_rt" sigRt)
  | none, some (fav, sigFav), _, _ =>
    some (Entry.set (Entry.set userpost "fav" fav) "sig_fav" sigFav)
  | none, none, some dm, _ => some (Entry.set userpost "dm" dm)
  | none, none, none, some pfav => some (Entry.set userpost "pfav" pfav)
  | none, none, none, none => if msg = [] then none else some userpost

/-- `createSignedUserpost`, with the members of `v` before and after. -/
def createSignedUserpost (env : Env) (node : PostNode) (v : List (Bytes × Entry))
    (username : Bytes) (k : Int) (msg : Bytes) (parts : PostParts) (replyN : Bytes)
    (replyK : Int) : Option (List (Bytes × Entry)) :=
  let userpost := (Entry.findDict v "userpost").getD []
  let userpost := Entry.set userpost "n" (.str username)
  let userpost := Entry.set userpost "k" (.int k)
  let userpost := Entry.set userpost "time" (.int node.adjustedTime)
  let userpost := Entry.set userpost "height" (.int (node.bestHeight - 1))
  let userpost := if msg = [] then userpost else Entry.set userpost "msg" (.str msg)
  match parts.addTo msg userpost with
  | none => none
  | some userpost =>
    let reply := Entry.set (Entry.set [] "n" (.str replyN)) "k" (.int replyK)
    let userpost := if replyN = [] then userpost else Entry.set userpost "reply" (.dict reply)
    let sig := createSignature env node (Entry.bencode (.dict userpost)) username
    if sig = [] then none
    else
      some (Entry.set (Entry.set v "userpost" (.dict userpost)) "sig_userpost" (.str sig))

end CoMoNet
