import CoMoNet.Post.Polls
import CoMoNet.Post.UserData

/-!
# newgroupinvite

`newgroupinvite` sends new members the key of the group, then the group all names. A
message of names is full when an estimate exceeds 150 bytes, which keeps a list below
171.
-/

namespace CoMoNet

/-! ## Direct messages -/

/-- What direct messages are linked with. -/
structure DMEnv extends Env where
  /-- `Encrypt` with a public key. -/
  encrypt : Bytes → Bytes → Option Secured

/-- `createDirectMessage`: the key is that of the wallet, or that of the chain. -/
def createDirectMessage (env : DMEnv) (node : PostNode) (recipient msg : Bytes) : Option Entry :=
  let pubkey :=
    ((node.wallet.getKeyIdFromUsername recipient).bind node.wallet.getPubKey).or
      (getUserPubKey node recipient (-1))
  (pubkey.bind (env.encrypt · msg)).map fun sec =>
    let dm := Entry.set [] "key" (.str sec.key)
    let dm := Entry.set dm "mac" (.str sec.mac)
    let dm := Entry.set dm "orig" (.int sec.orig)
    .dict (Entry.set dm "body" (.str sec.body))

/-- `signAndAddDM`: what is added to the torrent; an invalid handle adds nothing. -/
def signAndAddDM (env : Env) (node : PostNode) (strFrom : Bytes) (k : Int) (dm : Entry) :
    Except Exn (List Publication) :=
  match createSignedUserpost env node [] strFrom k [] { dm := some dm } [] 0 with
  | none => .error (.rpc rpcInternalError "error signing post with private key of user")
  | some v =>
    match checkPost env node (Entry.bencode (.dict v)).length (some (Entry.lazy (.dict v))) strFrom
        k with
    | (false, errmsg) => .error (notAccepted errmsg)
    | (true, _) =>
      .ok (if node.startTorrentUser strFrom then [.addPiece strFrom k (Entry.bencode (.dict v))]
        else [])

/-! ## The call -/

/-- A message that was sent. -/
structure SentDM where
  /-- The number of its post. -/
  k : Int
  /-- Whom it is encrypted to. -/
  recipient : Bytes
  payloadMsg : Entry
  /-- What `signAndAddDM` has added to the torrent. -/
  added : List Publication

/-- What `newgroupinvite` works on. -/
structure InviteRun where
  /-- What posts change on the node. -/
  posts : PostState
  membersList : List Bytes := []
  k : Int := 0
  sent : List SentDM := []

section Call

variable (env : DMEnv) (node : PostNode) (strFrom strGroupAlias : Bytes)

/-- Encrypts, signs and adds a message: the exception and what was done before it. -/
def sendDM (recipient : Bytes) (payloadMsg : Entry) (failure : String) (r : InviteRun) :
    Option Exn × InviteRun :=
  match createDirectMessage env node recipient (Entry.bencode payloadMsg) with
  | none => (some (.rpc rpcInternalError failure), r)
  | some dm =>
    let next := { r with k := toInt32 (r.k + 1) }
    match signAndAddDM env.toEnv node strFrom r.k dm with
    | .error e => (some e, next)
    | .ok added => (none, { next with sent := r.sent ++ [⟨r.k, recipient, payloadMsg, added⟩] })

/-- The invitation. -/
def invitePayload (group : GroupChat) : Entry :=
  let groupInvite := Entry.set [] "desc" (.str group.description)
  let groupInvite := Entry.set groupInvite "key" (.str group.privKey)
  .dict (Entry.set [] "group_invite" (.dict groupInvite))

/-- `m_users[strMember].m_ignoreGroups.erase(strGroupAlias)`, for a user of the node. -/
def PostState.heedAgain (s : PostState) (strMember : Bytes) : PostState :=
  match s.users.lookup strMember with
  | none => s
  | some data =>
    s.setUser strMember { data with ignoreGroups := data.ignoreGroups.erase strGroupAlias }

/-- The loop over the new members. -/
def inviteMembers (group : GroupChat) : List Json → InviteRun → Option Exn × InviteRun
  | [], r => (none, r)
  | member :: newmembers, r =>
    match member.getStr with
    | .error e => (some e, r)
    | .ok strMember =>
      let r := { r with
        membersList := setInsert strMember r.membersList
        posts := r.posts.heedAgain strGroupAlias strMember }
      match sendDM env node strFrom strMember (invitePayload group)
          "error encrypting to pubkey of destination user" r with
      | (some e, r) => (some e, r)
      | (none, r) => inviteMembers group newmembers r

/-- The lists of members of the messages; a list is closed above 150 bytes or at the end. -/
def memberLists (groupMembers : List Bytes) (byteCounter : Nat) : List Bytes → List (List Bytes)
  | [] => if groupMembers = [] then [] else [groupMembers]
  | member :: membersList =>
    let groupMembers := groupMembers ++ [member]
    let byteCounter := byteCounter + (member.length + 2 + member.length / 10)
    if byteCounter > 150 then groupMembers :: memberLists [] 0 membersList
    else memberLists groupMembers byteCounter membersList

/-- A list of names. -/
def membersEntry (groupMembers : List Bytes) : Entry := .list (groupMembers.map .str)

/-- The message with the names. -/
def membersPayload (groupMembers : List Bytes) : Entry :=
  .dict (Entry.set [] "group_members" (membersEntry groupMembers))

/-- The loop over the lists. -/
def announceMembers : List (List Bytes) → InviteRun → Option Exn × InviteRun
  | [], r => (none, r)
  | groupMembers :: lists, r =>
    match sendDM env node strFrom strGroupAlias (membersPayload groupMembers)
        "error encrypting to pubkey of group alias" r with
    | (some e, r) => (some e, r)
    | (none, r) => announceMembers lists r

/-- `strFrom`, `k`, `strGroupAlias` and `newmembers`. -/
def readInvite (params : List Json) : Except Exn ((Bytes × Int × Bytes) × List Json) := do
  let first ← readParams params
  let newmembers ← (params.getD 3 .null).getArray
  return (first, newmembers)

/-- `newgroupinvite`.  `membersList` is gone through from its smallest name on. -/
def newgroupinvite (s : PostState) (params : List Json) (fHelp : Bool) : Option Exn × InviteRun :=
  if fHelp ∨ params.length ≠ 4 then
    (some (.runtime ("newgroupinvite <username> <k> <groupalias> '[<newmember>,...]'\n" ++
      "Invite some new members for a group chat.\n" ++
      "note: k is increased by at least 2, check getlasthave")), { posts := s })
  else if node.isLocked then
    (some (.rpc rpcWalletUnlockNeeded
      "Error: Please enter the wallet passphrase with walletpassphrase first."), { posts := s })
  else
    match readInvite params with
    | .error e => (some e, { posts := s })
    | .ok ((strFrom, k, strGroupAlias), newmembers) =>
      match s.groups.lookup strGroupAlias with
      | none => (some (.rpc rpcInternalError "unknown group alias"), { posts := s, k := k })
      | some group =>
        match inviteMembers env node strFrom strGroupAlias group newmembers
            { posts := s, membersList := group.members, k := k } with
        | (some e, r) => (some e, r)
        | (none, r) => announceMembers env node strFrom strGroupAlias
            (memberLists [] 0 (inOrder r.membersList)) r

end Call

/-! ## The lists of members -/

section Lists

variable {groupMembers membersList : List Bytes} {byteCounter : Nat}

/-- Every member is in a list. -/
theorem flatten_memberLists (groupMembers membersList : List Bytes) (byteCounter : Nat) :
    (memberLists groupMembers byteCounter membersList).flatten = groupMembers ++ membersList := by
  induction membersList generalizing groupMembers byteCounter with
  | nil =>
    rw [memberLists]
    split
    · next h => simp [h]
    · simp
  | cons member membersList ih =>
    simp only [memberLists]
    split
    · rw [List.flatten_cons, ih]
      simp
    · rw [ih]
      simp

/-- The size that the estimate of a list stands for. -/
def estimatedSize (groupMembers : List Bytes) : Nat :=
  (groupMembers.map fun member => member.length + 2 + member.length / 10).sum

theorem estimatedSize_concat (groupMembers : List Bytes) (member : Bytes) :
    estimatedSize (groupMembers ++ [member]) =
      estimatedSize groupMembers + (member.length + 2 + member.length / 10) := by
  simp [estimatedSize]

/-- Lists stay small. -/
theorem estimatedSize_memberLists (hnames : ∀ member ∈ membersList, member.length ≤ 16)
    (hcounter : estimatedSize groupMembers = byteCounter) (hopen : byteCounter ≤ 150) :
    ∀ l ∈ memberLists groupMembers byteCounter membersList, estimatedSize l ≤ 169 := by
  induction membersList generalizing groupMembers byteCounter with
  | nil =>
    intro l hl
    rw [memberLists] at hl
    split at hl
    · cases hl
    · rw [List.mem_singleton.mp hl]
      omega
  | cons member membersList ih =>
    obtain ⟨hmember, hnames⟩ := List.forall_mem_cons.mp hnames
    have hnext := estimatedSize_concat groupMembers member
    intro l hl
    simp only [memberLists] at hl
    split at hl
    · rcases List.mem_cons.mp hl with rfl | hl
      · omega
      · exact ih hnames rfl (Nat.zero_le _) l hl
    · exact ih hnames (by omega) (by omega) l hl

theorem length_bencode_name {member : Bytes} (h : member.length ≤ 16) :
    (Entry.bencode (.str member)).length = member.length + 2 + member.length / 10 := by
  have hdecimal : ∀ n ≤ 16, (CScript.decimal (n : Nat)).length = 1 + n / 10 := by decide
  rw [Entry.bencode, List.length_append, List.length_append, hdecimal _ h]
  have hcolon : (ascii ":").length = 1 := rfl
  omega

/-- The estimate is the size. -/
theorem length_bencode_membersEntry (h : ∀ member ∈ groupMembers, member.length ≤ 16) :
    (Entry.bencode (membersEntry groupMembers)).length = estimatedSize groupMembers + 2 := by
  have hlist : (Entry.bencodeList (groupMembers.map .str)).length = estimatedSize groupMembers := by
    induction groupMembers with
    | nil => rfl
    | cons member groupMembers ih =>
      obtain ⟨hmember, hnames⟩ := List.forall_mem_cons.mp h
      rw [List.map_cons, Entry.bencodeList, List.length_append, ih hnames,
        length_bencode_name hmember]
      rfl
  rw [membersEntry, Entry.bencode, List.length_append, List.length_append, hlist]
  have hends : (ascii "l").length = 1 ∧ (ascii "e").length = 1 := ⟨rfl, rfl⟩
  omega

theorem nodup_inOrder (set : List Bytes) : (inOrder set).Nodup := by
  have hsorted : ∀ (set : List Bytes) (m : List (Bytes × Unit)), KeysSorted m →
      KeysSorted (set.foldl (fun m key => mapSet keyLt key () m) m) := by
    intro set
    induction set with
    | nil => exact fun m hm => hm
    | cons key set ih => exact fun m hm => ih _ (sortsKeys_keyLt.mapSet hm key ())
  rw [inOrder, List.nodup_iff_pairwise_ne, List.pairwise_map]
  exact (hsorted set [] List.Pairwise.nil).imp ne_of_keyLt

end Lists

/-! ## Sending -/

theorem checkPost_nonneg {env : Env} {node : PostNode} {dataSize : Nat} {v : Option LazyEntry}
    {username : Bytes} {seq : Int} {errmsg : String}
    (h : checkPost env node dataSize v username seq = (true, errmsg)) : 0 ≤ seq := by
  obtain ⟨e, post, hverify⟩ := checkPost_true h
  by_contra hneg
  have hvalidate : ∀ k, k = seq → validatePostNumberForUser node username k = false := by
    rintro k rfl
    rw [validatePostNumberForUser]
    split
    · rfl
    · rw [if_pos (by omega)]
  rw [verifyDecoded] at hverify
  split at hverify
  · cases hverify
  split at hverify
  · cases hverify
  simp only at hverify
  split at hverify
  · cases hverify
  split at hverify
  · cases hverify
  split at hverify
  · cases hverify
  split at hverify
  · cases hverify
  · next hk =>
    rw [hvalidate _ (not_not.mp hk)] at hverify
    cases hverify

section Send

variable {env : DMEnv} {node : PostNode} {strFrom strGroupAlias recipient : Bytes}
variable {payloadMsg : Entry} {failure : String} {r r' : InviteRun} {k₀ : Int}

/-- Recipient and message. -/
def SentDM.content (dm : SentDM) : Bytes × Entry := (dm.recipient, dm.payloadMsg)

/-- The messages have the numbers from `k₀` on, and are in the torrent of the user. -/
structure Numbered (node : PostNode) (strFrom : Bytes) (k₀ : Int) (r : InviteRun) : Prop where
  numbers : r.sent.map SentDM.k = (List.range r.sent.length).map fun i : Nat => k₀ + i
  added : node.startTorrentUser strFrom = true →
    ∀ dm ∈ r.sent, ∃ data, dm.added = [.addPiece strFrom dm.k data]
  next : r.k = toInt32 (k₀ + r.sent.length)
  /-- The numbers are in the range of an `int`. -/
  fits : -2 ^ 31 ≤ k₀ ∧ k₀ + r.sent.length ≤ 2 ^ 31

/-- What one message does. -/
structure Sends (node : PostNode) (strFrom recipient : Bytes) (payloadMsg : Entry)
    (r r' : InviteRun) : Prop where
  nonneg : 0 ≤ r.k
  membersList : r'.membersList = r.membersList
  next : r'.k = toInt32 (r.k + 1)
  sent : ∃ added, r'.sent = r.sent ++ [⟨r.k, recipient, payloadMsg, added⟩] ∧
    (node.startTorrentUser strFrom = true → ∃ data, added = [.addPiece strFrom r.k data])

/-- A message without an exception is sent. -/
theorem sendDM_sends
    (h : sendDM env node strFrom recipient payloadMsg failure r = (none, r')) :
    Sends node strFrom recipient payloadMsg r r' := by
  rw [sendDM] at h
  split at h
  · cases h
  simp only [signAndAddDM] at h
  split at h
  · cases h
  · next added hadd =>
    cases h
    split at hadd
    · cases hadd
    split at hadd
    · cases hadd
    · next haccept =>
      cases hadd
      refine ⟨checkPost_nonneg haccept, rfl, rfl, _, rfl, fun hstart => ?_⟩
      rw [if_pos hstart]
      exact ⟨_, rfl⟩

theorem Sends.content (h : Sends node strFrom recipient payloadMsg r r') :
    r'.sent.map SentDM.content = r.sent.map SentDM.content ++ [(recipient, payloadMsg)] := by
  obtain ⟨added, hsent, -⟩ := h.sent
  rw [hsent, List.map_append]
  rfl

theorem Numbered.sends (h : Numbered node strFrom k₀ r)
    (hsends : Sends node strFrom recipient payloadMsg r r') : Numbered node strFrom k₀ r' := by
  obtain ⟨added, hsent, hadded⟩ := hsends.sent
  have hlen : r'.sent.length = r.sent.length + 1 := by rw [hsent]; simp
  obtain ⟨hk, hlt⟩ : r.k = k₀ + r.sent.length ∧ k₀ + r.sent.length < 2 ^ 31 := by
    have hnonneg := hsends.nonneg
    have hfits := h.fits
    rw [h.next, toInt32] at hnonneg ⊢
    omega
  refine ⟨?_, fun hstart dm hdm => ?_, ?_, h.fits.1, by omega⟩
  · rw [hlen, hsent, List.map_append, h.numbers, List.range_succ, List.map_append,
      List.map_singleton, List.map_singleton, hk]
  · rw [hsent] at hdm
    rcases List.mem_append.mp hdm with hdm | hdm
    · exact h.added hstart dm hdm
    · rw [List.mem_singleton.mp hdm]
      exact hadded hstart
  · rw [hsends.next, hk, hlen]
    congr 1
    omega

/-- The invitations of a call that does not throw. -/
theorem inviteMembers_sends {group : GroupChat} {newmembers : List Json}
    (h : inviteMembers env node strFrom strGroupAlias group newmembers r = (none, r')) :
    ∃ names : List Bytes, newmembers = names.map .str ∧
      r'.sent.map SentDM.content =
        r.sent.map SentDM.content ++ names.map (fun name => (name, invitePayload group)) ∧
      (∀ member, member ∈ r'.membersList ↔ member ∈ r.membersList ∨ member ∈ names) ∧
      (Numbered node strFrom k₀ r → Numbered node strFrom k₀ r') := by
  induction newmembers generalizing r with
  | nil =>
    cases h
    exact ⟨[], rfl, by simp, by simp, id⟩
  | cons member newmembers ih =>
    rw [inviteMembers] at h
    split at h
    · cases h
    · next strMember hget =>
      simp only at h
      split at h
      · cases h
      · next r₁ hone =>
        have hsends := sendDM_sends hone
        obtain ⟨names, hnames, hcontent, hmembers, hnumbered⟩ := ih h
        refine ⟨strMember :: names, ?_, ?_, fun m => ?_, fun hr => hnumbered ?_⟩
        · rw [hnames, List.map_cons, getStr_ok hget]
        · rw [hcontent, hsends.content, List.append_assoc]
          rfl
        · rw [hmembers, hsends.membersList, mem_setInsert, List.mem_cons]
          tauto
        · refine Numbered.sends ?_ hsends
          exact ⟨hr.numbers, hr.added, hr.next, hr.fits⟩

theorem announceMembers_sends {lists : List (List Bytes)}
    (h : announceMembers env node strFrom strGroupAlias lists r = (none, r')) :
    r'.sent.map SentDM.content =
        r.sent.map SentDM.content ++ lists.map (fun l => (strGroupAlias, membersPayload l)) ∧
      (Numbered node strFrom k₀ r → Numbered node strFrom k₀ r') := by
  induction lists generalizing r with
  | nil =>
    cases h
    exact ⟨by simp, id⟩
  | cons groupMembers lists ih =>
    rw [announceMembers] at h
    split at h
    · cases h
    · next r₁ hone =>
      have hsends := sendDM_sends hone
      obtain ⟨hcontent, hnumbered⟩ := ih h
      refine ⟨?_, fun hr => hnumbered (hr.sends hsends)⟩
      rw [hcontent, hsends.content, List.append_assoc]
      rfl

theorem readInvite_fits {params newmembers : List Json} {k : Int}
    (h : readInvite params = .ok ((strFrom, k, strGroupAlias), newmembers)) :
    -2 ^ 31 ≤ k ∧ k < 2 ^ 31 := by
  obtain ⟨first, hfirst, h⟩ := Except.bind_eq_ok_iff.mp h
  obtain ⟨array, -, h⟩ := Except.bind_eq_ok_iff.mp h
  cases h
  obtain ⟨name, -, h⟩ := Except.bind_eq_ok_iff.mp hfirst
  obtain ⟨k', hk, h⟩ := Except.bind_eq_ok_iff.mp h
  obtain ⟨groupAlias, -, h⟩ := Except.bind_eq_ok_iff.mp h
  cases h
  cases hint : params.getD 1 .null with
  | int n =>
    rw [hint] at hk
    cases hk
    rw [toInt32]
    omega
  | _ =>
    rw [hint] at hk
    cases hk

end Send

/-- A network that does not encrypt. -/
def openNet : DMEnv := { signNet with encrypt := fun key msg => some ⟨key, [], msg.length, msg⟩ }

/-- A node whose wallet has the keys of alice and of a group. -/
def groupNode : PostNode :=
  { aliceNode (worldOf [memberTx "alice" 1, memberTx "bob" 2] []) [] with
      wallet :=
        { mapKeyMetadata := [(1, ⟨ascii "alice", []⟩), (3, ⟨ascii "*group", []⟩)]
          getPubKey := fun keyID => some (2 :: List.replicate 32 (UInt8.ofNat keyID))
          nodup := by decide } }

/-- A group of alice. -/
def aliceGroups : PostState where
  groups := [(ascii "*group", { members := [ascii "alice"] })]

/-- The invitation of bob. -/
def bobParams : List Json :=
  [.str (ascii "alice"), .int 0, .str (ascii "*group"), .array [.str (ascii "bob")]]

end CoMoNet
