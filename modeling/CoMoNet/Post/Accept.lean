import CoMoNet.Post.Sorted

/-!
# Posts that are received

One variable has the result of a post's signature and of those of its quotations, and
the second quotation does not look at the first: a bad `rt` passes with a good `fav`
(`acceptSignedPost_sound_iff`). Called with `flags`, the code uses a rejected post all
the same (`acceptSignedPost_frame`).
-/

namespace CoMoNet

open CScript (decimal)
open Entry (bencode)

/-! ## The call -/

/-- The checks of received bytes before the quotations. -/
def verifyPost (env : PostEnv) (node : PostNode) (data username : Bytes) (seq : Int) :
    Except String (LazyEntry × LazyEntry) :=
  verifyDecoded env.toEnv node data.length (env.lazyBdecode data) username seq

/-- `USERPOST_FLAG_RT`. -/
def userpostFlagRt : Nat := 0x01

/-- `USERPOST_FLAG_DM`. -/
def userpostFlagDm : Nat := 0x02

/-- `USERPOST_FLAG_FAV`. -/
def userpostFlagFav : Nat := 0x04

/-- `USERPOST_FLAG_P_FAV`. -/
def userpostFlagPFav : Nat := 0x0C

/-- The bits of `flags` for the quotations. -/
def LazyEntry.quoteFlags (post : LazyEntry) : Nat :=
  (if (post.dictFindDict "rt").isSome then userpostFlagRt else 0) |||
    (if (post.dictFindDict "fav").isSome then userpostFlagFav else 0)

/-- What a caller gets. -/
structure PostAnswer where
  ret : Bool
  errmsg : String
  /-- `*flags`, if the caller asks for it. -/
  flags : Option Nat
deriving DecidableEq, Repr

/-- `ret` and `errbuf` at the end, for received bytes. -/
def postResult (env : PostEnv) (node : PostNode) (data username : Bytes) (seq : Int) :
    Bool × String :=
  checkPost env.toEnv node data.length (env.lazyBdecode data) username seq

namespace PostState

/-- What a verified post does to the node, for a caller that asks for `flags`. -/
def usePost (env : PostEnv) (node : PostNode) (s : PostState) (v post : LazyEntry)
    (username : Bytes) : Option (Nat × PostState) :=
  match post.dictFindDict "dm", post.dictFindDict "pfav" with
  | some _, _ => some (post.quoteFlags ||| userpostFlagDm, s.processReceivedDM env post)
  | none, some _ => some (post.quoteFlags ||| userpostFlagPFav, s)
  | none, none =>
    (s.processReceivedPost node v username (post.dictFindIntOr "time" (-1))
      (post.dictFindStringValue "msg")).map fun s => (post.quoteFlags, s)

/-- The part after the checks. -/
def afterChecks (env : PostEnv) (node : PostNode) (s : PostState) (username : Bytes) :
    Except String (LazyEntry × LazyEntry) → Option (Nat × PostState)
  | .error _ => some (0, s)
  | .ok (v, post) => s.usePost env node v post username

/-- `acceptSignedPost`; `none` is an exception, or a message that overruns `errbuf`. -/
def acceptSignedPost (env : PostEnv) (node : PostNode) (s : PostState) (data username : Bytes)
    (seq : Int) (flags : Bool) : Option (PostAnswer × PostState) :=
  let (ret, errmsg) := postResult env node data username seq
  if overrunsErrbuf errmsg then none
  else if flags then
    (s.afterChecks env node username (verifyPost env node data username seq)).map fun r =>
      (⟨ret, errmsg, some r.1⟩, r.2)
  else some (⟨ret, errmsg, none⟩, s)

end PostState

/-! ## What an accepted post is -/

/-- The checks of a post before its quotations. -/
structure Verified (env : PostEnv) (node : PostNode) (data username : Bytes) (seq : Int)
    (v post : LazyEntry) : Prop where
  size : data.length ≠ 0 ∧ data.length ≤ 2048
  decode : env.lazyBdecode data = some v
  type : v.type = .dict
  userpost : v.dictFindDict "userpost" = some post
  sig : v.dictFindStringValue "sig_userpost" ≠ []
  author : post.dictFindStringValue "n" = username
  number : toInt32 (post.dictFindIntOr "k" (-1)) = seq
  allowed : validatePostNumberForUser node username seq = true
  height : 0 ≤ toInt32 (post.dictFindIntOr "height" (-1)) ∧
    (0 < node.bestHeight → toInt32 (post.dictFindIntOr "height" (-1)) ≤ node.bestHeight + 1)
  text : ∃ n, numCharacters (post.dictFindStringValue "msg") = some n ∧ n ≤ 140
  signed : post.signedBy env.toEnv node username (v.dictFindStringValue "sig_userpost") = true

section Checks

variable {env : PostEnv} {node : PostNode} {data username : Bytes} {seq : Int}
variable {v post : LazyEntry}

theorem verifyPost_ok (h : verifyPost env node data username seq = .ok (v, post)) :
    Verified env node data username seq v post := by
  rw [verifyPost, verifyDecoded] at h
  split at h
  · cases h
  rename_i hsize
  split at h
  · cases h
  rename_i v' hv
  obtain ⟨hdecode, htype⟩ := Option.filter_eq_some_iff.mp hv
  split at h
  · cases h
  rename_i post' huserpost
  simp only at h
  split at h
  · cases h
  rename_i hsig
  split at h
  · cases h
  rename_i hauthor
  split at h
  · cases h
  rename_i hnumber
  split at h
  · cases h
  rename_i hallowed
  split at h
  · cases h
  rename_i hheight
  split at h
  · cases h
  rename_i n htext
  split at h
  · cases h
  rename_i hlong
  split at h
  · cases h
  rename_i hsigned
  cases h
  rw [ne_eq, not_not] at hauthor hnumber
  rw [not_or, not_and] at hheight
  rw [Bool.not_eq_true, Bool.not_eq_false'] at hallowed hsigned
  exact
    { size := by omega
      decode := hdecode
      type := of_decide_eq_true htype
      userpost := huserpost
      sig := hsig
      author := hauthor
      number := hnumber
      allowed := hnumber ▸ hallowed
      height := ⟨by omega, fun hbest => by
        by_contra hhigh
        exact hheight.2 (by omega) hbest⟩
      text := ⟨n, htext, by omega⟩
      signed := hsigned }

theorem Verified.verifyPost (h : Verified env node data username seq v post) :
    CoMoNet.verifyPost env node data username seq = .ok (v, post) := by
  obtain ⟨n, htext, hlong⟩ := h.text
  have hv : (env.lazyBdecode data).filter (fun e : LazyEntry => e.type = .dict) = some v := by
    rw [h.decode, Option.filter_some, if_pos (decide_eq_true h.type)]
  have hsize : ¬(data.length = 0 ∨ data.length > 2048) := by
    have hrange := h.size
    omega
  have hheight : ¬(toInt32 (post.dictFindIntOr "height" (-1)) < 0 ∨
      (toInt32 (post.dictFindIntOr "height" (-1)) > node.bestHeight + 1 ∧
        node.bestHeight > 0)) := by
    rintro (hneg | ⟨hhigh, hbest⟩)
    · have hrange := h.height.1
      omega
    · have hrange := h.height.2 hbest
      omega
  unfold CoMoNet.verifyPost verifyDecoded
  simp only [if_neg hsize, hv, h.userpost, if_neg h.sig, h.author, h.number, h.allowed,
    if_neg hheight, htext, h.signed, if_neg (show ¬n > 140 by omega), ne_eq, not_true_eq_false,
    Bool.not_true, Bool.false_eq_true, if_false]

/-- A quotation of this name is signed, if there is one. -/
def LazyEntry.QuoteGood (env : Env) (node : PostNode) (post : LazyEntry) (name sigName : String) :
    Prop :=
  ∀ quoted, post.dictFindDict name = some quoted → post.quoteSigned env node quoted sigName = true

theorem checkQuotes_ret {env : Env} :
    (post.checkQuotes env node).1 = true ↔
      post.QuoteGood env node "fav" "sig_fav" ∧
        (post.dictFindDict "fav" = none → post.QuoteGood env node "rt" "sig_rt") := by
  have hquote : ∀ name sigName message before,
      (post.checkQuote env node name sigName message before).1 = true ↔
        post.QuoteGood env node name sigName ∧
          (post.dictFindDict name = none → before.1 = true) := by
    intro name sigName message before
    rw [LazyEntry.checkQuote, LazyEntry.QuoteGood]
    cases post.dictFindDict name with
    | none => simp
    | some quoted =>
      by_cases hgood : post.quoteSigned env node quoted sigName = true
      · simp [hgood]
      · simp [hgood]
  rw [LazyEntry.checkQuotes, hquote, hquote]
  simp

theorem postResult_eq : postResult env node data username seq =
    match verifyPost env node data username seq with
    | .error errmsg => (false, errmsg)
    | .ok (_, post) => post.checkQuotes env.toEnv node :=
  rfl

theorem postResult_ret :
    (postResult env node data username seq).1 = true ↔
      ∃ v post, Verified env node data username seq v post ∧
        (post.checkQuotes env.toEnv node).1 = true := by
  rw [postResult_eq]
  cases hverify : verifyPost env node data username seq with
  | error errmsg =>
    refine ⟨nofun, ?_⟩
    rintro ⟨v, post, h, -⟩
    rw [h.verifyPost] at hverify
    cases hverify
  | ok r =>
    refine ⟨fun h => ⟨r.1, r.2, verifyPost_ok hverify, h⟩, ?_⟩
    rintro ⟨v, post, h, hret⟩
    rw [h.verifyPost] at hverify
    cases hverify
    exact hret

end Checks

/-! ### Posts of alice -/

/-- A post of alice to quote. -/
def quotedPost : List (Bytes × Entry) :=
  [(ascii "height", .int 4), (ascii "n", .str (ascii "alice"))]

/-- The node of alice. -/
def quoteNode : PostNode := aliceNode aliceGroup (ascii "3")

/-- Its signature. -/
def quotedSig : Bytes :=
  createSignature signNet quoteNode (bencode (.dict quotedPost)) (ascii "alice")

/-- A post with these members. -/
def quotingPost (parts : List (Bytes × Entry)) : Entry :=
  let userpost := Entry.set parts "n" (.str (ascii "alice"))
  let userpost := Entry.set userpost "k" (.int 0)
  let userpost := Entry.set userpost "height" (.int 4)
  let sig := createSignature signNet quoteNode (bencode (.dict userpost)) (ascii "alice")
  .dict [(ascii "sig_userpost", .str sig), (ascii "userpost", .dict userpost)]

/-- A good `fav` and an `rt` nobody signed. -/
def favParts : List (Bytes × Entry) :=
  [(ascii "fav", .dict quotedPost), (ascii "rt", .dict quotedPost),
    (ascii "sig_fav", .str quotedSig), (ascii "sig_rt", .str [])]

/-- The text of a direct message that brings the key of a group. -/
def inviteText : Entry :=
  .dict [(ascii "group_invite", .dict [(ascii "desc", .str (ascii "d")), (ascii "key", .str [9])])]

/-- A message and an `rt` nobody signed. -/
def dmParts : List (Bytes × Entry) := [(ascii "dm", .dict []), (ascii "rt", .dict quotedPost)]

/-- A network where `lazy_bdecode` reads one post and every message is an invitation. -/
def quoteNet (parts : List (Bytes × Entry)) : PostEnv :=
  { signNet with
      lazyBdecode := fun data =>
        some (Entry.lazy
          (if data = bencode (quotingPost parts) then quotingPost parts else inviteText))
      decrypt := fun _ _ => some (bencode inviteText)
      secretKey := some
      keyID := fun key => key.length + 1
      randomGroupAlias := ascii "*g"
      writeKey := fun _ => true }

/-- Bob follows alice. -/
def bobState : PostState where
  users := [(ascii "bob", { following := [ascii "alice"] })]
  wallet := { mapKeyMetadata := [(1, ⟨ascii "bob", []⟩)], keys := [(1, [7])] }

/-! ## Soundness -/

/-- A part of a post is signed, at the height it gives. -/
def LazyEntry.SignedAt (env : Env) (node : PostNode) (read : Int → Int) (e : LazyEntry)
    (username sig : Bytes) : Prop :=
  verifySignature env node e.dataSection username sig (read (e.dictFindIntOr "height" (-1))) = true

/-- The post is signed by its author, and what it quotes by those who are
quoted. -/
def Genuine (env : PostEnv) (node : PostNode) (read : Int → Int) (data username : Bytes) : Prop :=
  ∃ v post, env.lazyBdecode data = some v ∧ v.dictFindDict "userpost" = some post ∧
    post.SignedAt env.toEnv node read username (v.dictFindStringValue "sig_userpost") ∧
    (∀ rt, post.dictFindDict "rt" = some rt →
      rt.SignedAt env.toEnv node read (rt.dictFindStringValue "n")
        (post.dictFindStringValue "sig_rt")) ∧
    ∀ fav, post.dictFindDict "fav" = some fav →
      fav.SignedAt env.toEnv node read (fav.dictFindStringValue "n")
        (post.dictFindStringValue "sig_fav")

/-- The height of a part is in the range of an `int`. -/
def LazyEntry.HeightFits (e : LazyEntry) : Prop :=
  -2 ^ 31 ≤ e.dictFindIntOr "height" (-1) ∧ e.dictFindIntOr "height" (-1) < 2 ^ 31

/-- So are the heights of a post and of what it quotes. -/
def HeightsFit (env : PostEnv) (data : Bytes) : Prop :=
  ∀ v post, env.lazyBdecode data = some v → v.dictFindDict "userpost" = some post →
    post.HeightFits ∧ ∀ name quoted, post.dictFindDict name = some quoted → quoted.HeightFits

section Sound

variable (env : PostEnv) (node : PostNode) (data username : Bytes) (seq : Int)

/-- Heights that fit are read as they are. -/
theorem genuine_of_fits (hfit : HeightsFit env data) :
    Genuine env node toInt32 data username ↔ Genuine env node id data username := by
  have hread : ∀ (e : LazyEntry) (user sig : Bytes), e.HeightFits →
      (e.SignedAt env.toEnv node toInt32 user sig ↔ e.SignedAt env.toEnv node id user sig) := by
    intro e user sig he
    rw [LazyEntry.SignedAt, LazyEntry.SignedAt, toInt32_of_fits he.1 he.2]
    rfl
  rw [Genuine, Genuine]
  refine exists_congr fun v => exists_congr fun post => ?_
  refine and_congr_right fun hdecode => and_congr_right fun huserpost => ?_
  obtain ⟨hpost, hquoted⟩ := hfit v post hdecode huserpost
  refine and_congr (hread _ _ _ hpost) (and_congr ?_ ?_)
  · exact forall_congr' fun rt => imp_congr_right fun hrt => hread _ _ _ (hquoted _ rt hrt)
  · exact forall_congr' fun fav => imp_congr_right fun hfav => hread _ _ _ (hquoted _ fav hfav)

/-- A post that passes the other checks has no bad `rt` beside a good `fav`. -/
def NoBadRt : Prop :=
  ∀ v post, Verified env node data username seq v post →
    (post.dictFindDict "fav").isSome = true → post.QuoteGood env.toEnv node "fav" "sig_fav" →
    post.QuoteGood env.toEnv node "rt" "sig_rt"

theorem acceptSignedPost_cases {s s' : PostState} {flags : Bool} {answer : PostAnswer}
    (h : s.acceptSignedPost env node data username seq flags = some (answer, s')) :
    answer.ret = (postResult env node data username seq).1 ∧
      if flags then ∃ bits, s.afterChecks env node username
        (verifyPost env node data username seq) = some (bits, s')
      else s' = s := by
  rw [PostState.acceptSignedPost] at h
  simp only at h
  split at h
  · cases h
  split at h
  · next hflags =>
    obtain ⟨r, hafter, hr⟩ := Option.map_eq_some_iff.mp h
    cases hr
    exact ⟨rfl, by rw [if_pos hflags]; exact ⟨r.1, hafter⟩⟩
  · next hflags =>
    cases h
    exact ⟨rfl, by rw [if_neg hflags]⟩

/-- A call for a post that passes the checks before its quotations. -/
theorem Verified.acceptSignedPost {s : PostState} {v post : LazyEntry} (flags : Bool)
    (h : Verified env node data username seq v post) :
    s.acceptSignedPost env node data username seq flags =
      let (ret, errmsg) := post.checkQuotes env.toEnv node
      if flags then (s.usePost env node v post username).map fun r =>
        (⟨ret, errmsg, some r.1⟩, r.2)
      else some (⟨ret, errmsg, none⟩, s) := by
  have hresult : postResult env node data username seq = post.checkQuotes env.toEnv node := by
    rw [postResult_eq, h.verifyPost]
  rw [PostState.acceptSignedPost, hresult, h.verifyPost, PostState.afterChecks]
  simp only [checkQuotes_fits, Bool.false_eq_true, if_false]

end Sound

theorem not_genuine_of_rt {env : PostEnv} {node : PostNode} {data username : Bytes}
    (h : ((env.lazyBdecode data).bind fun v => (v.dictFindDict "userpost").bind fun post =>
      (post.dictFindDict "rt").map fun rt => post.quoteSigned env.toEnv node rt "sig_rt") =
        some false) : ¬Genuine env node toInt32 data username := by
  rintro ⟨v, post, hdecode, huserpost, -, hrt, -⟩
  rw [hdecode, Option.bind_some, huserpost, Option.bind_some] at h
  obtain ⟨rt, hfound, hbad⟩ := Option.map_eq_some_iff.mp h
  exact absurd (hrt rt hfound) (Bool.eq_false_iff.mp hbad)

/-- The users, the groups and the keys of the wallet are the same. -/
def PostState.SameData (s s' : PostState) : Prop :=
  s'.users = s.users ∧ s'.groups = s.groups ∧ s'.wallet.keys = s.wallet.keys

namespace PostState

/-- The owner of the first key of the wallet that decrypts a message, and its text. -/
def decryptedBy (env : PostEnv) (s : PostState) (sec : Secured) : Option (Bytes × Bytes) :=
  s.wallet.mapKeyMetadata.findSome? fun (keyID, data) =>
    ((s.wallet.getKey keyID).bind (env.decrypt · sec)).map fun textOut => (data.username, textOut)

/-- A group, or a user who is not a local one that does not follow the sender. -/
def TakesFrom (s : PostState) (username sender : Bytes) : Prop :=
  (s.groups.lookup username).isSome = true ∨
    ∀ data, s.users.lookup username = some data → sender ∈ data.following

/-- The token mentions a local user who follows the author, for the first time. -/
def Mentions (node : PostNode) (s : PostState) (username : Bytes) (time : Int) (token : Bytes) :
    Prop :=
  ∃ c rest data, token = 64 :: c :: rest ∧ s.users.lookup (node.toLower (c :: rest)) = some data ∧
    username ∈ data.following ∧ username ++ ascii ";" ++ decimal time ∉ data.mentionsKeys

/-- No key of the wallet decrypts the message, or the first is of a local user who does not follow
the author. -/
def NoMessage (env : PostEnv) (s : PostState) (post : LazyEntry) : Prop :=
  ∀ dm, post.dictFindDict "dm" = some dm → ∀ username textOut,
    s.decryptedBy env (secured dm) = some (username, textOut) →
      ¬s.TakesFrom username (post.dictFindStringValue "n")

/-- The text of a post without a message mentions no local user who follows the author. -/
def NoMention (node : PostNode) (s : PostState) (post : LazyEntry) (username : Bytes) : Prop :=
  post.dictFindDict "dm" = none → post.dictFindDict "pfav" = none →
    ∀ token ∈ (post.dictFindStringValue "msg").splitOnP (· ∈ msgTokensDelimiter),
      ¬s.Mentions node username (post.dictFindIntOr "time" (-1)) token

section Use

variable {env : PostEnv} {node : PostNode} {s s' : PostState} {v post : LazyEntry}
variable {username : Bytes} {time : Int}

theorem tryKeys_eq (sec : Secured) (l : List (Nat × CKeyMetadata)) :
    s.tryKeys env post sec l =
      match l.findSome? (fun (keyID, data) => ((s.wallet.getKey keyID).bind
        (env.decrypt · sec)).map fun textOut => (data.username, textOut)) with
      | none => s
      | some (username, textOut) => s.receiveText env post username textOut := by
  induction l with
  | nil => rfl
  | cons x l ih =>
    obtain ⟨keyID, data⟩ := x
    rw [tryKeys, List.findSome?_cons]
    cases hread : (s.wallet.getKey keyID).bind (env.decrypt · sec) with
    | none =>
      simp only [hread, Option.map_none]
      exact ih
    | some textOut => simp only [hread, Option.map_some]

/-- A text from someone not followed is dropped. -/
theorem receiveText_refused {textOut : Bytes}
    (h : ¬s.TakesFrom username (post.dictFindStringValue "n")) :
    s.receiveText env post username textOut = s := by
  rw [TakesFrom, not_or, not_forall] at h
  obtain ⟨hgroup, data, hdata⟩ := h
  rw [Classical.not_imp] at hdata
  simp [receiveText, hgroup, hdata.1, hdata.2]

/-- A message for nobody changes nothing. -/
theorem processReceivedDM_same (h : s.NoMessage env post) : s.processReceivedDM env post = s := by
  rw [processReceivedDM]
  split
  · rfl
  · next dm hdm =>
    rw [tryKeys_eq]
    split
    · rfl
    · next username textOut hfound => exact receiveText_refused (h dm hdm username textOut hfound)

theorem mention_same {token : Bytes} (h : ¬s.Mentions node username time token) :
    s.mention node v username time token = some s := by
  unfold mention
  split
  · next c rest =>
    simp only
    split
    · rfl
    · next data hdata =>
      refine if_pos ?_
      by_contra hnew
      rw [not_or, not_not] at hnew
      exact h ⟨c, rest, data, rfl, hdata, hnew⟩
  · rfl

/-- The posts that mention a user. -/
def mentionsOf (s : PostState) (name : Bytes) : Nat :=
  ((s.users.lookup name).map fun data => data.mentionsPosts.length).getD 0

/-- A token changes nothing, or adds a post for the user it mentions. -/
theorem mention_cases {token : Bytes} (h : s.mention node v username time token = some s') :
    ¬s.Mentions node username time token ∧ s' = s ∨
      s.Mentions node username time token ∧ ∃ name data keys vEntry,
        s.users.lookup name = some data ∧ s' = s.setUser name
          { data with mentionsKeys := keys, mentionsPosts := data.mentionsPosts ++ [vEntry] } := by
  by_cases hmentions : s.Mentions node username time token
  · refine .inr ⟨hmentions, ?_⟩
    obtain ⟨c, rest, data, rfl, hdata, hfollows, hnew⟩ := hmentions
    rw [mention] at h
    simp only [hdata, hfollows, hnew, not_true_eq_false, or_self, if_false] at h
    obtain ⟨vEntry, -, rfl⟩ := Option.map_eq_some_iff.mp h
    exact ⟨_, data, _, vEntry, hdata, rfl⟩
  · rw [mention_same hmentions, Option.some.injEq] at h
    exact .inl ⟨hmentions, h.symm⟩

theorem mentionsOf_setUser {name : Bytes} {data : UserData} {keys : List Bytes} {vEntry : Entry}
    (h : s.users.lookup name = some data) (name' : Bytes) :
    mentionsOf (s.setUser name { data with
        mentionsKeys := keys, mentionsPosts := data.mentionsPosts ++ [vEntry] }) name' =
      if name' = name then s.mentionsOf name' + 1 else s.mentionsOf name' := by
  rw [mentionsOf, setUser, lookup_mapSet, mentionsOf]
  split
  · next hname => simp [hname, h]
  · rfl

/-- A token adds one post if it mentions somebody. -/
theorem mention_grows {token : Bytes} (h : s.mention node v username time token = some s')
    (hmentions : s.Mentions node username time token) :
    ∃ name, s.mentionsOf name < s'.mentionsOf name := by
  obtain ⟨hnot, -⟩ | ⟨-, name, data, keys, vEntry, hdata, rfl⟩ := mention_cases h
  · exact absurd hmentions hnot
  · refine ⟨name, ?_⟩
    rw [mentionsOf_setUser hdata, if_pos rfl]
    exact Nat.lt_succ_self _

/-- The groups and the keys stay, and no mention is lost. -/
def KeepsMentions (s s' : PostState) : Prop :=
  s'.groups = s.groups ∧ s'.wallet.keys = s.wallet.keys ∧
    ∀ name, s.mentionsOf name ≤ s'.mentionsOf name

theorem mention_keeps {token : Bytes} (h : s.mention node v username time token = some s') :
    s.KeepsMentions s' := by
  obtain ⟨-, rfl⟩ | ⟨-, name, data, keys, vEntry, hdata, rfl⟩ := mention_cases h
  · exact ⟨rfl, rfl, fun _ => Nat.le_refl _⟩
  · refine ⟨rfl, rfl, fun name' => ?_⟩
    rw [mentionsOf_setUser hdata]
    split
    · exact Nat.le_succ _
    · exact Nat.le_refl _

theorem mentions_keep {tokens : List Bytes}
    (h : tokens.foldlM (fun s token => s.mention node v username time token) s = some s') :
    s.KeepsMentions s' := by
  induction tokens generalizing s with
  | nil =>
    cases h
    exact ⟨rfl, rfl, fun _ => Nat.le_refl _⟩
  | cons token tokens ih =>
    rw [List.foldlM_cons] at h
    obtain ⟨s₁, hfirst, hrest⟩ := Option.bind_eq_some_iff.mp h
    obtain ⟨hgroups, hkeys, hle⟩ := mention_keeps hfirst
    obtain ⟨hgroups', hkeys', hle'⟩ := ih hrest
    exact ⟨hgroups'.trans hgroups, hkeys'.trans hkeys, fun name => (hle name).trans (hle' name)⟩

/-- A text changes the users exactly if it mentions one. -/
theorem processReceivedPost_users {msg : Bytes}
    (h : s.processReceivedPost node v username time msg = some s') :
    s'.users = s.users ↔
      ∀ token ∈ msg.splitOnP (· ∈ msgTokensDelimiter), ¬s.Mentions node username time token := by
  rw [processReceivedPost] at h
  generalize msg.splitOnP (· ∈ msgTokensDelimiter) = tokens at h
  induction tokens generalizing s with
  | nil =>
    cases h
    simp
  | cons token tokens ih =>
    rw [List.foldlM_cons] at h
    obtain ⟨s₁, hfirst, hrest⟩ := Option.bind_eq_some_iff.mp h
    by_cases hmentions : s.Mentions node username time token
    · obtain ⟨name, hlt⟩ := mention_grows hfirst hmentions
      refine iff_of_false (fun heq => ?_) fun hnone => hnone token List.mem_cons_self hmentions
      have hle := (mentions_keep hrest).2.2 name
      rw [mentionsOf, mentionsOf, heq] at hle
      exact Nat.lt_irrefl _ (Nat.lt_of_lt_of_le hlt hle)
    · rw [mention_same hmentions, Option.some.injEq] at hfirst
      subst hfirst
      refine (ih hrest).trans ?_
      simp [hmentions]

/-- A post with a text changes nothing iff it mentions nobody here. -/
theorem usePost_text {bits : Nat} (hdm : post.dictFindDict "dm" = none)
    (h : s.usePost env node v post username = some (bits, s')) :
    s.SameData s' ↔ s.NoMention node post username := by
  rw [usePost, hdm] at h
  cases hpfav : post.dictFindDict "pfav" with
  | some pfav =>
    rw [hpfav] at h
    cases h
    simp [SameData, NoMention, hpfav]
  | none =>
    rw [hpfav] at h
    obtain ⟨s₁, htext, hr⟩ := Option.map_eq_some_iff.mp h
    cases hr
    obtain ⟨hgroups, hkeys, -⟩ := mentions_keep htext
    rw [SameData, processReceivedPost_users htext, NoMention]
    simp [hdm, hpfav, hgroups, hkeys]

/-- A post for nobody changes nothing. -/
theorem usePost_same {bits : Nat} (hmessage : s.NoMessage env post)
    (hmention : s.NoMention node post username)
    (h : s.usePost env node v post username = some (bits, s')) : s.SameData s' := by
  cases hdm : post.dictFindDict "dm" with
  | none => exact (usePost_text hdm h).mpr hmention
  | some dm =>
    rw [usePost, hdm] at h
    simp only [processReceivedDM_same hmessage] at h
    cases h
    exact ⟨rfl, rfl, rfl⟩

end Use

end PostState

section Frame

variable (env : PostEnv) (node : PostNode) (s : PostState) (data username : Bytes) (seq : Int)
variable (flags : Bool)

/-- A post that passes up to its own signature, with a bad quotation, is for nobody here. -/
def BadQuotesUnused : Prop :=
  ∀ v post, Verified env node data username seq v post →
    (post.checkQuotes env.toEnv node).1 = false →
    s.NoMessage env post ∧ s.NoMention node post username

/-- A rejected post changes nothing, if no flags are asked for or no post with a bad quotation is
for a user here. Without a direct message the condition is exact. -/
theorem acceptSignedPost_frame :
    ((flags = true → BadQuotesUnused env node s data username seq) →
      ∀ answer s', s.acceptSignedPost env node data username seq flags = some (answer, s') →
        answer.ret = false → s.SameData s') ∧
    ∀ v post, Verified env node data username seq v post →
      (post.checkQuotes env.toEnv node).1 = false → post.dictFindDict "dm" = none →
      ∀ answer s', s.acceptSignedPost env node data username seq true = some (answer, s') →
        answer.ret = false ∧ (s.SameData s' ↔ s.NoMention node post username) := by
  constructor
  · intro hunused answer s' haccept hret
    obtain ⟨hanswer, hafter⟩ := acceptSignedPost_cases env node data username seq haccept
    cases flags with
    | false =>
      obtain rfl : s' = s := hafter
      exact ⟨rfl, rfl, rfl⟩
    | true =>
      obtain ⟨bits, hafter⟩ := hafter
      rw [hanswer, postResult_eq] at hret
      cases hverify : verifyPost env node data username seq with
      | error errmsg =>
        rw [hverify] at hafter
        cases hafter
        exact ⟨rfl, rfl, rfl⟩
      | ok checked =>
        rw [hverify] at hafter hret
        obtain ⟨hmessage, hmention⟩ := hunused rfl _ _ (verifyPost_ok hverify) hret
        exact PostState.usePost_same hmessage hmention hafter
  · intro v post hverified hbad hdm answer s' haccept
    rw [hverified.acceptSignedPost env node data username seq true] at haccept
    obtain ⟨r, huse, hr⟩ := Option.map_eq_some_iff.mp haccept
    cases hr
    exact ⟨hbad, PostState.usePost_text hdm huse⟩

end Frame

/-- A message that no key of the wallet decrypts. -/
theorem acceptSignedPost_frame_sealed :
    let env := { quoteNet dmParts with decrypt := fun _ _ => none }
    ∀ answer s', bobState.acceptSignedPost env quoteNode (bencode (quotingPost dmParts))
      (ascii "alice") 0 true = some (answer, s') → answer.ret = false → bobState.SameData s' := by
  intro env
  have hnone : ∀ sec, bobState.decryptedBy env sec = none := by
    intro sec
    rw [PostState.decryptedBy, List.findSome?_eq_none_iff]
    rintro ⟨keyID, data⟩ -
    simp [env]
  refine (acceptSignedPost_frame env quoteNode bobState (bencode (quotingPost dmParts))
    (ascii "alice") 0 true).1 fun _ v post hverified _ => ⟨fun dm _ username textOut hread => ?_,
      fun hdm => ?_⟩
  · rw [hnone] at hread
    cases hread
  · have hdecode := hverified.decode
    have huserpost := hverified.userpost
    have hread : env.lazyBdecode (bencode (quotingPost dmParts)) =
        some (Entry.lazy (quotingPost dmParts)) :=
      congrArg (fun e => some (Entry.lazy e)) (if_pos rfl)
    rw [hread, Option.some.injEq] at hdecode
    subst hdecode
    have hsome : (((Entry.lazy (quotingPost dmParts)).dictFindDict "userpost").bind
        (·.dictFindDict "dm")).isSome = true := by
      decide +kernel
    rw [huserpost, Option.bind_some, hdm] at hsome
    cases hsome

/-- A post is rejected for its `rt`, but its message has brought bob a group and its key. -/
theorem acceptSignedPost_leaves_group :
    ∃ answer s', bobState.acceptSignedPost (quoteNet dmParts) quoteNode
        (bencode (quotingPost dmParts)) (ascii "alice") 0 true = some (answer, s') ∧
      answer.ret = false ∧ s'.users ≠ bobState.users ∧ s'.groups ≠ bobState.groups ∧
      s'.wallet.keys ≠ bobState.wallet.keys := by
  have hcall : (bobState.acceptSignedPost (quoteNet dmParts) quoteNode
      (bencode (quotingPost dmParts)) (ascii "alice") 0 true).map (fun r =>
        (r.1.ret, decide (r.2.users.map (fun u => u.2.directmsg) =
          bobState.users.map fun u => u.2.directmsg), decide (r.2.groups = bobState.groups),
          decide (r.2.wallet.keys = bobState.wallet.keys))) =
        some (false, false, false, false) := by
    decide +kernel
  obtain ⟨⟨answer, s'⟩, hcall, hfacts⟩ := Option.map_eq_some_iff.mp hcall
  simp only [Prod.mk.injEq, decide_eq_false_iff_not] at hfacts
  obtain ⟨hret, husers, hgroups, hkeys⟩ := hfacts
  refine ⟨answer, s', hcall, hret, fun h => husers ?_, hgroups, hkeys⟩
  rw [h]

end CoMoNet
