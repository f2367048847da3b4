import CoMoNet.Post.OnChain

/-!
# Posts of the node itself

`createSignedUserpost` dates a post one block back, and the key is looked up at that
height. It is the key of the wallet unless the newest block has a transaction of the
user (`own_post_iff`).
-/

namespace CoMoNet

open Entry (bencode)

/-! ## Characters -/

/-- Text as bytes. -/
def utf8Encode (cs : List Char) : Bytes := cs.flatMap String.utf8EncodeChar

section Characters

variable {lead : UInt8} {trail rest : Bytes} {cp : Nat}

variable (trail) in
theorem validateNext_eq (hlen : sequenceLength lead.toNat = trail.length + 1)
    (htrail : ∀ b ∈ trail, b.toNat / 64 = 2)
    (hcp : trail.foldl (fun cp b => cp * 64 + b.toNat % 64)
      (if trail.length + 1 = 1 then lead.toNat else lead.toNat % 2 ^ (7 - (trail.length + 1))) = cp)
    (hvalid : cp ≤ 0x10ffff ∧ (cp < 0xd800 ∨ 0xdfff < cp))
    (hshort : isOverlongSequence cp (trail.length + 1) = false) :
    validateNext (lead :: (trail ++ rest)) = some rest := by
  have hany : (trail.any fun b => decide (b.toNat / 64 ≠ 2)) = false := by
    rw [List.any_eq_false]
    intro b hb
    simp [htrail b hb]
  have hrange : (decide (0x10ffff < cp) || (decide (0xd800 ≤ cp) && decide (cp ≤ 0xdfff))) =
      false := by
    simp only [Bool.or_eq_false_iff, decide_eq_false_iff_not, Bool.and_eq_false_iff]
    omega
  simp only [validateNext, hlen, Nat.add_sub_cancel, List.take_left, hcp, hany, hrange, hshort,
    List.drop_left, Nat.lt_irrefl, Nat.succ_ne_zero, Bool.false_eq_true, if_false]

theorem toNat_byte {n : Nat} (h : n < 256) : (UInt8.ofNat n).toNat = n := by
  simp [Nat.mod_eq_of_lt h]

theorem trail_byte (n : Nat) :
    (UInt8.ofNat (n % 64 + 128)).toNat / 64 = 2 ∧
      (UInt8.ofNat (n % 64 + 128)).toNat % 64 = n % 64 := by
  rw [toNat_byte (by omega)]
  omega

theorem validateNext_encode (c : Char) (rest : Bytes) :
    validateNext (String.utf8EncodeChar c ++ rest) = some rest := by
  have hvalid : c.val.toNat < 55296 ∨ 57343 < c.val.toNat ∧ c.val.toNat < 1114112 := c.valid
  unfold String.utf8EncodeChar
  generalize c.val.toNat = v at hvalid
  have hrange : v ≤ 0x10ffff ∧ (v < 0xd800 ∨ 0xdfff < v) := by omega
  by_cases h₁ : v ≤ 127
  · have hlead : (UInt8.ofNat v).toNat = v := toNat_byte (by omega)
    rw [if_pos h₁]
    refine validateNext_eq [] ?_ nofun hlead hrange ?_
    · rw [hlead, sequenceLength, if_pos (by omega)]
      rfl
    · rw [isOverlongSequence, if_pos (by omega)]
      rfl
  rw [if_neg h₁]
  by_cases h₂ : v ≤ 2047
  · have hlead : (UInt8.ofNat (v / 64 % 32 + 192)).toNat = v / 64 % 32 + 192 :=
      toNat_byte (by omega)
    rw [if_pos h₂]
    refine validateNext_eq [UInt8.ofNat (v % 64 + 128)] ?_ ?_ ?_ hrange ?_
    · rw [hlead, sequenceLength, if_neg (by omega), if_pos (by omega)]
      rfl
    · simpa using (trail_byte v).1
    · show (UInt8.ofNat (v / 64 % 32 + 192)).toNat % 2 ^ 5 * 64 + _ = v
      rw [hlead, (trail_byte v).2]
      omega
    · rw [isOverlongSequence, if_neg (by omega), if_pos (by omega)]
      rfl
  rw [if_neg h₂]
  by_cases h₃ : v ≤ 65535
  · have hlead : (UInt8.ofNat (v / 4096 % 16 + 224)).toNat = v / 4096 % 16 + 224 :=
      toNat_byte (by omega)
    rw [if_pos h₃]
    refine validateNext_eq [UInt8.ofNat (v / 64 % 64 + 128), UInt8.ofNat (v % 64 + 128)] ?_ ?_
      ?_ hrange ?_
    · rw [hlead, sequenceLength, if_neg (by omega), if_neg (by omega), if_pos (by omega)]
      rfl
    · simpa using ⟨(trail_byte (v / 64)).1, (trail_byte v).1⟩
    · show ((UInt8.ofNat (v / 4096 % 16 + 224)).toNat % 2 ^ 4 * 64 + _) * 64 + _ = v
      rw [hlead, (trail_byte (v / 64)).2, (trail_byte v).2]
      omega
    · rw [isOverlongSequence, if_neg (by omega), if_neg (by omega), if_pos (by omega)]
      rfl
  · have hlead : (UInt8.ofNat (v / 262144 % 8 + 240)).toNat = v / 262144 % 8 + 240 :=
      toNat_byte (by omega)
    rw [if_neg h₃]
    refine validateNext_eq [UInt8.ofNat (v / 4096 % 64 + 128), UInt8.ofNat (v / 64 % 64 + 128),
      UInt8.ofNat (v % 64 + 128)] ?_ ?_ ?_ hrange ?_
    · rw [hlead, sequenceLength, if_neg (by omega), if_neg (by omega), if_neg (by omega),
        if_pos (by omega)]
      rfl
    · simpa using ⟨(trail_byte (v / 4096)).1, (trail_byte (v / 64)).1, (trail_byte v).1⟩
    · show (((UInt8.ofNat (v / 262144 % 8 + 240)).toNat % 2 ^ 3 * 64 + _) * 64 + _) * 64 + _ = v
      rw [hlead, (trail_byte (v / 4096)).2, (trail_byte (v / 64)).2, (trail_byte v).2]
      omega
    · rw [isOverlongSequence, if_neg (by omega), if_neg (by omega), if_neg (by omega)]

theorem numCharacters_encode (cs : List Char) : numCharacters (utf8Encode cs) = some cs.length := by
  have hloop : ∀ fuel count, (utf8Encode cs).length ≤ fuel →
      numCharactersFrom fuel (utf8Encode cs) count = some (count + cs.length) := by
    induction cs with
    | nil =>
      intro fuel count _
      cases fuel <;> rfl
    | cons c cs ih =>
      intro fuel count hfuel
      have hsplit : utf8Encode (c :: cs) = String.utf8EncodeChar c ++ utf8Encode cs := rfl
      rw [hsplit] at hfuel ⊢
      have hpos : 0 < (String.utf8EncodeChar c).length := by
        rw [String.length_utf8EncodeChar]
        exact c.utf8Size_pos
      rw [List.length_append] at hfuel
      cases fuel with
      | zero => omega
      | succ fuel =>
        have hnext := validateNext_encode c (utf8Encode cs)
        cases hbytes : String.utf8EncodeChar c ++ utf8Encode cs with
        | nil =>
          rw [hbytes] at hnext
          cases hnext
        | cons b bytes =>
          rw [hbytes] at hnext
          rw [numCharactersFrom, hnext]
          simp only
          rw [ih fuel (count + 1) (by omega), List.length_cons]
          congr 1
          omega
  exact (hloop _ 0 (Nat.le_refl _)).trans (by rw [Nat.zero_add])

theorem utf8Encode_ne_nil {cs : List Char} (h : cs ≠ []) : utf8Encode cs ≠ [] := by
  intro hnil
  have hcount := numCharacters_encode cs
  rw [hnil] at hcount
  cases cs with
  | nil => exact h rfl
  | cons c cs => cases hcount

end Characters

/-! ## The post -/

/-- A post with a text. -/
def textPost (node : PostNode) (username : Bytes) (k : Int) (msg : Bytes) : List (Bytes × Entry) :=
  [(ascii "height", .int (node.bestHeight - 1)), (ascii "k", .int k), (ascii "msg", .str msg),
    (ascii "n", .str username), (ascii "time", .int node.adjustedTime)]

/-- The post with its signature. -/
def signedTextPost (env : Env) (node : PostNode) (username : Bytes) (k : Int) (msg : Bytes) :
    List (Bytes × Entry) :=
  let userpost := textPost node username k msg
  [(ascii "sig_userpost",
      .str (createSignature env node (bencode (.dict userpost)) username)),
    (ascii "userpost", .dict userpost)]

/-- The wallet signs with a key: what it signs recovers to the key. -/
structure SignsWith (env : Env) (node : PostNode) (username pubkey : Bytes) : Prop where
  /-- The wallet is not locked. -/
  unlocked : node.isLocked = false
  /-- It has a key for the user, and the signatures recover to the public key. -/
  signs : ∃ keyID, node.wallet.getKeyIdFromUsername username = some keyID ∧
    ∀ hash, ∃ sig, node.signCompact keyID hash = some sig ∧ sig ≠ [] ∧
      env.recoverCompact hash sig = some pubkey

section Post

variable {env : Env} {node : PostNode} {username pubkey msg : Bytes} {k : Int}

theorem SignsWith.createSignature (h : SignsWith env node username pubkey) (message : Bytes) :
    CoMoNet.createSignature env node message username ≠ [] ∧
      env.recoverCompact (env.messageHash message)
        (CoMoNet.createSignature env node message username) = some pubkey := by
  obtain ⟨keyID, hkey, hsigns⟩ := h.signs
  obtain ⟨sig, hsign, hne, hrec⟩ := hsigns (env.messageHash message)
  have hsig : CoMoNet.createSignature env node message username = sig := by
    simp only [CoMoNet.createSignature, h.unlocked, Bool.false_eq_true, if_false, hkey, hsign,
      Option.getD_some]
  rw [hsig]
  exact ⟨hne, hrec⟩

theorem createSignedUserpost_text (hmsg : msg ≠ [])
    (hsig : createSignature env node (bencode (.dict (textPost node username k msg)))
      username ≠ []) :
    createSignedUserpost env node [] username k msg {} [] 0 =
      some (signedTextPost env node username k msg) := by
  have hmembers : Entry.set (Entry.set (Entry.set (Entry.set (Entry.set [] "n" (.str username)) "k"
      (.int k)) "time" (.int node.adjustedTime)) "height" (.int (node.bestHeight - 1))) "msg"
      (.str msg) = textPost node username k msg := rfl
  have hfind : (Entry.findDict [] "userpost").getD [] = [] := rfl
  simp only [createSignedUserpost, PostParts.addTo, hfind, if_neg hmsg, hmembers, if_pos,
    if_neg hsig]
  rfl

/-- A signature that recovers to a key is good where the user has a key with its id. -/
theorem verifySignature_recovered {message sig : Bytes} {maxHeight : Int}
    (hrec : env.recoverCompact (env.messageHash message) sig = some pubkey) :
    verifySignature env node message username sig maxHeight = true ↔
      (getUserPubKey node username maxHeight).map env.hash160 = some (env.hash160 pubkey) := by
  rw [verifySignature]
  cases getUserPubKey node username maxHeight with
  | none => simp
  | some registered =>
    simp only [hrec, Option.map_some, Option.some.injEq, beq_iff_eq]
    exact eq_comm

end Post

section Own

variable {env : PostEnv} {node : PostNode} {username pubkey : Bytes} {k : Int} {cs : List Char}

/-- What `acceptSignedPost` reads of the post. -/
theorem lazy_textPost (hbest : 1 ≤ node.bestHeight) (hint : node.bestHeight < 2 ^ 31) (h₀ : 0 ≤ k)
    (hk : k < 2 ^ 31) (msg : Bytes) :
    let post := Entry.lazy (.dict (textPost node username k msg))
    post.dictFindStringValue "n" = username ∧ post.dictFindStringValue "msg" = msg ∧
      toInt32 (post.dictFindIntOr "k" (-1)) = k ∧
      toInt32 (post.dictFindIntOr "height" (-1)) = node.bestHeight - 1 ∧
      (post.checkQuotes env.toEnv node).1 = true := by
  simp only [dictFindStringValue_lazy, dictFindIntOr_lazy, LazyEntry.checkQuotes,
    LazyEntry.checkQuote, dictFindDict_lazy]
  refine ⟨rfl, rfl, ?_, ?_, rfl⟩
  · show toInt32 k = k
    exact toInt32_of_fits (by omega) hk
  · show toInt32 (node.bestHeight - 1) = node.bestHeight - 1
    exact toInt32_of_fits (by omega) (by omega)

theorem lazy_signedTextPost (msg : Bytes) :
    let v := Entry.lazy (.dict (signedTextPost env.toEnv node username k msg))
    v.dictFindDict "userpost" = some (Entry.lazy (.dict (textPost node username k msg))) ∧
      v.dictFindStringValue "sig_userpost" = createSignature env.toEnv node
        (bencode (.dict (textPost node username k msg))) username := by
  simp only [dictFindDict_lazy, dictFindStringValue_lazy]
  exact ⟨rfl, rfl⟩

/-- The post is accepted exactly if the user had the key one block ago. -/
theorem acceptsPost_own (hbest : 1 ≤ node.bestHeight) (hint : node.bestHeight < 2 ^ 31)
    (hsigns : SignsWith env.toEnv node username pubkey) (hk : k < 2 ^ 31)
    (hallowed : validatePostNumberForUser node username k = true) (hlong : cs.length ≤ 140)
    {v : List (Bytes × Entry)} (hv : signedTextPost env.toEnv node username k (utf8Encode cs) = v)
    (hsize : (bencode (.dict v)).length ≤ 2048)
    (hdecode : env.lazyBdecode (bencode (.dict v)) = some (Entry.lazy (.dict v))) :
    AcceptsPost env node (bencode (.dict v)) username k ↔
      (getUserPubKey node username (node.bestHeight - 1)).map env.hash160 =
        some (env.hash160 pubkey) := by
  obtain ⟨_, _, -, h₀, -⟩ := validatePostNumberForUser_iff.mp hallowed
  obtain ⟨hauthor, hmsg, hnumber, hheight, hquotes⟩ :=
    @lazy_textPost env node username k hbest hint h₀ hk (utf8Encode cs)
  obtain ⟨huserpost, hsig⟩ := @lazy_signedTextPost env node username k (utf8Encode cs)
  rw [hv] at huserpost hsig
  obtain ⟨hne, hrec⟩ := hsigns.createSignature
    (bencode (.dict (textPost node username k (utf8Encode cs))))
  rw [← hsig] at hne hrec
  have hsigned := @verifySignature_recovered env.toEnv node username pubkey _ _
    (node.bestHeight - 1) hrec
  rw [← hheight, ← Entry.dataSection_lazy] at hsigned
  rw [acceptsPost_iff, postResult_ret, ← hheight, ← hsigned]
  constructor
  · rintro ⟨v', post, hverified, -⟩
    have hsame := hverified.decode
    rw [hdecode, Option.some.injEq] at hsame
    subst hsame
    have hpost := hverified.userpost
    rw [huserpost, Option.some.injEq] at hpost
    subst hpost
    exact hverified.signed
  · intro hgood
    refine ⟨Entry.lazy (.dict v), _, ?_, hquotes⟩
    exact
      { size := ⟨by simp [bencode, ascii], hsize⟩
        decode := hdecode
        type := rfl
        userpost := huserpost
        sig := hne
        author := hauthor
        number := hnumber
        allowed := hallowed
        height := by
          rw [hheight]
          omega
        text := ⟨cs.length, hmsg ▸ numCharacters_encode cs, hlong⟩
        signed := hgood }

end Own

/-! ## On a chain -/

section OnChain

variable {env : Env} {s : ChainState} {u : Bytes} {maxHeight : Int}

/-- The newest transaction is found within every height it is not above. -/
theorem Synced.chainFound_newest (h : Synced env s) {tx : CTransaction} {height : Int}
    (hfound : chainFound env s u (-1) = some (tx, height)) (hle : height ≤ maxHeight) :
    chainFound env s u maxHeight = some (tx, height) := by
  have hpos := h.pos_of_lookup hfound
  rw [h.chainFound_eq, newestWithin, heightBound, if_pos (by decide)] at hfound
  rw [h.chainFound_eq, newestWithin, heightBound, if_neg (by omega)]
  cases hst : userStack u s.coinsTip with
  | nil =>
    rw [hst] at hfound
    cases hfound
  | cons x rest =>
    have hx : x ∈ userStack u s.coinsTip := hst ▸ List.mem_cons_self
    have hbest := h.inv.best x (mem_userStack.mp hx).1
    rw [hst, List.find?_cons_of_pos (by simpa using hbest), Option.bind_some] at hfound
    obtain ⟨tx', htx, heq⟩ := Option.map_eq_some_iff.mp hfound
    cases heq
    rw [List.find?_cons_of_pos (by simpa using hle), Option.bind_some, htx, Option.map_some]

/-- The key is that of a block ago if the newest block has no transaction of the user. -/
theorem getUserPubKey_block_ago (h : Synced env s) {base : PostNode} {pubkey : Bytes}
    (hkey : getUserPubKey (base.onChain env s) u (-1) = some pubkey)
    (hbelow : ∀ p ∈ userStack u s.coinsTip, (p.nHeight : Int) < s.nBestHeight) :
    getUserPubKey (base.onChain env s) u (s.nBestHeight - 1) = some pubkey := by
  cases hfound : chainFound env s u (-1) with
  | none =>
    have hnone : (base.onChain env s).getTransactionAt u (-1) = none := hfound
    rw [getUserPubKey, hnone] at hkey
    cases hkey
  | some found =>
    obtain ⟨tx, height⟩ := found
    have hlow : height ≤ s.nBestHeight - 1 := by
      have hnewest := hfound
      rw [h.chainFound_eq, newestWithin] at hnewest
      obtain ⟨e, hfind, hmap⟩ := Option.bind_eq_some_iff.mp hnewest
      obtain ⟨tx', -, heq⟩ := Option.map_eq_some_iff.mp hmap
      cases heq
      have hlt := hbelow e (List.mem_of_find?_eq_some hfind)
      omega
    have hat : (base.onChain env s).getTransactionAt u (s.nBestHeight - 1) =
        (base.onChain env s).getTransactionAt u (-1) :=
      (h.chainFound_newest hfound hlow).trans hfound.symm
    rw [getUserPubKey, hat, ← getUserPubKey]
    exact hkey

end OnChain

/-! ### A node with a key of alice -/

/-- The wallet of alice. -/
def ownBase (keyID : Nat) : PostNode :=
  { quoteNode with
      wallet :=
        { mapKeyMetadata := [(keyID, ⟨ascii "alice", []⟩)]
          getPubKey := fun keyID => some (2 :: List.replicate 32 (UInt8.ofNat keyID))
          nodup := List.nodup_singleton keyID } }

/-- A node on a chain where alice registers the first key and replaces it. -/
def ownNode (keyID n : Nat) : PostNode := (ownBase keyID).onChain signNet (grownState n)

/-- The first post of alice, with a text of two characters and three bytes. -/
def ownPost (keyID n : Nat) : List (Bytes × Entry) :=
  signedTextPost signNet (ownNode keyID n) (ascii "alice") 0 (utf8Encode ['h', 'é'])

theorem signsWith_ownNode (keyID n : Nat) :
    SignsWith signNet (ownNode keyID n) (ascii "alice")
      (numberedKey (UInt8.ofNat keyID)) := by
  refine ⟨rfl, keyID, ?_, fun hash => ?_⟩
  · simp [CWallet.getKeyIdFromUsername, ownNode, ownBase, PostNode.onChain]
  · refine ⟨[UInt8.ofNat keyID, UInt8.ofNat (hash % 251)], rfl, by simp, ?_⟩
    have hbyte : (UInt8.ofNat (hash % 251)).toNat = hash % 251 := toNat_byte (by omega)
    exact if_pos hbyte

/-- What is computed about a post of alice, beside whether it is accepted. -/
def OwnPostMade (keyID n : Nat) : Prop :=
  (runLabels signNet (succeeds signNet) {} ((grownBlocks.take n).flatMap arrive)).isSome = true ∧
    (1 ≤ (grownState n).nBestHeight ∧ (grownState n).nBestHeight < 2 ^ 31) ∧
    getUserPubKey (ownNode keyID n) (ascii "alice") (-1) =
      some (numberedKey (UInt8.ofNat keyID)) ∧
    validatePostNumberForUser (ownNode keyID n) (ascii "alice") 0 = true ∧
    (bencode (.dict (ownPost keyID n))).length ≤ 2048

instance (keyID n : Nat) : Decidable (OwnPostMade keyID n) :=
  inferInstanceAs (Decidable (_ ∧ (_ ∧ _) ∧ _ ∧ _ ∧ _))

/-! ### The posts of the node -/

section Own

variable {env : PostEnv} {s : ChainState} {base : PostNode} {username pubkey : Bytes} {k : Int}
variable {cs : List Char}

/-- A post with a text, made with the current key, is accepted by the node exactly if the key of a
block ago has the same id. It has, if the newest block has no transaction of the user. -/
theorem own_post_iff (h : (chainSystem env.toEnv).Reach (Succeeds env.toEnv) s)
    (hbest : 1 ≤ s.nBestHeight) (hint : s.nBestHeight < 2 ^ 31)
    (hkey : getUserPubKey (base.onChain env.toEnv s) username (-1) = some pubkey)
    (hsigns : SignsWith env.toEnv (base.onChain env.toEnv s) username pubkey)
    (hk : k < 2 ^ 31)
    (hallowed : validatePostNumberForUser (base.onChain env.toEnv s) username k = true)
    (hcs : 1 ≤ cs.length ∧ cs.length ≤ 140) :
    ∃ v, createSignedUserpost env.toEnv (base.onChain env.toEnv s) [] username k (utf8Encode cs)
        {} [] 0 = some v ∧
      ((bencode (.dict v)).length ≤ 2048 →
        env.lazyBdecode (bencode (.dict v)) = some (Entry.lazy (.dict v)) →
        (AcceptsPost env (base.onChain env.toEnv s) (bencode (.dict v)) username k ↔
          (getUserPubKey (base.onChain env.toEnv s) username (s.nBestHeight - 1)).map env.hash160 =
            some (env.hash160 pubkey)) ∧
        ((∀ p ∈ userStack username s.coinsTip, (p.nHeight : Int) < s.nBestHeight) →
          AcceptsPost env (base.onChain env.toEnv s) (bencode (.dict v)) username k)) := by
  have hmsg : utf8Encode cs ≠ [] := utf8Encode_ne_nil (List.ne_nil_of_length_pos hcs.1)
  refine ⟨_, createSignedUserpost_text hmsg (hsigns.createSignature _).1, fun hsize hdecode => ?_⟩
  have hiff := acceptsPost_own hbest hint hsigns hk hallowed hcs.2 rfl hsize hdecode
  refine ⟨hiff, fun hbelow => hiff.mpr ?_⟩
  have hago := getUserPubKey_block_ago (synced_of_reach h) hkey hbelow
  exact congrArg (Option.map env.hash160) hago

/-- A post of alice is accepted in the block after the registration. -/
theorem own_post_alice :
    AcceptsPost (grownNet (.dict (ownPost 1 3))) (ownNode 1 3) (bencode (.dict (ownPost 1 3)))
      (ascii "alice") 0 := by
  have hfacts : OwnPostMade 1 3 ∧ ∀ p ∈ userStack (ascii "alice") (grownState 3).coinsTip,
      (p.nHeight : Int) < (grownState 3).nBestHeight := by
    decide +kernel
  obtain ⟨⟨hrun, ⟨hbest, hint⟩, hkey, hallowed, hsize⟩, hbelow⟩ := hfacts
  obtain ⟨v, hmade, haccepted⟩ := @own_post_iff (grownNet (.dict (ownPost 1 3))) _ (ownBase 1) _ _ 0
    ['h', 'é'] (reach_grownState hrun) hbest hint hkey (signsWith_ownNode 1 3) (by decide) hallowed
    (by decide)
  have hpost : v = ownPost 1 3 := by
    have hsame := hmade.symm.trans (createSignedUserpost_text (utf8Encode_ne_nil (by decide))
      ((signsWith_ownNode 1 3).createSignature _).1)
    exact Option.some.inj hsame
  subst hpost
  exact (haccepted hsize rfl).2 hbelow

/-- The node of alice makes a post and rejects it. -/
structure OwnPostLost (keyID n : Nat) : Prop where
  reach : (chainSystem signNet).Reach (Succeeds signNet) (grownState n)
  made : OwnPostMade keyID n
  signs : SignsWith signNet (ownNode keyID n) (ascii "alice") (numberedKey (UInt8.ofNat keyID))
  post : createSignedUserpost signNet (ownNode keyID n) [] (ascii "alice") 0
    (utf8Encode ['h', 'é']) {} [] 0 = some (ownPost keyID n)
  rejected : ¬AcceptsPost (grownNet (.dict (ownPost keyID n))) (ownNode keyID n)
    (bencode (.dict (ownPost keyID n))) (ascii "alice") 0

/-- A post of alice is rejected in the block of the registration or replacement. -/
theorem own_post_lost : OwnPostLost 1 2 ∧ OwnPostLost 2 4 := by
  have hlost : ∀ c : Nat × Nat, OwnPostMade c.1 c.2 ∧
      (postResult (grownNet (.dict (ownPost c.1 c.2))) (ownNode c.1 c.2)
        (bencode (.dict (ownPost c.1 c.2))) (ascii "alice") 0).1 = false →
      OwnPostLost c.1 c.2 := by
    rintro c ⟨hmade, hrejected⟩
    have hsigns := signsWith_ownNode c.1 c.2
    refine ⟨reach_grownState hmade.1, hmade, hsigns, ?_, ?_⟩
    · exact createSignedUserpost_text (utf8Encode_ne_nil (by decide)) (hsigns.createSignature _).1
    · rw [acceptsPost_iff, hrejected]
      exact Bool.false_ne_true
  have hfacts : ∀ c ∈ [(1, 2), (2, 4)], OwnPostMade c.1 c.2 ∧
      (postResult (grownNet (.dict (ownPost c.1 c.2))) (ownNode c.1 c.2)
        (bencode (.dict (ownPost c.1 c.2))) (ascii "alice") 0).1 = false := by
    decide +kernel
  exact ⟨hlost (1, 2) (hfacts _ (by simp)), hlost (2, 4) (hfacts _ (by simp))⟩

end Own

end CoMoNet
