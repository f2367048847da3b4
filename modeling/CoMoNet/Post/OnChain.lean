import CoMoNet.Chain.Replacement
import CoMoNet.Chain.Termination
import CoMoNet.Post.Accept

/-!
# Posts and the chain

A post is checked with the key its author had at its height, and the number of posts is
limited by the blocks since the author's last transaction (`accepted_stays_iff`).
-/

namespace CoMoNet

open CBlockIndex (ancestorsOf)

/-! ## Lookups -/

/-- `GetTransaction` with the height of the block, if it returns. -/
def chainLookup (env : Env) (s : ChainState) (u : Bytes) (maxHeight : Int) :
    Option (Option (CTransaction × Int)) :=
  match getTransaction env ((userStack u s.coinsTip).length + 1) s u maxHeight with
  | .ok found => some (found.bind fun (tx, hashBlock) =>
      (s.findBlockIndex env hashBlock).map fun pindex => (tx, (pindex.nHeight : Int)))
  | .error _ => none

/-- What a lookup finds. One that does not return finds none: nothing is accepted. -/
def chainFound (env : Env) (s : ChainState) (u : Bytes) (maxHeight : Int) :
    Option (CTransaction × Int) :=
  (chainLookup env s u maxHeight).join

/-- The newest transaction of a user within a height. -/
def newestWithin (u : Bytes) (bound : Int) (st : List CBlockIndex) : Option (CTransaction × Int) :=
  (st.find? fun x => decide ((x.nHeight : Int) ≤ bound)).bind fun e =>
    (e.block.txFor u).map fun tx => (tx, (e.nHeight : Int))

/-- A node that reads the chain `s`. -/
def PostNode.onChain (base : PostNode) (env : Env) (s : ChainState) : PostNode :=
  { base with
      getTransaction := fun u => (chainFound env s u (-1)).map Prod.fst
      getTransactionAt := chainFound env s
      bestHeight := s.nBestHeight
      current := fun _ => rfl }

section Lookup

variable {env : Env} {s : ChainState} {u : Bytes} {maxHeight : Int}

/-- A lookup returns if the chain has a transaction. -/
theorem Synced.getTransaction_of_find (h : Synced env s) {e : CBlockIndex}
    (hfind : (userStack u s.coinsTip).find? (fun x => decide ((x.nHeight : Int) ≤
      heightBound s maxHeight)) = some e) :
    ∃ r, getTransaction env ((userStack u s.coinsTip).length + 1) s u maxHeight = .ok r := by
  obtain ⟨l, rep, tracks⟩ := h.inStep u
  have hmem : e ∈ userStack u s.coinsTip := List.mem_of_find?_eq_some hfind
  have hle : (e.nHeight : Int) ≤ heightBound s maxHeight := by simpa using List.find?_some hfind
  refine (getTransaction_ok_iff h.inv.tree rep _).mpr ?_
  refine (UndoStack.Log.walk_returns ?_ tracks.links ?_ tracks.top ?_).1
  · intro x hx
    exact h.inv.isInMainChain_iff.mpr (mem_userStack.mp hx).1
  · intro b x hb _ hbound _
    have hlow := tracks.le_of_getLast? hb hmem
    omega
  · intro hnil
    rw [hnil] at hmem
    cases hmem

/-- On a chain in step, a lookup finds the newest transaction within the height. -/
theorem Synced.chainFound_eq (h : Synced env s) :
    chainFound env s u maxHeight =
      newestWithin u (heightBound s maxHeight) (userStack u s.coinsTip) := by
  rw [chainFound, chainLookup, newestWithin]
  cases hget : getTransaction env ((userStack u s.coinsTip).length + 1) s u maxHeight with
  | error e =>
    cases hfind : (userStack u s.coinsTip).find? fun x =>
        decide ((x.nHeight : Int) ≤ heightBound s maxHeight) with
    | none => rfl
    | some x =>
      obtain ⟨r, hr⟩ := h.getTransaction_of_find hfind
      rw [hget] at hr
      cases hr
  | ok r =>
    have hr := h.getTransaction_eq hget
    rw [← heightBound] at hr
    cases hfind : (userStack u s.coinsTip).find? fun x =>
        decide ((x.nHeight : Int) ≤ heightBound s maxHeight) with
    | none =>
      rw [hfind, Option.bind_none] at hr
      rw [hr]
      rfl
    | some e =>
      have hmem := mem_userStack.mp (List.mem_of_find?_eq_some hfind)
      obtain ⟨tx, htx⟩ := Option.isSome_iff_exists.mp hmem.2
      have hindex : s.findBlockIndex env (env.blockHash e.block) = some e :=
        h.inv.tree.find_hash (h.inv.ancestorsOf_mem e hmem.1)
      rw [hfind, Option.bind_some, htx, Option.map_some] at hr
      rw [hr, Option.bind_some, htx]
      simp only [Option.bind_some, hindex, Option.map_some, Option.join_some]

end Lookup

/-! ## A post on two nodes -/

/-- `acceptSignedPost` without flags returns true. -/
def AcceptsPost (env : PostEnv) (node : PostNode) (data username : Bytes) (seq : Int) : Prop :=
  ∀ s, ∃ answer, PostState.acceptSignedPost env node s data username seq false =
    some (answer, s) ∧ answer.ret = true

/-- Two nodes find keys with the same id for a user at a height. -/
def SameKey (env : Env) (node node' : PostNode) (u : Bytes) (maxHeight : Int) : Prop :=
  (getUserPubKey node' u maxHeight).map env.hash160 =
    (getUserPubKey node u maxHeight).map env.hash160

/-- The quotation that decides: `fav`, or `rt` if there is none. -/
def LazyEntry.lastQuote (post : LazyEntry) : Option LazyEntry :=
  (post.dictFindDict "fav").or (post.dictFindDict "rt")

/-- An accepted post is good on another node: as many posts are allowed, and the keys are the
same. -/
structure StillGood (env : Env) (node node' : PostNode) (post : LazyEntry) (username : Bytes)
    (seq : Int) : Prop where
  allowed : validatePostNumberForUser node' username seq = true
  author : SameKey env node node' username (toInt32 (post.dictFindIntOr "height" (-1)))
  quoted : ∀ quoted, post.lastQuote = some quoted → SameKey env node node'
    (quoted.dictFindStringValue "n") (toInt32 (quoted.dictFindIntOr "height" (-1)))

section Nodes

variable {env : PostEnv} {node node' : PostNode} {data username : Bytes} {seq : Int}

theorem acceptsPost_iff :
    AcceptsPost env node data username seq ↔ (postResult env node data username seq).1 = true := by
  constructor
  · intro h
    obtain ⟨answer, haccept, hret⟩ := h {}
    exact (acceptSignedPost_cases env node data username seq haccept).1 ▸ hret
  · intro h s
    obtain ⟨v, post, hverified, hquotes⟩ := postResult_ret.mp h
    exact ⟨_, hverified.acceptSignedPost env node data username seq false, hquotes⟩

theorem validatePostNumberForUser_iff :
    validatePostNumberForUser node username seq = true ↔
      ∃ tx nHeight, node.getTransactionAt username (-1) = some (tx, nHeight) ∧ 0 ≤ seq ∧
        (0 < node.bestHeight → seq ≤ 2 * (node.bestHeight - nHeight) + 20) := by
  rw [validatePostNumberForUser]
  cases node.getTransactionAt username (-1) with
  | none => simp
  | some found =>
    obtain ⟨tx, nHeight⟩ := found
    constructor
    · intro h
      simp only at h
      split at h
      · cases h
      split at h
      · cases h
      rename_i hseq hlimit
      exact ⟨tx, nHeight, rfl, by omega, fun hpos => by omega⟩
    · rintro ⟨tx', nHeight', heq, hseq, hlimit⟩
      cases heq
      simp only
      rw [if_neg (by omega), if_neg (by omega)]

/-- A good signature stays good iff the key is the same. -/
theorem verifySignature_sameKey {env : Env} {message u sig : Bytes} {maxHeight : Int}
    (h : verifySignature env node message u sig maxHeight = true) :
    verifySignature env node' message u sig maxHeight = true ↔
      SameKey env node node' u maxHeight := by
  rw [verifySignature] at h ⊢
  rw [SameKey]
  cases hkey : getUserPubKey node u maxHeight with
  | none =>
    rw [hkey] at h
    cases h
  | some pubkey =>
    rw [hkey] at h
    cases hrec : env.recoverCompact (env.messageHash message) sig with
    | none => simp [hrec] at h
    | some pubkeyRec =>
      simp only [hrec, beq_iff_eq] at h
      cases hkey' : getUserPubKey node' u maxHeight with
      | none => simp
      | some pubkey' =>
        simp only [h, Option.map_some, Option.some.injEq, beq_iff_eq]
        exact eq_comm

theorem checkQuotes_sameKey {env : Env} {post : LazyEntry}
    (h : (post.checkQuotes env node).1 = true) :
    (post.checkQuotes env node').1 = true ↔
      ∀ quoted, post.lastQuote = some quoted → SameKey env node node'
        (quoted.dictFindStringValue "n") (toInt32 (quoted.dictFindIntOr "height" (-1))) := by
  rw [checkQuotes_ret] at h ⊢
  obtain ⟨hfav, hrt⟩ := h
  have hquote : ∀ name sigName, post.QuoteGood env node name sigName →
      (post.QuoteGood env node' name sigName ↔
        ∀ quoted, post.dictFindDict name = some quoted → SameKey env node node'
          (quoted.dictFindStringValue "n") (toInt32 (quoted.dictFindIntOr "height" (-1)))) := by
    intro name sigName hgood
    exact forall_congr' fun quoted => imp_congr_right fun hfound =>
      verifySignature_sameKey (hgood quoted hfound)
  rw [hquote "fav" "sig_fav" hfav, LazyEntry.lastQuote]
  cases hfound : post.dictFindDict "fav" with
  | none =>
    rw [hquote "rt" "sig_rt" (hrt hfound)]
    simp
  | some fav => simp

/-- A post accepted on one node is accepted on one with no lower chain iff it is still good
there. -/
theorem acceptsPost_stillGood (hacc : AcceptsPost env node data username seq)
    (hpos : 0 < node.bestHeight) (hbest : node.bestHeight ≤ node'.bestHeight) :
    AcceptsPost env node' data username seq ↔
      ∀ v post, env.lazyBdecode data = some v → v.dictFindDict "userpost" = some post →
        StillGood env.toEnv node node' post username seq := by
  rw [acceptsPost_iff, postResult_ret] at hacc ⊢
  obtain ⟨v, post, hverified, hquotes⟩ := hacc
  constructor
  · rintro ⟨v', post', hverified', hquotes'⟩ v'' post'' hdecode huserpost
    rw [hverified'.decode, Option.some.injEq] at hdecode
    subst hdecode
    rw [hverified'.userpost, Option.some.injEq] at huserpost
    subst huserpost
    have hdecode := hverified'.decode
    rw [hverified.decode, Option.some.injEq] at hdecode
    subst hdecode
    have huserpost := hverified'.userpost
    rw [hverified.userpost, Option.some.injEq] at huserpost
    subst huserpost
    exact ⟨hverified'.allowed, (verifySignature_sameKey hverified.signed).mp hverified'.signed,
      (checkQuotes_sameKey hquotes).mp hquotes'⟩
  · intro hgood
    have hstill := hgood v post hverified.decode hverified.userpost
    refine ⟨v, post, { hverified with
      allowed := hstill.allowed
      height := ⟨hverified.height.1, fun _ => ?_⟩
      signed := (verifySignature_sameKey hverified.signed).mpr hstill.author },
      (checkQuotes_sameKey hquotes).mpr hstill.quoted⟩
    have hheight := hverified.height.2 hpos
    omega

end Nodes

/-! ## Growing chains -/

/-- The chain has grown. -/
structure Extends (s s' : ChainState) : Prop where
  /-- The old chain is the lower part of the new one. -/
  chain : ancestorsOf s.coinsTip <:+ ancestorsOf s'.coinsTip
  best : s.nBestHeight ≤ s'.nBestHeight

/-- A block that was added has a transaction for the user. -/
def AddedFor (s s' : ChainState) (u : Bytes) (p : CBlockIndex) : Prop :=
  p ∈ ancestorsOf s'.coinsTip ∧ p ∉ ancestorsOf s.coinsTip ∧
    p.registers u = true

section Growing

variable {env : Env} {s s' : ChainState} {u : Bytes} {maxHeight : Int}

/-- The transactions of a user are those before and those that were added. -/
theorem Extends.userStack (h : Extends s s') (u : Bytes) :
    ∃ added, CoMoNet.userStack u s'.coinsTip = added ++ CoMoNet.userStack u s.coinsTip ∧
      ∀ p ∈ added, AddedFor s s' u p := by
  obtain ⟨blocks, hblocks⟩ := h.chain
  have hsorted := CBlockIndex.ancestorsOf_sorted s'.coinsTip
  rw [← hblocks] at hsorted
  refine ⟨blocks.filter (CBlockIndex.registers u), ?_, fun p hp => ?_⟩
  · rw [CoMoNet.userStack, CoMoNet.userStack, ← hblocks, List.filter_append]
  · obtain ⟨hmem, hreg⟩ := List.mem_filter.mp hp
    refine ⟨hblocks ▸ List.mem_append_left _ hmem, fun hold => ?_, hreg⟩
    exact Nat.lt_irrefl _ ((List.pairwise_append.mp hsorted).2.2 p hmem p hold)

/-- What is looked up does not change if no transaction was added within the
height. -/
theorem chainFound_grown (h : Synced env s) (h' : Synced env s') (hext : Extends s s')
    (hnew : ∀ p, AddedFor s s' u p → 0 ≤ maxHeight ∧ maxHeight < p.nHeight) :
    chainFound env s' u maxHeight = chainFound env s u maxHeight := by
  obtain ⟨added, hstack, hadded⟩ := hext.userStack u
  rw [h.chainFound_eq, h'.chainFound_eq, newestWithin, newestWithin, hstack]
  congr 1
  by_cases hneg : maxHeight < 0
  · have hnil : added = [] := List.eq_nil_iff_forall_not_mem.mpr fun p hp => by
      have hlow := (hnew p (hadded p hp)).1
      omega
    rw [hnil, List.nil_append, heightBound, heightBound, if_pos hneg, if_pos hneg]
    cases hst : CoMoNet.userStack u s.coinsTip with
    | nil => rfl
    | cons x rest =>
      have hx : x ∈ CoMoNet.userStack u s.coinsTip := hst ▸ List.mem_cons_self
      have hle := h.inv.best x (mem_userStack.mp hx).1
      have hle' := hext.best
      rw [List.find?_cons_of_pos (by simpa using Int.le_trans hle hle'),
        List.find?_cons_of_pos (by simpa using hle)]
  · rw [heightBound, heightBound, if_neg hneg, if_neg hneg, List.find?_append]
    have hnone : (added.find? fun x => decide ((x.nHeight : Int) ≤ maxHeight)) = none := by
      refine List.find?_eq_none.mpr fun x hx => ?_
      have hhigh := (hnew x (hadded x hx)).2
      rw [decide_eq_true_eq]
      omega
    rw [hnone, Option.none_or]

/-- Transactions are above the genesis block. -/
theorem Synced.pos_of_lookup (h : Synced env s) {tx : CTransaction} {height : Int}
    (hfound : chainFound env s u maxHeight = some (tx, height)) :
    1 ≤ height ∧ height ≤ s.nBestHeight := by
  rw [h.chainFound_eq, newestWithin] at hfound
  obtain ⟨e, hfind, hmap⟩ := Option.bind_eq_some_iff.mp hfound
  obtain ⟨tx', -, heq⟩ := Option.map_eq_some_iff.mp hmap
  cases heq
  have hmem := mem_userStack.mp (List.mem_of_find?_eq_some hfind)
  have hpos := h.inv.tree.nHeight_pos (h.inv.ancestorsOf_mem e hmem.1) hmem.2
  have hbest := h.inv.best e hmem.1
  omega

variable {base base' : PostNode} {username : Bytes} {seq : Int}

/-- A number stays allowed without a new transaction. -/
theorem validate_grown (h : Synced env s) (h' : Synced env s') (hext : Extends s s')
    (hnew : ∀ p, ¬AddedFor s s' username p)
    (hallowed : validatePostNumberForUser (base.onChain env s) username seq = true) :
    validatePostNumberForUser (base'.onChain env s') username seq = true := by
  obtain ⟨tx, nHeight, hfound, hseq, hlimit⟩ := validatePostNumberForUser_iff.mp hallowed
  refine validatePostNumberForUser_iff.mpr ⟨tx, nHeight, ?_, hseq, fun _ => ?_⟩
  · exact (chainFound_grown h h' hext fun p hp => absurd hp (hnew p)).trans hfound
  · have hpos := h.pos_of_lookup hfound
    have hbest := hext.best
    have hle : seq ≤ 2 * (s.nBestHeight - nHeight) + 20 :=
      hlimit (show 0 < s.nBestHeight by omega)
    show seq ≤ 2 * (s'.nBestHeight - nHeight) + 20
    omega

/-- A user has the same key at a height, if no transaction was added within it. -/
theorem sameKey_grown (h : Synced env s) (h' : Synced env s') (hext : Extends s s')
    (hnew : ∀ p, AddedFor s s' u p → 0 ≤ maxHeight ∧ maxHeight < p.nHeight) :
    SameKey env (base.onChain env s) (base'.onChain env s') u maxHeight := by
  have hlookup : (base'.onChain env s').getTransactionAt u maxHeight =
      (base.onChain env s).getTransactionAt u maxHeight := chainFound_grown h h' hext hnew
  rw [SameKey, getUserPubKey, getUserPubKey, hlookup]

end Growing

/-! ### A chain on which alice replaces a key -/

/-- Alice and bob register, nothing happens, and alice replaces the key. -/
def grownBlocks : List CBlockIndex :=
  let first := smallIndex smallGenesis (smallBlock smallNet.genesisBlock 1
    [keyRegistration "alice" 1 10, keyRegistration "bob" 1 11])
  let second := smallIndex first (smallBlock first.block 2 [])
  let third := smallIndex second (smallBlock second.block 3 [keyReplacement "alice" 2 1 12])
  [smallGenesis, first, second, third]

/-- The chain after `n` of the blocks. -/
def grownState (n : Nat) : ChainState :=
  stateAfter signNet (succeeds signNet) ((grownBlocks.take n).flatMap arrive)

theorem reach_grownState {n : Nat} (h : (runLabels signNet (succeeds signNet) {}
    ((grownBlocks.take n).flatMap arrive)).isSome = true) :
    (chainSystem signNet).Reach (Succeeds signNet) (grownState n) :=
  reach_stateAfter (fun _ _ => succeeds_sound) h

/-- A signature of the first key. -/
def firstKeySig (e : Entry) : Bytes :=
  [1, UInt8.ofNat (signNet.messageHash (Entry.bencode e) % 251)]

/-- A post. -/
def grownPost (author : String) (height k : Int) (parts : List (Bytes × Entry)) : Entry :=
  let userpost := Entry.set parts "n" (.str (ascii author))
  let userpost := Entry.set userpost "k" (.int k)
  let userpost := Entry.set userpost "height" (.int height)
  .dict [(ascii "sig_userpost", .str (firstKeySig (.dict userpost))),
    (ascii "userpost", .dict userpost)]

/-- A quotation without a height. -/
def quoteAlice : List (Bytes × Entry) :=
  let rt : Entry := .dict [(ascii "n", .str (ascii "alice"))]
  [(ascii "rt", rt), (ascii "sig_rt", .str (firstKeySig rt))]

/-- A network on which `lazy_bdecode` reads one post. -/
def grownNet (post : Entry) : PostEnv :=
  { signNet with
      lazyBdecode := fun _ => some (Entry.lazy post)
      decrypt := fun _ _ => none
      secretKey := fun _ => none
      keyID := fun _ => 0
      randomGroupAlias := []
      writeKey := fun _ => false }

/-- The post is accepted. -/
def takes (n : Nat) (author : String) (height k : Int) (parts : List (Bytes × Entry)) : Bool :=
  let post := grownPost author height k parts
  (postResult (grownNet post) (quoteNode.onChain signNet (grownState n)) (Entry.bencode post)
    (ascii author) k).1

/-- `takes` as a proposition. -/
def Taken (n : Nat) (author : String) (height k : Int) (parts : List (Bytes × Entry)) : Prop :=
  let post := grownPost author height k parts
  AcceptsPost (grownNet post) (quoteNode.onChain signNet (grownState n)) (Entry.bencode post)
    (ascii author) k

theorem taken_iff {n : Nat} {author : String} {height k : Int} {parts : List (Bytes × Entry)} :
    Taken n author height k parts ↔ takes n author height k parts = true :=
  acceptsPost_iff

/-- The chains are reached. -/
def Grows : Prop :=
  ((runLabels signNet (succeeds signNet) {} ((grownBlocks.take 3).flatMap arrive)).isSome = true ∧
    (runLabels signNet (succeeds signNet) {} ((grownBlocks.take 4).flatMap arrive)).isSome = true) ∧
    ancestorsOf (grownState 3).coinsTip <:+
      ancestorsOf (grownState 4).coinsTip ∧
    (grownState 3).nBestHeight ≤ (grownState 4).nBestHeight

instance : Decidable Grows := inferInstanceAs (Decidable ((_ ∧ _) ∧ _ ∧ _))

/-! ### Posts on a chain that has grown -/

section Growing

variable {env : PostEnv} {s s' : ChainState} {base base' : PostNode} {data username : Bytes}
variable {seq : Int}

/-- An accepted post is accepted on a grown chain exactly if the author may have as many posts and
the keys of author and quoted user are the same. They are, if no transaction was added within the
heights. -/
theorem accepted_stays_iff (h : (chainSystem env.toEnv).Reach (Succeeds env.toEnv) s)
    (h' : (chainSystem env.toEnv).Reach (Succeeds env.toEnv) s') (hext : Extends s s')
    (hacc : AcceptsPost env (base.onChain env.toEnv s) data username seq) :
    (AcceptsPost env (base'.onChain env.toEnv s') data username seq ↔
      ∀ v post, env.lazyBdecode data = some v → v.dictFindDict "userpost" = some post →
        StillGood env.toEnv (base.onChain env.toEnv s) (base'.onChain env.toEnv s') post username
          seq) ∧
    (∀ u (maxHeight : Int), (∀ p, AddedFor s s' u p → 0 ≤ maxHeight ∧ maxHeight < p.nHeight) →
      SameKey env.toEnv (base.onChain env.toEnv s) (base'.onChain env.toEnv s') u maxHeight) ∧
    ((∀ p, ¬AddedFor s s' username p) →
      validatePostNumberForUser (base'.onChain env.toEnv s') username seq = true) := by
  have hsync := synced_of_reach h
  have hsync' := synced_of_reach h'
  obtain ⟨v, post, hverified, -⟩ := postResult_ret.mp (acceptsPost_iff.mp hacc)
  obtain ⟨tx, nHeight, hfound, -, -⟩ := validatePostNumberForUser_iff.mp hverified.allowed
  have hpos : 0 < s.nBestHeight := by
    have hrange := hsync.pos_of_lookup hfound
    omega
  refine ⟨acceptsPost_stillGood hacc hpos hext.best, fun u maxHeight hnew => ?_, fun hnew => ?_⟩
  · exact sameKey_grown hsync hsync' hext hnew
  · exact validate_grown hsync hsync' hext hnew hverified.allowed

/-- A post of alice is accepted after the key that signed it was replaced. -/
theorem accepted_stays_alice : Taken 3 "alice" 2 0 [] ∧ Taken 4 "alice" 2 0 [] := by
  have hfacts : Grows ∧ takes 3 "alice" 2 0 [] = true ∧
      (∀ p ∈ ancestorsOf (grownState 4).coinsTip,
        p ∉ ancestorsOf (grownState 3).coinsTip → (2 : Int) < p.nHeight) ∧
      validatePostNumberForUser (quoteNode.onChain signNet (grownState 4)) (ascii "alice") 0 =
        true ∧
      ((Entry.lazy (grownPost "alice" 2 0 [])).dictFindDict "userpost").map (fun post =>
        (toInt32 (post.dictFindIntOr "height" (-1)), post.lastQuote.isSome)) = some (2, false) := by
    decide +kernel
  obtain ⟨⟨⟨hrun, hrun'⟩, hext⟩, htaken, hheights, hallowed, hread⟩ := hfacts
  have hacc : Taken 3 "alice" 2 0 [] := taken_iff.mpr htaken
  obtain ⟨hiff, hkeys, -⟩ := @accepted_stays_iff (grownNet (grownPost "alice" 2 0 [])) _ _
    quoteNode quoteNode _ _ _ (reach_grownState hrun) (reach_grownState hrun') ⟨hext.1, hext.2⟩ hacc
  refine ⟨hacc, hiff.mpr fun v post hdecode huserpost => ?_⟩
  cases hdecode
  rw [huserpost, Option.map_some, Option.some.injEq, Prod.mk.injEq] at hread
  refine ⟨hallowed, ?_, fun quoted hquoted => ?_⟩
  · rw [hread.1]
    exact hkeys _ _ fun p hp => ⟨by decide, hheights p hp.1 hp.2.1⟩
  · rw [hquoted] at hread
    cases hread.2

/-- Three posts lost when alice has replaced the key: a number above 20, one from the next height,
and one quoting alice without a height. -/
theorem accepted_lost :
    (chainSystem signNet).Reach (Succeeds signNet) (grownState 3) ∧
      (chainSystem signNet).Reach (Succeeds signNet) (grownState 4) ∧
      Extends (grownState 3) (grownState 4) ∧
      (Taken 3 "alice" 2 22 [] ∧ ¬Taken 4 "alice" 2 22 []) ∧
      (Taken 3 "alice" 3 0 [] ∧ ¬Taken 4 "alice" 3 0 []) ∧
      (Taken 3 "bob" 2 0 quoteAlice ∧ ¬Taken 4 "bob" 2 0 quoteAlice) := by
  have hfacts : Grows ∧ (takes 3 "alice" 2 22 [] = true ∧ ¬takes 4 "alice" 2 22 [] = true) ∧
      (takes 3 "alice" 3 0 [] = true ∧ ¬takes 4 "alice" 3 0 [] = true) ∧
      (takes 3 "bob" 2 0 quoteAlice = true ∧ ¬takes 4 "bob" 2 0 quoteAlice = true) := by
    decide +kernel
  obtain ⟨⟨⟨hrun, hrun'⟩, hext⟩, hlost⟩ := hfacts
  simp only [taken_iff]
  exact ⟨reach_grownState hrun, reach_grownState hrun', ⟨hext.1, hext.2⟩, hlost⟩

end Growing

end CoMoNet
