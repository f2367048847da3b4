import CoMoNet.Soft.Quorum
import CoMoNet.Chain.Switched

/-!
# A node with its votes

After every accepted block `newBlockAccepted` moves the chain to the last soft
checkpoint and may sign a vote, and a vote that decides moves the chain too. A run of a
node is one of `voteSystem` (`Node.reach_votes`) and of `callSystem`
(`Node.reach_calls`).
-/

namespace CoMoNet

open GuardedRun (System)

/-- A node: its chain, with `lastSoftCP`, and the other globals of the votes. -/
structure Node where
  chain : ChainState := {}
  lastSoftCPSigs : CPSigMap := ∅
  nextCandidates : AList fun _ : Checkpoint => CPSigMap := ∅
  uncheckedCandidates : AList fun _ : Checkpoint => CPSigMap := ∅
  /-- The votes `NewBlockAccepted` has signed so far; no code reads it. -/
  signed : List Vote := []

namespace Node

/-- The votes of a node. -/
def soft (n : Node) : SoftState :=
  ⟨n.chain.lastSoftCP, n.lastSoftCPSigs, n.nextCandidates, n.uncheckedCandidates⟩

/-- Sets them. -/
def setSoft (n : Node) (soft : SoftState) : Node :=
  { n with
      chain := { n.chain with lastSoftCP := soft.lastSoftCP }
      lastSoftCPSigs := soft.lastSoftCPSigs
      nextCandidates := soft.nextCandidates
      uncheckedCandidates := soft.uncheckedCandidates }

@[simp] theorem soft_setSoft (n : Node) (soft : SoftState) : (n.setSoft soft).soft = soft := rfl

/-- `CastVoteSoftCheckpoint` on the votes, with the transaction found for the user. -/
def castWith (env : Env) (n : Node) (found : Option CTransaction) (vote : Vote) : Cast :=
  castVoteSoftCheckpoint env n.chain.nBestHeight found n.soft vote

/-- `LastSoftCPUpdated`, after a vote. -/
def afterCast (env : Env) (fuel rounds : Nat) (n : Node) (cast : Cast) :
    Except Halt (Bool × Node) :=
  if cast.updated then
    match setSoftCPBestChain env fuel rounds (n.setSoft cast.soft).chain with
    | .error e => .error e
    | .ok chain => .ok (cast.relay, { n.setSoft cast.soft with chain })
  else .ok (cast.relay, n.setSoft cast.soft)

/-- `CastVoteSoftCheckpoint`, with its lookup and `LastSoftCPUpdated`. -/
def castVote (env : Env) (fuel rounds : Nat) (n : Node) (vote : Vote) :
    Except Halt (Bool × Node) :=
  match getTransaction env fuel n.chain vote.username (-1) with
  | .error e => .error e
  | .ok found => n.afterCast env fuel rounds (n.castWith env (found.map Prod.fst) vote)

/-- `FindBlockByHeight`. -/
def findBlockByHeight (n : Node) (nHeight : Nat) : Option CBlockIndex :=
  n.chain.vBlockIndexByHeight.getD nHeight none

/-- The vote of `NewBlockAccepted`: the first voter of the wallet signs the block six below the
tip. `busy` is `fImporting` or `fReindex`. -/
def ownVote (env : Env) (post : PostNode) (busy : Bool) (n : Node) : Except Halt (Option Vote) :=
  if n.chain.nBestHeight % softCheckpointPeriod ≠ 0 ∨
      n.chain.nBestHeight ≤ getHighestCheckpoint env ∨
      n.chain.nBestHeight < n.chain.lastSoftCP.1 + softCheckpointPeriod ∨ busy then .ok none
  else
    match post.wallet.mapKeyMetadata.find? fun item => isAllowedVoter item.2.username with
    | none => .ok none
    | some item =>
      let height := n.chain.nBestHeight - softCheckpointPeriod
      match n.findBlockByHeight height.toNat with
      | none => .error .assertion
      | some pblockindex =>
        let cpPair : Checkpoint := (height.toNat, env.blockHash pblockindex.block)
        let sign := createSignature env post (cpToString cpPair) item.2.username
        .ok (if sign = [] then none else some ⟨height, cpPair.2, item.2.username, sign⟩)

/-- The end of `NewBlockAccepted`: pending unchecked votes are dropped. -/
def clearUnchecked (env : Env) (n : Node) : Node :=
  if n.chain.nBestHeight > getHighestCheckpoint env then { n with uncheckedCandidates := ∅ } else n

/-- `NewBlockAccepted`. -/
def newBlockAccepted (env : Env) (fuel rounds : Nat) (post : PostNode) (busy : Bool) (n : Node) :
    Except Halt Node :=
  match setSoftCPBestChain env fuel rounds n.chain with
  | .error e => .error e
  | .ok chain =>
    let n := { n with chain }
    match n.ownVote env post busy with
    | .error e => .error e
    | .ok none => .ok (n.clearUnchecked env)
    | .ok (some vote) =>
      match castVote env fuel rounds { n with signed := vote :: n.signed } vote with
      | .error e => .error e
      | .ok (_, n) => .ok (n.clearUnchecked env)

/-- `AcceptBlock`, with the votes. -/
def acceptBlock (env : Env) (fuel rounds : Nat) (post : PostNode) (busy : Bool) (n : Node)
    (block : CBlock) (blockPos : CDiskBlockPos) : Except Halt (Bool × Node) :=
  match acceptChecks env n.chain block with
  | .error e => .error e
  | .ok (.invalid ..) => .ok (false, n)
  | .ok .valid =>
    match addToBlockIndex env fuel rounds n.chain block blockPos with
    | .error e => .error e
    | .ok (false, chain) => .ok (false, { n with chain })
    | .ok (true, chain) =>
      (newBlockAccepted env fuel rounds post busy { n with chain }).map (true, ·)

end Node

/-! ## The system -/

/-- What can happen to a node. -/
inductive NodeLabel where
  /-- A block arrives.  The wallet and the mode may be others at each arrival. -/
  | block (post : PostNode) (busy : Bool) (block : CBlock) (pos : CDiskBlockPos)
  | vote (vote : Vote)
  | clock (now : Int)

/-- The step relation.  A block that is not accepted changes nothing. -/
def NodeStep (env : Env) (n : Node) : NodeLabel → Node → Prop
  | .block post busy block pos, n' =>
    Accepts env n.chain block pos ∧
      ∃ fuel rounds b, n.acceptBlock env fuel rounds post busy block pos = .ok (b, n')
  | .vote vote, n' => ∃ fuel rounds relay, n.castVote env fuel rounds vote = .ok (relay, n')
  | .clock now, n' => n' = { n with chain := { n.chain with clock := now } }

/-- A node. -/
def nodeSystem (env : Env) : System Node NodeLabel where
  init n := n = {}
  step := NodeStep env

/-- No condition. -/
def anyNode (_ : Node) (_ : NodeLabel) : Prop := True

/-- `SetSoftCPBestChain` calls `SetBestChain` with a block. -/
structure SoftCalls (env : Env) (s : ChainState) (p : CBlockIndex) : Prop where
  enabled : env.softCheckpoints = true
  isSet : s.lastSoftCP.1 ≠ 0
  found : s.findBlockIndex env s.lastSoftCP.2 = some p
  out : s.isInMainChain p = false
  connected : p.ancestors.any s.isInMainChain = true

/-! ## The chain leaves the entries, the checkpoint and the clock alone -/

/-- The entries of the block index, the soft checkpoint and the clock are the same. -/
structure SameEntries (s s' : ChainState) : Prop where
  map : s'.mapBlockIndex = s.mapBlockIndex
  soft : s'.lastSoftCP = s.lastSoftCP
  clock : s'.clock = s.clock

section Frame

variable {env : Env} {fuel rounds : Nat} {s s' s'' : ChainState} {p : CBlockIndex} {b : Bool}

theorem SameEntries.refl (s : ChainState) : SameEntries s s := ⟨rfl, rfl, rfl⟩

theorem SameEntries.trans (h : SameEntries s s') (h' : SameEntries s' s'') : SameEntries s s'' :=
  ⟨h'.map.trans h.map, h'.soft.trans h.soft, h'.clock.trans h.clock⟩

/-- A call leaves the entries and the clock. -/
theorem callFrame_entries : CallFrame SameEntries where
  refl := SameEntries.refl
  trans := SameEntries.trans
  index := by
    rintro s _ ⟨idx, rfl⟩
    exact ⟨rfl, rfl, rfl⟩
  undo s p := ⟨(sameChain_writeUndo s p p.block).map, (writeUndo_status s p).1.soft,
    (sameChain_writeUndo s p p.block).clock⟩
  mark _ _ := ⟨rfl, rfl, rfl⟩
  invalid _ _ := ⟨rfl, rfl, rfl⟩
  work _ _ := ⟨rfl, rfl, rfl⟩
  switch _ _ _ _ _ := ⟨rfl, rfl, rfl⟩

theorem setBestChain_entries (h : setBestChain env fuel rounds s p = .ok (b, s')) :
    SameEntries s s' :=
  callFrame_entries.setBestChain h

theorem setBestChain_soft (h : setBestChain env fuel rounds s p = .ok (b, s')) :
    s'.lastSoftCP = s.lastSoftCP :=
  (setBestChain_entries h).soft

/-- Entering a block leaves the checkpoint and the clock. -/
theorem addToBlockIndex_frame {block : CBlock} {pos : CDiskBlockPos}
    (h : addToBlockIndex env fuel rounds s block pos = .ok (b, s')) :
    s'.lastSoftCP = s.lastSoftCP ∧ s'.clock = s.clock := by
  rw [addToBlockIndex] at h
  split at h
  · cases h
    exact ⟨rfl, rfl⟩
  · have hinsert := callFrame_entries.connectBestBlock h
    exact ⟨hinsert.soft, hinsert.clock⟩

/-- What `SetSoftCPBestChain` does. -/
theorem setSoftCPBestChain_cases (h : setSoftCPBestChain env fuel rounds s = .ok s') :
    (s' = s ∧ ∀ p, ¬SoftCalls env s p) ∨
      ∃ p b, SoftCalls env s p ∧ setBestChain env fuel rounds s p = .ok (b, s') := by
  rw [setSoftCPBestChain] at h
  split at h
  · rename_i hoff
    cases h
    refine .inl ⟨rfl, fun p hcalls => ?_⟩
    rw [Bool.or_eq_true, Bool.not_eq_true', beq_iff_eq] at hoff
    rcases hoff with hoff | hoff
    · rw [hcalls.enabled] at hoff
      cases hoff
    · exact hcalls.isSet hoff
  rename_i hon
  rw [Bool.or_eq_true, not_or, Bool.not_eq_true', Bool.not_eq_false, beq_iff_eq] at hon
  split at h
  · rename_i hnone
    cases h
    refine .inl ⟨rfl, fun p hcalls => ?_⟩
    rw [hcalls.found] at hnone
    cases hnone
  rename_i q hq
  split at h
  · rename_i hstay
    cases h
    refine .inl ⟨rfl, fun p hcalls => ?_⟩
    obtain rfl : q = p := Option.some.inj (hq.symm.trans hcalls.found)
    rw [hcalls.out, hcalls.connected] at hstay
    cases hstay
  · rename_i hmove
    rw [Bool.or_eq_true, not_or, Bool.not_eq_true, Bool.not_eq_true', Bool.not_eq_false] at hmove
    obtain ⟨r, hcall, h⟩ := Except.map_eq_ok_iff.mp h
    subst h
    exact .inr ⟨q, r.1, ⟨hon.1, hon.2, hq, hmove.1, hmove.2⟩, hcall⟩

theorem setSoftCPBestChain_stay (h : ∀ p, ¬SoftCalls env s p) :
    setSoftCPBestChain env fuel rounds s = .ok s := by
  rw [setSoftCPBestChain]
  split
  · rfl
  rename_i hon
  rw [Bool.or_eq_true, not_or, Bool.not_eq_true', Bool.not_eq_false, beq_iff_eq] at hon
  split
  · rfl
  rename_i q hq
  split
  · rfl
  rename_i hmove
  rw [Bool.or_eq_true, not_or, Bool.not_eq_true, Bool.not_eq_true', Bool.not_eq_false] at hmove
  exact absurd ⟨hon.1, hon.2, hq, hmove.1, hmove.2⟩ (h q)

theorem setSoftCPBestChain_soft (h : setSoftCPBestChain env fuel rounds s = .ok s') :
    s'.lastSoftCP = s.lastSoftCP := by
  rcases setSoftCPBestChain_cases h with ⟨rfl, -⟩ | ⟨p, b, -, hcall⟩
  · rfl
  · exact setBestChain_soft hcall

end Frame

/-! ## What a step of a node does -/

namespace Node

variable {env : Env} {fuel rounds : Nat} {post : PostNode} {busy : Bool} {n n' : Node}
variable {vote : Vote} {relay : Bool}
variable {p : CBlockIndex}

theorem castVote_cases (h : n.castVote env fuel rounds vote = .ok (relay, n')) :
    ∃ found, getTransaction env fuel n.chain vote.username (-1) = .ok found ∧
      ((n.castWith env (found.map Prod.fst) vote).updated = false ∧
          n' = n.setSoft (n.castWith env (found.map Prod.fst) vote).soft ∨
        (n.castWith env (found.map Prod.fst) vote).updated = true ∧
          ∃ chain, setSoftCPBestChain env fuel rounds
              (n.setSoft (n.castWith env (found.map Prod.fst) vote).soft).chain = .ok chain ∧
            n' = { n.setSoft (n.castWith env (found.map Prod.fst) vote).soft with chain }) := by
  rw [castVote] at h
  split at h
  · cases h
  rename_i found hfound
  refine ⟨found, hfound, ?_⟩
  rw [afterCast] at h
  split at h
  · rename_i hupdated
    split at h
    · cases h
    · rename_i chain hsoft
      cases h
      exact .inr ⟨hupdated, chain, hsoft, rfl⟩
  · rename_i hupdated
    cases h
    exact .inl ⟨Bool.eq_false_of_not_eq_true hupdated, rfl⟩

/-- What a node votes for: the block of its main chain six below the tip. -/
structure OwnVote (env : Env) (n : Node) (vote : Vote) (p : CBlockIndex) : Prop where
  height : vote.height = n.chain.nBestHeight - softCheckpointPeriod
  above : (getHighestCheckpoint env : Int) < n.chain.nBestHeight
  block : n.findBlockByHeight vote.height.toNat = some p
  hash : vote.hash = env.blockHash p.block
  allowed : isAllowedVoter vote.username = true

/-- An own vote is for a block six below the tip. -/
theorem ownVote_some (h : n.ownVote env post busy = .ok (some vote)) :
    ∃ p, OwnVote env n vote p := by
  rw [ownVote] at h
  split at h
  · cases h
  rename_i hwhen
  split at h
  · cases h
  rename_i item hitem
  simp only at h
  split at h
  · cases h
  rename_i p hp
  rw [Except.ok.injEq] at h
  split at h
  · cases h
  · cases h
    refine ⟨p, rfl, ?_, hp, rfl, ?_⟩
    · simp only [not_or, not_le] at hwhen
      exact hwhen.2.1
    · simpa using List.find?_some hitem

/-- The block is in the main chain. -/
theorem OwnVote.main (own : OwnVote env n vote p)
    (inv : ChainInv env n.chain) :
    n.chain.isInMainChain p = true ∧ (p.nHeight : Int) = vote.height := by
  have hslot : n.chain.vBlockIndexByHeight[vote.height.toNat]? = some (some p) := by
    have hget := own.block
    rw [findBlockByHeight, List.getD_eq_getElem?_getD] at hget
    cases hslot : n.chain.vBlockIndexByHeight[vote.height.toNat]? with
    | none => simp [hslot] at hget
    | some slot =>
      rw [hslot, Option.getD_some] at hget
      rw [hget]
  obtain ⟨hmem, hheight⟩ := (inv.slots _ p).mp hslot
  refine ⟨inv.isInMainChain_iff.mpr hmem, ?_⟩
  have hpos := getHighestCheckpoint_eq env
  have habove := own.above
  have hvote := own.height
  rw [hpos] at habove
  have : (softCheckpointPeriod : Int) = 6 := rfl
  split at habove <;> omega

/-- If its own vote decides, the checkpoint is in the main chain: nothing is called. -/
theorem OwnVote.stay (own : OwnVote env n vote p) (inv : ChainInv env n.chain)
    {found : Option CTransaction} (hupdated : (n.castWith env found vote).updated = true) :
    ∀ q, ¬SoftCalls env (n.setSoft (n.castWith env found vote).soft).chain q := by
  intro q hcalls
  obtain ⟨hmain, hheight⟩ := own.main inv
  have hcp : (n.castWith env found vote).soft.lastSoftCP.2 = vote.hash := by
    have houtcome := castVoteSoftCheckpoint_cases env n.chain.nBestHeight found n.soft vote
    rw [castWith] at hupdated ⊢
    rw [hupdated] at houtcome
    generalize (castVoteSoftCheckpoint env n.chain.nBestHeight found n.soft
      vote).soft = soft' at houtcome
    cases houtcome with
    | wins hvalid hlt hnew hsize => rfl
  have hmem := inv.ancestorsOf_mem p (inv.isInMainChain_iff.mp hmain)
  have hfind := hcalls.found
  change n.chain.mapBlockIndex.find? (fun x => env.blockHash x.block ==
    (n.castWith env found vote).soft.lastSoftCP.2) = some q at hfind
  rw [hcp, own.hash, inv.tree.find_hash hmem, Option.some.injEq] at hfind
  have hout : n.chain.isInMainChain q = false := hcalls.out
  rw [← hfind, hmain] at hout
  cases hout

/-- After its own vote a node does not move the chain. -/
theorem OwnVote.cast (own : OwnVote env n vote p) (inv : ChainInv env n.chain)
    (h : n.castVote env fuel rounds vote = .ok (relay, n')) :
    ∃ cast : Cast, n' = n.setSoft cast.soft := by
  obtain ⟨found, -, hcast⟩ := castVote_cases h
  refine ⟨n.castWith env (found.map Prod.fst) vote, ?_⟩
  rcases hcast with ⟨-, rfl⟩ | ⟨hupdated, chain, hsoft, rfl⟩
  · rfl
  rcases setSoftCPBestChain_cases hsoft with ⟨rfl, -⟩ | ⟨q, b, hcalls, -⟩
  · rfl
  · exact absurd hcalls (own.stay inv hupdated q)

theorem OwnVote.returns (own : OwnVote env n vote p)
    (inv : ChainInv env n.chain) {found : Option (CTransaction × Uint256)}
    (hfound : getTransaction env fuel n.chain vote.username (-1) = .ok found) :
    n.castVote env fuel rounds vote =
      .ok ((n.castWith env (found.map Prod.fst) vote).relay,
        n.setSoft (n.castWith env (found.map Prod.fst) vote).soft) := by
  rw [castVote, hfound]
  simp only [afterCast]
  split
  · rename_i hupdated
    rw [setSoftCPBestChain_stay (own.stay inv hupdated)]
  · rfl

theorem OwnVote.sign (own : OwnVote env n vote p) (signed : List Vote) :
    OwnVote env { n with signed } vote p :=
  ⟨own.height, own.above, own.block, own.hash, own.allowed⟩

/-- What `newBlockAccepted` does: it tries to move the chain, then it votes or
not. -/
theorem newBlockAccepted_cases
    (h : n.newBlockAccepted env fuel rounds post busy = .ok n') :
    ∃ chain, setSoftCPBestChain env fuel rounds n.chain = .ok chain ∧
      (n' = ({ n with chain } : Node).clearUnchecked env ∨
        ∃ vote p relay n₁, OwnVote env { n with chain } vote p ∧
          ({ n with chain, signed := vote :: n.signed } : Node).castVote env fuel rounds vote =
            .ok (relay, n₁) ∧ n' = n₁.clearUnchecked env) := by
  rw [newBlockAccepted] at h
  split at h
  · cases h
  rename_i chain hchain
  refine ⟨chain, hchain, ?_⟩
  simp only at h
  split at h
  · cases h
  · cases h
    exact .inl rfl
  rename_i vote hown
  obtain ⟨p, own⟩ := ownVote_some hown
  split at h
  · cases h
  · rename_i relay n₁ hcast
    cases h
    exact .inr ⟨vote, p, relay, n₁, own, hcast, rfl⟩

theorem clearUnchecked_chain (env : Env) (n : Node) : (n.clearUnchecked env).chain = n.chain := by
  rw [clearUnchecked]
  split <;> rfl

theorem clearUnchecked_signed (env : Env) (n : Node) :
    (n.clearUnchecked env).signed = n.signed := by
  rw [clearUnchecked]
  split <;> rfl

/-- What an arriving block does. -/
theorem acceptBlock_cases {block : CBlock} {pos : CDiskBlockPos} {b : Bool}
    (hacc : acceptChecks env n.chain block = .ok .valid)
    (h : n.acceptBlock env fuel rounds post busy block pos = .ok (b, n')) :
    ∃ chain, addToBlockIndex env fuel rounds n.chain block pos = .ok (b, chain) ∧
      (b = false ∧ n' = { n with chain } ∨
        b = true ∧ ({ n with chain } : Node).newBlockAccepted env fuel rounds post busy =
          .ok n') := by
  rw [acceptBlock, hacc] at h
  simp only at h
  split at h
  · cases h
  · rename_i chain hadd
    cases h
    exact ⟨chain, hadd, .inl ⟨rfl, rfl⟩⟩
  · rename_i chain hadd
    obtain ⟨n₁, hnew, h⟩ := Except.map_eq_ok_iff.mp h
    cases h
    exact ⟨chain, hadd, .inr ⟨rfl, hnew⟩⟩

/-- Without a soft checkpoint and a voter nothing follows the arrival of a block. -/
theorem acceptBlock_quiet {block : CBlock} {pos : CDiskBlockPos} {chain : ChainState}
    (hacc : acceptChecks env n.chain block = .ok .valid)
    (hadd : addToBlockIndex env fuel rounds n.chain block pos = .ok (true, chain))
    (hsoft : chain.lastSoftCP.1 = 0)
    (hwallet : ∀ item ∈ post.wallet.mapKeyMetadata, isAllowedVoter item.2.username = false) :
    n.acceptBlock env fuel rounds post busy block pos =
      .ok (true, ({ n with chain } : Node).clearUnchecked env) := by
  have hmove : setSoftCPBestChain env fuel rounds chain = .ok chain := by
    rw [setSoftCPBestChain, hsoft]
    simp
  have hfind : (post.wallet.mapKeyMetadata.find? fun item => isAllowedVoter item.2.username) =
      none := by
    refine List.find?_eq_none.mpr fun item hitem => ?_
    rw [hwallet item hitem]
    exact Bool.false_ne_true
  have hown : ({ n with chain } : Node).ownVote env post busy = .ok none := by
    rw [ownVote]
    split
    · rfl
    · rw [hfind]
  simp only [acceptBlock, hacc, hadd, newBlockAccepted, hmove, hown, Except.map]

end Node

/-! ## Seen from the chain -/

/-- No condition. -/
def anyCall (_ : ChainState) (_ : CallLabel) : Prop := True

section Calls

variable {env : Env} {fuel rounds : Nat} {s s' : ChainState} {p : CBlockIndex} {b : Bool}
variable {ok : ChainState → CallLabel → Prop}

theorem sameIndex_softCP (s : ChainState) (cp : Checkpoint) :
    SameIndex s { s with lastSoftCP := cp } :=
  ⟨⟨rfl, rfl, rfl, rfl, List.Subset.refl _, rfl⟩, rfl⟩

/-- The calls of a node are steps of `chainSystem`. -/
theorem reachable_of_calls (h : (callSystem env).Reach ok s) : Reachable env s := by
  refine h.invariant ?_ ?_
  · rintro s rfl
    exact .init rfl
  · intro s a s' hs _ hstep
    cases a with
    | accept block pos => exact .step hs trivial (a := .accept block pos) hstep
    | giveUp q =>
      obtain ⟨-, descendants, -, hfound⟩ := hstep
      have hsame := (sameIndex_markFailed descendants s).trans (sameIndex_invalidChainFound hfound)
      exact .step hs trivial (a := .mark) (hsame.step env)
    | setBestChain fuel rounds p =>
      exact .step hs trivial (a := .setBestChain fuel rounds p) hstep
    | softCP cp =>
      obtain rfl := hstep
      exact .step hs trivial (a := .mark) ((sameIndex_softCP s cp).step env)
    | clock now =>
      obtain rfl := hstep
      exact .step hs trivial (a := .mark) (chainStep_clock env s now)

theorem calls_setBestChain (h : (callSystem env).Reach anyCall s) (hp : p ∈ s.mapBlockIndex)
    (hcall : setBestChain env fuel rounds s p = .ok (b, s')) : (callSystem env).Reach anyCall s' :=
  .step h trivial (a := .setBestChain fuel rounds p) ⟨hp, b, hcall⟩

theorem calls_connectBestBlock (h : (callSystem env).Reach anyCall s)
    (hcall : connectBestBlock env fuel rounds s = .ok (b, s')) :
    (callSystem env).Reach anyCall s' := by
  refine (connectBestBlock_rule
    (P := fun t => (callSystem env).Reach anyCall t ∧ t.mapBlockIndex = s.mapBlockIndex)
    ?_ ?_ ⟨h, rfl⟩ hcall).1
  · intro t q descendants t' ⟨ht, hmap⟩ hq hfailed hfound
    have hsame := (sameIndex_markFailed descendants t).trans (sameIndex_invalidChainFound hfound)
    exact ⟨.step ht trivial (a := .giveUp q) ⟨hq, descendants, hfailed, hfound⟩,
      hsame.map.trans hmap⟩
  · intro t₀ q ⟨ht₀, hmap₀⟩ hq p hp rounds t c t' ⟨ht, hmap⟩ hone
    have inv₀ := (reachable_of_calls ht₀).inv
    have hmem : p ∈ t.mapBlockIndex := by
      rw [hmap, ← hmap₀]
      exact inv₀.tree.ancestors_mem (inv₀.cands hq) p hp
    exact ⟨calls_setBestChain ht hmem hone,
      (setBestChain_reachable (reachable_of_calls ht) hmem hone).2.trans hmap⟩

/-- Entering a block is a run of calls. -/
theorem calls_addToBlockIndex {block : CBlock} {pos : CDiskBlockPos}
    (h : (callSystem env).Reach anyCall s) (hacc : Accepts env s block pos)
    (hadd : addToBlockIndex env fuel rounds s block pos = .ok (b, s')) :
    (callSystem env).Reach anyCall s' := by
  rw [addToBlockIndex] at hadd
  split at hadd
  · cases hadd
    exact h
  · exact calls_connectBestBlock (.step h trivial (a := .accept block pos) ⟨hacc, rfl⟩) hadd

theorem calls_setSoftCPBestChain (h : (callSystem env).Reach anyCall s)
    (hsoft : setSoftCPBestChain env fuel rounds s = .ok s') :
    (callSystem env).Reach anyCall s' := by
  rcases setSoftCPBestChain_cases hsoft with ⟨rfl, -⟩ | ⟨p, b, hcalls, hcall⟩
  · exact h
  · exact calls_setBestChain h (findBlockIndex_some hcalls.found).1 hcall

end Calls

namespace Node

variable {env : Env} {fuel rounds : Nat} {n n' : Node} {vote : Vote} {relay : Bool}
variable {ok : Node → NodeLabel → Prop}

theorem calls_castVote (h : (callSystem env).Reach anyCall n.chain)
    (hcast : n.castVote env fuel rounds vote = .ok (relay, n')) :
    (callSystem env).Reach anyCall n'.chain := by
  obtain ⟨found, -, hcast⟩ := castVote_cases hcast
  have hset : ∀ soft, (callSystem env).Reach anyCall (n.setSoft soft).chain := fun soft =>
    .step h trivial (a := .softCP soft.lastSoftCP) rfl
  rcases hcast with ⟨-, rfl⟩ | ⟨-, chain, hsoft, rfl⟩
  · exact hset _
  · exact calls_setSoftCPBestChain (hset _) hsoft

/-- What the calls of a step keep holds in every state of a run. -/
theorem reach_rule {P : Node → Prop} (hinit : P {})
    (hadd : ∀ {n block pos fuel rounds b chain}, P n → Accepts env n.chain block pos →
      addToBlockIndex env fuel rounds n.chain block pos = .ok (b, chain) → P { n with chain })
    (hsoft : ∀ {n fuel rounds chain}, P n →
      setSoftCPBestChain env fuel rounds n.chain = .ok chain → P { n with chain })
    (hsign : ∀ {n votes}, P n → P { n with signed := votes })
    (hcast : ∀ {n fuel rounds vote relay n'}, P n →
      n.castVote env fuel rounds vote = .ok (relay, n') → P n')
    (hclear : ∀ {n}, P n → P (n.clearUnchecked env))
    (hclock : ∀ {n now}, P n → P { n with chain := { n.chain with clock := now } })
    (h : (nodeSystem env).Reach ok n) : P n := by
  refine h.invariant ?_ ?_
  · rintro n rfl
    exact hinit
  · intro n a n' hn _ hstep
    cases a with
    | vote vote =>
      obtain ⟨fuel, rounds, relay, hvote⟩ := hstep
      exact hcast hn hvote
    | block post busy block pos =>
      obtain ⟨hacc, fuel, rounds, b, hblock⟩ := hstep
      obtain ⟨chain, hindex, hrest⟩ := acceptBlock_cases hacc.accepted hblock
      have hchain := hadd hn hacc hindex
      rcases hrest with ⟨-, rfl⟩ | ⟨-, hnew⟩
      · exact hchain
      obtain ⟨chain', hcp, hvote⟩ := newBlockAccepted_cases hnew
      have hchain' := hsoft hchain hcp
      rcases hvote with rfl | ⟨vote, p, relay, n₁, -, hvote, rfl⟩
      · exact hclear hchain'
      · exact hclear (hcast (hsign hchain') hvote)
    | clock now =>
      obtain rfl := hstep
      exact hclock hn

/-- Seen from the chain, a run of a node is a run of calls. -/
theorem reach_calls (h : (nodeSystem env).Reach ok n) :
    (callSystem env).Reach anyCall n.chain := by
  refine reach_rule (P := fun n => (callSystem env).Reach anyCall n.chain) (.init rfl)
    calls_addToBlockIndex calls_setSoftCPBestChain id calls_castVote (fun hn => ?_)
    (fun {_ now} hn => .step hn trivial (a := .clock now) rfl) h
  rw [clearUnchecked_chain]
  exact hn

/-- The chain invariant holds in every run. -/
theorem chainInv (h : (nodeSystem env).Reach ok n) : ChainInv env n.chain :=
  (reachable_of_calls (reach_calls h)).inv

/-! ## Seen from the votes -/

/-- The votes of a node are those of a run of votes. -/
def Votes (env : Env) (n : Node) : Prop :=
  ∃ v, (voteSystem env).Reach anyVote v ∧ v.soft = n.soft

theorem Votes.congr (h : n.Votes env) (hsoft : n'.soft = n.soft) : n'.Votes env := by
  obtain ⟨v, hv, heq⟩ := h
  exact ⟨v, hv, heq.trans hsoft.symm⟩

theorem Votes.chain {chain : ChainState} (h : n.Votes env)
    (hsoft : chain.lastSoftCP = n.chain.lastSoftCP) : ({ n with chain } : Node).Votes env := by
  refine h.congr ?_
  rw [soft, soft, hsoft]

theorem Votes.clearUnchecked (h : n.Votes env) : (n.clearUnchecked env).Votes env := by
  rw [Node.clearUnchecked]
  split
  · obtain ⟨v, hv, heq⟩ := h
    refine ⟨v.next env .clear, .step hv trivial rfl, ?_⟩
    rw [VoteState.next, heq]
    rfl
  · exact h

/-- A vote is cast: what the chain says about its user is set first. -/
theorem Votes.castVote (h : n.Votes env)
    (hcast : n.castVote env fuel rounds vote = .ok (relay, n')) : n'.Votes env := by
  obtain ⟨found, -, hcast⟩ := castVote_cases hcast
  have hset : (n.setSoft (n.castWith env (found.map Prod.fst) vote).soft).Votes env := by
    obtain ⟨v, hv, heq⟩ := h
    have hchain : (voteSystem env).Reach anyVote
        (v.next env (.chain n.chain.nBestHeight fun _ => found.map Prod.fst)) :=
      .step hv trivial rfl
    refine ⟨_, .step hchain trivial (a := .vote vote) rfl, ?_⟩
    simp only [VoteState.next, VoteState.cast, heq, soft_setSoft, castWith]
  rcases hcast with ⟨-, rfl⟩ | ⟨-, chain, hsoft, rfl⟩
  · exact hset
  · exact hset.chain (setSoftCPBestChain_soft hsoft)

/-- Seen from the votes, a run of a node is a run of votes. -/
theorem reach_votes (h : (nodeSystem env).Reach ok n) : n.Votes env :=
  reach_rule (P := fun n => n.Votes env) ⟨{}, .init rfl, rfl⟩
    (fun hn _ hadd => hn.chain (addToBlockIndex_frame hadd).1)
    (fun hn hsoft => hn.chain (setSoftCPBestChain_soft hsoft))
    (fun hn => hn.congr rfl) Votes.castVote Votes.clearUnchecked (fun hn => hn.chain rfl) h

end Node

end CoMoNet
