import CoMoNet.Soft.Node

/-!
# Blocks from the network

A block whose parent is not in the index waits in the orphan maps, and an accepted block
releases those that wait for it.
-/

namespace CoMoNet

open GuardedRun (System)

/-! ## ProcessBlock -/

/-- A node and its orphan maps. -/
structure Receiver where
  node : Node := {}
  mapOrphanBlocks : List (Uint256 × CBlock) := []
  mapOrphanBlocksByPrev : List (Uint256 × CBlock) := []

/-- What a call finds around it. -/
structure BlockCall where
  /-- Bounds the lookups. -/
  fuel : Nat
  /-- Bounds the search for a better tip. -/
  rounds : Nat
  post : PostNode
  /-- `fImporting` or `fReindex`. -/
  busy : Bool
  /-- Where `FindBlockPos` puts a block; `none` when it or `WriteBlockToDisk`
  fails. -/
  blockPos : CBlock → Option CDiskBlockPos
  /-- The block comes from a peer. -/
  pfrom : Bool

/-- `AcceptBlock`, with the disk. -/
def Node.acceptBlockAt (env : Env) (call : BlockCall) (n : Node) (block : CBlock) :
    Except Halt (Bool × Node) :=
  match call.blockPos block with
  | none => (acceptChecks env n.chain block).map fun _ => (false, n)
  | some blockPos => n.acceptBlock env call.fuel call.rounds call.post call.busy block blockPos

/-- `Checkpoints::GetLastCheckpoint`: the highest checkpoint that is indexed. -/
def getLastCheckpoint (env : Env) (s : ChainState) : Option CBlockIndex :=
  env.checkpoints.reverse.findSome? fun checkpoint => s.findBlockIndex env checkpoint.2

/-- The loop of `ComputeMinWork`. -/
def easeTarget (bnLimit : Int) : Nat → Int → Int → Int
  | 0, bnResult, _ => bnResult
  | rounds + 1, bnResult, nTime =>
    if nTime > 0 ∧ bnResult < bnLimit then
      easeTarget bnLimit rounds (bnResult * 4) (nTime - nTargetTimespan * 4)
    else bnResult

/-- `ComputeMinWork`.  So many rounds use up the time. -/
def computeMinWork (env : Env) (nBase : Nat) (nTime : Int) : Nat :=
  if env.testNet ∧ nTime > nTargetSpacing * 2 then getCompact env.proofOfWorkLimit
  else
    let rounds := nTime.toNat / (nTargetTimespan * 4).toNat + 1
    getCompact (min (easeTarget env.proofOfWorkLimit rounds (setCompact nBase) nTime)
      env.proofOfWorkLimit).toNat

/-- `hashBestChain`. -/
def ChainState.hashBestChain (env : Env) (s : ChainState) : Uint256 :=
  match s.pindexBest with
  | none => 0
  | some best => env.blockHash best.block

/-- The extra checks of `ProcessBlock` against the last checkpoint. -/
def checkMinWork (env : Env) (s : ChainState) (block : CBlock) : Verdict :=
  match getLastCheckpoint env s with
  | none => .valid
  | some pcheckpoint =>
    let deltaTime : Int := (block.nTime : Int) - pcheckpoint.block.nTime
    if block.hashPrevBlock = s.hashBestChain env then .valid
    else if deltaTime < 0 then
      .invalid 100 ["ProcessBlock() : block with timestamp before last checkpoint"]
    else if setCompact block.nBits >
        setCompact (computeMinWork env pcheckpoint.block.nBits deltaTime) then
      .invalid 100 ["ProcessBlock() : block with too little proof-of-work"]
    else .valid

namespace Receiver

/-- `mapBlockIndex.count`. -/
def known (env : Env) (r : Receiver) (hash : Uint256) : Bool :=
  (r.node.chain.findBlockIndex env hash).isSome

/-- The checks before the orphans. -/
def checks (env : Env) (r : Receiver) (block : CBlock) : Verdict :=
  if r.known env (env.blockHash block) then
    .invalid 0 ["ProcessBlock() : already have block"]
  else if r.mapOrphanBlocks.any fun entry => entry.1 == env.blockHash block then
    .invalid 0 ["ProcessBlock() : already have block (orphan)"]
  else
    match checkBlock env (r.node.chain.adjustedTime env) block true true with
    | .invalid nDoS errors => .invalid nDoS (errors ++ ["ProcessBlock() : CheckBlock FAILED"])
    | .valid => checkMinWork env r.node.chain block

/-- The blocks that wait for a parent, in the order of the multimap. -/
def waiting (r : Receiver) (hashPrev : Uint256) : List CBlock :=
  (r.mapOrphanBlocksByPrev.filter fun entry => entry.1 == hashPrev).map Prod.snd

/-- Puts a block into the maps. -/
def addOrphan (env : Env) (r : Receiver) (block : CBlock) : Receiver :=
  { r with
      mapOrphanBlocks := r.mapOrphanBlocks ++ [(env.blockHash block, block)]
      mapOrphanBlocksByPrev := r.mapOrphanBlocksByPrev ++ [(block.hashPrevBlock, block)] }

/-- Takes it out of the first. -/
def eraseOrphan (r : Receiver) (hash : Uint256) : Receiver :=
  { r with mapOrphanBlocks := r.mapOrphanBlocks.filter fun entry => entry.1 != hash }

/-- Takes those of a parent out of the second. -/
def erasePrev (r : Receiver) (hashPrev : Uint256) : Receiver :=
  { r with
      mapOrphanBlocksByPrev := r.mapOrphanBlocksByPrev.filter fun entry => entry.1 != hashPrev }

/-- The loop over the blocks waiting for one parent, with the hashes for the queue. -/
def acceptOrphans (env : Env) (call : BlockCall) :
    Receiver → List CBlock → Except Halt (List Uint256 × Receiver)
  | r, [] => .ok ([], r)
  | r, block :: rest =>
    match r.node.acceptBlockAt env call block with
    | .error e => .error e
    | .ok (accepted, node) =>
      match acceptOrphans env call ({ r with node }.eraseOrphan (env.blockHash block)) rest with
      | .error e => .error e
      | .ok (more, r) => .ok (if accepted then env.blockHash block :: more else more, r)

/-- The loop over the queue, one round per hash; each but the first has left the maps. -/
def releaseOrphans (env : Env) (call : BlockCall) :
    Nat → Receiver → List Uint256 → Except Halt Receiver
  | 0, r, _ => .ok r
  | _ + 1, r, [] => .ok r
  | rounds + 1, r, hashPrev :: vWorkQueue =>
    match r.acceptOrphans env call (r.waiting hashPrev) with
    | .error e => .error e
    | .ok (more, r) => releaseOrphans env call rounds (r.erasePrev hashPrev) (vWorkQueue ++ more)

/-- The rounds `releaseOrphans` needs for a work queue with one hash. -/
def releaseRounds (r : Receiver) : Nat := r.mapOrphanBlocksByPrev.length + 1

/-- The parent is not indexed. -/
def orphaned (env : Env) (r : Receiver) (block : CBlock) : Bool :=
  block.hashPrevBlock != 0 && !r.known env block.hashPrevBlock

/-- `ProcessBlock`. -/
def processBlock (env : Env) (call : BlockCall) (r : Receiver) (block : CBlock) :
    Except Halt (Bool × Receiver) :=
  match r.checks env block with
  | .invalid .. => .ok (false, r)
  | .valid =>
    if r.orphaned env block then .ok (true, if call.pfrom then r.addOrphan env block else r)
    else
      match r.node.acceptBlockAt env call block with
      | .error e => .error e
      | .ok (false, node) => .ok (false, { r with node })
      | .ok (true, node) =>
        (releaseOrphans env call r.releaseRounds { r with node } [env.blockHash block]).map
          (true, ·)

end Receiver

/-! ## What enters the index -/

/-- `AcceptBlock` enters a block into the index. -/
def Node.Enters (env : Env) (call : BlockCall) (n : Node) (block : CBlock) : Prop :=
  acceptChecks env n.chain block = .ok .valid ∧ (call.blockPos block).isSome = true

section Entering

variable {env : Env} {call : BlockCall} {n n' : Node} {block : CBlock} {b : Bool}
variable {fuel rounds : Nat}

theorem setSoftCPBestChain_map {s s' : ChainState}
    (h : setSoftCPBestChain env fuel rounds s = .ok s') : s'.mapBlockIndex = s.mapBlockIndex := by
  rcases setSoftCPBestChain_cases h with ⟨rfl, -⟩ | ⟨p, c, -, hcall⟩
  · rfl
  · exact (setBestChain_entries hcall).map

theorem Node.castVote_map {vote : Vote}
    (h : n.castVote env fuel rounds vote = .ok (b, n')) :
    n'.chain.mapBlockIndex = n.chain.mapBlockIndex := by
  obtain ⟨found, -, ⟨-, rfl⟩ | ⟨-, chain, hsoft, rfl⟩⟩ := castVote_cases h
  · rfl
  · have hchain := setSoftCPBestChain_map hsoft
    exact hchain

theorem Node.clearUnchecked_map (n : Node) :
    (n.clearUnchecked env).chain.mapBlockIndex = n.chain.mapBlockIndex := by
  rw [clearUnchecked]
  split <;> rfl

theorem Node.newBlockAccepted_map {post : PostNode} {busy : Bool}
    (h : n.newBlockAccepted env fuel rounds post busy = .ok n') :
    n'.chain.mapBlockIndex = n.chain.mapBlockIndex := by
  rw [newBlockAccepted] at h
  split at h
  · cases h
  rename_i chain hsoft
  have hchain := setSoftCPBestChain_map hsoft
  simp only at h
  split at h
  · cases h
  · cases h
    rw [clearUnchecked_map, ← hchain]
  · split at h
    · cases h
    · rename_i hcast
      cases h
      rw [clearUnchecked_map, castVote_map hcast, ← hchain]

/-- An accepted block was entered; an entered one has its entry, accepted or not. -/
theorem Node.acceptBlockAt_cases (h : n.acceptBlockAt env call block = .ok (b, n')) :
    (b = false ∧ ¬n.Enters env call block ∧ n'.chain.mapBlockIndex = n.chain.mapBlockIndex) ∨
      n.Enters env call block ∧ ∃ p : CBlockIndex, p.block = block ∧
        n'.chain.mapBlockIndex = p :: n.chain.mapBlockIndex := by
  rw [acceptBlockAt] at h
  split at h
  · rename_i hpos
    obtain ⟨v, hchecks, h⟩ := Except.map_eq_ok_iff.mp h
    cases h
    refine .inl ⟨rfl, fun henters => ?_, rfl⟩
    rw [Enters, hpos] at henters
    cases henters.2
  · rename_i pos hpos
    rw [acceptBlock] at h
    split at h
    · cases h
    · rename_i nDoS errors hchecks
      cases h
      refine .inl ⟨rfl, fun henters => ?_, rfl⟩
      rw [henters.1] at hchecks
      cases hchecks
    rename_i hchecks
    have hnew : n.chain.findBlockIndex env (env.blockHash block) = none := by
      rw [acceptChecks] at hchecks
      split at hchecks
      · cases hchecks
      · assumption
    have hblock : (newBlockIndex env n.chain block pos).block = block := by
      rw [newBlockIndex]
      split <;> rfl
    have hadd : ∀ {c : Bool} {chain : ChainState},
        addToBlockIndex env call.fuel call.rounds n.chain block pos = .ok (c, chain) →
          chain.mapBlockIndex = newBlockIndex env n.chain block pos :: n.chain.mapBlockIndex := by
      intro c chain hadd
      rw [addToBlockIndex, hnew] at hadd
      exact (callFrame_entries.connectBestBlock hadd).map
    refine .inr ⟨⟨hchecks, by rw [hpos]; rfl⟩, newBlockIndex env n.chain block pos, hblock, ?_⟩
    split at h
    · cases h
    · rename_i chain hcall
      cases h
      exact hadd hcall
    · rename_i chain hcall
      obtain ⟨n₁, haccepted, h⟩ := Except.map_eq_ok_iff.mp h
      cases h
      exact (newBlockAccepted_map haccepted).trans (hadd hcall)

end Entering

end CoMoNet
