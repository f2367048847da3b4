import CoMoNet.Soft.Trunk

/-!
# Are soft checkpoints enforced?

`Checkpoints::CheckBlock` returns at once when the height is not one of a hard
checkpoint, so a soft one is tested at such heights only. That leaves none on the main
network and 546 on the test network (`softCheckpoint_enforced`).
-/

namespace CoMoNet

/-- Checkpoints are enabled: those of the network and the soft ones. -/
structure Enabled (env : Env) : Prop where
  /-- `Checkpoints::fEnabled`. -/
  hard : env.checkpoints = checkpointData env
  /-- `SoftCheckpoints::fEnabled`. -/
  soft : env.softCheckpoints = true

/-- The height of a hard checkpoint. -/
def IsHardHeight (env : Env) (height : Nat) : Prop := ∃ c ∈ env.checkpoints, c.1 = height

section Enforce

variable {env : Env} {s : ChainState} {n : Node}
variable {ok : Node → NodeLabel → Prop}

/-- At other heights every hash passes. -/
theorem checkpointsCheckBlock_of_not_hard {height : Nat} (h : ¬IsHardHeight env height)
    (hash : Uint256) : checkpointsCheckBlock env s height hash = true := by
  have hfind : (env.checkpoints.find? fun c => c.1 == height) = none := by
    refine List.find?_eq_none.mpr fun c hc heq => h ⟨c, hc, ?_⟩
    exact beq_iff_eq.mp heq
  rw [checkpointsCheckBlock, hfind]

theorem eq_of_checkpointsCheckBlock {hash : Uint256} (henabled : Enabled env)
    (hset : s.lastSoftCP.1 ≠ 0) (hhard : IsHardHeight env s.lastSoftCP.1)
    (h : checkpointsCheckBlock env s s.lastSoftCP.1 hash = true) : hash = s.lastSoftCP.2 := by
  obtain ⟨c, hc, hheight⟩ := hhard
  rw [checkpointsCheckBlock] at h
  split at h
  · rename_i hnone
    have hmiss := List.find?_eq_none.mp hnone c hc
    rw [hheight] at hmiss
    simp at hmiss
  · rw [Bool.and_eq_true] at h
    simpa [henabled.soft, hset] using h.2

/-- What `AcceptBlock` has asked about a block above the genesis block. -/
theorem Accepts.checkpoint {block : CBlock} {pos : CDiskBlockPos} {height : Nat}
    (h : Accepts env s block pos) (hheight : block.nHeight = height) (hpos : height ≠ 0) :
    checkpointsCheckBlock env s height (env.blockHash block) = true := by
  have hacc := h.accepted
  rw [acceptChecks] at hacc
  split at hacc
  · cases hacc
  split at hacc
  · rename_i hgen
    rw [h.genesis hgen] at hheight
    have hzero : (0 : Int) = height := hheight
    omega
  split at hacc
  · cases hacc
  rename_i pindexPrev hprev
  obtain ⟨-, -, hlock, hsame⟩ := checkContext_valid hacc
  obtain rfl : pindexPrev.nHeight + 1 = height := by omega
  exact hlock

/-! ## Where soft checkpoints are -/

/-- Heights of soft checkpoints. -/
theorem lastSoftCP_height (h : (nodeSystem env).Reach ok n)
    (hset : n.chain.lastSoftCP.1 ≠ 0) :
    n.chain.lastSoftCP.1 % softCheckpointPeriod = 0 ∧
      getHighestCheckpoint env ≤ n.chain.lastSoftCP.1 := by
  obtain ⟨v, hv, hsoft⟩ := Node.reach_votes h
  have hcp : v.soft.lastSoftCP = n.chain.lastSoftCP := by rw [hsoft]; rfl
  rw [← hcp] at hset ⊢
  revert hset
  refine hv.invariant (I := fun v => v.soft.lastSoftCP.1 ≠ 0 →
    v.soft.lastSoftCP.1 % softCheckpointPeriod = 0 ∧
      getHighestCheckpoint env ≤ v.soft.lastSoftCP.1) ?_ ?_
  · rintro v rfl hset
    exact absurd rfl hset
  · rintro v a v' ih - rfl
    cases a with
    | chain nBestHeight registered => exact ih
    | clear => exact ih
    | vote vote =>
      have hout := castVoteSoftCheckpoint_cases env v.nBestHeight (v.registered vote.username)
        v.soft vote
      rw [VoteState.next]
      simp only [VoteState.cast]
      generalize castVoteSoftCheckpoint env v.nBestHeight (v.registered vote.username) v.soft
        vote = cast at hout ⊢
      obtain ⟨relay, soft', updated⟩ := cast
      cases hout with
      | ignored hcp hsigs hnext =>
        rw [hcp]
        exact ih
      | late hvalid hcp hnew => exact ih
      | counted hvalid hlt hnew => exact ih
      | wins hvalid hlt hnew hsize =>
        intro _
        have hperiod := hvalid.period
        have hheight := hvalid.height
        rw [softCheckpointPeriod] at hperiod ⊢
        show vote.height.toNat % 6 = 0 ∧ getHighestCheckpoint env ≤ vote.height.toNat
        omega

/-- Of the hard heights only 546 on the test network can be that of a soft checkpoint. -/
theorem isHardHeight_iff (h : (nodeSystem env).Reach ok n)
    (hhard : env.checkpoints = checkpointData env) (hset : n.chain.lastSoftCP.1 ≠ 0) :
    IsHardHeight env n.chain.lastSoftCP.1 ↔
      env.testNet = true ∧ n.chain.lastSoftCP.1 = 546 := by
  obtain ⟨hperiod, hhigh⟩ := lastSoftCP_height h hset
  rw [getHighestCheckpoint_eq] at hhigh
  rw [IsHardHeight, hhard, checkpointData]
  cases htest : env.testNet with
  | true =>
    simp only [if_true, mapCheckpointsTestnet, List.mem_singleton, exists_eq_left, true_and]
    exact eq_comm
  | false =>
    rw [htest, if_neg (by decide)] at hhigh
    simp only [Bool.false_eq_true, if_false, false_and, iff_false]
    rintro ⟨c, hc, hheight⟩
    have hbound : ∀ c ∈ mapCheckpoints, c.1 ≤ 55450 := by decide
    have hle := hbound c hc
    rw [softCheckpointPeriod] at hperiod
    omega

/-- In every run the soft checkpoint is enforced at the heights of hard checkpoints only;
elsewhere the test lets every hash pass. -/
theorem softCheckpoint_enforced (h : (nodeSystem env).Reach anyNode n) (henabled : Enabled env)
    (hset : n.chain.lastSoftCP.1 ≠ 0) :
    ((∀ hash, checkpointsCheckBlock env n.chain n.chain.lastSoftCP.1 hash = true →
        hash = n.chain.lastSoftCP.2) ↔ IsHardHeight env n.chain.lastSoftCP.1) ∧
      (IsHardHeight env n.chain.lastSoftCP.1 ↔
        env.testNet = true ∧ n.chain.lastSoftCP.1 = 546) ∧
      (IsHardHeight env n.chain.lastSoftCP.1 → ∀ block pos, Accepts env n.chain block pos →
        block.nHeight = n.chain.lastSoftCP.1 → env.blockHash block = n.chain.lastSoftCP.2) := by
  refine ⟨⟨fun hall => ?_, fun hhard hash => ?_⟩, isHardHeight_iff h henabled.hard hset,
    fun hhard block pos hacc hheight => ?_⟩
  · by_contra hnot
    have hother := hall (n.chain.lastSoftCP.2 + 1) (checkpointsCheckBlock_of_not_hard hnot _)
    exact absurd hother (Nat.succ_ne_self _)
  · exact eq_of_checkpointsCheckBlock henabled hset hhard
  · exact eq_of_checkpointsCheckBlock henabled hset hhard (hacc.checkpoint hheight hset)

end Enforce

theorem enabled_voteNet : Enabled voteNet := ⟨rfl, rfl⟩

/-- Five votes for the block at the height of the hard checkpoint. -/
theorem softCheckpoint_enforced_546 :
    ∃ n, (nodeSystem voteNet).Reach anyNode n ∧ n.chain.lastSoftCP = (546, checkpointHash) ∧
      ∀ block pos, Accepts voteNet n.chain block pos → block.nHeight = 546 →
        voteNet.blockHash block = checkpointHash := by
  obtain ⟨n, s, hn, hs, hchain⟩ := checkpoint_reached 545 (546, checkpointHash)
    (fun _ _ _ => trivial) (by decide) (by decide +kernel) (by
      intro s hs p hcalls
      have hmem : trunk 545 ∈ s.mapBlockIndex := by
        rw [hs.map]
        exact CBlockIndex.self_mem_ancestors _
      have hhash : voteNet.blockHash (trunk 545).block = checkpointHash := by
        rw [voteNet_blockHash, (steady_trunk (by decide)).height, trunk_nHeight]
        rfl
      have hfound : s.findBlockIndex voteNet checkpointHash = some (trunk 545) := by
        rw [← hhash]
        exact findBlockIndex_prev hs.grown.search.call.inv.tree hmem
      have hp : s.findBlockIndex voteNet checkpointHash = some p := hcalls.found
      rw [hfound, Option.some.injEq] at hp
      have hout : s.isInMainChain p = false := hcalls.out
      rw [← hp, hs.grown.isInMainChain_iff.mpr (CBlockIndex.self_mem_ancestors _)] at hout
      cases hout)
  have hcp : n.chain.lastSoftCP = (546, checkpointHash) := by rw [hchain]
  have hset : n.chain.lastSoftCP.1 ≠ 0 := by
    rw [hcp]
    decide
  obtain ⟨-, hhard, hall⟩ := softCheckpoint_enforced hn enabled_voteNet hset
  rw [hcp] at hhard hall
  exact ⟨n, hn, hcp, hall (hhard.mpr ⟨rfl, rfl⟩)⟩

/-- Five votes for a block at height 552; then another block is accepted there. -/
theorem softCheckpoint_ignored :
    ∃ n block pos, (nodeSystem voteNet).Reach anyNode n ∧ Enabled voteNet ∧
      n.chain.lastSoftCP = (552, 7777) ∧ Accepts voteNet n.chain block pos ∧
      block.nHeight = 552 ∧ voteNet.blockHash block ≠ 7777 := by
  obtain ⟨n, s, hn, hs, hchain⟩ := checkpoint_reached 550 (552, 7777)
    (fun _ _ _ => trivial) (by decide) (by decide +kernel) (by
      intro s hs p hcalls
      have hp : s.findBlockIndex voteNet 7777 = some p := hcalls.found
      obtain ⟨hmem, hhash⟩ := findBlockIndex_some hp
      rw [hs.map] at hmem
      obtain ⟨-, hname⟩ := named_trunk 550 p hmem
      rw [voteNet_blockHash] at hhash
      split at hhash
      · exact absurd hhash (by decide)
      · have hnonce : p.block.nNonce = 7777 := hhash
        omega)
  have hfits := hs.fits (by decide)
  have hfits' : Fits n.chain (trunk 550) 552 := by
    rw [hchain]
    refine ⟨hfits.named, hfits.small, hfits.parent, hfits.steady, hfits.low, hfits.clock,
      fun hat => ?_⟩
    rw [trunk_nHeight] at hat
    cases hat
  have hheight : (plainIndex (trunk 550) false 552).block.nHeight = 552 := by
    show (trunk 550).block.nHeight + 1 = 552
    rw [hfits.steady.height, trunk_nHeight]
    rfl
  refine ⟨n, _, _, hn, enabled_voteNet, by rw [hchain],
    hfits'.accepts (Node.chainInv hn).tree false, hheight, ?_⟩
  rw [voteNet_blockHash, hheight]
  exact (show (552 : Nat) ≠ 7777 by decide)

end CoMoNet
