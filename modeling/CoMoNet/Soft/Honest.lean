import CoMoNet.Soft.Trunk

/-!
# Does an honest voter equivocate?

`NewBlockAccepted` votes for the block six below the tip and keeps no record. A voter
signs one hash per height as long as the blocks voted for stay in the main chain
(`noEquivocation`); a reorganisation of seven blocks makes it sign a second one
(`voter_equivocates`).
-/

namespace CoMoNet

/-- The block a vote is for is in the main chain. -/
def VotedInMain (env : Env) (s : ChainState) (vote : Vote) : Prop :=
  ∃ p, s.isInMainChain p = true ∧ (p.nHeight : Int) = vote.height ∧
    env.blockHash p.block = vote.hash

/-- A step takes no block out of the main chain that the node has voted for. -/
def KeepsVoted (env : Env) (n : Node) (a : NodeLabel) : Prop :=
  ∀ n', NodeStep env n a n' → ∀ vote ∈ n.signed, VotedInMain env n'.chain vote

section Votes

variable {env : Env} {n n' : Node} {a : NodeLabel}

/-- A vote signed in a step is one for a block of the main chain after it. -/
theorem signed_step (inv : (callSystem env).Reach anyCall n.chain) (hstep : NodeStep env n a n') :
    ∀ vote ∈ n'.signed, vote ∈ n.signed ∨ VotedInMain env n'.chain vote := by
  intro v hv
  cases a with
  | vote vote =>
    obtain ⟨fuel, rounds, relay, hcast⟩ := hstep
    obtain ⟨found, -, hcast⟩ := Node.castVote_cases hcast
    rcases hcast with ⟨-, rfl⟩ | ⟨-, chain, -, rfl⟩ <;> exact .inl hv
  | clock now =>
    obtain rfl := hstep
    exact .inl hv
  | block post busy block pos =>
    obtain ⟨hacc, fuel, rounds, b, hblock⟩ := hstep
    obtain ⟨chain, hadd, hrest⟩ := Node.acceptBlock_cases hacc.accepted hblock
    rcases hrest with ⟨-, rfl⟩ | ⟨-, hnew⟩
    · exact .inl hv
    obtain ⟨chain', hsoft, hvote⟩ := Node.newBlockAccepted_cases hnew
    rcases hvote with rfl | ⟨vote, p, relay, n₁, hown, hcast, rfl⟩
    · rw [Node.clearUnchecked_signed] at hv
      exact .inl hv
    have hchain : (callSystem env).Reach anyCall chain' :=
      calls_setSoftCPBestChain (calls_addToBlockIndex inv hacc hadd) hsoft
    have hinv : ChainInv env chain' := (reachable_of_calls hchain).inv
    obtain ⟨cast, rfl⟩ := (hown.sign _).cast hinv hcast
    rw [Node.clearUnchecked_signed] at hv
    rw [Node.clearUnchecked_chain]
    rcases List.mem_cons.mp hv with rfl | hv
    · obtain ⟨hmain, hheight⟩ := hown.main hinv
      exact .inr ⟨p, hmain, hheight, hown.hash.symm⟩
    · exact .inl hv

/-- The blocks voted for are in the main chain. -/
theorem votedInMain_of_reach (h : (nodeSystem env).Reach (KeepsVoted env) n) :
    ∀ vote ∈ n.signed, VotedInMain env n.chain vote := by
  induction h with
  | init hinit =>
    obtain rfl := hinit
    nofun
  | step hn hok hstep ih =>
    intro vote hvote
    rcases signed_step (Node.reach_calls hn) hstep vote hvote with hold | hnew
    · exact hok _ hstep vote hold
    · exact hnew

theorem VotedInMain.hash_eq {s : ChainState} {v w : Vote} (inv : ChainInv env s)
    (hv : VotedInMain env s v) (hw : VotedInMain env s w) (h : v.height = w.height) :
    v.hash = w.hash := by
  obtain ⟨p, hp, hpv, hpash⟩ := hv
  obtain ⟨q, hq, hqw, hqash⟩ := hw
  have hheight : p.nHeight = q.nHeight := by omega
  have hslotp := (inv.slots _ p).mpr ⟨inv.isInMainChain_iff.mp hp, rfl⟩
  have hslotq := (inv.slots _ q).mpr ⟨inv.isInMainChain_iff.mp hq, rfl⟩
  rw [hheight, hslotq, Option.some.injEq, Option.some.injEq] at hslotp
  rw [← hpash, ← hqash, hslotp]

end Votes

/-! ## A node that votes -/

section Signs

variable {n : Node} {s : ChainState} {x p : CBlockIndex} {block : CBlock} {pos : CDiskBlockPos}

/-- The vote for a block. -/
def ownBallot (p : CBlockIndex) : Vote :=
  ballot (p.nHeight, voteNet.blockHash p.block) "mf1"

/-- A node with the key of a voter signs the block six below its tip. -/
theorem ownVote_signs (h : Grown voteNet n.chain x) (hsoft : n.chain.lastSoftCP = (0, 0))
    (hperiod : x.nHeight % 6 = 0) (hhigh : 546 < x.nHeight) (hp : p ∈ x.ancestors)
    (hbelow : p.nHeight + 6 = x.nHeight) :
    n.ownVote voteNet (walletOf (some "mf1")) false = .ok (some (ownBallot p)) := by
  have hbest : n.chain.nBestHeight = x.nHeight := by rw [ChainState.nBestHeight, h.tip]
  have hheight : n.chain.nBestHeight - softCheckpointPeriod = p.nHeight := by
    have : (softCheckpointPeriod : Int) = 6 := rfl
    omega
  have hblock : n.findBlockByHeight p.nHeight = some p := by
    have hslot := (h.search.call.inv.slots p.nHeight p).mpr
      ⟨by rw [h.coinsTip]; exact hp, rfl⟩
    rw [Node.findBlockByHeight, List.getD_eq_getElem?_getD, hslot]
    rfl
  have hwhen : ¬(n.chain.nBestHeight % softCheckpointPeriod ≠ 0 ∨
      n.chain.nBestHeight ≤ getHighestCheckpoint voteNet ∨
      n.chain.nBestHeight < n.chain.lastSoftCP.1 + softCheckpointPeriod ∨ false = true) := by
    have hsix : (softCheckpointPeriod : Int) = 6 := rfl
    have hhard : (getHighestCheckpoint voteNet : Int) = 546 := rfl
    rw [hsoft, hsix, hhard, hbest]
    simp only [not_or, not_not, Bool.false_eq_true, not_false_eq_true, and_true]
    refine ⟨?_, ?_, ?_⟩ <;> omega
  have hvoter : isAllowedVoter (ascii "mf1") = true := by decide
  rw [Node.ownVote, if_neg hwhen]
  simp only [walletOf, Option.toList_some, List.map_cons, List.map_nil, List.find?_cons, hvoter,
    hheight, Int.toNat_natCast, hblock]
  rfl

theorem castWith_first (env : Env) (found : Option CTransaction) (vote : Vote)
    (hnone : n.nextCandidates = ∅) :
    (n.castWith env found vote).soft.lastSoftCP = n.chain.lastSoftCP := by
  have hfew : (n.soft.votesFor vote.cp).keys.length = 0 := by
    have hsoft : n.soft.nextCandidates = ∅ := hnone
    rw [SoftState.votesFor, hsoft]
    rfl
  have houtcome := castVoteSoftCheckpoint_cases env n.chain.nBestHeight found n.soft vote
  rw [Node.castWith]
  generalize castVoteSoftCheckpoint env n.chain.nBestHeight found n.soft vote = cast at houtcome ⊢
  obtain ⟨relay, soft, updated⟩ := cast
  cases houtcome with
  | ignored hcp => exact hcp
  | late => rfl
  | counted => rfl
  | wins hvalid hlt hnew hsize =>
    rw [hfew] at hsize
    exact absurd hsize (by decide)

theorem newBlockAccepted_signs (h : Grown voteNet n.chain x) (steady : Steady x)
    (hsoft : n.chain.lastSoftCP = (0, 0)) (hperiod : x.nHeight % 6 = 0) (hhigh : 546 < x.nHeight)
    (hp : p ∈ x.ancestors) (hbelow : p.nHeight + 6 = x.nHeight) :
    ∃ n', n.newBlockAccepted voteNet 8 8 (walletOf (some "mf1")) false = .ok n' ∧
      n'.signed = ownBallot p :: n.signed ∧ (n.nextCandidates = ∅ → n'.chain = n.chain) := by
  have hmove : setSoftCPBestChain voteNet 8 8 n.chain = .ok n.chain :=
    setSoftCPBestChain_stay fun q hcalls => hcalls.isSet (by rw [hsoft])
  have hown := ownVote_signs h hsoft hperiod hhigh hp hbelow
  obtain ⟨q, own⟩ := Node.ownVote_some hown
  obtain ⟨found, hfound, -⟩ := lookup_voter h.synced h.coinsTip steady
    (show "mf1" ∈ fiveVoters by decide)
  generalize hm : ({ n with signed := ownBallot p :: n.signed } : Node) = m
  have hcast : m.castVote voteNet 8 8 (ownBallot p) =
      .ok ((m.castWith voteNet (found.map Prod.fst) (ownBallot p)).relay,
        m.setSoft (m.castWith voteNet (found.map Prod.fst) (ownBallot p)).soft) := by
    subst hm
    exact (own.sign (ownBallot p :: n.signed)).returns h.search.call.inv hfound
  refine ⟨(m.setSoft (m.castWith voteNet (found.map Prod.fst) (ownBallot p)).soft).clearUnchecked
    voteNet, ?_, ?_, fun hnone => ?_⟩
  · simp only [Node.newBlockAccepted, hmove, hown, hm, hcast]
  · rw [Node.clearUnchecked_signed, ← hm]
    rfl
  · have hlast : (m.castWith voteNet (found.map Prod.fst) (ownBallot p)).soft.lastSoftCP =
        m.chain.lastSoftCP := castWith_first voteNet _ _ (by rw [← hm]; exact hnone)
    rw [Node.clearUnchecked_chain, Node.setSoft, hlast, ← hm]

/-- An arriving block makes it sign. -/
theorem acceptBlock_signs (hacc : Accepts voteNet n.chain block pos)
    (hadd : addToBlockIndex voteNet 8 8 n.chain block pos = .ok (true, s))
    (h : Grown voteNet s x) (steady : Steady x) (hsoft : n.chain.lastSoftCP = (0, 0))
    (hperiod : x.nHeight % 6 = 0) (hhigh : 546 < x.nHeight) (hp : p ∈ x.ancestors)
    (hbelow : p.nHeight + 6 = x.nHeight) :
    ∃ n', n.acceptBlock voteNet 8 8 (walletOf (some "mf1")) false block pos = .ok (true, n') ∧
      n'.signed = ownBallot p :: n.signed ∧ (n.nextCandidates = ∅ → n'.chain = s) := by
  obtain ⟨n', hnew, hrest⟩ := newBlockAccepted_signs (n := { n with chain := s }) h steady
    ((addToBlockIndex_frame hadd).1.trans hsoft) hperiod hhigh hp hbelow
  refine ⟨n', ?_, hrest⟩
  simp only [Node.acceptBlock, hacc.accepted, hadd, hnew, Except.map]

end Signs

/-! ## Two branches -/

/-- An easy block on the trunk. -/
def easyTip (k : Nat) : CBlockIndex := plainIndex (trunk k) true (k + 2)

/-- A branch from block `k` of the trunk on, arriving after the seven blocks there. -/
def sideChain (k : Nat) : Nat → CBlockIndex
  | 0 => trunk k
  | m + 1 => plainIndex (sideChain k m) false (k + 9 + m)

/-- A node that has voted for a block and has the tip with little work above
it. -/
structure VotedAt (ok : Node → NodeLabel → Prop) (k m : Nat) (n : Node) : Prop where
  reach : (nodeSystem voteNet).Reach ok n
  grown : Grown voteNet n.chain (easyTip (k + 6))
  soft : n.chain.lastSoftCP = (0, 0)
  signed : n.signed = [ownBallot (trunk (k + 1))]
  fits : Fits n.chain (sideChain k m) (k + 9 + m)
  parent : trunk (k + 6) ∈ n.chain.mapBlockIndex

section Runs

variable {ok : Node → NodeLabel → Prop} {n : Node} {k m : Nat}

theorem easyTip_nHeight (k : Nat) : (easyTip k).nHeight = k + 2 := by
  show (trunk k).nHeight + 1 = k + 2
  rw [trunk_nHeight]

theorem sideChain_nHeight (k m : Nat) : (sideChain k m).nHeight = k + 1 + m := by
  induction m with
  | zero => exact trunk_nHeight k
  | succ m ih =>
    show (sideChain k m).nHeight + 1 = _
    rw [ih]
    rfl

theorem sideChain_mem_ancestors (k m d : Nat) :
    sideChain k m ∈ (sideChain k (m + d)).ancestors := by
  induction d with
  | zero => exact CBlockIndex.self_mem_ancestors _
  | succ d ih => exact List.mem_cons_of_mem _ ih

theorem easyTip_work (h : k ≤ 2000) : (easyTip k).nChainWork = (k + 2) * normalWork + 2 := by
  rw [easyTip, plainIndex, spamIndex_work (trunk_work_small h), trunk_work k h]
  rfl

theorem sideChain_work (h : k ≤ 1900) (hm : m ≤ 8) :
    (sideChain k m).nChainWork = (k + 2 + m) * normalWork := by
  induction m with
  | zero => exact trunk_work k (by omega)
  | succ m ih =>
    have ih := ih (by omega)
    have hsmall : (sideChain k m).nChainWork < 2 ^ 200 := by
      rw [ih, normalWork]
      omega
    rw [sideChain, plainIndex, spamIndex_work hsmall, ih, ← Nat.add_assoc, Nat.add_mul _ 1,
      Nat.one_mul]
    rfl

theorem steady_sideChain (h : k ≤ 1900) (hm : m ≤ 8) : Steady (sideChain k m) := by
  induction m with
  | zero => exact steady_trunk (by omega)
  | succ m ih =>
    refine (ih (by omega)).next false (k + 9 + m) ?_
    rw [sideChain_nHeight]
    omega

theorem voted_start (hok : ∀ n a, n.signed = [] → ok n a) (hk : k < 1890)
    (hperiod : (k + 2) % 6 = 0) (hhigh : 546 < k + 2) : ∃ n, VotedAt ok k 0 n := by
  obtain ⟨s, hs⟩ := trunk_reached hok (k + 6) (by omega)
  have hfits := hs.fits (show k + 6 < 1900 by omega)
  have hheavy : (trunk (k + 6)).nChainWork < (easyTip (k + 6)).nChainWork := by
    rw [trunk_work _ (by omega), easyTip_work (by omega)]
    omega
  obtain ⟨s₁, hadd, hgrown, hmap⟩ := hfits.heavier hs.grown hfits.steady hheavy (Nat.le_succ _)
  have hacc := hfits.accepts hs.grown.search.call.inv.tree true
  have hsoft₁ : s₁.lastSoftCP = (0, 0) := (addToBlockIndex_frame hadd).1.trans hs.soft
  obtain ⟨n, hblock, hsigned, hchain⟩ :=
    acceptBlock_signs (n := { chain := s }) (p := trunk (k + 1))
    hacc hadd hgrown (hfits.steady.next true _ hfits.low) hs.soft
    (by rw [← easyTip, easyTip_nHeight]; omega) (by rw [← easyTip, easyTip_nHeight]; omega)
    (List.mem_cons_of_mem _ (trunk_mem_ancestors (k + 1) 5))
    (by rw [← easyTip, easyTip_nHeight, trunk_nHeight])
  obtain rfl : n.chain = s₁ := hchain rfl
  have hindexed : ∀ j d, j + d = k + 6 → trunk j ∈ n.chain.mapBlockIndex := by
    intro j d hjd
    rw [hmap, hs.map, ← hjd]
    exact List.mem_cons_of_mem _ (trunk_mem_ancestors j d)
  refine ⟨n, .step hs.reach (a := .block _ false _ _) (hok _ _ rfl) ⟨hacc, 8, 8, true, hblock⟩,
    hgrown, hsoft₁, hsigned, ?_, hindexed _ 0 rfl⟩
  refine ⟨?_, by omega, hindexed k 6 rfl, steady_trunk (by omega), ?_,
    (addToBlockIndex_frame hadd).2.trans hs.clock, fun hat => ?_⟩
  · rw [hmap]
    exact hfits.named.cons rfl rfl
  · show (trunk k).nHeight < 2000
    rw [trunk_nHeight]
    omega
  · have hat' : (trunk k).nHeight + 1 = 546 := hat
    rw [trunk_nHeight] at hat'
    omega

/-- A block of the side chain arrives that is not the tip yet. -/
theorem VotedAt.next (h : VotedAt anyNode k m n) (hk : k < 1890) (hhigh : 546 < k + 2)
    (hm : m < 6) : ∃ n', VotedAt anyNode k (m + 1) n' := by
  have hlight : (sideChain k (m + 1)).nChainWork ≤ (easyTip (k + 6)).nChainWork := by
    rw [sideChain_work (by omega) (by omega), easyTip_work (by omega), normalWork]
    omega
  obtain ⟨hadd, hgrown⟩ := h.fits.lighter h.grown hlight
  have hacc := h.fits.accepts h.grown.search.call.inv.tree false
  have hblock : n.acceptBlock voteNet 8 8 (walletOf none) false (sideChain k (m + 1)).block
      (sideChain k (m + 1)).pos = _ :=
    Node.acceptBlock_quiet hacc.accepted hadd (by rw [(addToBlockIndex_frame hadd).1, h.soft])
      fun _ hitem => absurd hitem List.not_mem_nil
  refine ⟨_, .step h.reach (a := .block (walletOf none) false _ _) trivial
    ⟨hacc, 8, 8, true, hblock⟩, ?_, ?_, ?_, ?_, ?_⟩
  · rw [Node.clearUnchecked_chain]
    exact hgrown
  · rw [Node.clearUnchecked_chain]
    exact h.soft
  · rw [Node.clearUnchecked_signed]
    exact h.signed
  · rw [Node.clearUnchecked_chain]
    have hheight := sideChain_nHeight k (m + 1)
    exact ⟨h.fits.named.cons rfl rfl, by omega, List.mem_cons_self,
      steady_sideChain (by omega) (by omega), by omega, h.fits.clock, fun hat => by omega⟩
  · rw [Node.clearUnchecked_chain]
    exact List.mem_cons_of_mem _ h.parent

theorem voted_side (hk : k < 1890) (hperiod : (k + 2) % 6 = 0) (hhigh : 546 < k + 2) :
    ∀ m, m ≤ 6 → ∃ n, VotedAt anyNode k m n
  | 0, _ => voted_start (fun _ _ _ => trivial) hk hperiod hhigh
  | m + 1, hm => by
    obtain ⟨n, hn⟩ := voted_side hk hperiod hhigh m (by omega)
    exact hn.next hk hhigh (by omega)

theorem VotedAt.again (h : VotedAt anyNode k 6 n) (hk : k < 1890) (hperiod : (k + 2) % 6 = 0)
    (hhigh : 546 < k + 2) :
    ∃ n v w, (nodeSystem voteNet).Reach anyNode n ∧ v ∈ n.signed ∧ w ∈ n.signed ∧
      v.username = w.username ∧ v.height = w.height ∧ v.hash ≠ w.hash := by
  have hheavy : (easyTip (k + 6)).nChainWork < (sideChain k 7).nChainWork := by
    rw [sideChain_work (by omega) (by omega), easyTip_work (by omega), normalWork]
    omega
  have hheight := sideChain_nHeight k 7
  obtain ⟨s, hadd, hgrown, -⟩ := h.fits.heavier h.grown
    ((steady_trunk (show k + 6 < 2000 by omega)).next true _ (by rw [trunk_nHeight]; omega)) hheavy
    (by rw [easyTip_nHeight, sideChain_nHeight])
  have hacc := h.fits.accepts h.grown.search.call.inv.tree false
  obtain ⟨n', hblock, hsigned, -⟩ := acceptBlock_signs (p := sideChain k 1) hacc hadd hgrown
    (steady_sideChain (show k ≤ 1900 by omega) (show 7 ≤ 8 by decide)) h.soft
    (show (sideChain k 7).nHeight % 6 = 0 by omega) (show 546 < (sideChain k 7).nHeight by omega)
    (sideChain_mem_ancestors k 1 6)
    (show _ = (sideChain k 7).nHeight by rw [hheight, sideChain_nHeight])
  rw [h.signed] at hsigned
  refine ⟨n', ownBallot (sideChain k 1), ownBallot (trunk (k + 1)),
    .step h.reach (a := .block _ false _ _) trivial ⟨hacc, 8, 8, true, hblock⟩, ?_, ?_, rfl, ?_, ?_⟩
  · rw [hsigned]
    exact List.mem_cons_self
  · rw [hsigned]
    exact List.mem_cons_of_mem _ List.mem_cons_self
  · show ((sideChain k 1).nHeight : Int) = (trunk (k + 1)).nHeight
    rw [sideChain_nHeight, trunk_nHeight]
  · have hside := (steady_sideChain (show k ≤ 1900 by omega) (show 1 ≤ 8 by decide)).height
    have htrunk := (steady_trunk (show k + 1 < 2000 by omega)).height
    rw [sideChain_nHeight] at hside
    rw [trunk_nHeight] at htrunk
    show voteNet.blockHash (sideChain k 1).block ≠ voteNet.blockHash (trunk (k + 1)).block
    rw [voteNet_blockHash, voteNet_blockHash, hside, htrunk, if_neg (by omega), if_neg (by omega)]
    exact Nat.ne_of_gt (show k + 2 < k + 9 by omega)

/-- The tip stays or is the new block. -/
theorem arrival_tip {env : Env} {n' : Node} {best x : CBlockIndex} {post : PostNode} {busy : Bool}
    {block : CBlock} {pos : CDiskBlockPos} (hreach : (nodeSystem env).Reach ok n)
    (h : Grown env n.chain best) (hsoft : n.chain.lastSoftCP = (0, 0))
    (hx : newBlockIndex env n.chain block pos = x)
    (hstep : NodeStep env n (.block post busy block pos) n') :
    n'.chain.coinsTip = some best ∨ n'.chain.coinsTip = some x := by
  obtain ⟨hacc, fuel, rounds, b, hblock⟩ := hstep
  obtain ⟨chain, hadd, hrest⟩ := Node.acceptBlock_cases hacc.accepted hblock
  have htip : chain.coinsTip = some best ∨ chain.coinsTip = some x :=
    h.addToBlockIndex_tip hacc hx hadd
  rcases hrest with ⟨-, rfl⟩ | ⟨-, hnew⟩
  · exact htip
  obtain ⟨chain', hmove, hvote⟩ := Node.newBlockAccepted_cases hnew
  have hsoft' : chain.lastSoftCP = (0, 0) := (addToBlockIndex_frame hadd).1.trans hsoft
  obtain rfl : chain' = chain := by
    rcases setSoftCPBestChain_cases hmove with ⟨rfl, -⟩ | ⟨p, b, hcalls, -⟩
    · rfl
    · exact absurd (by rw [hsoft']) hcalls.isSet
  rcases hvote with rfl | ⟨vote, p, relay, n₁, hown, hcast, rfl⟩
  · rw [Node.clearUnchecked_chain]
    exact htip
  · have hinv := (reachable_of_calls
        (calls_addToBlockIndex (Node.reach_calls hreach) hacc hadd)).inv
    obtain ⟨cast, rfl⟩ := (hown.sign _).cast hinv hcast
    rw [Node.clearUnchecked_chain]
    exact htip

/-- A harder tip replaces the easy one, and the node signs the same block again. -/
theorem VotedAt.resigned (h : VotedAt (KeepsVoted voteNet) k 0 n) (hk : k < 1890)
    (hperiod : (k + 2) % 6 = 0) (hhigh : 546 < k + 2) :
    ∃ n' v w, (nodeSystem voteNet).Reach (KeepsVoted voteNet) n' ∧ n'.signed = [v, w] ∧
      v.username = w.username ∧ v.height = w.height := by
  have hlow : (trunk (k + 6)).nHeight < 2000 := by
    rw [trunk_nHeight]
    omega
  have hsteady : Steady (trunk (k + 6)) := steady_trunk (by omega)
  have hfits : Fits n.chain (trunk (k + 6)) (k + 9) := by
    refine ⟨h.fits.named, by omega, h.parent, hsteady, hlow, h.fits.clock, fun hat => ?_⟩
    rw [trunk_nHeight] at hat
    omega
  have tree := h.grown.search.call.inv.tree
  have hacc := hfits.accepts tree false
  have hx : newBlockIndex voteNet n.chain (plainIndex (trunk (k + 6)) false (k + 9)).block
      (plainIndex (trunk (k + 6)) false (k + 9)).pos = plainIndex (trunk (k + 6)) false (k + 9) :=
    newBlockIndex_spamBlock tree h.parent
  have hheavy : (easyTip (k + 6)).nChainWork <
      (plainIndex (trunk (k + 6)) false (k + 9)).nChainWork := by
    rw [easyTip_work (by omega), plainIndex, spamIndex_work (trunk_work_small (by omega)),
      trunk_work _ (by omega)]
    exact Nat.add_lt_add_left (by decide) _
  have hheight : (plainIndex (trunk (k + 6)) false (k + 9)).nHeight = k + 8 := by
    show (trunk (k + 6)).nHeight + 1 = k + 8
    rw [trunk_nHeight]
  obtain ⟨s, hadd, hgrown, -⟩ := hfits.heavier h.grown (hsteady.next true _ hlow) hheavy
    (by rw [easyTip_nHeight, trunk_nHeight])
  have hmem : trunk (k + 1) ∈ (trunk (k + 6)).ancestors := trunk_mem_ancestors (k + 1) 5
  obtain ⟨n', hblock, hsigned, -⟩ := acceptBlock_signs hacc hadd hgrown
    (hsteady.next false _ hlow) h.soft (by omega) (by omega) (List.mem_cons_of_mem _ hmem)
    (by rw [hheight, trunk_nHeight])
  rw [h.signed] at hsigned
  refine ⟨n', _, _, .step h.reach (a := .block _ false _ _) ?_ ⟨hacc, 8, 8, true, hblock⟩, hsigned,
    rfl, rfl⟩
  intro n₁ hstep vote hvote
  rw [h.signed, List.mem_singleton] at hvote
  subst hvote
  have hany : (nodeSystem voteNet).Reach anyNode n := h.reach.mono fun _ _ _ => trivial
  have hany₁ : (nodeSystem voteNet).Reach anyNode n₁ :=
    .step hany (a := .block (walletOf (some "mf1")) false _ _) trivial hstep
  have hinv := Node.chainInv hany₁
  refine ⟨trunk (k + 1), hinv.isInMainChain_iff.mpr ?_, rfl, rfl⟩
  rcases arrival_tip h.reach h.grown h.soft hx hstep with htip | htip
  · rw [htip]
    exact List.mem_cons_of_mem _ hmem
  · rw [htip]
    exact List.mem_cons_of_mem _ hmem

end Runs

/-! ## The votes of a run -/

/-- While the blocks it has voted for stay in the main chain, a node signs one hash per height. -/
theorem noEquivocation {env : Env} {n : Node} (h : (nodeSystem env).Reach (KeepsVoted env) n) :
    ∀ v ∈ n.signed, ∀ w ∈ n.signed, v.username = w.username → v.height = w.height →
      v.hash = w.hash := by
  intro v hv w hw _ hheight
  exact (votedInMain_of_reach h v hv).hash_eq (Node.chainInv h) (votedInMain_of_reach h w hw)
    hheight

/-- The same block is signed twice. -/
theorem noEquivocation_resigned :
    ∃ n v w, (nodeSystem voteNet).Reach (KeepsVoted voteNet) n ∧ n.signed = [v, w] ∧
      v.username = w.username ∧ v.height = w.height ∧ v.hash = w.hash := by
  obtain ⟨n, hn⟩ : ∃ n, VotedAt (KeepsVoted voteNet) 550 0 n := by
    refine voted_start (fun n a hsigned n' _ vote hvote => ?_) (by decide) (by decide) (by decide)
    rw [hsigned] at hvote
    cases hvote
  obtain ⟨n', v, w, hreach, hsigned, huser, hheight⟩ :=
    hn.resigned (by decide) (by decide) (by decide)
  refine ⟨n', v, w, hreach, hsigned, huser, hheight, noEquivocation hreach v ?_ w ?_ huser hheight⟩
  · rw [hsigned]
    exact List.mem_cons_self
  · rw [hsigned]
    exact List.mem_cons_of_mem _ List.mem_cons_self

/-- The branch of seven blocks makes the node vote twice at a height. -/
theorem voter_equivocates :
    ∃ n v w, (nodeSystem voteNet).Reach anyNode n ∧ v ∈ n.signed ∧ w ∈ n.signed ∧
      v.username = w.username ∧ v.height = w.height ∧ v.hash ≠ w.hash := by
  obtain ⟨n, hn⟩ : ∃ n, VotedAt anyNode 550 6 n :=
    voted_side (by decide) (by decide) (by decide) 6 (by decide)
  exact hn.again (by decide) (by decide) (by decide)

end CoMoNet
