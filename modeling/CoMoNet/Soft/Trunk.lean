import CoMoNet.Soft.Node
import CoMoNet.Chain.Progress

/-!
# A long chain on the test network

Votes count past the hard checkpoint at 546. Here runs get there: a block with five
voters, then blocks with only a spam message (`trunk_reached`). Nonces follow the order
of arrival, so no two blocks share a hash or place.
-/

namespace CoMoNet

open GuardedRun (System)

/-- The test network with small signatures. -/
def voteNet : Env := { smallTestNet with recoverCompact := signNet.recoverCompact }

/-- The hash of the checkpoint. -/
def checkpointHash : Nat := 0x000000002a936ca763904c3c35fce2f3556c559c0214345d31b1bcebf76acb70

/-! ## The blocks -/

/-- The genesis block. -/
def voteGenesis : CBlockIndex := .root voteNet.genesisBlock (smallPos voteNet.genesisBlock)

/-- A voter registers. -/
def voterTx (nonce : Nat) (username : String) : CTransaction :=
  { userName := CScript.push (ascii username)
    pubKey := CScript.push (2 :: List.replicate 32 (voterKey (ascii username)))
    nNonce := nonce }

/-- The block with the voters. -/
def votersBlock : CBlockIndex :=
  smallIndex voteGenesis
    (smallBlock voteNet.genesisBlock 1 (fiveVoters.mapIdx fun i username =>
      voterTx (11 + i) username))

/-- A spam message. -/
def spamBy (user : String) (nonce : Nat) : CTransaction :=
  { message := CScript.push (ascii "spam"), userName := CScript.push (ascii user), nNonce := nonce }

/-- A block with only a spam message. An easy one comes late, at the lowest difficulty. -/
def spamBlock (user : String) (prev : CBlockIndex) (easy : Bool) (nonce : Nat) : CBlock where
  nVersion := 2
  nHeight := prev.block.nHeight + 1
  hashPrevBlock := voteNet.blockHash prev.block
  hashMerkleRoot := nonce
  nTime := prev.block.nTime + if easy then 1201 else 600
  nBits := if easy then 0x207fffff else 0x1f02ffff
  nNonce := nonce
  vtx := [spamBy user nonce]

/-- Its entry. -/
def spamIndex (user : String) (prev : CBlockIndex) (easy : Bool) (nonce : Nat) : CBlockIndex :=
  smallIndex prev (spamBlock user prev easy nonce)

/-- A block by nobody. -/
def plainIndex (prev : CBlockIndex) (easy : Bool) (nonce : Nat) : CBlockIndex :=
  spamIndex "nobody" prev easy nonce

/-- The chain. -/
def trunk : Nat → CBlockIndex
  | 0 => votersBlock
  | k + 1 => plainIndex (trunk k) false (k + 2)

theorem plainIndex_isPlain (prev : CBlockIndex) (easy : Bool) (nonce : Nat) :
    (plainIndex prev easy nonce).block.isPlain = true :=
  rfl

theorem trunk_nHeight (k : Nat) : (trunk k).nHeight = k + 1 := by
  induction k with
  | zero => rfl
  | succ k ih =>
    show (trunk k).nHeight + 1 = k + 1 + 1
    rw [ih]

/-- The work of a block. -/
def normalWork : Nat := 21845

/-- The work of a chain with one more block. -/
theorem spamIndex_work {user : String} {prev : CBlockIndex} {easy : Bool} {nonce : Nat}
    (h : prev.nChainWork < 2 ^ 200) :
    (spamIndex user prev easy nonce).nChainWork =
      prev.nChainWork + if easy then 2 else normalWork := by
  have hwork : (spamIndex user prev easy nonce).getBlockWork = if easy then 2 else normalWork := by
    show (if setCompact (if easy then 0x207fffff else 0x1f02ffff) ≤ 0 then 0 else
      2 ^ 256 / ((setCompact (if easy then 0x207fffff else 0x1f02ffff)).toNat + 1)) = _
    cases easy <;> decide +kernel
  show (prev.nChainWork + (spamIndex user prev easy nonce).getBlockWork) % 2 ^ 256 = _
  have hsmall : (if easy then 2 else normalWork) ≤ normalWork := by
    cases easy <;> decide
  have hroom : 2 ^ 200 + normalWork < 2 ^ 256 := by decide
  rw [hwork, Nat.mod_eq_of_lt]
  omega

theorem trunk_work (k : Nat) (h : k ≤ 2000) : (trunk k).nChainWork = (k + 2) * normalWork := by
  induction k with
  | zero => decide +kernel
  | succ k ih =>
    have ih := ih (by omega)
    have hlt : (trunk k).nChainWork < 2 ^ 200 := by
      rw [ih, normalWork]
      omega
    rw [trunk, plainIndex, spamIndex_work hlt, ih]
    simp only [Bool.false_eq_true, if_false, normalWork]
    omega

theorem trunk_work_small {k : Nat} (h : k ≤ 2000) : (trunk k).nChainWork < 2 ^ 200 := by
  rw [trunk_work k h, normalWork]
  omega

theorem trunk_mem_ancestors (k d : Nat) : trunk k ∈ (trunk (k + d)).ancestors := by
  induction d with
  | zero => exact CBlockIndex.self_mem_ancestors _
  | succ d ih => exact List.mem_cons_of_mem _ ih

/-! ## What such a chain keeps -/

/-- A chain over the voters with only spam messages by nobody and rising times. -/
structure Steady (p : CBlockIndex) : Prop where
  voters : votersBlock ∈ p.ancestors
  plain : ∀ a ∈ p.ancestors, a ∈ votersBlock.ancestors ∨ a.block.isPlain = true
  times : ∀ a ∈ p.ancestors, a.block.nTime ≤ p.block.nTime
  time : p.block.nTime ≤ 1296688602 + 1201 * p.nHeight
  bits : p.lastHardBits 0x207fffff = 0x1f02ffff
  height : p.block.nHeight = p.nHeight

theorem steady_votersBlock : Steady votersBlock where
  voters := CBlockIndex.self_mem_ancestors votersBlock
  plain a ha := .inl ha
  times := by decide +kernel
  time := by decide +kernel
  bits := by decide +kernel
  height := rfl

theorem Steady.next {p : CBlockIndex} (h : Steady p) (easy : Bool) (nonce : Nat)
    (hlow : p.nHeight < 2000) : Steady (plainIndex p easy nonce) where
  voters := List.mem_cons_of_mem _ h.voters
  plain a ha := by
    rcases List.mem_cons.mp ha with rfl | ha
    · exact .inr (plainIndex_isPlain p easy nonce)
    · exact h.plain a ha
  times a ha := by
    show a.block.nTime ≤ p.block.nTime + if easy then 1201 else 600
    rcases List.mem_cons.mp ha with rfl | ha
    · exact Nat.le_refl _
    · exact (h.times a ha).trans (Nat.le_add_right _ _)
  time := by
    have htime := h.time
    show p.block.nTime + (if easy then 1201 else 600) ≤ 1296688602 + 1201 * (p.nHeight + 1)
    split <;> omega
  bits := by
    have hmod : (p.nHeight + 1) % nInterval ≠ 0 := by
      rw [nInterval]
      omega
    cases easy with
    | true => exact (if_pos ⟨hmod, rfl⟩).trans h.bits
    | false =>
      refine if_neg ?_
      rintro ⟨-, hbits⟩
      exact absurd (show 0x1f02ffff = 0x207fffff from hbits) (by decide)
  height := by
    show p.block.nHeight + 1 = ((p.nHeight + 1 : Nat) : Int)
    rw [h.height]
    rfl

theorem steady_trunk {k : Nat} (h : k < 2000) : Steady (trunk k) := by
  induction k with
  | zero => exact steady_votersBlock
  | succ k ih =>
    refine (ih (by omega)).next false (k + 2) ?_
    rw [trunk_nHeight]
    omega

/-! ## Such blocks are accepted -/

theorem getMedianTimePast_le {p : CBlockIndex} {time : Nat}
    (h : ∀ a ∈ p.ancestors, a.block.nTime ≤ time) : p.getMedianTimePast ≤ time := by
  rw [CBlockIndex.getMedianTimePast]
  generalize htimes : ((p.ancestors.take 11).map fun q => q.block.nTime).insertionSort (· ≤ ·) =
    times
  simp only [List.getD_eq_getElem?_getD]
  cases hget : times[times.length / 2]? with
  | none => exact Nat.zero_le _
  | some t =>
    have hmem : t ∈ ((p.ancestors.take 11).map fun q => q.block.nTime).insertionSort (· ≤ ·) := by
      rw [htimes]
      exact List.mem_of_getElem? hget
    rw [List.mem_insertionSort, List.mem_map] at hmem
    obtain ⟨a, ha, rfl⟩ := hmem
    exact h a (List.mem_of_mem_take ha)

/-- Blocks are stored by their nonces, which are given out in order. -/
def Named (map : List CBlockIndex) (bound : Nat) : Prop :=
  ∀ p ∈ map, p.pos = smallPos p.block ∧ (p.block.nNonce < bound ∨ p.block.nNonce = 414098458)

theorem Named.cons {map : List CBlockIndex} {bound : Nat} {p : CBlockIndex} (h : Named map bound)
    (hpos : p.pos = smallPos p.block) (hnonce : p.block.nNonce = bound) :
    Named (p :: map) (bound + 1) := by
  intro q hq
  rcases List.mem_cons.mp hq with rfl | hq
  · exact ⟨hpos, .inl (hnonce ▸ Nat.lt_succ_self _)⟩
  · obtain ⟨hpos, hname⟩ := h q hq
    exact ⟨hpos, by omega⟩

section Accepts

variable {s : ChainState} {prev : CBlockIndex} {user : String} {easy : Bool} {nonce : Nat}

theorem voteNet_blockHash (block : CBlock) :
    voteNet.blockHash block = if block.nHeight = 546 then checkpointHash else block.nNonce :=
  rfl

theorem spamBlock_checked (huser : user = "nobody" ∨ user = "stranger") (steady : Steady prev)
    (hlow : prev.nHeight < 2000) (hclock : s.clock = 0) :
    checkBlock voteNet (s.adjustedTime voteNet) (spamBlock user prev easy nonce) true true =
      .valid := by
  have hspam : checkTransactions voteNet [spamBy user nonce] = .valid := by
    rcases huser with rfl | rfl <;> rfl
  have hsize : (spamBlock user prev easy nonce).serializeSize ≤ 111 := by
    rcases huser with rfl | rfl
    · exact (show 109 ≤ 111 by decide)
    · exact (show 111 ≤ 111 by decide)
  refine checkBlock_single rfl rfl hspam (hsize.trans (by decide)) ?_ ?_ rfl
  · show checkProofOfWork voteNet 0 (if easy then 0x207fffff else 0x1f02ffff) = true
    cases easy <;> decide +kernel
  · have htime := steady.time
    rw [ChainState.adjustedTime, hclock]
    show ((prev.block.nTime + if easy then 1201 else 600 : Nat) : Int) ≤
      1500000000 + 0 + 2 * 60 * 60
    split <;> omega

theorem findBlockIndex_prev (tree : TreeOK voteNet s.mapBlockIndex)
    (hprev : prev ∈ s.mapBlockIndex) :
    s.findBlockIndex voteNet (voteNet.blockHash prev.block) = some prev :=
  tree.find_hash hprev

theorem newBlockIndex_spamBlock (tree : TreeOK voteNet s.mapBlockIndex)
    (hprev : prev ∈ s.mapBlockIndex) :
    newBlockIndex voteNet s (spamBlock user prev easy nonce)
      (smallPos (spamBlock user prev easy nonce)) =
      spamIndex user prev easy nonce := by
  have hfind : s.findBlockIndex voteNet (spamBlock user prev easy nonce).hashPrevBlock =
      some prev :=
    findBlockIndex_prev tree hprev
  rw [newBlockIndex, hfind]
  rfl

/-- The target of a block is the one that is required. -/
theorem getNextWorkRequired_spamBlock (steady : Steady prev) (hlow : prev.nHeight < 2000) :
    getNextWorkRequired voteNet prev (spamBlock user prev easy nonce) =
      .ok (if easy then 0x207fffff else 0x1f02ffff) := by
  have hlimit : getCompact voteNet.proofOfWorkLimit = 0x207fffff := by decide +kernel
  have hmod : (prev.nHeight + 1) % nInterval ≠ 0 := by
    rw [nInterval]
    omega
  have htest : voteNet.testNet = true := rfl
  have htime : (spamBlock user prev easy nonce).nTime =
      prev.block.nTime + if easy then 1201 else 600 := rfl
  simp only [getNextWorkRequired, hlimit, hmod, htest, htime, ne_eq, not_false_eq_true, if_true,
    nTargetSpacing, steady.bits]
  cases easy with
  | true =>
    rw [if_pos]
    · rfl
    · simp only [if_true]
      omega
  | false =>
    rw [if_neg]
    · rfl
    · simp only [Bool.false_eq_true, if_false]
      omega

theorem accepts_spamBlock (huser : user = "nobody" ∨ user = "stranger")
    (tree : TreeOK voteNet s.mapBlockIndex) (named : Named s.mapBlockIndex nonce)
    (hnonce : nonce ≤ 2000) (hprev : prev ∈ s.mapBlockIndex) (steady : Steady prev)
    (hlow : prev.nHeight < 2000) (hclock : s.clock = 0)
    (hcp : prev.nHeight + 1 = 546 → s.lastSoftCP.1 = 0 ∧ ∀ p ∈ s.mapBlockIndex, p.nHeight ≠ 546) :
    Accepts voteNet s (spamBlock user prev easy nonce)
      (smallPos (spamBlock user prev easy nonce)) := by
  have hheight : (spamBlock user prev easy nonce).nHeight = ((prev.nHeight + 1 : Nat) : Int) := by
    show prev.block.nHeight + 1 = _
    rw [steady.height]
    rfl
  have hhash : voteNet.blockHash (spamBlock user prev easy nonce) =
      if prev.nHeight + 1 = 546 then checkpointHash else nonce := by
    rw [voteNet_blockHash, hheight]
    exact if_congr (by omega) rfl rfl
  have hbig : checkpointHash > 414098458 := by decide
  have hfresh : s.findBlockIndex voteNet (voteNet.blockHash (spamBlock user prev easy nonce)) =
      none := by
    refine List.find?_eq_none.mpr fun p hp heq => ?_
    rw [beq_iff_eq, hhash, voteNet_blockHash, tree.nHeight_eq hp] at heq
    obtain ⟨-, hname⟩ := named p hp
    by_cases hat : prev.nHeight + 1 = 546
    · have hne : ¬(p.nHeight : Int) = 546 := fun hp546 => (hcp hat).2 p hp (by omega)
      rw [if_pos hat, if_neg hne] at heq
      have heq : p.block.nNonce = checkpointHash := heq
      omega
    · rw [if_neg hat] at heq
      split at heq
      · have heq : checkpointHash = nonce := heq
        omega
      · have heq : p.block.nNonce = nonce := heq
        omega
  have hgenesis : voteNet.blockHash (spamBlock user prev easy nonce) ≠
      voteNet.hashGenesisBlock := by
    have hgen : voteNet.hashGenesisBlock = 414098458 := rfl
    rw [hhash, hgen]
    split
    · exact Nat.ne_of_gt hbig
    · exact Nat.ne_of_lt (by omega)
  have hlock : checkpointsCheckBlock voteNet s (prev.nHeight + 1)
      (voteNet.blockHash (spamBlock user prev easy nonce)) = true := by
    have hcps : voteNet.checkpoints = [(546, checkpointHash)] := rfl
    rw [checkpointsCheckBlock, hcps, hhash]
    by_cases hat : prev.nHeight + 1 = 546
    · simp [hat, (hcp hat).1]
    · have hat' : ((546 : Nat) == prev.nHeight + 1) = false := by
        rw [beq_eq_false_iff_ne]
        omega
      simp [hat']
  have hmedian : ¬(spamBlock user prev easy nonce).nTime ≤ prev.getMedianTimePast := by
    have hle := getMedianTimePast_le steady.times
    show ¬(prev.block.nTime + if easy then 1201 else 600) ≤ _
    split <;> omega
  have hcontext : checkContext voteNet s (spamBlock user prev easy nonce) prev = .ok .valid := by
    have hbits : (spamBlock user prev easy nonce).nBits =
        if easy then 0x207fffff else 0x1f02ffff := rfl
    have hversion : ¬(spamBlock user prev easy nonce).nVersion < 2 :=
      (show ¬(2 : Int) < 2 by decide)
    simp only [checkContext, getNextWorkRequired_spamBlock steady hlow, hbits, hmedian, hlock,
      hversion, hheight, ne_eq, not_true_eq_false, if_false, Bool.not_true, Bool.false_eq_true]
    rw [if_neg]
    simp
  refine ⟨?_, fun _ => spamBlock_checked huser steady hlow hclock, fun heq => absurd heq hgenesis,
    fun p hp heq => ?_⟩
  · have hfind : s.findBlockIndex voteNet (spamBlock user prev easy nonce).hashPrevBlock =
        some prev := findBlockIndex_prev tree hprev
    rw [acceptChecks, hfresh]
    simp only [hgenesis, if_false, hfind, hcontext]
  · obtain ⟨hpos, hname⟩ := named p hp
    rw [hpos] at heq
    have hnPos : 1000 * p.block.nNonce = 1000 * nonce := congrArg CDiskBlockPos.nPos heq
    omega

end Accepts

/-! ## Arrivals -/

/-- What may follow a block of such a chain, in some state. -/
structure Fits (s : ChainState) (prev : CBlockIndex) (nonce : Nat) : Prop where
  named : Named s.mapBlockIndex nonce
  small : nonce ≤ 2000
  parent : prev ∈ s.mapBlockIndex
  steady : Steady prev
  low : prev.nHeight < 2000
  clock : s.clock = 0
  /-- The hash at the height of the hard checkpoint is still free. -/
  cp : prev.nHeight + 1 = 546 → s.lastSoftCP.1 = 0 ∧ ∀ p ∈ s.mapBlockIndex, p.nHeight ≠ 546

section Arrivals

variable {s : ChainState} {best prev : CBlockIndex} {easy : Bool} {nonce : Nat}

theorem Fits.accepts (h : Fits s prev nonce) (tree : TreeOK voteNet s.mapBlockIndex)
    (easy : Bool) : Accepts voteNet s (plainIndex prev easy nonce).block
      (plainIndex prev easy nonce).pos :=
  accepts_spamBlock (.inl rfl) tree h.named h.small h.parent h.steady h.low h.clock h.cp

/-- A block with more work than the tip, and not lower, becomes the tip. -/
theorem Fits.heavier (h : Fits s prev nonce) (grown : Grown voteNet s best) (hbest : Steady best)
    (hheavy : best.nChainWork < (plainIndex prev easy nonce).nChainWork)
    (hhigh : best.nHeight ≤ prev.nHeight + 1) :
    ∃ s', addToBlockIndex voteNet 8 8 s (plainIndex prev easy nonce).block
          (plainIndex prev easy nonce).pos = .ok (true, s') ∧
      Grown voteNet s' (plainIndex prev easy nonce) ∧
      s'.mapBlockIndex = plainIndex prev easy nonce :: s.mapBlockIndex := by
  have tree := grown.search.call.inv.tree
  have hx := h.steady.next easy nonce h.low
  refine grown.switch (h.accepts tree easy) (newBlockIndex_spamBlock tree h.parent) hheavy
    hhigh ?_ ?_
  · intro q hq hout
    rcases hx.plain q hq with hq' | hq'
    · exact absurd (CBlockIndex.ancestors_trans hq' hbest.voters) hout
    · refine ⟨hq', ?_⟩
      have hlate := hx.times q hq
      have htime := hx.time
      have hheight : (plainIndex prev easy nonce).nHeight = prev.nHeight + 1 := rfl
      have hlow := h.low
      rw [ChainState.adjustedTime, h.clock]
      show (q.block.nTime : Int) ≤ 1500000000 + 0 + 2 * 60 * 60
      omega
  · intro q hq hout
    rcases hbest.plain q hq with hq' | hq'
    · exact absurd (CBlockIndex.ancestors_trans hq' hx.voters) hout
    · exact hq'

/-- A block without more work than the tip is only entered. -/
theorem Fits.lighter (h : Fits s prev nonce) (grown : Grown voteNet s best)
    (hlight : (plainIndex prev easy nonce).nChainWork ≤ best.nChainWork) :
    addToBlockIndex voteNet 8 8 s (plainIndex prev easy nonce).block
        (plainIndex prev easy nonce).pos =
        .ok (true, insertBlockIndex s (plainIndex prev easy nonce)) ∧
      Grown voteNet (insertBlockIndex s (plainIndex prev easy nonce)) best := by
  have tree := grown.search.call.inv.tree
  exact grown.enter (h.accepts tree easy) (newBlockIndex_spamBlock tree h.parent) hlight

end Arrivals

/-! ## The runs -/

/-- A node with a key of this user. -/
def walletOf (username : Option String) : PostNode where
  getTransaction := fun _ => none
  dhtget := fun _ _ => []
  wallet :=
    { mapKeyMetadata := username.toList.map fun u => (0, { username := ascii u })
      getPubKey := fun _ => none
      nodup := by cases username <;> simp }
  isLocked := false
  signCompact := fun _ hash =>
    username.map fun u => [voterKey (ascii u), UInt8.ofNat (hash % 251)]
  getTransactionAt := fun _ _ => none
  bestHeight := 0
  adjustedTime := 0
  lastPublicPost := fun _ => -1
  startTorrentUser := fun _ => false
  dhtReady := false
  toLower := id
  current := fun _ => rfl

/-- A run to a block of the trunk, in which nobody has voted. -/
structure TrunkAt (ok : Node → NodeLabel → Prop) (k : Nat) (s : ChainState) : Prop where
  reach : (nodeSystem voteNet).Reach ok { chain := s }
  grown : Grown voteNet s (trunk k)
  map : s.mapBlockIndex = (trunk k).ancestors
  soft : s.lastSoftCP = (0, 0)
  clock : s.clock = 0

section Runs

variable {ok : Node → NodeLabel → Prop} {s s' : ChainState} {k : Nat}

theorem named_trunk (k : Nat) : Named (trunk k).ancestors (k + 2) := by
  induction k with
  | zero =>
    intro p hp
    rcases List.mem_cons.mp hp with rfl | hp
    · exact ⟨rfl, .inl (show 1 < 2 by decide)⟩
    · rw [List.mem_singleton.mp hp]
      exact ⟨rfl, .inr rfl⟩
  | succ k ih => exact ih.cons rfl rfl

/-- A node without votes takes the step of a block that becomes the tip. -/
theorem reach_quiet {block : CBlock} {pos : CDiskBlockPos}
    (hok : ∀ n a, n.signed = [] → ok n a) (hreach : (nodeSystem voteNet).Reach ok { chain := s })
    (hsoft : s.lastSoftCP = (0, 0)) (hclock : s.clock = 0) (hacc : Accepts voteNet s block pos)
    (hadd : addToBlockIndex voteNet 8 8 s block pos = .ok (true, s')) :
    (nodeSystem voteNet).Reach ok { chain := s' } ∧ s'.lastSoftCP = (0, 0) ∧ s'.clock = 0 := by
  have hframe := addToBlockIndex_frame hadd
  have hsoft' : s'.lastSoftCP = (0, 0) := hframe.1.trans hsoft
  refine ⟨?_, hsoft', hframe.2.trans hclock⟩
  refine .step hreach (a := .block (walletOf none) false block pos) (hok _ _ rfl)
    ⟨hacc, 8, 8, true, ?_⟩
  rw [Node.acceptBlock_quiet (n := { chain := s }) hacc.accepted hadd (by rw [hsoft'])
    fun _ hitem => absurd hitem List.not_mem_nil, Node.clearUnchecked]
  split <;> rfl

/-- The block arrives and is the tip. -/
def becomesTip (s : ChainState) (p : CBlockIndex) : Option ChainState :=
  if Accepts voteNet s p.block p.pos ∧ newBlockIndex voteNet s p.block p.pos = p then
    match addToBlockIndex voteNet 8 8 s p.block p.pos with
    | .ok (true, s') => some s'
    | _ => none
  else none

theorem becomesTip_some {p : CBlockIndex} (h : becomesTip s p = some s') :
    Accepts voteNet s p.block p.pos ∧ newBlockIndex voteNet s p.block p.pos = p ∧
      addToBlockIndex voteNet 8 8 s p.block p.pos = .ok (true, s') := by
  rw [becomesTip] at h
  split at h
  · rename_i hp
    split at h
    · rename_i s₁ hadd
      cases h
      exact ⟨hp.1, hp.2, hadd⟩
    · cases h
  · cases h

theorem first_blocks :
    ∃ s₀ s₁, Accepts voteNet {} voteGenesis.block voteGenesis.pos ∧
      addToBlockIndex voteNet 8 8 {} voteGenesis.block voteGenesis.pos = .ok (true, s₀) ∧
      Grown voteNet s₀ voteGenesis ∧ s₀.mapBlockIndex = [voteGenesis] ∧
      Accepts voteNet s₀ votersBlock.block votersBlock.pos ∧
      newBlockIndex voteNet s₀ votersBlock.block votersBlock.pos = votersBlock ∧
      heavier s₀ votersBlock = true ∧
      addToBlockIndex voteNet 8 8 s₀ votersBlock.block votersBlock.pos = .ok (true, s₁) := by
  have hrun : ((becomesTip {} voteGenesis).bind (becomesTip · votersBlock)).isSome = true := by
    decide +kernel
  obtain ⟨s₁, hs₁⟩ := Option.isSome_iff_exists.mp hrun
  obtain ⟨s₀, hs₀, hs₁⟩ := Option.bind_eq_some_iff.mp hs₁
  obtain ⟨hacc₀, hx₀, hadd₀⟩ := becomesTip_some hs₀
  obtain ⟨hacc₁, hx₁, hadd₁⟩ := becomesTip_some hs₁
  obtain ⟨hgrown₀, hmap₀⟩ := (sound_init voteNet).add hacc₀ hx₀ rfl nofun hadd₀
  have hwork : voteGenesis.nChainWork < votersBlock.nChainWork := by decide +kernel
  have hheavy : heavier s₀ votersBlock = true := by
    rw [heavier, hgrown₀.tip]
    exact decide_eq_true hwork
  exact ⟨s₀, s₁, hacc₀, hadd₀, hgrown₀, hmap₀, hacc₁, hx₁, hheavy, hadd₁⟩

theorem trunk_start (hok : ∀ n a, n.signed = [] → ok n a) : ∃ s, TrunkAt ok 0 s := by
  obtain ⟨s₀, s₁, hacc₀, hadd₀, hgrown₀, hmap₀, hacc₁, hx₁, hheavy, hadd₁⟩ := first_blocks
  obtain ⟨hreach₀, hsoft₀, hclock₀⟩ := reach_quiet hok (.init rfl) rfl rfl hacc₀ hadd₀
  obtain ⟨hreach₁, hsoft₁, hclock₁⟩ := reach_quiet hok hreach₀ hsoft₀ hclock₀ hacc₁ hadd₁
  have hlow : NotLower voteNet s₀ (votersBlock.block, votersBlock.pos) := by
    intro best hbest _ _
    rw [hgrown₀.tip] at hbest
    cases hbest
    exact Nat.zero_le _
  obtain ⟨hgrown₁, hmap₁⟩ := hgrown₀.toSound.add hacc₁ hx₁ hheavy hlow hadd₁
  exact ⟨s₁, hreach₁, hgrown₁, by rw [hmap₁, hmap₀]; rfl, hsoft₁, hclock₁⟩

theorem TrunkAt.fits (h : TrunkAt ok k s) (hk : k < 1900) : Fits s (trunk k) (k + 2) where
  named := h.map ▸ named_trunk k
  small := by omega
  parent := h.map ▸ CBlockIndex.self_mem_ancestors _
  steady := steady_trunk (by omega)
  low := by rw [trunk_nHeight]; omega
  clock := h.clock
  cp hat := by
    rw [trunk_nHeight] at hat
    refine ⟨by rw [h.soft], fun p hp => ?_⟩
    rw [h.map] at hp
    have hle := CBlockIndex.nHeight_le_of_mem_ancestors hp
    rw [trunk_nHeight] at hle
    omega

theorem TrunkAt.next (hok : ∀ n a, n.signed = [] → ok n a) (h : TrunkAt ok k s) (hk : k < 1900) :
    ∃ s', TrunkAt ok (k + 1) s' := by
  have hfits := h.fits hk
  have hheavy : (trunk k).nChainWork < (trunk (k + 1)).nChainWork := by
    rw [trunk_work k (by omega), trunk_work (k + 1) (by omega), normalWork]
    omega
  obtain ⟨s', hadd, hgrown, hmap⟩ := hfits.heavier h.grown hfits.steady hheavy (Nat.le_succ _)
  obtain ⟨hreach, hsoft, hclock⟩ := reach_quiet hok h.reach h.soft h.clock
    (hfits.accepts h.grown.search.call.inv.tree false) hadd
  exact ⟨s', hreach, hgrown, by rw [hmap, h.map]; rfl, hsoft, hclock⟩

theorem trunk_reached (hok : ∀ n a, n.signed = [] → ok n a) :
    ∀ k, k ≤ 1900 → ∃ s, TrunkAt ok k s
  | 0, _ => trunk_start hok
  | k + 1, hk => by
    obtain ⟨s, hs⟩ := trunk_reached hok k (by omega)
    exact hs.next hok (by omega)

end Runs

/-! ## The voters -/

/-- The registration of a voter. -/
def voterFound (username : String) : Option CTransaction :=
  votersBlock.block.txFor (ascii username)

section Voters

variable {ok : Node → NodeLabel → Prop} {s : ChainState} {best : CBlockIndex} {username : String}

/-- The voters are registered in one block only. -/
theorem userStack_voter (steady : Steady best) (hvoter : username ∈ fiveVoters) :
    userStack (ascii username) (some best) = [votersBlock] := by
  have hvoters : ∀ username ∈ fiveVoters,
      votersBlock.ancestors.filter (CBlockIndex.registers (ascii username)) = [votersBlock] := by
    decide +kernel
  rw [userStack, CBlockIndex.ancestorsOf, CBlockIndex.ancestors_eq_above steady.voters,
    List.filter_append, hvoters username hvoter]
  have habove : (best.above (some votersBlock)).filter
      (CBlockIndex.registers (ascii username)) = [] := by
    refine List.filter_eq_nil_iff.mpr fun a ha => ?_
    obtain ⟨hanc, hlt⟩ := CBlockIndex.mem_above steady.voters ha
    rcases steady.plain a hanc with hlow | hplain
    · exact absurd (CBlockIndex.nHeight_le_of_mem_ancestors hlow) (Nat.not_le_of_lt hlt)
    · rw [registers_of_isPlain hplain]
      exact Bool.false_ne_true
  rw [habove]
  rfl

theorem lookup_voter (synced : Synced voteNet s) (htip : s.coinsTip = some best)
    (steady : Steady best) (hvoter : username ∈ fiveVoters) :
    ∃ found, getTransaction voteNet 8 s (ascii username) (-1) = .ok found ∧
      found.map Prod.fst = voterFound username := by
  obtain ⟨l, rep, tracks⟩ := synced.inStep (ascii username)
  rw [htip, userStack_voter steady hvoter] at tracks
  have hmem : votersBlock ∈ CBlockIndex.ancestorsOf s.coinsTip := by
    rw [htip]
    exact steady.voters
  refine ⟨_, (getTransaction_top synced.inv.tree rep tracks).2
    (synced.inv.isInMainChain_iff.mpr hmem) (synced.inv.best votersBlock hmem), ?_⟩
  rw [Option.map_map]
  exact Option.map_id_apply

/-- Several votes. -/
def pollSoft (nBestHeight : Int) (cp : Checkpoint) : SoftState → List String → Option SoftState
  | soft, [] => some soft
  | soft, username :: usernames =>
    let cast := castVoteSoftCheckpoint voteNet nBestHeight (voterFound username) soft
      (ballot cp username)
    if cast.updated || cast.soft.lastSoftCP ≠ soft.lastSoftCP then none
    else pollSoft nBestHeight cp cast.soft usernames

theorem reach_poll {n : Node} {cp : Checkpoint} {soft : SoftState} {usernames : List String}
    (hok : ∀ n a, n.signed = [] → ok n a) (hsigned : n.signed = [])
    (hreach : (nodeSystem voteNet).Reach ok n) (synced : Synced voteNet n.chain)
    (htip : n.chain.coinsTip = some best) (steady : Steady best)
    (hvoters : ∀ username ∈ usernames, username ∈ fiveVoters)
    (hpoll : pollSoft n.chain.nBestHeight cp n.soft usernames = some soft) :
    (nodeSystem voteNet).Reach ok (n.setSoft soft) ∧ soft.lastSoftCP = n.chain.lastSoftCP := by
  induction usernames generalizing n with
  | nil =>
    rw [pollSoft, Option.some.injEq] at hpoll
    subst hpoll
    exact ⟨hreach, rfl⟩
  | cons username usernames ih =>
    rw [pollSoft] at hpoll
    split at hpoll
    · cases hpoll
    rename_i hcast
    rw [Bool.or_eq_true, not_or, Bool.not_eq_true, decide_eq_true_eq, not_not] at hcast
    obtain ⟨found, hfound, hmap⟩ := lookup_voter synced htip steady
      (hvoters username List.mem_cons_self)
    generalize hdef : castVoteSoftCheckpoint voteNet n.chain.nBestHeight (voterFound username)
      n.soft (ballot cp username) = cast at hcast hpoll
    have hlast : cast.soft.lastSoftCP = n.chain.lastSoftCP := hcast.2
    have hstep : n.castVote voteNet 8 8 (ballot cp username) =
        .ok (cast.relay, n.setSoft cast.soft) := by
      have hname : (ballot cp username).username = ascii username := rfl
      rw [Node.castVote, hname, hfound]
      simp only [Node.castWith, hmap, hdef, Node.afterCast, hcast.1, Bool.false_eq_true, if_false]
    have hchain : (n.setSoft cast.soft).chain = n.chain := by
      show { n.chain with lastSoftCP := cast.soft.lastSoftCP } = n.chain
      rw [hlast]
    obtain ⟨hend, hcp⟩ := ih (n := n.setSoft cast.soft) hsigned
      (.step hreach (a := .vote (ballot cp username)) (hok _ _ hsigned)
        ⟨8, 8, cast.relay, hstep⟩)
      (by rw [hchain]; exact synced) (by rw [hchain]; exact htip)
      (fun username h => hvoters username (List.mem_cons_of_mem _ h))
      (by rw [hchain]; exact hpoll)
    exact ⟨hend, hcp.trans hlast⟩

/-- The votes of the five voters decide, the last one of them. -/
def decides (nBestHeight : Int) (cp : Checkpoint) : Bool :=
  (pollSoft nBestHeight cp {} (fiveVoters.take 4)).any fun soft =>
    let cast := castVoteSoftCheckpoint voteNet nBestHeight (voterFound "mf3") soft
      (ballot cp "mf3")
    cast.updated && cast.soft.lastSoftCP == cp

/-- The state before the vote that decides, and what that vote does. -/
theorem reach_decided {n : Node} {cp : Checkpoint} (hok : ∀ n a, n.signed = [] → ok n a)
    (hsigned : n.signed = []) (hreach : (nodeSystem voteNet).Reach ok n)
    (hsoft : n.soft = {}) (synced : Synced voteNet n.chain)
    (htip : n.chain.coinsTip = some best) (steady : Steady best)
    (hdecides : decides n.chain.nBestHeight cp = true) :
    ∃ m found, (nodeSystem voteNet).Reach ok m ∧ m.chain = n.chain ∧ m.signed = [] ∧
      getTransaction voteNet 8 m.chain (ballot cp "mf3").username (-1) = .ok found ∧
      (m.castWith voteNet (found.map Prod.fst) (ballot cp "mf3")).updated = true ∧
      (m.castWith voteNet (found.map Prod.fst) (ballot cp "mf3")).soft.lastSoftCP = cp := by
  rw [decides, Option.any_eq_true] at hdecides
  obtain ⟨soft, hpoll, hlast⟩ := hdecides
  rw [← hsoft] at hpoll
  obtain ⟨hm, hcp⟩ := reach_poll hok hsigned hreach synced htip steady (by decide) hpoll
  have hchain : (n.setSoft soft).chain = n.chain := by
    show { n.chain with lastSoftCP := soft.lastSoftCP } = n.chain
    rw [hcp]
  obtain ⟨found, hfound, hmap⟩ :=
    lookup_voter synced htip steady (show "mf3" ∈ fiveVoters by decide)
  rw [Bool.and_eq_true, beq_iff_eq] at hlast
  refine ⟨n.setSoft soft, found, hm, hchain, hsigned, by rw [hchain]; exact hfound, ?_⟩
  rw [Node.castWith, hmap, hchain]
  exact hlast

end Voters

/-- A run to a block of the trunk after which a checkpoint is voted in that moves nothing. -/
theorem checkpoint_reached {ok : Node → NodeLabel → Prop} (k : Nat) (cp : Checkpoint)
    (hok : ∀ n a, n.signed = [] → ok n a) (hk : k ≤ 1900)
    (hdecides : decides (k + 1 : Nat) cp = true)
    (hstay : ∀ s, TrunkAt ok k s → ∀ p, ¬SoftCalls voteNet { s with lastSoftCP := cp } p) :
    ∃ n s, (nodeSystem voteNet).Reach ok n ∧ TrunkAt ok k s ∧
      n.chain = { s with lastSoftCP := cp } := by
  obtain ⟨s, hs⟩ := trunk_reached hok k hk
  have hheight : s.nBestHeight = (k + 1 : Nat) := by
    rw [ChainState.nBestHeight, hs.grown.tip, ← trunk_nHeight k]
  obtain ⟨m, found, hm, hchain, hsigned, hfound, hupdated, hlast⟩ := reach_decided hok
    (n := { chain := s }) rfl hs.reach (by rw [Node.soft, hs.soft]) hs.grown.synced
    hs.grown.coinsTip (steady_trunk (by omega)) (by rw [hheight]; exact hdecides)
  have hmove : setSoftCPBestChain voteNet 8 8
      (m.setSoft (m.castWith voteNet (found.map Prod.fst) (ballot cp "mf3")).soft).chain =
      .ok { s with lastSoftCP := cp } := by
    show setSoftCPBestChain voteNet 8 8 { m.chain with lastSoftCP := _ } = _
    rw [hlast, hchain]
    exact setSoftCPBestChain_stay (hstay s hs)
  have hstep : m.castVote voteNet 8 8 (ballot cp "mf3") =
      .ok ((m.castWith voteNet (found.map Prod.fst) (ballot cp "mf3")).relay,
        { m.setSoft (m.castWith voteNet (found.map Prod.fst) (ballot cp "mf3")).soft with
            chain := { s with lastSoftCP := cp } }) := by
    rw [Node.castVote, hfound]
    simp only [Node.afterCast, hupdated, if_true, hmove]
  exact ⟨_, s, .step hm (a := .vote (ballot cp "mf3")) (hok _ _ hsigned) ⟨8, 8, _, hstep⟩, hs, rfl⟩

end CoMoNet
