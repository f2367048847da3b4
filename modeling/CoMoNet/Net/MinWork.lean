import CoMoNet.Chain.Compact
import CoMoNet.Net.ProcessBlock
import Mathlib.Algebra.Order.Ring.Int
import Mathlib.Tactic.Ring

/-!
# The early work check

`ProcessBlock` refuses a block with less work than `ComputeMinWork` says could be due
since the last checkpoint. That is no lower bound: times before the checkpoint are
allowed, and work can fall faster (`minWork_iff`).
-/

namespace CoMoNet

/-! ## ComputeMinWork -/

/-- Times the loop of `ComputeMinWork` eases the target: once per eight weeks begun. -/
def minWorkRounds (nTime : Int) : Nat :=
  ((nTime + nTargetTimespan * 4 - 1) / (nTargetTimespan * 4)).toNat

/-- The easiest target that `ComputeMinWork` allows after a checkpoint. -/
def easiestTarget (env : Env) (bnBase nTime : Int) : Int :=
  if env.testNet ∧ nTime > nTargetSpacing * 2 then env.proofOfWorkLimit
  else min (bnBase * 4 ^ minWorkRounds nTime) env.proofOfWorkLimit

theorem minWorkRounds_of_nonpos {nTime : Int} (h : nTime ≤ 0) : minWorkRounds nTime = 0 := by
  rw [minWorkRounds, nTargetTimespan]
  omega

theorem minWorkRounds_of_pos {nTime : Int} (h : 0 < nTime) :
    minWorkRounds nTime = minWorkRounds (nTime - nTargetTimespan * 4) + 1 := by
  rw [minWorkRounds, minWorkRounds, nTargetTimespan]
  omega

/-- The loop multiplies by four. -/
theorem min_easeTarget {bnLimit : Int} {rounds : Nat} {bnResult nTime : Int}
    (hresult : 0 ≤ bnResult)
    (hrounds : nTime ≤ rounds * (nTargetTimespan * 4)) :
    min (easeTarget bnLimit rounds bnResult nTime) bnLimit =
      min (bnResult * 4 ^ minWorkRounds nTime) bnLimit := by
  induction rounds generalizing bnResult nTime with
  | zero =>
    rw [easeTarget, minWorkRounds_of_nonpos (by simpa using hrounds), pow_zero, mul_one]
  | succ rounds ih =>
    rw [easeTarget]
    split
    · next hround =>
        have hleft : nTime - nTargetTimespan * 4 ≤ rounds * (nTargetTimespan * 4) := by
          rw [nTargetTimespan] at hrounds ⊢
          omega
        rw [ih (by omega) hleft, minWorkRounds_of_pos hround.1, pow_succ', mul_assoc]
    · next hstop =>
        rcases Int.lt_or_le 0 nTime with hpos | hnonpos
        · have hreached : bnLimit ≤ bnResult := Int.not_lt.mp fun h => hstop ⟨hpos, h⟩
          have hmore : bnResult ≤ bnResult * 4 ^ minWorkRounds nTime :=
            le_mul_of_one_le_right hresult (one_le_pow₀ (by decide))
          rw [min_eq_right hreached, min_eq_right (hreached.trans hmore)]
        · rw [minWorkRounds_of_nonpos hnonpos, pow_zero, mul_one]

/-- The targets that pass. -/
theorem le_computeMinWork_iff {env : Env} {nBase nBits : Nat} {nTime : Int}
    (hbase : 0 ≤ setCompact nBase) :
    setCompact nBits ≤ setCompact (computeMinWork env nBase nTime) ↔
      setCompact nBits ≤ easiestTarget env (setCompact nBase) nTime := by
  rw [computeMinWork, easiestTarget]
  split
  · exact setCompact_le_getCompact_iff
  · have hrounds : nTime ≤ ((nTime.toNat / (nTargetTimespan * 4).toNat + 1 : Nat) : Int) *
        (nTargetTimespan * 4) := by
      have hspan : (nTargetTimespan * 4).toNat = 4838400 := rfl
      rw [hspan, nTargetTimespan]
      omega
    have hmin : 0 ≤ min (setCompact nBase * 4 ^ minWorkRounds nTime) (env.proofOfWorkLimit : Int) :=
      le_min (mul_nonneg hbase (pow_nonneg (by decide) _)) (Int.natCast_nonneg _)
    dsimp only
    rw [setCompact_le_getCompact_iff, min_easeTarget hbase hrounds, Int.toNat_of_nonneg hmin]

/-- The blocks that pass. -/
theorem checkMinWork_iff {env : Env} {s : ChainState} {pcheckpoint : CBlockIndex} (block : CBlock)
    (hcp : getLastCheckpoint env s = some pcheckpoint)
    (hbase : 0 ≤ setCompact pcheckpoint.block.nBits) :
    checkMinWork env s block = .valid ↔ block.hashPrevBlock = s.hashBestChain env ∨
      pcheckpoint.block.nTime ≤ block.nTime ∧ setCompact block.nBits ≤
        easiestTarget env (setCompact pcheckpoint.block.nBits)
          ((block.nTime : Int) - pcheckpoint.block.nTime) := by
  rw [checkMinWork, hcp]
  dsimp only
  rw [← le_computeMinWork_iff hbase]
  split
  · next hbest => simp [hbest]
  · next hbest =>
      split
      · simp [hbest]
        omega
      · split
        · simp [hbest]
          omega
        · simp [hbest]
          omega

/-! ## The work the chain asks for -/

/-- Every block of the index has the target that was due after its parent. -/
def DueWork (env : Env) (map : List CBlockIndex) : Prop :=
  ∀ p ∈ map, ∀ q, p.pprev = some q → getNextWorkRequired env q p.block = .ok p.block.nBits

section Due

variable {env : Env} {s s' : ChainState} {block : CBlock} {pos : CDiskBlockPos}
variable {p q : CBlockIndex}

theorem Accepts.due (tree : TreeOK env s.mapBlockIndex) (h : Accepts env s block pos)
    (hq : (newBlockIndex env s block pos).pprev = some q) :
    getNextWorkRequired env q block = .ok block.nBits := by
  obtain ⟨-, hcases⟩ := h.cases tree
  have hacc := h.accepted
  rcases hcases with ⟨-, -, hroot⟩ | ⟨hgen, -⟩
  · rw [hroot] at hq
    cases hq
  · rw [acceptChecks] at hacc
    split at hacc
    · cases hacc
    rw [if_neg hgen] at hacc
    split at hacc
    · cases hacc
    next r hr =>
    rw [newBlockIndex, hr] at hq
    obtain rfl : r = q := Option.some.inj hq
    exact (checkContext_valid hacc).1

/-- A step keeps targets due. -/
theorem DueWork.step {a : ChainLabel} (inv : ChainInv env s) (due : DueWork env s.mapBlockIndex)
    (h : ChainStep env s a s') : DueWork env s'.mapBlockIndex := by
  cases a with
  | accept block pos =>
    obtain ⟨hacc, rfl⟩ := h
    intro p hp q hq
    rcases List.mem_cons.mp hp with rfl | hp
    · have hblock : (newBlockIndex env s block pos).block = block := by
        rw [newBlockIndex]
        split <;> rfl
      rw [hblock]
      exact hacc.due inv.tree hq
    · exact due p hp q hq
  | mark =>
    rw [h.toSameChain.map]
    exact due
  | setBestChain fuel rounds pindexNew =>
    obtain ⟨hnew, b, hcall⟩ := h
    obtain ⟨plan, pfork, -, ok, hout⟩ := setBestChainWith_cases inv hnew hcall
    rw [hout.map ok]
    exact due

/-- Targets are due in every run. -/
theorem Reachable.dueWork (h : Reachable env s) : DueWork env s.mapBlockIndex := by
  refine (GuardedRun.System.Reach.invariant
    (I := fun s => ChainInv env s ∧ DueWork env s.mapBlockIndex) ?_ ?_ h).2
  · rintro s rfl
    exact ⟨chainInv_init env, nofun⟩
  · rintro s a s' ⟨inv, due⟩ - hstep
    exact ⟨chainInv_step inv hstep, due.step inv hstep⟩

/-- Due on the main network: the parent's target, or a new one for the clamped time. -/
theorem getNextWorkRequired_main {nBits : Nat} (hnet : env.testNet = false)
    (h : getNextWorkRequired env q block = .ok nBits) :
    nBits = q.block.nBits ∨ ∃ span, nTargetTimespan / 4 ≤ span ∧ span ≤ nTargetTimespan * 4 ∧
      nBits = getCompact (min (setCompact q.block.nBits * span / nTargetTimespan)
        env.proofOfWorkLimit).toNat := by
  rw [getNextWorkRequired, hnet] at h
  simp only [Bool.false_eq_true, if_false] at h
  split at h
  · exact .inl (Except.ok.inj h).symm
  · split at h
    · cases h
    next first hfirst =>
    exact .inr ⟨_, le_min (le_max_right _ _) (by decide), min_le_right _ _, (Except.ok.inj h).symm⟩

theorem toNat_newTarget {target span : Int} (limit : Nat) (htarget : 0 ≤ target)
    (hspan : nTargetTimespan / 4 ≤ span) :
    ((min (target * span / nTargetTimespan) (limit : Int)).toNat : Int) =
      min (target * span / nTargetTimespan) limit := by
  have hpos : 0 ≤ span := le_trans (by decide) hspan
  have hnew : 0 ≤ target * span / nTargetTimespan :=
    Int.ediv_nonneg (mul_nonneg htarget hpos) (by decide)
  exact Int.toNat_of_nonneg (le_min hnew (Int.natCast_nonneg _))

/-- A due target is at most four times as easy, and stays within the limit. -/
theorem target_due (hnet : env.testNet = false)
    (h : getNextWorkRequired env q block = .ok block.nBits) (hq : 0 ≤ setCompact q.block.nBits)
    (hlimit : setCompact q.block.nBits ≤ env.proofOfWorkLimit) :
    0 ≤ setCompact block.nBits ∧ setCompact block.nBits ≤ setCompact q.block.nBits * 4 ∧
      setCompact block.nBits ≤ env.proofOfWorkLimit := by
  rcases getNextWorkRequired_main hnet h with hsame | ⟨span, hshort, hlong, hnew⟩
  · rw [hsame]
    exact ⟨hq, by omega, hlimit⟩
  · have hround := setCompact_getCompact_le (min (setCompact q.block.nBits * span / nTargetTimespan)
      (env.proofOfWorkLimit : Int)).toNat
    rw [← hnew, toNat_newTarget _ hq hshort] at hround
    refine ⟨hnew ▸ setCompact_getCompact_nonneg _, ?_, hround.trans (min_le_right _ _)⟩
    calc _ ≤ setCompact q.block.nBits * span / nTargetTimespan := hround.trans (min_le_left _ _)
      _ ≤ setCompact q.block.nBits * (nTargetTimespan * 4) / nTargetTimespan :=
          Int.ediv_le_ediv (by decide) (mul_le_mul_of_nonneg_left hlong hq)
      _ = setCompact q.block.nBits * 4 := by
          rw [mul_comm nTargetTimespan 4, ← mul_assoc, Int.mul_ediv_cancel _ (by decide)]

/-- The blocks above `pcheckpoint` whose target is easier than their parent's. -/
def CBlockIndex.easings (pcheckpoint : CBlockIndex) : CBlockIndex → Nat
  | .root .. => 0
  | p@(.next pprev block _) =>
    if p = pcheckpoint then 0
    else easings pcheckpoint pprev +
      if setCompact pprev.block.nBits < setCompact block.nBits then 1 else 0

theorem CBlockIndex.easings_self (p : CBlockIndex) : p.easings p = 0 := by
  cases p with
  | root block pos => rfl
  | next q block pos => rw [easings, if_pos rfl]

/-- A block eases at most once. -/
theorem CBlockIndex.easings_next_le (p q : CBlockIndex) (block : CBlock) (pos : CDiskBlockPos) :
    p.easings (.next q block pos) ≤ p.easings q + 1 := by
  rw [easings]
  split_ifs <;> omega

/-- The targets of an index are positive and not above the limit. -/
theorem TreeOK.target (tree : TreeOK env s.mapBlockIndex)
    (hgenesis : 0 < setCompact env.genesisBits ∧ setCompact env.genesisBits ≤ env.proofOfWorkLimit)
    (hp : p ∈ s.mapBlockIndex) :
    0 < setCompact p.block.nBits ∧ setCompact p.block.nBits ≤ env.proofOfWorkLimit := by
  cases hprev : p.pprev with
  | none =>
    rw [tree.root p hp hprev]
    exact hgenesis
  | some q =>
    obtain ⟨now, hchecked⟩ := tree.checked p hp q hprev
    have hpow := (checkBlock_iff.mp hchecked).pow rfl
    rw [checkProofOfWork] at hpow
    simp at hpow
    exact hpow.1

/-- One block more: its target is at most four times as easy, if easier at all. -/
theorem target_le_easings_next {cp : CBlockIndex} {base : Int}
    (hne : CBlockIndex.next q block pos ≠ cp)
    (hq : setCompact q.block.nBits ≤ base * 4 ^ cp.easings q)
    (hdue : setCompact block.nBits ≤ setCompact q.block.nBits * 4) :
    setCompact block.nBits ≤ base * 4 ^ cp.easings (.next q block pos) := by
  rw [CBlockIndex.easings, if_neg hne]
  split
  · rw [pow_succ, ← mul_assoc]
    omega
  · next heasier => exact (Int.not_lt.mp heasier).trans hq

/-- The targets above a checkpoint of the main network. -/
theorem target_le_easings {cp : CBlockIndex} (tree : TreeOK env s.mapBlockIndex)
    (due : DueWork env s.mapBlockIndex) (hnet : env.testNet = false)
    (hgenesis : 0 < setCompact env.genesisBits ∧ setCompact env.genesisBits ≤ env.proofOfWorkLimit)
    (hp : p ∈ s.mapBlockIndex) (hcp : cp ∈ p.ancestors) :
    setCompact p.block.nBits ≤ setCompact cp.block.nBits * 4 ^ cp.easings p := by
  have hbase := (tree.target hgenesis (tree.ancestors_mem hp cp hcp)).1.le
  induction p with
  | root block pos =>
    obtain rfl : cp = .root block pos := List.mem_singleton.mp hcp
    rw [CBlockIndex.easings, pow_zero, mul_one]
  | next q block pos ih =>
    by_cases hself : CBlockIndex.next q block pos = cp
    · rw [hself, CBlockIndex.easings_self, pow_zero, mul_one]
    · have hq := tree.parent _ hp q rfl
      have hbelow : cp ∈ q.ancestors :=
        (List.mem_cons.mp hcp).resolve_left fun h => hself h.symm
      have htarget := tree.target hgenesis hq
      exact target_le_easings_next hself (ih hq hbelow)
        (target_due hnet (due _ hp q rfl) htarget.1.le htarget.2).2.1

/-- **Which accepted blocks the early check lets through.** A block by the rules of `AcceptBlock`
passes iff its parent is the best block, or it is not before the checkpoint and its target is
within `easiestTarget`. The latter holds on the main network if it was eased at most once per
eight weeks. -/
theorem minWork_iff (pcheckpoint pindexPrev : CBlockIndex) (pos : CDiskBlockPos)
    (tree : TreeOK env s.mapBlockIndex)
    (due : DueWork env s.mapBlockIndex)
    (hgenesis : 0 < setCompact env.genesisBits ∧ setCompact env.genesisBits ≤ env.proofOfWorkLimit)
    (hcp : getLastCheckpoint env s = some pcheckpoint)
    (hprev : s.findBlockIndex env block.hashPrevBlock = some pindexPrev)
    (hafter : pcheckpoint ∈ pindexPrev.ancestors)
    (hcontext : checkContext env s block pindexPrev = .ok .valid) :
    (checkMinWork env s block = .valid ↔ block.hashPrevBlock = s.hashBestChain env ∨
      pcheckpoint.block.nTime ≤ block.nTime ∧ setCompact block.nBits ≤
        easiestTarget env (setCompact pcheckpoint.block.nBits)
          ((block.nTime : Int) - pcheckpoint.block.nTime)) ∧
    (env.testNet = false → pcheckpoint.block.nTime ≤ block.nTime →
      pcheckpoint.easings (.next pindexPrev block pos) ≤
        minWorkRounds ((block.nTime : Int) - pcheckpoint.block.nTime) →
      checkMinWork env s block = .valid) := by
  have hq := (findBlockIndex_some hprev).1
  have hbase := (tree.target hgenesis (tree.ancestors_mem hq _ hafter)).1.le
  have hiff := checkMinWork_iff block hcp hbase
  refine ⟨hiff, ?_⟩
  intro hnet htime hfew
  refine hiff.mpr (.inr ⟨htime, ?_⟩)
  have htarget := tree.target hgenesis hq
  obtain ⟨-, hfour, hlimit⟩ :=
    target_due hnet (checkContext_valid hcontext).1 htarget.1.le htarget.2
  have hne : CBlockIndex.next pindexPrev block pos ≠ pcheckpoint := by
    rintro rfl
    have := CBlockIndex.nHeight_le_of_mem_ancestors hafter
    rw [CBlockIndex.nHeight] at this
    omega
  rw [easiestTarget, hnet, if_neg (by simp)]
  refine le_min ?_ hlimit
  calc setCompact block.nBits
      ≤ setCompact pcheckpoint.block.nBits * 4 ^ pcheckpoint.easings (.next pindexPrev block pos) :=
        target_le_easings_next hne
          (target_le_easings tree due hnet hgenesis hq hafter) hfour
    _ ≤ _ := mul_le_mul_of_nonneg_left (pow_le_pow_right₀ (by decide) hfew) hbase

end Due

/-! ## Two blocks after a checkpoint -/

/-- A network with a checkpoint. -/
def lateNet : Env := { smallNet with checkpoints := [(2, 2)] }

/-- The first block. -/
def earlyIndex : CBlockIndex := smallIndex smallGenesis (smallBlock smallNet.genesisBlock 1 [])

/-- The checkpoint. -/
def lateIndex : CBlockIndex :=
  smallIndex earlyIndex
    { smallBlock earlyIndex.block 2 [] with nTime := smallNet.genesisTime + 6000 }

/-- A chain over it. -/
def lateState : ChainState :=
  stateAfter lateNet (fun _ _ => true) ([smallGenesis, earlyIndex, lateIndex,
    smallIndex lateIndex (smallBlock lateIndex.block 3 [])].flatMap arrive)

theorem lateState_reachable : Reachable lateNet lateState :=
  reach_stateAfter (fun _ _ _ => trivial) (by decide +kernel)

/-- A block beside the best one. -/
def besideBest (nTime : Nat) : CBlock := { smallBlock lateIndex.block 4 [] with nTime := nTime }

theorem minWork_iff_late :
    checkMinWork lateNet lateState (besideBest (smallNet.genesisTime + 6600)) = .valid := by
  obtain ⟨hcp, hprev, hcontext⟩ : getLastCheckpoint lateNet lateState = some lateIndex ∧
      lateState.findBlockIndex lateNet (besideBest (smallNet.genesisTime + 6600)).hashPrevBlock =
        some lateIndex ∧
      checkContext lateNet lateState (besideBest (smallNet.genesisTime + 6600)) lateIndex =
        .ok .valid := by
    decide +kernel
  have heasings : lateIndex.easings (.next lateIndex (besideBest (smallNet.genesisTime + 6600))
      ⟨0, 4000⟩) ≤ 1 := by
    have hone := lateIndex.easings_next_le lateIndex (besideBest (smallNet.genesisTime + 6600))
      ⟨0, 4000⟩
    rwa [CBlockIndex.easings_self] at hone
  exact (minWork_iff lateIndex lateIndex ⟨0, 4000⟩ lateState_reachable.inv.tree
    lateState_reachable.dueWork (by decide +kernel) hcp hprev
    (CBlockIndex.self_mem_ancestors lateIndex) hcontext).2 rfl (by decide +kernel)
    (heasings.trans (by decide +kernel))

/-- The time of a block need only be above the median of the last eleven. -/
theorem minWork_rejects_accepted :
    ∃ env s block pcheckpoint pindexPrev, Reachable env s ∧
      getLastCheckpoint env s = some pcheckpoint ∧
      s.findBlockIndex env block.hashPrevBlock = some pindexPrev ∧
      pcheckpoint ∈ pindexPrev.ancestors ∧
      checkContext env s block pindexPrev = .ok .valid ∧
      checkBlock env (s.adjustedTime env) block true true = .valid ∧
      checkMinWork env s block =
        .invalid 100 ["ProcessBlock() : block with timestamp before last checkpoint"] :=
  ⟨lateNet, lateState, besideBest (smallNet.genesisTime + 1200), lateIndex, lateIndex,
    lateState_reachable, by decide +kernel⟩

end CoMoNet
