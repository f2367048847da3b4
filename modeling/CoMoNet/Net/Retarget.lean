import CoMoNet.Net.MinWork

/-!
# The targets of a chain

A new target is for a clamped time span and rounded down to compact form. Along a chain
targets stay canonical, below the limit, and fall by at most a factor of four and the
rounding.
-/

namespace CoMoNet

section Compact

variable {x : Nat}

theorem getCompact_error_lt (hpos : 0 < x) :
    ((x : Int) - setCompact (getCompact x)) * 2 ^ 15 < x := by
  obtain ⟨e, hround, he⟩ := setCompact_getCompact_eq x
  rw [hround]
  have hpow : 0 < 256 ^ e := Nat.pow_pos (by decide)
  have hsplit := Nat.div_add_mod' x (256 ^ e)
  have hmod := Nat.mod_lt x hpow
  rcases he with rfl | he
  · simp [hpos]
  · omega

theorem getCompact_lt (h : x < 2 ^ 256) : getCompact x < 2 ^ 32 :=
  (getCompact_mono (Nat.le_sub_one_of_lt h)).trans_lt (by decide +kernel)

end Compact

section Chain

variable {env : Env} {s : ChainState} {block : CBlock} {p q : CBlockIndex}

/-- A target falls by at most a fourth, rounded. -/
theorem target_due_ge (hnet : env.testNet = false)
    (h : getNextWorkRequired env q block = .ok block.nBits) (hq : 0 ≤ setCompact q.block.nBits)
    (hlimit : setCompact q.block.nBits ≤ env.proofOfWorkLimit) :
    setCompact (getCompact ((setCompact q.block.nBits).toNat / 4)) ≤ setCompact block.nBits := by
  have hfourth := setCompact_getCompact_le ((setCompact q.block.nBits).toNat / 4)
  rcases getNextWorkRequired_main hnet h with hsame | ⟨span, hshort, -, hnew⟩
  · rw [hsame]
    omega
  · rw [hnew, setCompact_le_getCompact_iff, toNat_newTarget _ hq hshort]
    have hspan : setCompact q.block.nBits / 4 ≤
        setCompact q.block.nBits * span / nTargetTimespan :=
      calc setCompact q.block.nBits / 4
          = setCompact q.block.nBits * (nTargetTimespan / 4) / nTargetTimespan := by
            rw [nTargetTimespan]
            omega
        _ ≤ setCompact q.block.nBits * span / nTargetTimespan :=
            Int.ediv_le_ediv (by decide) (mul_le_mul_of_nonneg_left hshort hq)
    refine le_min (le_trans ?_ hspan) ?_
    · omega
    · omega

theorem canonical_due (hnet : env.testNet = false)
    (h : getNextWorkRequired env q block = .ok block.nBits) (hq : Canonical q.block.nBits) :
    Canonical block.nBits := by
  rcases getNextWorkRequired_main hnet h with hsame | ⟨span, -, -, hnew⟩
  · rw [hsame]
    exact hq
  · rw [hnew]
    exact canonical_getCompact _

theorem targets_canonical (tree : TreeOK env s.mapBlockIndex) (due : DueWork env s.mapBlockIndex)
    (hnet : env.testNet = false) (hgenesis : Canonical env.genesisBits)
    (hlimit : setCompact env.genesisBits ≤ env.proofOfWorkLimit) (hp : p ∈ s.mapBlockIndex) :
    Canonical p.block.nBits ∧ setCompact p.block.nBits ≤ env.proofOfWorkLimit := by
  induction p with
  | root block pos =>
    rw [tree.root _ hp rfl]
    exact ⟨hgenesis, hlimit⟩
  | next q block pos ih =>
    obtain ⟨hq, hqlimit⟩ := ih (tree.parent _ hp q rfl)
    have hdue := due _ hp q rfl
    exact ⟨canonical_due hnet hdue hq, (target_due hnet hdue hq.nonneg hqlimit).2.2⟩

/-- **Targets.** `GetCompact` rounds down by less than one part in `2 ^ 15`, is idempotent and
monotone. From a canonical genesis target within the limit, targets of the main network stay
canonical and within it, rise at most fourfold and fall at most to a fourth, rounded. -/
theorem compact_targets (hreach : Reachable env s) (hnet : env.testNet = false)
    (hgenesis : Canonical env.genesisBits)
    (hlimit : setCompact env.genesisBits ≤ env.proofOfWorkLimit) :
    (∀ x : Nat, x < 2 ^ 256 →
      getCompact x < 2 ^ 32 ∧
      0 ≤ setCompact (getCompact x) ∧ setCompact (getCompact x) ≤ x ∧
      (0 < x → ((x : Int) - setCompact (getCompact x)) * 2 ^ 15 < x) ∧
      getCompact (setCompact (getCompact x)).toNat = getCompact x) ∧
    (∀ x y : Nat, x ≤ y → y < 2 ^ 256 → getCompact x ≤ getCompact y) ∧
    ∀ p ∈ s.mapBlockIndex, Canonical p.block.nBits ∧ ∀ q, p.pprev = some q →
      setCompact p.block.nBits ≤ env.proofOfWorkLimit ∧
      setCompact p.block.nBits ≤ setCompact q.block.nBits * 4 ∧
      setCompact (getCompact ((setCompact q.block.nBits).toNat / 4)) ≤
        setCompact p.block.nBits := by
  refine ⟨?_, fun x y h _ => getCompact_mono h, ?_⟩
  · intro x hx
    exact ⟨getCompact_lt hx, setCompact_getCompact_nonneg x, setCompact_getCompact_le x,
      getCompact_error_lt, canonical_getCompact x⟩
  · intro p hp
    have tree := hreach.inv.tree
    have due := hreach.dueWork
    refine ⟨(targets_canonical tree due hnet hgenesis hlimit hp).1, ?_⟩
    intro q hq
    obtain ⟨hcanonical, hqlimit⟩ :=
      targets_canonical tree due hnet hgenesis hlimit (tree.parent p hp q hq)
    have hbounds := target_due hnet (due p hp q hq) hcanonical.nonneg hqlimit
    exact ⟨hbounds.2.2, hbounds.2.1,
      target_due_ge hnet (due p hp q hq) hcanonical.nonneg hqlimit⟩

end Chain

/-- The checkpoint of the small network and its parent. -/
theorem compact_targets_late : Canonical lateIndex.block.nBits ∧
    setCompact lateIndex.block.nBits ≤ setCompact earlyIndex.block.nBits * 4 := by
  have hmem : lateIndex ∈ lateState.mapBlockIndex := by decide +kernel
  obtain ⟨hcanonical, hbounds⟩ := (compact_targets lateState_reachable rfl
    (by rw [Canonical]; decide +kernel) (by decide +kernel)).2.2 lateIndex hmem
  exact ⟨hcanonical, (hbounds earlyIndex rfl).2.1⟩

end CoMoNet
