import CoMoNet.Chain.Run

/-!
# Arriving blocks make runs

Whatever a node does when blocks are delivered to it is a run of `chainSystem`
(`deliverAll_reachable`).
-/

namespace CoMoNet

/-- A state of a run. -/
def Reachable (env : Env) (s : ChainState) : Prop :=
  (chainSystem env).Reach (fun _ _ => True) s

section Arrival

variable {env : Env} {fuel rounds : Nat} {s s' : ChainState} {b : Bool} {p : CBlockIndex}
variable {block : CBlock} {pos : CDiskBlockPos}
variable {vAttach : List CBlockIndex}

theorem Reachable.inv (h : Reachable env s) : ChainInv env s := by
  refine h.invariant ?_ fun s a s' hs _ hstep => chainInv_step hs hstep
  rintro s rfl
  exact chainInv_init env

theorem CallOutcome.map {plan : Reorg} {pfork : Option CBlockIndex}
    (ok : PlanOK s p plan pfork) (h : CallOutcome env fuel s p plan pfork b s') :
    s'.mapBlockIndex = s.mapBlockIndex := by
  cases h with
  | short hlen hsame => exact hsame.map
  | stuck hlen hdis =>
    exact (ok.marked.toSameChain.trans (disconnectBlocks_sameChain hdis)).map
  | rejected hlen hdis hcon hsame =>
    have hsame₂ := ok.marked.toSameChain.trans (disconnectBlocks_sameChain hdis)
    exact ((hsame₂.trans (frame_sameChain.rejected hcon)).trans hsame.toSameChain).map
  | switched hlen hdis hcon hsw =>
    have hsame₂ := ok.marked.toSameChain.trans (disconnectBlocks_sameChain hdis)
    rw [(switchChain_spec hsw).1, (hsame₂.trans (connectBlocks_view hcon).1).map]

theorem setBestChain_reachable (h : Reachable env s) (hp : p ∈ s.mapBlockIndex)
    (hcall : setBestChain env fuel rounds s p = .ok (b, s')) :
    Reachable env s' ∧ s'.mapBlockIndex = s.mapBlockIndex := by
  obtain ⟨plan, pfork, -, ok, hout⟩ := setBestChainWith_cases h.inv hp hcall
  exact ⟨.step h trivial (a := .setBestChain fuel rounds p) ⟨hp, b, hcall⟩, hout.map ok⟩

/-- What each call keeps holds after the last of a list of calls. -/
theorem setBestChains_rule {P : ChainState → Prop} {ps : List CBlockIndex}
    (hcall : ∀ p ∈ ps, ∀ s b s', P s → setBestChain env fuel rounds s p = .ok (b, s') → P s')
    (hP : P s) (h : setBestChains (setBestChain env fuel rounds) s ps = .ok (b, s')) : P s' := by
  induction ps generalizing s with
  | nil =>
    simp only [setBestChains, Except.ok.injEq, Prod.mk.injEq] at h
    exact h.2 ▸ hP
  | cons p ps ih =>
    rw [setBestChains] at h
    cases hone : setBestChain env fuel rounds s p with
    | error e => simp [hone] at h
    | ok r =>
      obtain ⟨b₁, s₁⟩ := r
      have h₁ := hcall p List.mem_cons_self s b₁ s₁ hP hone
      cases b₁ with
      | false =>
        simp only [hone, Except.ok.injEq, Prod.mk.injEq] at h
        exact h.2 ▸ h₁
      | true =>
        simp only [hone] at h
        exact ih (fun q hq => hcall q (List.mem_cons_of_mem _ hq)) h₁ h

theorem bestCandidate_mem : ∀ {ps : List CBlockIndex}, bestCandidate env ps = some p → p ∈ ps
  | q :: ps, h => by
    rw [bestCandidate] at h
    split at h
    · cases h
      exact List.mem_cons_self
    · rename_i q' hq'
      split at h
      · cases h
        exact List.mem_cons_of_mem _ (bestCandidate_mem hq')
      · cases h
        exact List.mem_cons_self

/-- The block has more work than the tip. -/
def heavier (s : ChainState) (p : CBlockIndex) : Bool :=
  match s.pindexBest with
  | none => true
  | some best => best.nChainWork < p.nChainWork

theorem attachIf_eq (s : ChainState) (p : CBlockIndex) (vAttach : List CBlockIndex) :
    checkAncestry.attachIf s p vAttach = vAttach ++ [p].filter (heavier s) := by
  rw [checkAncestry.attachIf, List.filter_singleton, heavier]
  cases s.pindexBest with
  | none => rfl
  | some best => by_cases hlt : best.nChainWork < p.nChainWork <;> simp [hlt]

/-- A walk to the main chain: no block is marked, and heavier ones are attached, lowest first. -/
theorem checkAncestry_path {q : CBlockIndex} {walked ps : List CBlockIndex}
    (h : checkAncestry s q walked vAttach = .attach ps) :
    ∃ path below, q.ancestors = q :: path ++ below ∧
      (∀ a ∈ q :: path, (s.nStatus a).failed = false) ∧
      ps = (vAttach ++ (q :: path).filter (heavier s)).reverse ∧
      ∀ a ∈ below, ∃ c, s.isInMainChain c = true ∧ a ∈ c.ancestors := by
  induction q generalizing walked vAttach with
  | root block pos =>
    rw [checkAncestry] at h
    split at h
    · cases h
    · rename_i hok
      cases h
      refine ⟨[], [], rfl, ?_, by rw [attachIf_eq], by simp⟩
      intro a ha
      rw [List.mem_singleton.mp ha]
      exact Bool.eq_false_of_not_eq_true hok
  | next pprev block pos ih =>
    rw [checkAncestry] at h
    split at h
    · cases h
    rename_i hok
    have hok' : (s.nStatus (.next pprev block pos)).failed = false :=
      Bool.eq_false_of_not_eq_true hok
    split at h
    · rename_i hnext
      cases h
      have hmain : s.isInMainChain (.next pprev block pos) = true := by
        rw [ChainState.getNextInMainChain] at hnext
        split at hnext
        · assumption
        · cases hnext
      refine ⟨[], pprev.ancestors, rfl, ?_, by rw [attachIf_eq], fun a ha => ?_⟩
      · intro a ha
        rw [List.mem_singleton.mp ha]
        exact hok'
      · exact ⟨_, hmain, List.mem_cons_of_mem _ ha⟩
    · obtain ⟨path, below, hpath, hclean, hps, hbelow⟩ := ih h
      refine ⟨pprev :: path, below, ?_, ?_, ?_, hbelow⟩
      · rw [CBlockIndex.ancestors, hpath]
        rfl
      · intro a ha
        rcases List.mem_cons.mp ha with rfl | ha
        · exact hok'
        · exact hclean a ha
      · rw [hps, attachIf_eq, List.append_assoc, ← List.filter_append]
        rfl

/-- What `ConnectBestBlock` attaches are ancestors of the candidate. -/
theorem checkAncestry_mem {q : CBlockIndex} {ps : List CBlockIndex}
    (h : checkAncestry s q [] [] = .attach ps) :
    ∀ p ∈ ps, p ∈ q.ancestors := by
  obtain ⟨path, below, hpath, -, rfl, -⟩ := checkAncestry_path h
  intro p hp
  rw [List.nil_append, List.mem_reverse] at hp
  rw [hpath]
  exact List.mem_append_left _ (List.mem_filter.mp hp).1

/-- What is kept by giving a candidate up and by every call for its ancestors holds at the end. -/
theorem connectBestBlock_rule {P : ChainState → Prop}
    (hmark : ∀ s q descendants s', P s → q ∈ s.setBlockIndexValid →
      checkAncestry s q [] [] = .failed descendants →
      invalidChainFound (descendants.foldl markFailedChild s) q = .ok s' → P s')
    (hcall : ∀ s₀ q, P s₀ → q ∈ s₀.setBlockIndexValid → ∀ p ∈ q.ancestors, ∀ rounds s b s',
      P s → setBestChain env fuel rounds s p = .ok (b, s') → P s')
    (hP : P s) (h : connectBestBlock env fuel rounds s = .ok (b, s')) : P s' := by
  induction rounds generalizing s with
  | zero => cases h
  | succ rounds ih =>
    rw [connectBestBlock] at h
    split at h
    · cases h
      exact hP
    rename_i q hq
    have hmem := bestCandidate_mem hq
    split at h
    · cases h
      exact hP
    split at h
    · rename_i descendants hfailed
      split at h
      · cases h
      rename_i s₁ hfound
      exact ih (hmark s q descendants s₁ hP hmem hfailed hfound) h
    · rename_i ps hattach
      refine setBestChains_rule (fun p hp t c t' ht hone => ?_) hP h
      exact hcall s q hP hmem p (checkAncestry_mem hattach p hp) rounds t c t' ht hone

/-- A search is a run. -/
theorem connectBestBlock_reachable (h : Reachable env s)
    (hcall : connectBestBlock env fuel rounds s = .ok (b, s')) :
    Reachable env s' ∧ s'.mapBlockIndex = s.mapBlockIndex := by
  refine connectBestBlock_rule
    (P := fun t => Reachable env t ∧ t.mapBlockIndex = s.mapBlockIndex) ?_ ?_ ⟨h, rfl⟩ hcall
  · intro t q descendants t' ⟨ht, hmap⟩ _ _ hfound
    have hsame := (sameIndex_markFailed descendants t).trans (sameIndex_invalidChainFound hfound)
    exact ⟨.step (a := .mark) ht trivial (hsame.step env), hsame.map.trans hmap⟩
  · intro t₀ q ⟨ht₀, hmap₀⟩ hq p hp rounds t c t' ⟨ht, hmap⟩ hone
    have hmem : p ∈ t.mapBlockIndex := by
      rw [hmap, ← hmap₀]
      exact ht₀.inv.tree.ancestors_mem (ht₀.inv.cands hq) p hp
    obtain ⟨ht', hmap'⟩ := setBestChain_reachable ht hmem hone
    exact ⟨ht', hmap'.trans hmap⟩

/-- An arrival is a run. -/
theorem acceptBlock_reachable (h : Reachable env s)
    (hcheck : checkBlock env (s.adjustedTime env) block true true = .valid)
    (hgen : env.blockHash block = env.hashGenesisBlock → block = env.genesisBlock)
    (hfresh : ∀ p ∈ s.mapBlockIndex, p.pos ≠ pos)
    (hcall : acceptBlock env fuel rounds s block pos = .ok (b, s')) :
    Reachable env s' ∧ ∀ p ∈ s'.mapBlockIndex, p ∈ s.mapBlockIndex ∨ p.pos = pos := by
  rw [acceptBlock] at hcall
  split at hcall
  · cases hcall
  · cases hcall
    exact ⟨h, fun p hp => .inl hp⟩
  rename_i hacc
  have haccepts : Accepts env s block pos := ⟨hacc, fun _ => hcheck, hgen, hfresh⟩
  have hone : Reachable env (insertBlockIndex s (newBlockIndex env s block pos)) :=
    .step h trivial (a := .accept block pos) ⟨haccepts, rfl⟩
  have hnew : ∀ p ∈ (insertBlockIndex s (newBlockIndex env s block pos)).mapBlockIndex,
      p ∈ s.mapBlockIndex ∨ p.pos = pos := by
    intro p hp
    rcases List.mem_cons.mp hp with rfl | hp
    · right
      rw [newBlockIndex]
      split <;> rfl
    · exact .inl hp
  have hadd : ∀ {b s₁}, addToBlockIndex env fuel rounds s block pos = .ok (b, s₁) →
      Reachable env s₁ ∧ ∀ p ∈ s₁.mapBlockIndex, p ∈ s.mapBlockIndex ∨ p.pos = pos := by
    intro b s₁ hadd
    rw [addToBlockIndex] at hadd
    split at hadd
    · cases hadd
      exact ⟨h, fun p hp => .inl hp⟩
    · obtain ⟨h₁, hmap⟩ := connectBestBlock_reachable hone hadd
      exact ⟨h₁, hmap ▸ hnew⟩
  split at hcall
  · cases hcall
  · rename_i s₁ h₁
    cases hcall
    exact hadd h₁
  · rename_i s₁ h₁
    obtain ⟨hreach, hpos⟩ := hadd h₁
    obtain ⟨s₂, hsoft, hcall⟩ := Except.map_eq_ok_iff.mp hcall
    cases hcall
    rw [setSoftCPBestChain] at hsoft
    split at hsoft
    · cases hsoft
      exact ⟨hreach, hpos⟩
    split at hsoft
    · cases hsoft
      exact ⟨hreach, hpos⟩
    rename_i q hq
    split at hsoft
    · cases hsoft
      exact ⟨hreach, hpos⟩
    obtain ⟨r, hbest, hsoft⟩ := Except.map_eq_ok_iff.mp hsoft
    subst hsoft
    obtain ⟨h₂, hmap⟩ := setBestChain_reachable hreach (findBlockIndex_some hq).1 hbest
    exact ⟨h₂, hmap ▸ hpos⟩

/-- Whatever blocks are delivered, in any order and at any times, the node makes a run. Blocks
have places of their own, and only the genesis block has its hash. -/
theorem deliverAll_reachable {arrivals : List Arrival} (h : Reachable env s)
    (hgen : ∀ a ∈ arrivals,
      env.blockHash a.block = env.hashGenesisBlock → a.block = env.genesisBlock)
    (hpos : (arrivals.map Arrival.pos).Nodup)
    (hfresh : ∀ p ∈ s.mapBlockIndex, p.pos ∉ arrivals.map Arrival.pos)
    (hcall : deliverAll env fuel rounds s arrivals = .ok s') : Reachable env s' := by
  induction arrivals generalizing s with
  | nil =>
    rw [deliverAll, Except.ok.injEq] at hcall
    exact hcall ▸ h
  | cons a arrivals ih =>
    rw [List.map_cons, List.nodup_cons] at hpos
    have hfresh' : ∀ p ∈ s.mapBlockIndex, p.pos ∉ arrivals.map Arrival.pos :=
      fun p hp hin => hfresh p hp (List.mem_cons_of_mem _ hin)
    have hgen' := fun a ha => hgen a (List.mem_cons_of_mem _ ha)
    have hclock : Reachable env { s with clock := a.clock } :=
      .step (a := .mark) h trivial (chainStep_clock env s a.clock)
    rw [deliverAll, deliver] at hcall
    cases hcheck : checkBlock env (ChainState.adjustedTime env { s with clock := a.clock })
        a.block true true with
    | invalid nDoS errors =>
      simp only [hcheck] at hcall
      exact ih hclock hgen' hpos.2 hfresh' hcall
    | valid =>
      simp only [hcheck] at hcall
      split at hcall
      · cases hcall
      · rename_i b s₁ hone
        obtain ⟨h₁, hmap⟩ := acceptBlock_reachable hclock hcheck (hgen a List.mem_cons_self)
          (fun p hp heq => hfresh p hp (heq ▸ List.mem_cons_self)) hone
        refine ih h₁ hgen' hpos.2 (fun p hp hin => ?_) hcall
        rcases hmap p hp with hp | hp
        · exact hfresh' p hp hin
        · exact hpos.1 (hp ▸ hin)

/-- A block that comes before its parent is turned away. -/
theorem deliverAll_reachable_early : ∃ s, s.nBestHeight = 1 ∧ Reachable smallNet s := by
  let blocks := [smallBlock smallNet.genesisBlock 2 [], smallNet.genesisBlock,
    smallBlock smallNet.genesisBlock 3 []]
  obtain ⟨s, hs, hbest⟩ : ∃ s, deliverAll smallNet 8 8 {}
      (blocks.map fun block => { block, pos := smallPos block }) = .ok s ∧ s.nBestHeight = 1 :=
    Except.toOption_map_eq_some_iff.mp (by decide +kernel)
  exact ⟨s, hbest, deliverAll_reachable (.init rfl) (by decide +kernel) (by decide +kernel)
    (by simp) hs⟩

end Arrival

end CoMoNet
