import CoMoNet.Chain.MostWork
import CoMoNet.Chain.Lookup

/-!
# Blocks that become the tip

Calls return for blocks with only a spam message by nobody (`setBestChain_plain`) and
for those rejected out of hand (`setBestChain_reject`). With no failed block, an arrival
is the call with the new block if it has more work, and nothing else.
-/

namespace CoMoNet

open CBlockIndex (above ancestorsOf findFork_spec length_ancestors self_mem_ancestors)

/-- Only a spam message by nobody. -/
def CBlock.isPlain (block : CBlock) : Bool :=
  match block.vtx with
  | [spam] => spam.isSpamMessage && CScript.extractPushDataString spam.userName 0 == ascii "nobody"
  | _ => false

section Plain

variable {env : Env} {fuel rounds : Nat} {s s' : ChainState} {p q x : CBlockIndex}
variable {view : Option CBlockIndex} {ps : List CBlockIndex}

theorem CBlock.isPlain_iff {block : CBlock} : block.isPlain = true ↔
    ∃ spam, block.vtx = [spam] ∧ spam.isSpamMessage = true ∧
      CScript.extractPushDataString spam.userName 0 = ascii "nobody" := by
  rw [isPlain]
  split
  · rename_i spam hvtx
    rw [Bool.and_eq_true, beq_iff_eq]
    constructor
    · intro h
      exact ⟨spam, hvtx, h⟩
    · rintro ⟨spam', hvtx', h⟩
      obtain rfl : spam = spam' := by
        rw [hvtx] at hvtx'
        exact (List.cons.inj hvtx').1
      exact h
  · rename_i hvtx
    constructor
    · intro h
      cases h
    · rintro ⟨spam, hvtx', -⟩
      exact absurd hvtx' (hvtx spam)

theorem registers_of_isPlain {u : Bytes} (h : p.block.isPlain = true) : p.registers u = false := by
  obtain ⟨spam, hvtx, hspam, -⟩ := CBlock.isPlain_iff.mp h
  rw [CBlockIndex.registers, CBlock.txFor, hvtx]
  simp [CTransaction.registers, hspam]

/-- A block of one transaction passes. -/
theorem checkBlock_single {now : Int} {block : CBlock} {spam : CTransaction}
    (hvtx : block.vtx = [spam]) (hspam : spam.isSpamMessage = true)
    (hchecked : checkTransactions env [spam] = .valid) (hsize : block.serializeSize ≤ maxBlockSize)
    (hpow : checkProofOfWork env (env.powHash block.toCBlockHeader) block.nBits = true)
    (htime : (block.nTime : Int) ≤ now + 2 * 60 * 60)
    (hroot : block.hashMerkleRoot = env.txHash spam) :
    checkBlock env now block true true = .valid :=
  checkBlock_iff.mpr
    { nonempty := by simp [hvtx]
      size := hsize
      pow := fun _ => hpow
      time := htime
      head := by simp [hvtx, hspam]
      tail := by simp [hvtx]
      checked := by
        rw [hvtx]
        exact checkTransactions_iff.mp hchecked
      ids := by simp [hvtx]
      users := by simp [hvtx]
      merkle := by
        rw [hvtx]
        exact fun _ => hroot }

/-! ## Connecting -/

/-- Plain blocks are connected. -/
theorem connectBlock_plain
    (hcheck : checkBlock env (s.adjustedTime env) p.block true true = .valid)
    (hplain : p.block.isPlain = true) :
    ∃ s', connectBlock env fuel s p.pprev p.block p false = .ok (.valid, s', some p) := by
  obtain ⟨spam, hvtx, -, hnobody⟩ := CBlock.isPlain_iff.mp hplain
  have hsigner : checkSpamSigner env fuel s p.block spam = .ok .valid := by
    rw [checkSpamSigner, hnobody]
    rfl
  have hchecks : connectChecks env fuel s p.block = .ok (.valid, s) := by
    simp only [connectChecks, hvtx, hsigner, checkOverwrites]
  rw [connectBlock]
  simp only [Bool.not_false, hcheck, ne_eq, not_true_eq_false, if_false]
  split
  · exact ⟨s, rfl⟩
  · rw [hchecks]
    exact ⟨connectWrites s p.block p, rfl⟩

/-- An unsigned one is rejected. -/
theorem connectBlock_unsigned {spam : CTransaction} {vtx : List CTransaction}
    (hcheck : checkBlock env (s.adjustedTime env) p.block true true = .valid)
    (hvtx : p.block.vtx = spam :: vtx)
    (hgen : env.blockHash p.block ≠ env.hashGenesisBlock)
    (huser : CScript.extractPushDataString spam.userName 0 ≠ ascii "nobody")
    (hsig : CScript.extractPushDataString spam.userName 1 = []) :
    connectBlock env fuel s p.pprev p.block p false =
      .ok (.invalid 100 ["ConnectBlock() : spam signature missing"], s, p.pprev) := by
  have hsigner : checkSpamSigner env fuel s p.block spam =
      .ok (.invalid 100 ["ConnectBlock() : spam signature missing"]) := by
    rw [checkSpamSigner, if_neg huser, if_pos hsig]
  have hchecks : connectChecks env fuel s p.block =
      .ok (.invalid 100 ["ConnectBlock() : spam signature missing"], s) := by
    simp only [connectChecks, hvtx, hsigner]
  rw [connectBlock]
  simp only [Bool.not_false, hcheck, ne_eq, not_true_eq_false, if_false, hgen, hchecks]

/-- Plain branches are connected. -/
theorem connectBlocks_plain (hpath : ancestorsOf (some x) =
      ps.reverse ++ ancestorsOf view)
    (hcheck : ∀ p ∈ ps, checkBlock env (s.adjustedTime env) p.block true true = .valid)
    (hplain : ∀ p ∈ ps, p.block.isPlain = true) :
    ∃ s' view', connectBlocks env fuel s view ps = .ok (.all s' view') := by
  induction ps generalizing s view with
  | nil => exact ⟨s, view, rfl⟩
  | cons p ps ih =>
    have hsplit : x.ancestors = ps.reverse ++ p :: ancestorsOf view := by
      rw [ancestorsOf, List.reverse_cons, List.append_assoc] at hpath
      exact hpath
    have hbelow : p.pprev = view :=
      CBlockIndex.ancestorsOf_injective (CBlockIndex.ancestors_split hsplit)
    obtain ⟨s₁, hone⟩ :
        ∃ s₁, connectBlock env fuel s p.pprev p.block p false = .ok (.valid, s₁, some p) :=
      connectBlock_plain (hcheck p List.mem_cons_self) (hplain p List.mem_cons_self)
    have hclock : s₁.adjustedTime env = s.adjustedTime env :=
      (connectBlock_sameChain hone).adjustedTime env
    have hrest : ancestorsOf (some x) =
        ps.reverse ++ ancestorsOf (some p) := by
      rw [ancestorsOf, ancestorsOf, CBlockIndex.ancestors_eq p, hbelow]
      exact hsplit
    obtain ⟨s₂, view₂, hrest⟩ := ih (s := s₁) hrest
      (fun q hq => hclock.symm ▸ hcheck q (List.mem_cons_of_mem _ hq))
      (fun q hq => hplain q (List.mem_cons_of_mem _ hq))
    refine ⟨s₂, view₂, ?_⟩
    rw [connectBlocks, ← hbelow, hone]
    exact hrest

theorem resurrectable_plain (h : ∀ p ∈ ps, p.block.isPlain = true) : resurrectable env ps = [] := by
  rw [resurrectable, List.flatMap_eq_nil_iff]
  intro p hp
  obtain ⟨spam, hvtx, hspam, -⟩ := CBlock.isPlain_iff.mp (h p hp)
  rw [hvtx, List.filter_singleton, hspam]
  rfl

theorem planReorg_returns (inv : ChainInv env s) (hp : p ∈ s.mapBlockIndex) :
    ∃ plan, planReorg s p = .ok plan := by
  have hfork : ∃ pfork, forkWith s.coinsTip p = .ok pfork := by
    cases htip : s.coinsTip with
    | none => exact ⟨none, rfl⟩
    | some tip =>
      have hroot : p.rootOf = tip.rootOf := inv.tree.rootOf_eq hp (inv.tip tip htip)
      obtain ⟨f, hf, -⟩ := findFork_spec tip.rootOf_mem_ancestors
        (hroot ▸ p.rootOf_mem_ancestors)
      exact ⟨some f, by rw [forkWith, hf]⟩
  obtain ⟨pfork, hfork⟩ := hfork
  rw [planReorg, hfork]
  exact ⟨_, rfl⟩

/-! ## Whole calls -/

/-- A branch of plain blocks takes the place of one that is not longer. -/
theorem setBestChain_plain (inv : CallInv env s) (hp : p ∈ s.mapBlockIndex) (hclean : Clean s p)
    (hlong : (ancestorsOf s.coinsTip).length ≤ p.ancestors.length)
    (hnew : ∀ q ∈ p.ancestors, q ∉ ancestorsOf s.coinsTip → q.block.isPlain = true ∧
      checkBlock env (s.adjustedTime env) q.block true true = .valid)
    (hold : ∀ q ∈ ancestorsOf s.coinsTip, q ∉ p.ancestors → q.block.isPlain = true) :
    ∃ s', setBestChain env fuel rounds s p = .ok (true, s') := by
  obtain ⟨plan, hplan⟩ := planReorg_returns inv.inv hp
  obtain ⟨pfork, hmarked, htip, hpath, hfresh, hfork⟩ := planReorg_clean
    (fun tip htip => inv.inv.tree.rootOf_eq hp (inv.inv.tip tip htip)) hclean hplan
  have hlen : ¬plan.vConnect.length < plan.vDisconnect.length := by
    rw [htip, hpath, List.length_append, List.length_append, List.length_reverse] at hlong
    omega
  obtain ⟨s₂, hdis, -⟩ := inv.undo.disconnectBlocks htip hfork fun q hq =>
    inv.inv.ancestorsOf_mem q (htip ▸ List.mem_append_left _ hq)
  have hnew' : ∀ q ∈ plan.vConnect, q.block.isPlain = true ∧
      checkBlock env (s₂.adjustedTime env) q.block true true = .valid := by
    intro q hq
    rw [(disconnectBlocks_sameChain hdis).adjustedTime]
    refine hnew q ?_ (hfresh q hq)
    rw [hpath]
    exact List.mem_append_left _ (List.mem_reverse.mpr hq)
  obtain ⟨s₃, view₃, hcon⟩ :
      ∃ s₃ view₃, connectBlocks env fuel s₂ pfork plan.vConnect = .ok (.all s₃ view₃) :=
    connectBlocks_plain hpath (fun q hq => (hnew' q hq).2) (fun q hq => (hnew' q hq).1)
  have hplainOld : ∀ q ∈ plan.vDisconnect, q.block.isPlain = true := by
    intro q hq
    refine hold q (htip ▸ List.mem_append_left _ hq) fun hqp => ?_
    rw [hpath] at hqp
    rcases List.mem_append.mp hqp with hqp | hqp
    · exact hfresh q (List.mem_reverse.mp hqp) (htip ▸ List.mem_append_left _ hq)
    · have hsorted := CBlockIndex.ancestorsOf_sorted s.coinsTip
      rw [htip] at hsorted
      exact absurd ((List.pairwise_append.mp hsorted).2.2 q hq q hqp) (Nat.lt_irrefl _)
  rw [setBestChain, setBestChainWith, hplan]
  simp only [hlen, if_false, hmarked, hdis, hcon, switchChain, resurrectable_plain hplainOld,
    resurrect, Except.map]
  exact ⟨_, rfl⟩

/-- The fork with a child of the tip is the tip, so nothing is disconnected. -/
theorem planReorg_child (hpprev : p.pprev = s.coinsTip) :
    planReorg s p =
      .ok ⟨[], (collectConnect s [] [p]).1.reverse, (collectConnect s [] [p]).2⟩ := by
  have hself : ∀ q : CBlockIndex, q.above (some q) = [] := by
    intro q
    cases q <;> exact if_pos rfl
  rw [planReorg, ← hpprev]
  cases p with
  | root block pos => rfl
  | next tip block pos =>
    have hmem : tip ∈ (CBlockIndex.next tip block pos).ancestors :=
      List.mem_cons_of_mem _ (self_mem_ancestors tip)
    obtain ⟨f, hf, hftip, -, hmax⟩ :=
      findFork_spec (self_mem_ancestors tip) hmem
    obtain rfl : tip = f := by
      have htip := hmax tip (self_mem_ancestors tip) hmem
      exact (CBlockIndex.eq_self_of_nHeight_le hftip
        (CBlockIndex.nHeight_le_of_mem_ancestors htip)).symm
    have habove : (CBlockIndex.next tip block pos).above (some tip) = [.next tip block pos] := by
      rw [above, if_neg, hself tip]
      intro heq
      have hheight := congrArg CBlockIndex.nHeight (Option.some.inj heq)
      rw [CBlockIndex.nHeight] at hheight
      omega
    simp only [CBlockIndex.pprev, forkWith, hf, habove, hself tip]

/-- A block that is not in the main chain is marked, and that is all. -/
theorem invalidBlockFound_returns
    {connectBestBlock : ChainState → Except Halt (Bool × ChainState)} (hbest : s.pindexBest ≠ none)
    (hp : s.isInMainChain p = false) : ∃ s', invalidBlockFound connectBestBlock s p = .ok s' := by
  obtain ⟨best, hbest⟩ := Option.ne_none_iff_exists'.mp hbest
  have hnext : ∀ t : ChainState, t.vBlockIndexByHeight = s.vBlockIndexByHeight →
      t.getNextInMainChain p = none := by
    intro t ht
    rw [ChainState.getNextInMainChain, ChainState.isInMainChain, ht]
    refine if_neg ?_
    rw [← ChainState.isInMainChain, hp]
    exact Bool.false_ne_true
  simp only [invalidBlockFound, invalidChainFound, ChainState.writeBlockIndex,
    ChainState.setStatus, hbest]
  split
  · exact ⟨_, rfl⟩
  · rename_i q hq
    exact absurd (hq.symm.trans (hnext _ rfl)) (Option.some_ne_none q)

/-- A rejected block changes no index. -/
theorem setBestChain_reject {nDoS : Nat} {errors : List String} (inv : CallInv env s)
    (hfailed : (s.nStatus p).failed = false) (hpprev : p.pprev = s.coinsTip)
    (hbest : s.pindexBest ≠ none)
    (hbad : connectBlock env fuel s s.coinsTip p.block p false =
      .ok (.invalid nDoS errors, s, s.coinsTip)) :
    ∃ s', setBestChain env fuel rounds s p = .ok (false, s') ∧ SameIndex s s' := by
  have hmain : s.isInMainChain p = false := by
    rw [← Bool.not_eq_true, inv.inv.isInMainChain_iff, ← hpprev]
    intro hmem
    exact absurd (nHeight_lt_of_mem_pprev hmem) (Nat.lt_irrefl _)
  have hplan : planReorg s p = .ok ⟨[], [p], s⟩ := by
    have hcollect : collectConnect s [] [p] = ([p], s) :=
      collectConnect_clean [p] s [] fun q hq => by rw [List.mem_singleton.mp hq, hfailed]
    rw [planReorg_child hpprev, hcollect]
    rfl
  obtain ⟨s₁, hfound⟩ : ∃ s₁, invalidChainFound s p = .ok s₁ := by
    obtain ⟨best, hbest⟩ := Option.ne_none_iff_exists'.mp hbest
    rw [invalidChainFound, hbest]
    exact ⟨_, rfl⟩
  have hsame₁ := sameIndex_invalidChainFound hfound
  have hmain₁ : s₁.isInMainChain p = false := by rw [hsame₁.isInMainChain, hmain]
  obtain ⟨s₂, hinv⟩ :
      ∃ s₂, invalidBlockFound (connectBestBlock env fuel rounds) s₁ p = .ok s₂ :=
    invalidBlockFound_returns (hsame₁.best ▸ hbest) hmain₁
  refine ⟨s₂, ?_, hsame₁.trans (sameIndex_invalidBlockFound hmain₁ hinv)⟩
  rw [setBestChain, setBestChainWith, hplan]
  simp only [disconnectBlocks, connectBlocks, hbad, hfound, hinv, Except.map, List.length_nil,
    List.length_singleton, Nat.not_lt_zero, if_false]

/-- A call with a failed block on the tip connects nothing and returns true. -/
theorem setBestChain_failed (hfailed : (s.nStatus p).failed = true)
    (hpprev : p.pprev = s.coinsTip) :
    ∃ s', setBestChain env fuel rounds s p = .ok (true, s') ∧ s'.coinsTip = s.coinsTip ∧
      s'.pindexBest = some p := by
  have hplan : planReorg s p = .ok ⟨[], [], markFailedChild s p⟩ := by
    have hcollect : collectConnect s [] [p] = ([], markFailedChild s p) := by
      rw [collectConnect, if_pos hfailed]
      rfl
    rw [planReorg_child hpprev, hcollect]
    rfl
  obtain ⟨s₁, hsw⟩ : ∃ s₁, switchChain env fuel (markFailedChild s p) s.coinsTip [] [] p = .ok s₁ :=
    ⟨_, rfl⟩
  refine ⟨s₁, ?_, (switchChain_spec hsw).2.2.2.1, (switchChain_spec hsw).2.2.2.2.1⟩
  rw [setBestChain, setBestChainWith, hplan]
  simp only [disconnectBlocks, connectBlocks, hsw, Except.map, List.length_nil, Nat.lt_irrefl,
    if_false]

end Plain

/-! ## Arrivals -/

/-- No block has failed. -/
def Unfailed (s : ChainState) : Prop := ∀ p ∈ s.mapBlockIndex, (s.nStatus p).failed = false

section Arrival

variable {env : Env} {fuel rounds : Nat} {s s' : ChainState} {p q x : CBlockIndex}
variable {block : CBlock} {pos : CDiskBlockPos}

theorem Unfailed.clean (h : Unfailed s) (inv : ChainInv env s) (hp : p ∈ s.mapBlockIndex) :
    Clean s p :=
  fun a ha => h a (inv.tree.ancestors_mem hp a ha)

theorem Unfailed.insert (h : Unfailed s) (inv : ChainInv env s) (hacc : Accepts env s block pos) :
    Unfailed (insertBlockIndex s (newBlockIndex env s block pos)) := by
  intro p hp
  rcases List.mem_cons.mp hp with rfl | hp
  · have hself : (insertBlockIndex s (newBlockIndex env s block pos)).nStatus
        (newBlockIndex env s block pos) = { valid := 3, haveData := true } := if_pos rfl
    rw [hself]
    rfl
  · rw [insertBlockIndex_status inv hacc hp]
    exact h p hp

/-- Entering is a search. -/
theorem addToBlockIndex_eq (inv : ChainInv env s) (hacc : Accepts env s block pos) :
    addToBlockIndex env fuel rounds s block pos =
      connectBestBlock env fuel rounds (insertBlockIndex s (newBlockIndex env s block pos)) := by
  have hnone : s.findBlockIndex env (env.blockHash block) = none := by
    refine List.find?_eq_none.mpr fun q hq => ?_
    simpa using (hacc.cases inv.tree).1 q hq
  rw [addToBlockIndex, hnone]

/-- The search has a candidate, and nothing has more work. -/
theorem SearchInv.bestCandidate (inv : SearchInv env (some x) s) (hx : x ∈ s.mapBlockIndex) :
    ∃ q, bestCandidate env s.setBlockIndexValid = some q ∧ q ∈ s.mapBlockIndex ∧
      ∀ p ∈ s.mapBlockIndex, Eligible s p → p.nChainWork ≤ q.nChainWork := by
  cases hq : CoMoNet.bestCandidate env s.setBlockIndexValid with
  | none => exact absurd (bestCandidate_none hq) (inv.cands_ne_nil hx)
  | some q =>
    exact ⟨q, rfl, inv.call.inv.cands (bestCandidate_mem hq),
      fun p hp helig => bestCandidate_most hq p (inv.cands p hp helig)⟩

/-- A block with more work than the tip is what `setBestChain` is called with. -/
theorem addToBlockIndex_heavier (inv : SearchInv env none s) (hun : Unfailed s)
    (hacc : Accepts env s block pos) (hx : newBlockIndex env s block pos = x)
    (hheavy : heavier s x = true) :
    addToBlockIndex env fuel (rounds + 1) s block pos =
      setBestChain env fuel rounds (insertBlockIndex s x) x := by
  rw [addToBlockIndex_eq inv.call.inv hacc]
  have inv' := inv.insert hacc
  have hun' := hun.insert inv.call.inv hacc
  rw [hx] at inv' hun' ⊢
  have hmem : x ∈ (insertBlockIndex s x).mapBlockIndex := List.mem_cons_self
  obtain ⟨q, hq, hqmem, hmost⟩ := inv'.bestCandidate hmem
  have hwork := hmost x hmem (hun'.clean inv'.call.inv hmem).eligible
  have hne : ((insertBlockIndex s x).pindexBest.any fun best =>
      best == q || best.nChainWork == q.nChainWork) = false := by
    show (s.pindexBest.any fun best => best == q || best.nChainWork == q.nChainWork) = false
    cases hbest : s.pindexBest with
    | none => rfl
    | some best =>
      rw [heavier, hbest, decide_eq_true_eq] at hheavy
      rw [Option.any_some, Bool.or_eq_false_iff, beq_eq_false_iff_ne, beq_eq_false_iff_ne]
      refine ⟨?_, by omega⟩
      rintro rfl
      omega
  rw [connectBestBlock, hq]
  simp only [hne, Bool.false_eq_true, if_false]
  cases hwalk : checkAncestry (insertBlockIndex s x) q [] [] with
  | failed descendants =>
    obtain ⟨path, f, below, hpath, hf, -⟩ := checkAncestry_failed hwalk
    have hfmem : f ∈ q.ancestors := by
      rw [hpath]
      exact List.mem_append_right _ List.mem_cons_self
    rw [hun'.clean inv'.call.inv hqmem f hfmem] at hf
    cases hf
  | attach ps =>
    obtain ⟨-, -, rfl, -⟩ := inv'.attach hq hne hwalk
    simp only [setBestChains, setBestChain]
    split
    · rename_i hcall
      exact hcall.symm
    · rename_i hcall
      exact hcall.symm
    · rename_i hcall
      exact hcall.symm

/-- A lighter block changes nothing. -/
theorem addToBlockIndex_lighter (inv : SearchInv env none s) (hun : Unfailed s)
    (hacc : Accepts env s block pos) (hx : newBlockIndex env s block pos = x)
    (hlight : heavier s x = false) :
    addToBlockIndex env fuel (rounds + 1) s block pos = .ok (true, insertBlockIndex s x) := by
  rw [addToBlockIndex_eq inv.call.inv hacc]
  have inv' := inv.insert hacc
  have hun' := hun.insert inv.call.inv hacc
  rw [hx] at inv' hun' ⊢
  have hmem : x ∈ (insertBlockIndex s x).mapBlockIndex := List.mem_cons_self
  obtain ⟨q, hq, hqmem, hmost⟩ := inv'.bestCandidate hmem
  obtain ⟨best, hbest⟩ : ∃ best, s.pindexBest = some best := by
    cases hbest : s.pindexBest with
    | none =>
      rw [heavier, hbest] at hlight
      cases hlight
    | some best => exact ⟨best, rfl⟩
  have hbest' : (insertBlockIndex s x).pindexBest = some best := hbest
  rw [heavier, hbest, decide_eq_false_iff_not] at hlight
  obtain ⟨hbmem, hbclean⟩ := inv'.tip_eligible hbest'
  have hle := hmost best hbmem hbclean.eligible
  have hge : q.nChainWork ≤ best.nChainWork := by
    by_cases hqx : q = x
    · rw [hqx]
      omega
    · exact inv'.most q hqmem (fun heq => hqx (Option.some.inj heq))
        (hun'.clean inv'.call.inv hqmem).eligible best hbest'
  have hany : ((insertBlockIndex s x).pindexBest.any fun best =>
      best == q || best.nChainWork == q.nChainWork) = true := by
    rw [hbest', Option.any_some, Bool.or_eq_true, beq_iff_eq, beq_iff_eq]
    exact .inr (Nat.le_antisymm hle hge)
  rw [connectBestBlock, hq]
  simp only [hany, if_true]

end Arrival

/-! ## A chain that grows -/

/-- What holds between arrivals. -/
structure Sound (env : Env) (s : ChainState) : Prop where
  search : SearchInv env none s
  unfailed : Unfailed s
  synced : Synced env s

theorem sound_init (env : Env) : Sound env {} where
  search := searchInv_init env
  unfailed := nofun
  synced := synced_of_reach (.init rfl)

/-- The tip is `best`. -/
structure Grown (env : Env) (s : ChainState) (best : CBlockIndex) : Prop extends Sound env s where
  tip : s.pindexBest = some best

/-- A heavier block becomes the tip if the call with it returns true. -/
theorem Sound.add {env : Env} {fuel rounds : Nat} {s s' : ChainState} {x : CBlockIndex}
    {block : CBlock} {pos : CDiskBlockPos} (h : Sound env s) (hacc : Accepts env s block pos)
    (hx : newBlockIndex env s block pos = x) (hheavy : heavier s x = true)
    (hlow : NotLower env s (block, pos))
    (hadd : addToBlockIndex env fuel (rounds + 1) s block pos = .ok (true, s')) :
    Grown env s' x ∧ s'.mapBlockIndex = x :: s.mapBlockIndex := by
  have hcall : setBestChain env fuel rounds (insertBlockIndex s x) x = .ok (true, s') :=
    (addToBlockIndex_heavier h.search h.unfailed hacc hx hheavy).symm.trans hadd
  have inv := (h.search.insert hacc).call
  have hun := h.unfailed.insert h.search.call.inv hacc
  have hsync := synced_step h.synced (a := .accept block pos) trivial ⟨hacc, rfl⟩
  rw [hx] at inv hun hsync
  have hmem : x ∈ (insertBlockIndex s x).mapBlockIndex := List.mem_cons_self
  obtain ⟨hout, -⟩ := setBestChain_clean inv hmem (hun.clean inv.inv hmem) hcall
  cases hout with
  | switched hlen hmap hmarks htip hbest =>
    refine ⟨⟨⟨((h.search.add hacc hadd).1 hlow).1, fun p hp => ?_, ?_⟩, hbest⟩, hmap⟩
    · rw [hmap] at hp
      rw [hmarks.failed]
      exact hun p hp
    · refine synced_step hsync (a := .setBestChain fuel rounds x) (fun b t hb => ?_)
        ⟨hmem, true, hcall⟩
      rw [hcall] at hb
      cases hb
      rfl

namespace Grown

variable {env : Env} {fuel rounds : Nat} {s s' : ChainState} {best x : CBlockIndex}
variable {block : CBlock} {pos : CDiskBlockPos}

theorem coinsTip (h : Grown env s best) : s.coinsTip = some best := h.search.tip.trans h.tip

/-- The main chain is that of the tip. -/
theorem isInMainChain_iff (h : Grown env s best) {p : CBlockIndex} :
    s.isInMainChain p = true ↔ p ∈ best.ancestors := by
  rw [h.search.call.inv.isInMainChain_iff, h.coinsTip]
  rfl

/-- A lighter block is entered. -/
theorem enter (h : Grown env s best) (hacc : Accepts env s block pos)
    (hx : newBlockIndex env s block pos = x) (hlight : x.nChainWork ≤ best.nChainWork) :
    addToBlockIndex env fuel (rounds + 1) s block pos = .ok (true, insertBlockIndex s x) ∧
      Grown env (insertBlockIndex s x) best := by
  have hlight' : heavier s x = false := by
    rw [heavier, h.tip]
    exact decide_eq_false (Nat.not_lt_of_le hlight)
  have hadd : addToBlockIndex env fuel (rounds + 1) s block pos =
      .ok (true, insertBlockIndex s x) :=
    addToBlockIndex_lighter h.search h.unfailed hacc hx hlight'
  have hlow : NotLower env s (block, pos) := by
    intro best' hbest' _ hlt
    obtain rfl : best = best' := Option.some.inj (h.tip.symm.trans hbest')
    simp only [hx] at hlt
    omega
  have hun := h.unfailed.insert h.search.call.inv hacc
  rw [hx] at hun
  refine ⟨hadd, ⟨((h.search.add hacc hadd).1 hlow).1, hun, ?_⟩, h.tip⟩
  exact synced_step h.synced (a := .accept block pos) trivial ⟨hacc, by rw [hx]⟩

/-- The tip stays or is the new block. -/
theorem addToBlockIndex_tip {b : Bool} (h : Grown env s best) (hacc : Accepts env s block pos)
    (hx : newBlockIndex env s block pos = x)
    (hadd : addToBlockIndex env fuel rounds s block pos = .ok (b, s')) :
    s'.coinsTip = some best ∨ s'.coinsTip = some x := by
  cases rounds with
  | zero =>
    rw [addToBlockIndex_eq h.search.call.inv hacc] at hadd
    cases hadd
  | succ rounds =>
    have hold : (insertBlockIndex s x).coinsTip = some best := h.coinsTip
    cases hheavy : heavier s x with
    | false =>
      rw [addToBlockIndex_lighter h.search h.unfailed hacc hx hheavy] at hadd
      cases hadd
      exact .inl hold
    | true =>
      rw [addToBlockIndex_heavier h.search h.unfailed hacc hx hheavy] at hadd
      have inv := (h.search.insert hacc).call
      have hun := h.unfailed.insert h.search.call.inv hacc
      rw [hx] at inv hun
      have hmem : x ∈ (insertBlockIndex s x).mapBlockIndex := List.mem_cons_self
      obtain ⟨hout, -⟩ := setBestChain_clean inv hmem (hun.clean inv.inv hmem) hadd
      cases hout with
      | short => exact .inl hold
      | rejected _ _ _ _ hchain _ => exact .inl (hchain.tip.trans hold)
      | switched _ _ _ htip _ => exact .inr htip

/-- A heavier block that is not lower arrives, with plain branches above the fork. -/
theorem switch (h : Grown env s best) (hacc : Accepts env s block pos)
    (hx : newBlockIndex env s block pos = x) (hheavy : best.nChainWork < x.nChainWork)
    (hhigh : best.nHeight ≤ x.nHeight)
    (hnew : ∀ q ∈ x.ancestors, q ∉ best.ancestors → q.block.isPlain = true ∧
      (q.block.nTime : Int) ≤ s.adjustedTime env + 2 * 60 * 60)
    (hold : ∀ q ∈ best.ancestors, q ∉ x.ancestors → q.block.isPlain = true) :
    ∃ s', addToBlockIndex env fuel (rounds + 1) s block pos = .ok (true, s') ∧ Grown env s' x ∧
      s'.mapBlockIndex = x :: s.mapBlockIndex := by
  have hheavy' : heavier s x = true := by
    rw [heavier, h.tip]
    exact decide_eq_true hheavy
  have hlow : NotLower env s (block, pos) := by
    intro best' hbest' _ _
    obtain rfl : best = best' := Option.some.inj (h.tip.symm.trans hbest')
    simp only [hx]
    exact hhigh
  have hadd : addToBlockIndex env fuel (rounds + 1) s block pos =
      setBestChain env fuel rounds (insertBlockIndex s x) x :=
    addToBlockIndex_heavier h.search h.unfailed hacc hx hheavy'
  have inv := (h.search.insert hacc).call
  have hun := h.unfailed.insert h.search.call.inv hacc
  rw [hx] at inv hun
  have hmem : x ∈ (insertBlockIndex s x).mapBlockIndex := List.mem_cons_self
  have hclean := hun.clean inv.inv hmem
  have htip : (insertBlockIndex s x).coinsTip = some best := h.coinsTip
  have hbestmem := inv.inv.tip best htip
  have hlong : (ancestorsOf (insertBlockIndex s x).coinsTip).length ≤
      x.ancestors.length := by
    rw [htip, ancestorsOf, length_ancestors, length_ancestors]
    omega
  have hnew' : ∀ q ∈ x.ancestors,
      q ∉ ancestorsOf (insertBlockIndex s x).coinsTip →
      q.block.isPlain = true ∧
        checkBlock env ((insertBlockIndex s x).adjustedTime env) q.block true true = .valid := by
    intro q hq hout
    rw [htip] at hout
    refine ⟨(hnew q hq hout).1, ?_⟩
    have hqmem := inv.inv.tree.ancestors_mem hmem q hq
    cases hpprev : q.pprev with
    | some q' =>
      obtain ⟨now, hchecked⟩ := inv.inv.tree.checked q hqmem q' hpprev
      exact checkBlock_at hchecked (hnew q hq hout).2
    | none =>
      have hbroot := inv.inv.tree.ancestors_mem hbestmem _ best.rootOf_mem_ancestors
      have hroot : q = best.rootOf := by
        refine inv.inv.tree.hash_inj q hqmem _ hbroot ?_
        rw [inv.inv.tree.root q hqmem hpprev, inv.inv.tree.root _ hbroot best.rootOf_pprev]
      rw [hroot] at hout
      exact absurd best.rootOf_mem_ancestors hout
  have hold' : ∀ q ∈ ancestorsOf (insertBlockIndex s x).coinsTip, q ∉ x.ancestors →
      q.block.isPlain = true := by
    intro q hq hout
    rw [htip] at hq
    exact hold q hq hout
  obtain ⟨s', hcall⟩ : ∃ s', setBestChain env fuel rounds (insertBlockIndex s x) x =
      .ok (true, s') :=
    setBestChain_plain inv hmem hclean hlong hnew' hold'
  have hadd' : addToBlockIndex env fuel (rounds + 1) s block pos = .ok (true, s') :=
    hadd.trans hcall
  exact ⟨s', hadd', h.toSound.add hacc hx hheavy' hlow hadd'⟩

end Grown

end CoMoNet
