import CoMoNet.Chain.Candidates

/-!
# Runs of AddToBlockIndex

Between calls the main-chain vector lists the ancestors of the tip, which is the block
of the coin view and carries no failed mark (`Settled`). Nothing is assumed about
positions.
-/

namespace CoMoNet

open GuardedRun (System)
open CBlockIndex (ancestorsOf)

/-- Entries are linked by hash. -/
structure Linked (env : Env) (map : List CBlockIndex) : Prop where
  parent : ∀ p ∈ map, ∀ q, p.pprev = some q → q ∈ map
  hash_inj : ∀ p ∈ map, ∀ q ∈ map, env.blockHash p.block = env.blockHash q.block → p = q
  /-- The only block without a parent is the genesis block. -/
  root : ∀ p ∈ map, p.pprev = none → p.block = env.genesisBlock
  /-- The other blocks name their parent by its hash. -/
  linked : ∀ p ∈ map, ∀ q, p.pprev = some q → p.block.hashPrevBlock = env.blockHash q.block
  height : ∀ p ∈ map, ∀ q, p.pprev = some q → p.block.nHeight = p.nHeight

/-- The chain between calls. -/
structure Settled (env : Env) (s : ChainState) : Prop where
  linked : Linked env s.mapBlockIndex
  tip : s.coinsTip = s.pindexBest
  indexed : ∀ p, s.coinsTip = some p → p ∈ s.mapBlockIndex
  chain : s.vBlockIndexByHeight = (ancestorsOf s.coinsTip).reverse.map some
  clean : ∀ p ∈ ancestorsOf s.coinsTip, (s.nStatus p).failed = false

/-! ## The vector of a chain -/

namespace CBlockIndex

theorem getElem?_reverse_ancestors {a p : CBlockIndex} (ha : a ∈ p.ancestors) :
    p.ancestors.reverse[a.nHeight]? = some a := by
  induction p with
  | root block pos =>
    rw [List.mem_singleton.mp ha]
    rfl
  | next pprev block pos ih =>
    have hlen := length_ancestors pprev
    rw [ancestors, List.reverse_cons]
    rcases List.mem_cons.mp ha with rfl | ha
    · rw [List.getElem?_append_right (by simp [hlen, nHeight])]
      simp [hlen, nHeight]
    · have hle := nHeight_le_of_mem_ancestors ha
      rw [List.getElem?_append_left (by simp [hlen]; omega)]
      exact ih ha

/-- A vector with the right size and the right slots. -/
theorem eq_reverse_ancestors {β : Type*} {f : CBlockIndex → β} {v : List β} {p : CBlockIndex}
    (hlen : v.length = p.nHeight + 1) (hslots : ∀ a ∈ p.ancestors, v[a.nHeight]? = some (f a)) :
    v = p.ancestors.reverse.map f := by
  refine List.ext_getElem? fun i => ?_
  by_cases hi : i ≤ p.nHeight
  · obtain ⟨a, ha, rfl⟩ := exists_ancestor hi
    rw [hslots a ha, List.getElem?_map, getElem?_reverse_ancestors ha]
    rfl
  · have hlen' := length_ancestors p
    rw [List.getElem?_eq_none (by omega), List.getElem?_eq_none (by simp; omega)]

end CBlockIndex

section Settling

variable {env : Env} {fuel rounds : Nat} {s s' : ChainState} {p q : CBlockIndex} {b : Bool}
variable {map : List CBlockIndex}

theorem Linked.ancestors_mem (h : Linked env map) (hp : p ∈ map) : ∀ a ∈ p.ancestors, a ∈ map :=
  CBlockIndex.ancestors_subset h.parent hp

theorem Linked.rootOf_eq (h : Linked env map) (hp : p ∈ map) (hq : q ∈ map) :
    p.rootOf = q.rootOf := by
  have hp' := h.ancestors_mem hp _ p.rootOf_mem_ancestors
  have hq' := h.ancestors_mem hq _ q.rootOf_mem_ancestors
  refine h.hash_inj _ hp' _ hq' ?_
  rw [h.root _ hp' p.rootOf_pprev, h.root _ hq' q.rootOf_pprev]

theorem invalidBlockMarked_spec (h : invalidBlockMarked s p = .ok s') :
    SameChain s s' ∧ ∀ x, x ≠ p → (s'.nStatus x).failed = (s.nStatus x).failed := by
  rw [invalidBlockMarked] at h
  have hsame := sameIndex_invalidChainFound h
  obtain ⟨hmarks, -⟩ := invalidChainFound_marks h
  refine ⟨⟨hsame.map, hsame.chain, hsame.tip, hsame.best,
    List.Subset.trans hsame.cands List.erase_subset, hsame.clock⟩, fun x hx => ?_⟩
  rw [hmarks.failed]
  simp [ChainState.writeBlockIndex, ChainState.setStatus, hx]

namespace Settled

theorem congr (inv : Settled env s) (h : SameChain s s')
    (hmarks : ∀ p ∈ ancestorsOf s.coinsTip,
      (s'.nStatus p).failed = (s.nStatus p).failed) : Settled env s' where
  linked := h.map ▸ inv.linked
  tip := by rw [h.tip, h.best, inv.tip]
  indexed p hp := h.map ▸ inv.indexed p (h.tip ▸ hp)
  chain := by rw [h.chain, h.tip, inv.chain]
  clean p hp := by
    rw [h.tip] at hp
    rw [hmarks p hp]
    exact inv.clean p hp

theorem ancestorsOf_mem (inv : Settled env s) :
    ∀ p ∈ ancestorsOf s.coinsTip, p ∈ s.mapBlockIndex := by
  intro p hp
  cases hview : s.coinsTip with
  | none =>
    rw [hview] at hp
    cases hp
  | some tip =>
    rw [hview] at hp
    exact inv.linked.ancestors_mem (inv.indexed tip hview) p hp

/-- The main chain is that of the tip. -/
theorem isInMainChain_iff (inv : Settled env s) :
    s.isInMainChain p = true ↔ p ∈ ancestorsOf s.coinsTip := by
  rw [ChainState.isInMainChain, inv.chain, beq_iff_eq, List.getD_eq_getElem?_getD,
    List.getElem?_map]
  cases s.coinsTip with
  | none => simp [ancestorsOf]
  | some tip =>
    rw [ancestorsOf]
    refine ⟨fun h => ?_, fun hp => by rw [CBlockIndex.getElem?_reverse_ancestors hp]; rfl⟩
    cases hslot : tip.ancestors.reverse[p.nHeight]? with
    | none =>
      rw [hslot] at h
      cases h
    | some q =>
      rw [hslot] at h
      obtain rfl : q = p := Option.some.inj h
      exact List.mem_reverse.mp (List.mem_of_getElem? hslot)

/-! ## SetBestChain on a branch without marks -/

theorem switchChain {plan : Reorg} {pfork : Option CBlockIndex} (inv : Settled env s)
    (hold : ancestorsOf s.coinsTip =
      plan.vDisconnect ++ ancestorsOf pfork)
    (hpath : p.ancestors = plan.vConnect.reverse ++ ancestorsOf pfork) :
    plan.vConnect.foldl (fun v p => v.set p.nHeight (some p))
      (resizeChain (p.nHeight + 1) s.vBlockIndexByHeight) = p.ancestors.reverse.map some := by
  have hchain : ancestorsOf (some p) =
    plan.vConnect.reverse ++ ancestorsOf pfork := hpath
  obtain ⟨hsorted, hfork⟩ := vConnect_sorted hchain
  have hbelow : ∀ a ∈ p.ancestors, a.nHeight < p.nHeight + 1 := fun a ha =>
    Nat.lt_succ_of_le (CBlockIndex.nHeight_le_of_mem_ancestors ha)
  have hset := fun h => getElem?_setSlots
    (v := resizeChain (p.nHeight + 1) s.vBlockIndexByHeight) (h := h) hsorted
    (fun a ha => by
      rw [length_resizeChain]
      exact hbelow a (hpath ▸ List.mem_append_left _ (List.mem_reverse.mpr ha)))
  refine CBlockIndex.eq_reverse_ancestors ?_ fun a ha => ?_
  · rw [length_setSlots, length_resizeChain]
  · have ha' := ha
    rw [hpath, List.mem_append, List.mem_reverse] at ha'
    rcases ha' with hcon | hbase
    · exact (hset _).1 a hcon rfl
    · rw [(hset _).2 fun x hx => (hfork x hx a hbase).ne', getElem?_resizeChain (hbelow a ha),
        inv.chain, List.getElem?_map]
      have htip : a ∈ ancestorsOf s.coinsTip := by
        rw [hold]
        exact List.mem_append_right _ hbase
      cases hview : s.coinsTip with
      | none =>
        rw [hview] at htip
        cases htip
      | some tip =>
        rw [hview] at htip
        rw [ancestorsOf, CBlockIndex.getElem?_reverse_ancestors htip]
        rfl

/-- A call returns, and the chain is settled again. -/
theorem setBestChainUntil {e : CallEnd} (inv : Settled env s) (hp : p ∈ s.mapBlockIndex)
    (hclean : Clean s p) (h : CoMoNet.setBestChainUntil env fuel s p = .ok e) :
    ∃ b s', e = .returned b s' ∧ Settled env s' ∧ s'.mapBlockIndex = s.mapBlockIndex ∧
      (b = true → SameMarks s s') := by
  obtain ⟨plan, hplan, hcase⟩ := setBestChainUntil_cases h
  obtain ⟨pfork, hmarked, hold, hpath, hfresh, -⟩ := planReorg_clean
    (fun tip htip => inv.linked.rootOf_eq hp (inv.indexed tip htip)) hclean hplan
  cases hcase with
  | short =>
    rw [hmarked]
    exact ⟨false, s, rfl, inv, rfl, nofun⟩
  | stuck hdis =>
    rw [hmarked] at hdis
    have hsame := disconnectBlocks_sameChain hdis
    have hmarks := (onlyIndex_disconnectBlocks hdis).marks
    exact ⟨false, _, rfl, inv.congr hsame fun x _ => hmarks.failed x, hsame.map, nofun⟩
  | @switched s₁ s₂ s₃ view view' hdis hcon hswitch =>
    rw [hmarked] at hdis
    have hsame := disconnectBlocks_sameChain hdis
    have hmarks := (onlyIndex_disconnectBlocks hdis).marks.trans
      ((frame_marks.connectBlocks hcon).trans (switchChain_marks hswitch).1)
    obtain ⟨hsame₂, hview⟩ := connectBlocks_view hcon
    obtain ⟨hmap, -, -, htip, hbest, hchain⟩ := switchChain_spec hswitch
    have hsame' := hsame.trans hsame₂
    have hview' : s₃.coinsTip = some p := by
      refine htip.trans (CBlockIndex.ancestorsOf_injective ?_)
      rw [hview, disconnectBlocks_view hold hdis, ← hpath]
      rfl
    have hmap' := hmap.trans hsame'.map
    refine ⟨true, _, rfl, ⟨?_, ?_, ?_, ?_, ?_⟩, hmap', fun _ => hmarks⟩
    · rw [hmap']
      exact inv.linked
    · rw [hview', hbest]
    · intro x hx
      rw [hview'] at hx
      rw [hmap', ← Option.some.inj hx]
      exact hp
    · rw [hchain, hsame'.chain, inv.switchChain hold hpath, hview']
      rfl
    · intro x hx
      rw [hview'] at hx
      rw [hmarks.failed]
      exact hclean x hx
  | @rejected s₁ s₂ s₃ s₄ view q hdis hcon hfound hbad =>
    rw [hmarked] at hdis
    have hq := rejected_mem hcon
    have hsame := ((disconnectBlocks_sameChain hdis).trans (frame_sameChain.rejected hcon)).trans
      (sameIndex_invalidChainFound hfound).toSameChain
    have hmarks := ((onlyIndex_disconnectBlocks hdis).marks.trans (frame_marks.rejected hcon)).trans
      (invalidChainFound_marks hfound).1
    obtain ⟨hsame₄, hmarks₄⟩ := invalidBlockMarked_spec hbad
    have hsame' := hsame.trans hsame₄
    have hnext : s₄.getNextInMainChain q = none := by
      rw [ChainState.getNextInMainChain, hsame'.isInMainChain, if_neg]
      rw [inv.isInMainChain_iff]
      exact hfresh q hq
    refine ⟨false, s₄, ?_, inv.congr hsame' fun x hx => ?_, hsame'.map, nofun⟩
    · rw [searchOrReturn, hnext]
      rfl
    · have hxq : x ≠ q := fun heq => hfresh q hq (heq ▸ hx)
      rw [hmarks₄ x hxq, hmarks.failed]

/-! ## ConnectBestBlock -/

/-- A candidate is given up: the blocks above a failed one are not in the chain. -/
theorem giveUp {descendants : List CBlockIndex} (inv : Settled env s)
    (hfailed : checkAncestry s q [] [] = .failed descendants)
    (h : invalidChainFound (descendants.foldl markFailedChild s) q = .ok s') :
    Settled env s' := by
  obtain ⟨path, f, below, hpath, hf, hdesc⟩ := checkAncestry_failed hfailed
  rw [List.nil_append] at hdesc
  subst hdesc
  have hsame := ((sameIndex_markFailed descendants s).trans (sameIndex_invalidChainFound h))
  refine inv.congr hsame.toSameChain fun x hx => ?_
  have hnot := not_mem_of_failed inv.clean hpath hf x hx
  rw [(invalidChainFound_marks h).1.failed, (markFailed_status descendants s x).1 hnot]

/-- The branch of a candidate that is attached carries no marks. -/
theorem clean_of_attach {ps : List CBlockIndex} (inv : Settled env s)
    (h : checkAncestry s q [] [] = .attach ps) : Clean s q :=
  CoMoNet.clean_of_attach (fun _ => inv.isInMainChain_iff.mp) inv.clean h

end Settled

theorem searchRule_settled (env : Env) (fuel : Nat) : SearchRule env fuel
    (fun t => IndexOK t ∧ Settled env t) fun t p => p ∈ t.mapBlockIndex ∧ Clean t p where
  giveUp ht _ hfailed hfound :=
    ⟨((callFrame_keeps.markFailed _ _).trans (callFrame_keeps.invalidChainFound hfound)).index ht.1,
      ht.2.giveUp hfailed hfound⟩
  attach ht hq hattach p hp := by
    have hmem := ((ht.1.cands _).mp (bestCandidate_mem hq)).1
    have hanc := checkAncestry_mem hattach p hp
    exact ⟨ht.1.ancestors_mem hmem p hanc, fun a ha =>
      ht.2.clean_of_attach hattach a (CBlockIndex.ancestors_trans ha hanc)⟩
  returned ht hp hcall := by
    obtain ⟨b, s', hend, hsettled, hmap, hmarks⟩ := ht.2.setBestChainUntil hp.1 hp.2 hcall
    cases hend
    refine ⟨⟨(keeps_returned hcall).index ht.1, hsettled⟩, fun hb x hx => ⟨hmap ▸ hx.1, ?_⟩⟩
    intro a ha
    rw [(hmarks hb).failed]
    exact hx.2 a ha
  searching ht hp hcall := by
    obtain ⟨b, s', hend, -⟩ := ht.2.setBestChainUntil hp.1 hp.2 hcall
    cases hend

/-! ## Runs -/

/-- The first, genesis block, or a block with an indexed parent that claims the height above. -/
def Placed (env : Env) (s : ChainState) (block : CBlock) : Prop :=
  (s.mapBlockIndex = [] ∧ block = env.genesisBlock) ∨
    ∃ q, s.findBlockIndex env block.hashPrevBlock = some q ∧ block.nHeight = q.nHeight + 1

/-- Calls of `AddToBlockIndex`. -/
def entrySystem (env : Env) : System ChainState (CBlock × CDiskBlockPos) where
  init s := s = { clock := s.clock }
  step s a s' := Placed env s a.1 ∧ ∃ fuel rounds b t,
    addToBlockIndex env fuel rounds s a.1 a.2 = .ok (b, t) ∧ s' = { t with clock := s'.clock }

variable {block : CBlock} {pos : CDiskBlockPos}

/-- The new entry: the genesis block in an empty index, or a child. -/
theorem Placed.cases (h : Placed env s block) (pos : CDiskBlockPos) :
    (s.mapBlockIndex = [] ∧ block = env.genesisBlock ∧
        newBlockIndex env s block pos = .root block pos) ∨
      ∃ q ∈ s.mapBlockIndex, env.blockHash q.block = block.hashPrevBlock ∧
        block.nHeight = q.nHeight + 1 ∧ newBlockIndex env s block pos = .next q block pos := by
  rcases h with ⟨hmap, hblock⟩ | ⟨q, hq, hheight⟩
  · refine .inl ⟨hmap, hblock, ?_⟩
    rw [newBlockIndex, ChainState.findBlockIndex, hmap]
    rfl
  · obtain ⟨hmem, hhash⟩ := findBlockIndex_some hq
    refine .inr ⟨q, hmem, hhash, hheight, ?_⟩
    rw [newBlockIndex, hq]

theorem newBlockIndex_block (env : Env) (s : ChainState) (block : CBlock) (pos : CDiskBlockPos) :
    (newBlockIndex env s block pos).block = block := by
  rw [newBlockIndex]
  split <;> rfl

theorem newBlockIndex_fresh (hnew : s.findBlockIndex env (env.blockHash block) = none)
    (pos : CDiskBlockPos) : newBlockIndex env s block pos ∉ s.mapBlockIndex := fun hmem =>
  findBlockIndex_none hnew _ hmem (congrArg env.blockHash (newBlockIndex_block env s block pos))

theorem Linked.insert (h : Linked env s.mapBlockIndex) (hplaced : Placed env s block)
    (hnew : s.findBlockIndex env (env.blockHash block) = none) (pos : CDiskBlockPos) :
    Linked env (newBlockIndex env s block pos :: s.mapBlockIndex) := by
  have hhash := findBlockIndex_none hnew
  have hblock := newBlockIndex_block env s block pos
  have hcases := hplaced.cases pos
  generalize newBlockIndex env s block pos = new at hblock hcases ⊢
  have hroot : new.pprev = none → new.block = env.genesisBlock := by
    intro hnone
    rcases hcases with ⟨-, hgen, rfl⟩ | ⟨q, -, -, -, rfl⟩
    · exact hgen
    · cases hnone
  have hchild : ∀ q, new.pprev = some q → q ∈ s.mapBlockIndex ∧
      new.block.hashPrevBlock = env.blockHash q.block ∧ new.block.nHeight = new.nHeight := by
    intro q hq
    rcases hcases with ⟨-, -, rfl⟩ | ⟨q', hmem, hprev, hheight, rfl⟩
    · cases hq
    · cases hq
      exact ⟨hmem, hprev.symm, by simpa [CBlockIndex.block, CBlockIndex.nHeight] using hheight⟩
  refine ⟨?_, ?_, ?_, ?_, ?_⟩
  · intro p hp q hq
    rcases List.mem_cons.mp hp with rfl | hp
    · exact List.mem_cons_of_mem _ (hchild q hq).1
    · exact List.mem_cons_of_mem _ (h.parent p hp q hq)
  · intro p hp q hq heq
    rcases List.mem_cons.mp hp with rfl | hp'
    · rcases List.mem_cons.mp hq with rfl | hq'
      · rfl
      · exact absurd (heq.symm.trans (congrArg env.blockHash hblock)) (hhash q hq')
    · rcases List.mem_cons.mp hq with rfl | hq'
      · exact absurd (heq.trans (congrArg env.blockHash hblock)) (hhash p hp')
      · exact h.hash_inj p hp' q hq' heq
  · intro p hp hnone
    rcases List.mem_cons.mp hp with rfl | hp
    · exact hroot hnone
    · exact h.root p hp hnone
  · intro p hp q hq
    rcases List.mem_cons.mp hp with rfl | hp
    · exact (hchild q hq).2.1
    · exact h.linked p hp q hq
  · intro p hp q hq
    rcases List.mem_cons.mp hp with rfl | hp
    · exact (hchild q hq).2.2
    · exact h.height p hp q hq

/-- A new entry is a candidate, and its record is written. -/
theorem IndexOK.insert (h : IndexOK s) (hnew : p ∉ s.mapBlockIndex)
    (hparent : ∀ q, p.pprev = some q → q ∈ s.mapBlockIndex) :
    IndexOK (insertBlockIndex s p) := by
  have hself : (insertBlockIndex s p).nStatus p = { valid := 3, haveData := true } := if_pos rfl
  have hother : ∀ x ∈ s.mapBlockIndex, x ≠ p := fun x hx heq => hnew (heq ▸ hx)
  have hstatus : ∀ x, x ≠ p → (insertBlockIndex s p).nStatus x = s.nStatus x := fun x hx =>
    if_neg hx
  have hdisk : (insertBlockIndex s p).diskStatus p = some ((insertBlockIndex s p).nStatus p) := by
    simp [insertBlockIndex, ChainState.writeBlockIndex, ChainState.setStatus]
  refine ⟨?_, fun x => ?_, ?_, ?_, ?_⟩
  · intro x hx q hq
    rcases List.mem_cons.mp hx with rfl | hx
    · exact List.mem_cons_of_mem _ (hparent q hq)
    · exact List.mem_cons_of_mem _ (h.parent x hx q hq)
  · show x ∈ p :: s.setBlockIndexValid ↔ x ∈ p :: s.mapBlockIndex ∧ _
    rw [List.mem_cons, List.mem_cons]
    by_cases hx : x = p
    · rw [hx, hself]
      simp [BlockStatus.failed]
    · rw [hstatus x hx, h.cands]
      simp [hx]
  · exact List.nodup_cons.mpr ⟨fun hmem => hnew ((h.cands p).mp hmem).1, h.nodup⟩
  · intro x hx
    rcases List.mem_cons.mp hx with rfl | hx
    · exact hdisk
    · rw [hstatus x (hother x hx), ← h.stored x hx]
      exact if_neg (hother x hx)
  · intro x hx
    rcases List.mem_cons.mp hx with rfl | hx
    · rw [hself]
    · rw [hstatus x (hother x hx)]
      exact h.level x hx

theorem IndexOK.enter (h : IndexOK s) (hlinked : Linked env s.mapBlockIndex)
    (hplaced : Placed env s block) (hnew : s.findBlockIndex env (env.blockHash block) = none)
    (pos : CDiskBlockPos) :
    IndexOK (insertBlockIndex s (newBlockIndex env s block pos)) ∧
      Linked env (insertBlockIndex s (newBlockIndex env s block pos)).mapBlockIndex := by
  have hlinked' := hlinked.insert hplaced hnew pos
  refine ⟨h.insert (newBlockIndex_fresh hnew pos) fun q hq => ?_, hlinked'⟩
  have hmem := hlinked'.parent _ List.mem_cons_self q hq
  refine (List.mem_cons.mp hmem).resolve_left fun heq => ?_
  have hheight := CBlockIndex.nHeight_of_pprev hq
  rw [heq] at hheight
  omega

theorem Settled.add (hindex : IndexOK s) (inv : Settled env s) (hplaced : Placed env s block)
    (h : addToBlockIndex env fuel rounds s block pos = .ok (b, s')) :
    IndexOK s' ∧ Settled env s' := by
  rw [addToBlockIndex] at h
  split at h
  · cases h
    exact ⟨hindex, inv⟩
  rename_i hnew
  obtain ⟨hindex', hlinked⟩ := hindex.enter inv.linked hplaced hnew pos
  have hfresh := newBlockIndex_fresh hnew pos
  generalize newBlockIndex env s block pos = new at h hlinked hindex' hfresh
  have inv' : Settled env (insertBlockIndex s new) := by
    refine ⟨hlinked, inv.tip, fun p hp => List.mem_cons_of_mem _ (inv.indexed p hp), inv.chain,
      fun p hp => ?_⟩
    have hmem : p ∈ s.mapBlockIndex := inv.ancestorsOf_mem p hp
    have hne : p ≠ new := fun heq => hfresh (heq ▸ hmem)
    have hstatus : (insertBlockIndex s new).nStatus p = s.nStatus p := if_neg hne
    rw [hstatus]
    exact inv.clean p hp
  exact (searchRule_settled env fuel).connectBestBlock ⟨hindex', inv'⟩ h

theorem settled_of_reach {ok : ChainState → CBlock × CDiskBlockPos → Prop}
    (h : (entrySystem env).Reach ok s) : IndexOK s ∧ Settled env s := by
  refine h.invariant (I := fun s => IndexOK s ∧ Settled env s) ?_ ?_
  · intro s hinit
    rw [hinit]
    refine ⟨⟨nofun, fun p => ⟨nofun, nofun⟩, List.nodup_nil, nofun, nofun⟩, ?_⟩
    exact ⟨⟨nofun, nofun, nofun, nofun, nofun⟩, rfl, nofun, rfl, nofun⟩
  · rintro s ⟨block, pos⟩ s' ⟨hindex, inv⟩ - ⟨hplaced, fuel, rounds, b, t, hadd, hclock⟩
    obtain ⟨hindex', inv'⟩ := Settled.add hindex inv hplaced hadd
    rw [hclock]
    exact ⟨⟨hindex'.parent, hindex'.cands, hindex'.nodup, hindex'.stored, hindex'.level⟩,
      ⟨inv'.linked, inv'.tip, inv'.indexed, inv'.chain, inv'.clean⟩⟩

/-- `AcceptBlock` has checked enough for a block other than the genesis block. -/
theorem acceptChecks_placed (hne : env.blockHash block ≠ env.hashGenesisBlock)
    (h : acceptChecks env s block = .ok .valid) : Placed env s block := by
  rw [acceptChecks] at h
  split at h
  · cases h
  rw [if_neg hne] at h
  split at h
  · cases h
  rename_i q hq
  exact .inr ⟨q, hq, (checkContext_valid h).2.2.2⟩

instance (env : Env) (s : ChainState) (block : CBlock) : Decidable (Placed env s block) :=
  decidable_of_iff ((s.mapBlockIndex = [] ∧ block = env.genesisBlock) ∨
    (s.findBlockIndex env block.hashPrevBlock).any
      (fun q => decide (block.nHeight = q.nHeight + 1)) = true) (by
    rw [Placed, Option.any_eq_true]
    simp only [decide_eq_true_eq])

/-- Runs in which blocks are accepted are among them. -/
theorem reach_entry
    (h : (addSystem env).Reach (fun s a => Placed env s a.1) s) :
    (entrySystem env).Reach (fun _ _ => True) s := by
  induction h with
  | init hinit => exact .init hinit
  | step _ hplaced hadd ih => exact .step ih trivial ⟨hplaced, hadd.2⟩

end Settling

end CoMoNet
