import CoMoNet.Chain.Switched

/-!
# The fork of two branches

A round of the search moves `plonger` down to the height of `pfork` and `pfork` down by
one. It ends at the lowest common ancestor, whichever block is lower.
-/

namespace CoMoNet

/-- A block tree: it has the parents of its blocks, and one block without a
parent. -/
structure BlockTree (blocks : List CBlockIndex) : Prop where
  parent : ∀ p ∈ blocks, ∀ q, p.pprev = some q → q ∈ blocks
  root : ∀ p ∈ blocks, ∀ q ∈ blocks, p.pprev = none → q.pprev = none → p = q

theorem TreeOK.blockTree {env : Env} {map : List CBlockIndex} (tree : TreeOK env map) :
    BlockTree map where
  parent := tree.parent
  root p hp q hq hproot hqroot := by
    refine tree.hash_inj p hp q hq ?_
    rw [tree.root p hp hproot, tree.root q hq hqroot]

theorem BlockTree.rootOf_eq {blocks : List CBlockIndex} (tree : BlockTree blocks)
    {p q : CBlockIndex} (hp : p ∈ blocks) (hq : q ∈ blocks) : p.rootOf = q.rootOf :=
  tree.root _ (CBlockIndex.ancestors_subset tree.parent hp _ p.rootOf_mem_ancestors)
    _ (CBlockIndex.ancestors_subset tree.parent hq _ q.rootOf_mem_ancestors)
    p.rootOf_pprev q.rootOf_pprev

/-- `f` is in the chains of `p` and `q`, and every other such block is below it. -/
structure LowestCommonAncestor (f p q : CBlockIndex) : Prop where
  left : f ∈ p.ancestors
  right : f ∈ q.ancestors
  /-- The common blocks are its ancestors. -/
  lowest : ∀ g, g ∈ p.ancestors → g ∈ q.ancestors → g ∈ f.ancestors

/-- The search ends at the lowest common ancestor, whichever block is lower, and the lists are the
branches from the best block down to the fork and up to the new block. -/
theorem planReorg_fork {s : ChainState} {best pindexNew : CBlockIndex}
    (tree : BlockTree s.mapBlockIndex) (htip : s.coinsTip = some best)
    (hbest : best ∈ s.mapBlockIndex) (hnew : pindexNew ∈ s.mapBlockIndex)
    (hclean : Clean s pindexNew) :
    ∃ pfork plan, forkWith s.coinsTip pindexNew = .ok (some pfork) ∧
      planReorg s pindexNew = .ok plan ∧ LowestCommonAncestor pfork best pindexNew ∧
      best.ancestors = plan.vDisconnect ++ pfork.ancestors ∧
      pindexNew.ancestors = plan.vConnect.reverse ++ pfork.ancestors ∧
      plan.vConnect.Pairwise fun p q => p.nHeight < q.nHeight := by
  obtain ⟨pfork, hfork, hleft, hright, hlowest⟩ := CBlockIndex.findFork_spec
    best.rootOf_mem_ancestors (tree.rootOf_eq hnew hbest ▸ pindexNew.rootOf_mem_ancestors)
  have hwith : forkWith s.coinsTip pindexNew = .ok (some pfork) := by
    simp only [htip, forkWith, hfork]
  have hpath := CBlockIndex.ancestors_eq_above hright
  have hcollect : collectConnect s [] (pindexNew.above (some pfork)) =
      (pindexNew.above (some pfork), s) :=
    collectConnect_clean _ s [] fun p hp => hclean p (CBlockIndex.mem_above hright hp).1
  refine ⟨pfork, ⟨best.above (some pfork), (pindexNew.above (some pfork)).reverse, s⟩, hwith, ?_,
    ⟨hleft, hright, hlowest⟩, CBlockIndex.ancestors_eq_above hleft, ?_, ?_⟩
  · rw [planReorg, hwith]
    simp only [hcollect, htip]
  · rw [List.reverse_reverse]
    exact hpath
  · have hsorted := CBlockIndex.ancestors_sorted pindexNew
    rw [hpath] at hsorted
    exact List.pairwise_reverse.mpr (List.pairwise_append.mp hsorted).1

/-- A branch of two blocks. -/
def forkedBest : CBlockIndex :=
  let lower := smallIndex smallGenesis (smallBlock smallNet.genesisBlock 1 [])
  smallIndex lower (smallBlock lower.block 2 [])

/-- A branch of one. -/
def forkedSide : CBlockIndex := smallIndex smallGenesis (smallBlock smallNet.genesisBlock 3 [])

/-- Their chain. -/
def forkedState : ChainState where
  mapBlockIndex := forkedSide :: forkedBest.ancestors
  coinsTip := some forkedBest

/-- The fork with a block that is lower than the best one. -/
theorem planReorg_fork_lower :
    forkedSide.nHeight < forkedBest.nHeight ∧
      ∃ pfork plan, forkWith forkedState.coinsTip forkedSide = .ok (some pfork) ∧
        planReorg forkedState forkedSide = .ok plan ∧
        LowestCommonAncestor pfork forkedBest forkedSide ∧
        forkedBest.ancestors = plan.vDisconnect ++ pfork.ancestors ∧
        forkedSide.ancestors = plan.vConnect.reverse ++ pfork.ancestors ∧
        plan.vConnect.Pairwise fun p q => p.nHeight < q.nHeight := by
  refine ⟨by decide, planReorg_fork ⟨?_, ?_⟩ rfl (by simp [forkedState,
    CBlockIndex.self_mem_ancestors]) List.mem_cons_self fun _ _ => rfl⟩
  · simp [forkedState, forkedSide, forkedBest, smallIndex, smallGenesis, CBlockIndex.ancestors,
      CBlockIndex.pprev]
  · simp [forkedState, forkedSide, forkedBest, smallIndex, smallGenesis, CBlockIndex.ancestors,
      CBlockIndex.pprev]

end CoMoNet
