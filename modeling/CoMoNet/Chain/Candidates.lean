import CoMoNet.Chain.MostWork
import CoMoNet.Chain.Returns

/-!
# The candidates

`setBlockIndexValid` has the indexed blocks without `BLOCK_FAILED_MASK`, each once, and
records on disk are up to date (`IndexOK`). Every function that marks a block keeps this
(`Keeps`), and a search started in the middle has one candidate less
(`keeps_searching`).
-/

namespace CoMoNet

open ChainState (setStatus writeBlockIndex)

/-- Candidates are the indexed blocks without a failed mark, and records are up to date. -/
structure IndexOK (s : ChainState) : Prop where
  parent : ∀ p ∈ s.mapBlockIndex, ∀ q, p.pprev = some q → q ∈ s.mapBlockIndex
  cands : ∀ p, p ∈ s.setBlockIndexValid ↔
    p ∈ s.mapBlockIndex ∧ (s.nStatus p).failed = false
  nodup : s.setBlockIndexValid.Nodup
  stored : ∀ p ∈ s.mapBlockIndex, s.diskStatus p = some (s.nStatus p)
  /-- `BLOCK_VALID_TRANSACTIONS` at least. -/
  level : ∀ p ∈ s.mapBlockIndex, 3 ≤ (s.nStatus p).valid

/-- The index stays but for marks and undo data, no candidate is added, the invariant is kept. -/
structure Keeps (s s' : ChainState) : Prop where
  map : s'.mapBlockIndex = s.mapBlockIndex
  cands : s'.setBlockIndexValid.Sublist s.setBlockIndexValid
  index : IndexOK s → IndexOK s'

section Keeping

variable {env : Env} {fuel : Nat} {s s' s'' : ChainState} {p q : CBlockIndex}
variable {view view' : Option CBlockIndex}

theorem IndexOK.ancestors_mem (h : IndexOK s) (hp : p ∈ s.mapBlockIndex) :
    ∀ a ∈ p.ancestors, a ∈ s.mapBlockIndex :=
  CBlockIndex.ancestors_subset h.parent hp

namespace Keeps

theorem refl (s : ChainState) : Keeps s s := ⟨rfl, List.Sublist.refl _, id⟩

theorem trans (h : Keeps s s') (h' : Keeps s' s'') : Keeps s s'' :=
  ⟨h'.map.trans h.map, h'.cands.trans h.cands, h'.index ∘ h.index⟩

theorem of_same (hmap : s'.mapBlockIndex = s.mapBlockIndex) (hstatus : s'.nStatus = s.nStatus)
    (hdisk : s'.diskStatus = s.diskStatus)
    (hcands : s'.setBlockIndexValid = s.setBlockIndexValid) : Keeps s s' where
  map := hmap
  cands := hcands ▸ List.Sublist.refl _
  index h := by
    refine ⟨?_, ?_, ?_, ?_, ?_⟩
    · rw [hmap]
      exact h.parent
    · rw [hmap, hstatus, hcands]
      exact h.cands
    · rw [hcands]
      exact h.nodup
    · rw [hmap, hdisk, hstatus]
      exact h.stored
    · rw [hmap, hstatus]
      exact h.level

/-- One entry gets a new, stored status: with a failed mark it is taken out of the candidates. -/
theorem of_update (hmap : s'.mapBlockIndex = s.mapBlockIndex)
    (hother : ∀ x, x ≠ p → s'.nStatus x = s.nStatus x ∧ s'.diskStatus x = s.diskStatus x)
    (hstored : s'.diskStatus p = some (s'.nStatus p))
    (hlevel : 3 ≤ (s.nStatus p).valid → 3 ≤ (s'.nStatus p).valid)
    (hcands : (s'.nStatus p).failed = true ∧
        s'.setBlockIndexValid = s.setBlockIndexValid.erase p ∨
      (s'.nStatus p).failed = (s.nStatus p).failed ∧
        s'.setBlockIndexValid = s.setBlockIndexValid) : Keeps s s' where
  map := hmap
  cands := by
    rcases hcands with ⟨-, h⟩ | ⟨-, h⟩
    · rw [h]
      exact List.erase_sublist
    · rw [h]
  index h := by
    refine ⟨hmap ▸ h.parent, fun x => ?_, ?_, fun x hx => ?_, fun x hx => ?_⟩
    · by_cases hx : x = p
      · subst hx
        rcases hcands with ⟨hfailed, hset⟩ | ⟨hsame, hset⟩
        · rw [hset, hfailed, h.nodup.mem_erase_iff]
          simp
        · rw [hset, hmap, hsame, h.cands]
      · rw [hmap, (hother x hx).1, ← h.cands]
        rcases hcands with ⟨-, hset⟩ | ⟨-, hset⟩
        · rw [hset, List.mem_erase_of_ne hx]
        · rw [hset]
    · rcases hcands with ⟨-, hset⟩ | ⟨-, hset⟩
      · rw [hset]
        exact h.nodup.erase p
      · rw [hset]
        exact h.nodup
    · by_cases hxp : x = p
      · rw [hxp, hstored]
      · rw [(hother x hxp).1, (hother x hxp).2]
        exact h.stored x (hmap ▸ hx)
    · by_cases hxp : x = p
      · subst hxp
        exact hlevel (h.level x (hmap ▸ hx))
      · rw [(hother x hxp).1]
        exact h.level x (hmap ▸ hx)

theorem length_le (h : Keeps s s') :
    s'.setBlockIndexValid.length ≤ s.setBlockIndexValid.length := h.cands.length_le

end Keeps

/-! ## Marks and undo data -/

theorem keeps_markFailedChild (s : ChainState) (p : CBlockIndex) :
    Keeps s (markFailedChild s p) := by
  refine .of_update rfl (fun x hx => ⟨if_neg hx, if_neg hx⟩) ?_ ?_ (.inl ⟨?_, rfl⟩)
  · simp [markFailedChild, writeBlockIndex, setStatus]
  · simp [markFailedChild, writeBlockIndex, setStatus]
  · simp [markFailedChild, writeBlockIndex, setStatus, BlockStatus.failed]

theorem keeps_writeUndo (s : ChainState) (p : CBlockIndex) (block : CBlock) :
    Keeps s (writeUndo s p block) := by
  rw [writeUndo]
  split
  · refine .of_update rfl (fun x hx => ⟨if_neg hx, if_neg hx⟩) ?_ (fun _ => ?_) (.inr ⟨?_, rfl⟩)
    · simp [writeBlockIndex, setStatus]
    · simp [writeBlockIndex, setStatus, blockValidScripts]
    · simp [writeBlockIndex, setStatus, BlockStatus.failed]
  · exact Keeps.refl s

theorem callFrame_keeps : CallFrame Keeps where
  refl := Keeps.refl
  trans := Keeps.trans
  index := by
    rintro s _ ⟨idx, rfl⟩
    exact .of_same rfl rfl rfl rfl
  undo s p := keeps_writeUndo s p p.block
  mark := keeps_markFailedChild
  invalid s p := by
    refine .of_update rfl (fun x hx => ⟨if_neg hx, if_neg hx⟩) ?_ ?_ (.inl ⟨?_, rfl⟩)
    · simp [writeBlockIndex, setStatus]
    · simp [writeBlockIndex, setStatus]
    · simp [writeBlockIndex, setStatus, BlockStatus.failed]
  work _ _ := .of_same rfl rfl rfl rfl
  switch _ _ _ _ _ := .of_same rfl rfl rfl rfl

/-- A block found invalid is no candidate any more. -/
theorem invalidBlockMarked_cands (h : invalidBlockMarked s p = .ok s') :
    s'.setBlockIndexValid = s.setBlockIndexValid.erase p :=
  (invalidChainFound_marks h).1.cands

/-! ## SetBestChain -/

/-- Blocks to connect are unmarked. -/
theorem collectConnect_unfailed (rest : List CBlockIndex) (s : ChainState)
    (vConnect : List CBlockIndex) (h : ∀ x ∈ vConnect, (s.nStatus x).failed = false) :
    ∀ x ∈ (collectConnect s vConnect rest).1,
      ((collectConnect s vConnect rest).2.nStatus x).failed = false := by
  induction rest generalizing s vConnect with
  | nil => exact h
  | cons p rest ih =>
    rw [collectConnect]
    split
    · exact ih _ _ (by simp)
    · rename_i hp
      refine ih _ _ fun x hx => ?_
      rcases List.mem_append.mp hx with hx | hx
      · exact h x hx
      · rw [List.mem_singleton.mp hx]
        exact Bool.eq_false_of_not_eq_true hp

/-- How a call gets to its search. -/
inductive UntilCase (env : Env) (fuel : Nat) (s : ChainState) (p : CBlockIndex) (plan : Reorg) :
    CallEnd → Prop where
  | short : UntilCase env fuel s p plan (.returned false plan.marked)
  | stuck {s₁ : ChainState} {view : Option CBlockIndex} :
      disconnectBlocks plan.marked s.coinsTip plan.vDisconnect = .ok (false, s₁, view) →
      UntilCase env fuel s p plan (.returned false s₁)
  | switched {s₁ s₂ s₃ : ChainState} {view view' : Option CBlockIndex} :
      disconnectBlocks plan.marked s.coinsTip plan.vDisconnect = .ok (true, s₁, view) →
      connectBlocks env fuel s₁ view plan.vConnect = .ok (.all s₂ view') →
      switchChain env fuel s₂ view' plan.vDisconnect plan.vConnect p = .ok s₃ →
      UntilCase env fuel s p plan (.returned true s₃)
  | rejected {s₁ s₂ s₃ s₄ : ChainState} {view : Option CBlockIndex} {q : CBlockIndex} :
      disconnectBlocks plan.marked s.coinsTip plan.vDisconnect = .ok (true, s₁, view) →
      connectBlocks env fuel s₁ view plan.vConnect = .ok (.rejected s₂ q) →
      invalidChainFound s₂ p = .ok s₃ → invalidBlockMarked s₃ q = .ok s₄ →
      UntilCase env fuel s p plan (searchOrReturn q s₄)

theorem setBestChainUntil_cases {e : CallEnd} (h : setBestChainUntil env fuel s p = .ok e) :
    ∃ plan, planReorg s p = .ok plan ∧ UntilCase env fuel s p plan e := by
  rw [setBestChainUntil] at h
  obtain ⟨plan, hplan, h⟩ := Except.bind_eq_ok_iff.mp h
  refine ⟨plan, hplan, ?_⟩
  split at h
  · cases h
    exact .short
  obtain ⟨⟨_ | _, s₁, view⟩, hdis, h⟩ := Except.bind_eq_ok_iff.mp h
  · cases h
    exact .stuck hdis
  obtain ⟨c, hcon, h⟩ := Except.bind_eq_ok_iff.mp h
  cases c with
  | all s₂ view' =>
    obtain ⟨s₃, hswitch, rfl⟩ := Except.map_eq_ok_iff.mp h
    exact .switched hdis hcon hswitch
  | rejected s₂ q =>
    obtain ⟨s₃, hfound, h⟩ := Except.bind_eq_ok_iff.mp h
    obtain ⟨s₄, hmarked, rfl⟩ := Except.map_eq_ok_iff.mp h
    exact .rejected hdis hcon hfound hmarked

theorem mem_ancestors_of_above {pfork : Option CBlockIndex} {a : CBlockIndex}
    (ha : a ∈ p.above pfork) : a ∈ p.ancestors := by
  induction p with
  | root block pos =>
    rw [CBlockIndex.above] at ha
    split at ha
    · cases ha
    · exact ha
  | next pprev block pos ih =>
    rw [CBlockIndex.above] at ha
    split at ha
    · cases ha
    · rcases List.mem_cons.mp ha with rfl | ha
      · exact CBlockIndex.self_mem_ancestors _
      · exact List.mem_cons_of_mem _ (ih ha)

/-- What a plan connects are unmarked ancestors of the new tip. -/
theorem planReorg_vConnect {plan : Reorg} (h : planReorg s p = .ok plan) :
    ∀ q ∈ plan.vConnect, q ∈ p.ancestors ∧ (plan.marked.nStatus q).failed = false := by
  obtain ⟨pfork, -, -, hconnect, hmarked⟩ := planReorg_eq h
  obtain ⟨⟨dropped, hsplit⟩, -⟩ := collectConnect_spec (p.above pfork) s []
  rw [hmarked]
  intro q hq
  rw [hconnect, List.mem_reverse] at hq
  rw [List.nil_append] at hsplit
  have habove : q ∈ p.above pfork := by
    rw [hsplit]
    exact List.mem_append_right _ hq
  exact ⟨mem_ancestors_of_above habove, collectConnect_unfailed _ s [] nofun q hq⟩

/-- `SetBestChain` keeps the invariant, up to the search that is started in it. -/
theorem keeps_until {e : CallEnd} {b : Bool} (h : setBestChainUntil env fuel s p = .ok e)
    (hend : e.finish (fun t => .ok (true, t)) = .ok (b, s')) : Keeps s s' := by
  have hcall : setBestChainWith env fuel (fun t => .ok (true, t)) s p = .ok (b, s') := by
    rw [setBestChainWith_eq, h]
    exact hend
  refine callFrame_keeps.setBestChainWith ?_ hcall
  intro t _ t' ht
  cases ht
  exact .refl _

theorem keeps_returned {b : Bool} (h : setBestChainUntil env fuel s p = .ok (.returned b s')) :
    Keeps s s' :=
  keeps_until h rfl

/-- When a search starts there is one candidate less, the rejected block. -/
theorem keeps_searching (hp : p ∈ s.mapBlockIndex)
    (h : setBestChainUntil env fuel s p = .ok (.searching s')) :
    Keeps s s' ∧ (IndexOK s → s'.setBlockIndexValid.length < s.setBlockIndexValid.length) := by
  refine ⟨keeps_until h rfl, fun inv => ?_⟩
  obtain ⟨plan, hplan, hcase⟩ := setBestChainUntil_cases h
  generalize hend : CallEnd.searching s' = e at hcase
  cases hcase with
  | short => cases hend
  | stuck hdis => cases hend
  | switched hdis hcon hswitch => cases hend
  | @rejected s₁ s₂ s₃ s₄ view q hdis hcon hfound hmarked =>
    have honly := onlyIndex_disconnectBlocks hdis
    have hkeeps : Keeps s s₃ := (callFrame_keeps.planReorg hplan).trans
      ((callFrame_keeps.index honly).trans ((callFrame_keeps.rejected hcon).trans
        (callFrame_keeps.invalidChainFound hfound)))
    have hmarks := honly.marks.trans
      ((frame_marks.rejected hcon).trans (invalidChainFound_marks hfound).1)
    obtain ⟨hanc, hclean⟩ := planReorg_vConnect hplan q (rejected_mem hcon)
    have hcand : q ∈ s₃.setBlockIndexValid := by
      rw [(hkeeps.index inv).cands, hkeeps.map, hmarks.failed]
      exact ⟨inv.ancestors_mem hp q hanc, hclean⟩
    have hlen := hkeeps.length_le
    have hpos := List.length_pos_of_mem hcand
    rw [searchOrReturn] at hend
    split at hend
    · cases hend
      rw [invalidBlockMarked_cands hmarked, List.length_erase_of_mem hcand]
      omega
    · cases hend

end Keeping

/-! ## ConnectBestBlock -/

/-- While `ConnectBestBlock` runs: `P` of the state and `Q` of the blocks still to be called
with. -/
structure SearchRule (env : Env) (fuel : Nat) (P : ChainState → Prop)
    (Q : ChainState → CBlockIndex → Prop) : Prop where
  giveUp : ∀ {s s' : ChainState} {q : CBlockIndex} {descendants : List CBlockIndex}, P s →
    bestCandidate env s.setBlockIndexValid = some q →
    checkAncestry s q [] [] = .failed descendants →
    invalidChainFound (descendants.foldl markFailedChild s) q = .ok s' → P s'
  attach : ∀ {s : ChainState} {q : CBlockIndex} {ps : List CBlockIndex}, P s →
    bestCandidate env s.setBlockIndexValid = some q → checkAncestry s q [] [] = .attach ps →
    ∀ p ∈ ps, Q s p
  /-- `SetBestChain` returns. -/
  returned : ∀ {s s' : ChainState} {p : CBlockIndex} {b : Bool}, P s → Q s p →
    setBestChainUntil env fuel s p = .ok (.returned b s') →
    P s' ∧ (b = true → ∀ x, Q s x → Q s' x)
  /-- `InvalidBlockFound` starts a search. -/
  searching : ∀ {s s' : ChainState} {p : CBlockIndex}, P s → Q s p →
    setBestChainUntil env fuel s p = .ok (.searching s') → P s'

namespace SearchRule

variable {env : Env} {fuel rounds : Nat} {s s' : ChainState} {p : CBlockIndex} {b : Bool}
variable {P : ChainState → Prop} {Q : ChainState → CBlockIndex → Prop}
variable {search : ChainState → Except Halt (Bool × ChainState)}

/-- A call, given what holds after the search in it. -/
theorem setBestChainWith (rule : SearchRule env fuel P Q)
    (hsearch : ∀ {s s' b}, P s → search s = .ok (b, s') → P s') (hs : P s) (hp : Q s p)
    (h : CoMoNet.setBestChainWith env fuel search s p = .ok (b, s')) :
    P s' ∧ (b = true → ∀ x, Q s x → Q s' x) := by
  rw [setBestChainWith_eq] at h
  obtain ⟨e, hcall, h⟩ := Except.bind_eq_ok_iff.mp h
  cases e with
  | returned b s₁ =>
    cases h
    exact rule.returned hs hp hcall
  | searching s₁ =>
    obtain ⟨⟨b₁, s₂⟩, hnested, h⟩ := Except.map_eq_ok_iff.mp h
    cases h
    exact ⟨hsearch (rule.searching hs hp hcall) hnested, nofun⟩

theorem setBestChains (rule : SearchRule env fuel P Q)
    (hsearch : ∀ {s s' b}, P s → search s = .ok (b, s') → P s')
    {ps : List CBlockIndex} (hs : P s) (hps : ∀ p ∈ ps, Q s p)
    (h : CoMoNet.setBestChains (CoMoNet.setBestChainWith env fuel search) s ps =
      .ok (b, s')) : P s' := by
  induction ps generalizing s with
  | nil =>
    cases h
    exact hs
  | cons p ps ih =>
    rw [CoMoNet.setBestChains] at h
    split at h
    · cases h
    · rename_i s₁ hcall
      cases h
      exact (rule.setBestChainWith hsearch hs (hps p List.mem_cons_self) hcall).1
    · rename_i s₁ hcall
      obtain ⟨hs₁, hkeep⟩ := rule.setBestChainWith hsearch hs (hps p List.mem_cons_self) hcall
      exact ih hs₁ (fun x hx => hkeep rfl x (hps x (List.mem_cons_of_mem _ hx))) h

theorem connectBestBlock (rule : SearchRule env fuel P Q) (hs : P s)
    (h : CoMoNet.connectBestBlock env fuel rounds s = .ok (b, s')) : P s' := by
  induction rounds generalizing s b s' with
  | zero => cases h
  | succ rounds ih =>
    rw [CoMoNet.connectBestBlock] at h
    split at h
    · cases h
      exact hs
    rename_i q hq
    split at h
    · cases h
      exact hs
    split at h
    · rename_i descendants hfailed
      split at h
      · cases h
      rename_i s₁ hfound
      exact ih (rule.giveUp hs hq hfailed hfound) h
    · rename_i ps hattach
      exact rule.setBestChains ih hs (rule.attach hs hq hattach) h

end SearchRule

end CoMoNet
