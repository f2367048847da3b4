import CoMoNet.Chain.Marks

/-!
# What a successful call leaves

At a failed block `setBestChain` empties its list and connects only the blocks below,
but switches to the new tip all the same. `setBestChain_clean` is about branches without
failed blocks, and runs of such calls keep `CallInv`.
-/

namespace CoMoNet

open GuardedRun (System)
open CBlockIndex (ancestors ancestorsOf ancestorsOf_injective ancestorsOf_trans)

/-- No block of the branch carries `BLOCK_FAILED_MASK`. -/
def Clean (s : ChainState) (p : CBlockIndex) : Prop :=
  ∀ a ∈ p.ancestors, (s.nStatus a).failed = false

/-! ## The list of blocks to connect -/

/-- Without failed blocks all are listed. -/
theorem collectConnect_clean : ∀ (rest : List CBlockIndex) (s : ChainState)
    (vConnect : List CBlockIndex), (∀ p ∈ rest, (s.nStatus p).failed = false) →
    collectConnect s vConnect rest = (vConnect ++ rest, s)
  | [], s, vConnect, _ => by simp [collectConnect]
  | p :: rest, s, vConnect, h => by
    rw [collectConnect, if_neg (by simp [h p List.mem_cons_self])]
    rw [collectConnect_clean rest s _ fun q hq => h q (List.mem_cons_of_mem _ hq)]
    simp

theorem collectConnect_failed : ∀ (rest : List CBlockIndex) (s : ChainState)
    (vConnect : List CBlockIndex), (∃ p ∈ rest, (s.nStatus p).failed = true) →
    (collectConnect s vConnect rest).1.length < vConnect.length + rest.length
  | [], _, _, ⟨_, hp, _⟩ => by cases hp
  | p :: rest, s, vConnect, ⟨q, hq, hfailed⟩ => by
    rw [collectConnect]
    split
    · obtain ⟨⟨dropped, hsplit⟩, -⟩ :=
        collectConnect_spec rest ((vConnect ++ [p]).foldl markFailedChild s) []
      have hlen := congrArg List.length hsplit
      simp only [List.nil_append, List.length_append] at hlen
      rw [List.length_cons]
      omega
    · rename_i hp
      have hq' : q ∈ rest := by
        rcases List.mem_cons.mp hq with rfl | hq
        · exact absurd hfailed hp
        · exact hq
      have ih := collectConnect_failed rest s (vConnect ++ [p]) ⟨q, hq', hfailed⟩
      rw [List.length_append, List.length_singleton] at ih
      rw [List.length_cons]
      omega

theorem markFailed_status : ∀ (ps : List CBlockIndex) (s : ChainState) (x : CBlockIndex),
    (x ∉ ps → (ps.foldl markFailedChild s).nStatus x = s.nStatus x) ∧
      ((ps.foldl markFailedChild s).nStatus x).failedValid = (s.nStatus x).failedValid ∧
      ((ps.foldl markFailedChild s).nStatus x).undo = (s.nStatus x).undo
  | [], s, x => ⟨fun _ => rfl, rfl, rfl⟩
  | p :: ps, s, x => by
    obtain ⟨hout, hvalid, hundo⟩ := markFailed_status ps (markFailedChild s p) x
    rw [List.foldl_cons]
    have hstatus : (markFailedChild s p).nStatus x =
        if x = p then { s.nStatus p with failedChild := true } else s.nStatus x := rfl
    refine ⟨fun hx => ?_, ?_, ?_⟩
    · rw [List.mem_cons, not_or] at hx
      rw [hout hx.2, hstatus, if_neg hx.1]
    · rw [hvalid, hstatus]
      split
      · rename_i heq
        rw [heq]
      · rfl
    · rw [hundo, hstatus]
      split
      · rename_i heq
        rw [heq]
      · rfl

theorem planReorg_undo {plan : Reorg} (h : planReorg s p = .ok plan) (x : CBlockIndex) :
    (plan.marked.nStatus x).undo = (s.nStatus x).undo := by
  obtain ⟨pfork, -, -, -, hmarked⟩ := planReorg_eq h
  rw [hmarked]
  exact collectConnect_rule (P := fun t => (t.nStatus x).undo = (s.nStatus x).undo)
    (fun t q ht => (markFailed_status [q] t x).2.2.trans ht) _ _ rfl

/-! ## A call on a branch without failed blocks -/

/-- A block is marked as failed and taken out of the candidates. -/
structure Rejects (s : ChainState) (q : CBlockIndex) (s' : ChainState) : Prop where
  failedValid : ∀ p, (s'.nStatus p).failedValid = true ↔ p = q ∨ (s.nStatus p).failedValid = true
  failedChild : ∀ p, (s'.nStatus p).failedChild = (s.nStatus p).failedChild
  cands : s'.setBlockIndexValid = s.setBlockIndexValid.erase q
  soft : s'.lastSoftCP = s.lastSoftCP

/-- How a call on a branch without failed blocks ends. -/
inductive CleanOutcome (s : ChainState) (p : CBlockIndex) : Bool → ChainState → Prop where
  /-- The branch is shorter than the chain of the view. -/
  | short : p.ancestors.length < (ancestorsOf s.coinsTip).length →
      CleanOutcome s p false s
  | rejected {s' : ChainState} {q : CBlockIndex} :
      (ancestorsOf s.coinsTip).length ≤ p.ancestors.length → q ∈ p.ancestors →
      q ∉ ancestorsOf s.coinsTip → s.pindexBest ≠ none → SameChain s s' →
      Rejects s q s' → CleanOutcome s p false s'
  | switched {s' : ChainState} :
      (ancestorsOf s.coinsTip).length ≤ p.ancestors.length →
      s'.mapBlockIndex = s.mapBlockIndex → SameMarks s s' → s'.coinsTip = some p →
      s'.pindexBest = some p → CleanOutcome s p true s'

/-- The chain is well formed, unmarked, and can be disconnected. -/
structure CallInv (env : Env) (s : ChainState) : Prop where
  inv : ChainInv env s
  clean : ∀ p ∈ ancestorsOf s.coinsTip, (s.nStatus p).failed = false
  undo : UndoOK s s.coinsTip

section Call

variable {env : Env} {fuel rounds : Nat} {s s' : ChainState} {p q : CBlockIndex} {b : Bool}
variable {connectBestBlock : ChainState → Except Halt (Bool × ChainState)}
variable {plan : Reorg} {pfork : Option CBlockIndex}

/-- A block outside the main chain is marked and taken out of the candidates. -/
theorem invalidBlockFound_rejects (hq : s.isInMainChain q = false)
    (h : invalidBlockFound connectBestBlock s q = .ok s') :
    Rejects s q s' ∧ ∀ p, (s'.nStatus p).undo = (s.nStatus p).undo := by
  rw [invalidBlockFound] at h
  split at h
  · cases h
  rename_i s₁ hfound
  have hsame := sameIndex_invalidChainFound hfound
  obtain ⟨hmarks, hstatus⟩ := invalidChainFound_marks hfound
  have hnext : s₁.getNextInMainChain q = none := by
    rw [ChainState.getNextInMainChain, hsame.isInMainChain]
    show (if s.isInMainChain q then _ else none) = none
    rw [hq]
    rfl
  rw [hnext, Except.ok.injEq] at h
  subst h
  refine ⟨⟨fun p => ?_, fun p => ?_, hmarks.cands, hmarks.soft⟩, fun p => ?_⟩
  · rw [hmarks.failedValid]
    by_cases hp : p = q <;> simp [ChainState.writeBlockIndex, ChainState.setStatus, hp]
  · rw [hmarks.failedChild]
    by_cases hp : p = q <;> simp [ChainState.writeBlockIndex, ChainState.setStatus, hp]
  · rw [hstatus]
    by_cases hp : p = q <;> simp [ChainState.writeBlockIndex, ChainState.setStatus, hp]

theorem forkWith_none {view : Option CBlockIndex} (h : forkWith view p = .ok none) :
    view = none := by
  cases view with
  | none => rfl
  | some tip =>
    rw [forkWith] at h
    split at h
    · cases h
    · cases h

theorem PlanOK.fork_ne_none (inv : ChainInv env s)
    (hp : p ∈ s.mapBlockIndex) (hplan : planReorg s p = .ok plan) (ok : PlanOK s p plan pfork)
    (hne : plan.vDisconnect ≠ []) : pfork ≠ none := by
  obtain ⟨pfork', hfork, hdis, -⟩ := planReorg_eq hplan
  obtain ⟨hold, -⟩ := forkWith_spec inv hp hfork
  have hsame : pfork' = pfork := by
    have hold' := ok.disconnect
    rw [hold, hdis] at hold'
    exact ancestorsOf_injective (List.append_cancel_left hold')
  rintro rfl
  subst hsame
  refine hne ?_
  rw [hdis, forkWith_none hfork]
  rfl

/-- The old branch has its undo data: it can be disconnected. -/
theorem UndoOK.carryOut (undo : UndoOK s s.coinsTip)
    (inv : ChainInv env s) (hp : p ∈ s.mapBlockIndex) (hplan : planReorg s p = .ok plan)
    (ok : PlanOK s p plan pfork) :
    ∃ s₂, CoMoNet.disconnectBlocks plan.marked s.coinsTip plan.vDisconnect = .ok (true, s₂, pfork) ∧
      UndoOK s₂ pfork ∧ UndoOK s₂ s.coinsTip := by
  have hmarked : UndoOK plan.marked s.coinsTip :=
    undo.congr ok.marked.map (planReorg_undo hplan)
  obtain ⟨s₂, hdis, hfork⟩ := hmarked.disconnectBlocks ok.disconnect
    (ok.fork_ne_none inv hp hplan) (fun q hq => ok.marked.map ▸ (ok.mem inv hp).1 q hq)
  obtain ⟨idx, rfl⟩ := onlyIndex_disconnectBlocks hdis
  exact ⟨_, hdis, hfork, hmarked.congr rfl fun _ => rfl⟩

theorem UndoOK.setBestChain (undo : UndoOK s s.coinsTip) (inv : ChainInv env s)
    (hp : p ∈ s.mapBlockIndex) (h : setBestChain env fuel rounds s p = .ok (b, s')) :
    UndoOK s' s'.coinsTip := by
  rw [CoMoNet.setBestChain, setBestChainWith] at h
  split at h
  · cases h
  rename_i plan hplan
  obtain ⟨pfork, ok⟩ := planReorg_ok inv hp hplan
  obtain ⟨s₂, hdis, hundo, hkeeps⟩ := undo.carryOut inv hp hplan ok
  split at h
  · cases h
    rw [ok.marked.tip]
    exact undo.congr ok.marked.map (planReorg_undo hplan)
  simp only [hdis] at h
  have hsame₂ := ok.marked.toSameChain.trans (disconnectBlocks_sameChain hdis)
  have htree₂ : TreeOK env s₂.mapBlockIndex := hsame₂.map ▸ inv.tree
  have hmem₂ : ∀ q ∈ plan.vConnect, q ∈ s₂.mapBlockIndex := fun q hq =>
    hsame₂.map ▸ (ok.mem inv hp).2 q hq
  split at h
  · cases h
  · rename_i s₃ q hcon
    obtain ⟨pre, post, s₁, view₁, nDoS, errors, view₂, hsplit, hpre, hbad⟩ :=
      connectBlocks_rejected hcon
    have hq := rejected_mem hcon
    have hmempre : ∀ x ∈ pre, x ∈ s₂.mapBlockIndex := fun x hx =>
      hmem₂ x (by rw [hsplit]; exact List.mem_append_left _ hx)
    have hsame₁ := (connectBlocks_view hpre).1
    have hsame₃ := (hsame₂.trans hsame₁).trans (connectBlock_sameChain hbad)
    have hundo₁ := (hundo.connectBlocks htree₂ hmempre hkeeps hpre).2
    have hundo₃ : UndoOK s₃ s.coinsTip :=
      hundo₁.keeps (hsame₁.map ▸ htree₂) (hsame₁.map ▸ hmem₂ q hq) hbad
    split at h
    · cases h
    rename_i s₄ hfound
    have hsame₄ := sameIndex_invalidChainFound hfound
    obtain ⟨-, hstatus₄⟩ := invalidChainFound_marks hfound
    have hout : s₄.isInMainChain q = false := by
      rw [(hsame₃.trans hsame₄.toSameChain).isInMainChain, ← Bool.not_eq_true,
        inv.isInMainChain_iff]
      exact ok.fresh q hq
    obtain ⟨s₅, hbf, h⟩ := Except.map_eq_ok_iff.mp h
    cases h
    obtain ⟨-, hundo₅⟩ := invalidBlockFound_rejects hout hbf
    have hsame₅ := hsame₄.trans (sameIndex_invalidBlockFound hout hbf)
    rw [(hsame₃.trans hsame₅.toSameChain).tip]
    refine hundo₃.congr hsame₅.map fun x => ?_
    rw [hundo₅, hstatus₄]
  · rename_i s₃ view₃ hcon
    obtain ⟨s₄, hsw, h⟩ := Except.map_eq_ok_iff.mp h
    cases h
    obtain ⟨hmap, -, -, htip, -, -⟩ := switchChain_spec hsw
    rw [htip]
    exact (hundo.connectBlocks htree₂ hmem₂ hkeeps hcon).1.congr hmap (switchChain_marks hsw).2

/-- The plan for a branch without failed blocks: everything above the fork. -/
theorem planReorg_clean
    (hroot : ∀ tip, s.coinsTip = some tip → p.rootOf = tip.rootOf)
    (hclean : Clean s p) (h : planReorg s p = .ok plan) :
    ∃ pfork, plan.marked = s ∧
      ancestorsOf s.coinsTip = plan.vDisconnect ++ ancestorsOf pfork ∧
      p.ancestors = plan.vConnect.reverse ++ ancestorsOf pfork ∧
      (∀ q ∈ plan.vConnect, q ∉ ancestorsOf s.coinsTip) ∧
      (plan.vDisconnect ≠ [] → pfork ≠ none) := by
  obtain ⟨pfork, hfork, hdis, hcon, hmarked⟩ := planReorg_eq h
  obtain ⟨hold, hpath, hfresh⟩ := forkWith_of_rootOf hroot hfork
  rw [collectConnect_clean _ s [] fun q hq => hclean q (by
    rw [hpath]; exact List.mem_append_left _ hq), List.nil_append] at hcon hmarked
  refine ⟨pfork, hmarked, hdis ▸ hold, ?_, fun q hq => hfresh q ?_, fun hne hnone => hne ?_⟩
  · rw [hcon, List.reverse_reverse]
    exact hpath
  · rw [hcon, List.mem_reverse] at hq
    exact hq
  · subst hnone
    rw [hdis, forkWith_none hfork]
    rfl

/-- A call for an unmarked branch. -/
theorem setBestChain_clean (inv : CallInv env s) (hp : p ∈ s.mapBlockIndex) (hclean : Clean s p)
    (h : setBestChain env fuel rounds s p = .ok (b, s')) :
    CleanOutcome s p b s' ∧ UndoOK s' s'.coinsTip := by
  refine ⟨?_, inv.undo.setBestChain inv.inv hp h⟩
  rw [setBestChain, setBestChainWith] at h
  split at h
  · cases h
  rename_i plan hplan
  obtain ⟨pfork, hmarked, hold, hpath, hfresh, hfork⟩ := planReorg_clean
    (fun tip htip => inv.inv.tree.rootOf_eq hp (inv.inv.tip tip htip)) hclean hplan
  have hlenOld := congrArg List.length hold
  have hlenNew := congrArg List.length hpath
  simp only [List.length_append, List.length_reverse] at hlenOld hlenNew
  split at h
  · rename_i hshort
    cases h
    rw [hmarked]
    exact .short (by omega)
  rename_i hlen
  have hlong : (ancestorsOf s.coinsTip).length ≤ p.ancestors.length := by omega
  have hmemOld : ∀ q ∈ plan.vDisconnect, q ∈ s.mapBlockIndex := fun q hq =>
    inv.inv.ancestorsOf_mem q (hold ▸ List.mem_append_left _ hq)
  have hmemNew : ∀ q ∈ plan.vConnect, q ∈ p.ancestors := fun q hq =>
    hpath ▸ List.mem_append_left _ (List.mem_reverse.mpr hq)
  rw [hmarked] at h
  obtain ⟨s₂, hdis, -⟩ := inv.undo.disconnectBlocks hold hfork hmemOld
  have hframe := onlyIndex_disconnectBlocks hdis
  have hsame₂ := disconnectBlocks_sameChain hdis
  simp only [hdis] at h
  split at h
  · cases h
  · rename_i s₃ q hcon
    have hq := rejected_mem hcon
    have hsame₃ := hsame₂.trans (frame_sameChain.rejected hcon)
    have hmarks₃ := hframe.marks.trans (frame_marks.rejected hcon)
    split at h
    · cases h
    rename_i s₄ hfound
    have hsame₄ := sameIndex_invalidChainFound hfound
    obtain ⟨hmarks₄, -⟩ := invalidChainFound_marks hfound
    have hout : s₄.isInMainChain q = false := by
      rw [(hsame₃.trans hsame₄.toSameChain).isInMainChain, ← Bool.not_eq_true,
        inv.inv.isInMainChain_iff]
      exact hfresh q hq
    obtain ⟨s₅, hbf, h⟩ := Except.map_eq_ok_iff.mp h
    cases h
    obtain ⟨hrejects, -⟩ := invalidBlockFound_rejects hout hbf
    have hsame₅ := (hsame₃.trans hsame₄.toSameChain).trans
      (sameIndex_invalidBlockFound hout hbf).toSameChain
    have hmarks := hmarks₃.trans hmarks₄
    refine .rejected hlong (hmemNew q hq) (hfresh q hq) ?_ hsame₅ ⟨fun x => ?_, fun x => ?_,
      ?_, ?_⟩
    · intro hnone
      rw [invalidChainFound, hsame₃.best, hnone] at hfound
      cases hfound
    · rw [hrejects.failedValid, hmarks.failedValid]
    · rw [hrejects.failedChild, hmarks.failedChild]
    · rw [hrejects.cands, hmarks.cands]
    · rw [hrejects.soft, hmarks.soft]
  · rename_i s₃ view₃ hcon
    obtain ⟨s₄, hsw, h⟩ := Except.map_eq_ok_iff.mp h
    cases h
    obtain ⟨hsame₃, hview⟩ := connectBlocks_view hcon
    obtain ⟨hmap, -, -, htip, hbest, -⟩ := switchChain_spec hsw
    have hview' : view₃ = some p := by
      refine ancestorsOf_injective ?_
      rw [hview, ← hpath]
      rfl
    refine .switched hlong ?_ ?_ (htip.trans hview') hbest
    · rw [hmap, hsame₃.map, hsame₂.map]
    · exact (hframe.marks.trans (frame_marks.connectBlocks hcon)).trans (switchChain_marks hsw).1

/-- A call on a branch without failed blocks keeps the invariant. -/
theorem CallInv.setBestChain (inv : CallInv env s) (hp : p ∈ s.mapBlockIndex) (hclean : Clean s p)
    (h : setBestChain env fuel rounds s p = .ok (b, s')) : CallInv env s' := by
  obtain ⟨hout, hundo⟩ := setBestChain_clean inv hp hclean h
  obtain ⟨plan, pfork, -, ok, hcall⟩ := setBestChainWith_cases inv.inv hp h
  refine ⟨hcall.inv inv.inv hp ok, ?_, hundo⟩
  cases hout with
  | short hlen => exact inv.clean
  | rejected hlen hq hout hbest hsame hrejects =>
    intro x hx
    rw [hsame.tip] at hx
    have hx' := inv.clean x hx
    rw [BlockStatus.failed, Bool.or_eq_false_iff] at hx' ⊢
    refine ⟨?_, (hrejects.failedChild x).trans hx'.2⟩
    rw [← Bool.not_eq_true, hrejects.failedValid]
    rintro (rfl | hfailed)
    · exact hout hx
    · rw [hx'.1] at hfailed
      cases hfailed
  | switched hlen hmap hmarks htip hbest =>
    intro x hx
    rw [htip] at hx
    rw [hmarks.failed]
    exact hclean x hx

end Call

/-! ## Runs of calls -/

/-- What can happen. -/
inductive CallLabel where
  | accept (block : CBlock) (pos : CDiskBlockPos)
  /-- `connectBestBlock` gives a candidate up. -/
  | giveUp (q : CBlockIndex)
  | setBestChain (fuel rounds : Nat) (pindexNew : CBlockIndex)
  | softCP (cp : Nat × Uint256)
  | clock (now : Int)

/-- One step. `setBestChain` may be called with any indexed block, as its two callers do. -/
def CallStep (env : Env) (s : ChainState) : CallLabel → ChainState → Prop
  | .accept block pos, s' =>
    Accepts env s block pos ∧ s' = insertBlockIndex s (newBlockIndex env s block pos)
  | .giveUp q, s' =>
    q ∈ s.setBlockIndexValid ∧ ∃ descendants, checkAncestry s q [] [] = .failed descendants ∧
      invalidChainFound (descendants.foldl markFailedChild s) q = .ok s'
  | .setBestChain fuel rounds p, s' =>
    p ∈ s.mapBlockIndex ∧ ∃ b, setBestChain env fuel rounds s p = .ok (b, s')
  | .softCP cp, s' => s' = { s with lastSoftCP := cp }
  | .clock now, s' => s' = { s with clock := now }

/-- Blocks and calls. -/
def callSystem (env : Env) : System ChainState CallLabel where
  init s := s = {}
  step := CallStep env

/-- `setBestChain` is only called for branches without failed blocks. -/
def CallsClean (s : ChainState) : CallLabel → Prop
  | .setBestChain _ _ p => Clean s p
  | _ => True

/-- View, vector and marks are those of the chain of the new tip. -/
structure Switched (s' : ChainState) (p : CBlockIndex) : Prop where
  view : s'.coinsTip = some p
  length : s'.vBlockIndexByHeight.length = p.nHeight + 1
  /-- The entries are the ancestors of the new tip. -/
  entries : ∀ h ≤ p.nHeight, ∃ a ∈ p.ancestors, a.nHeight = h ∧
    s'.vBlockIndexByHeight[h]? = some (some a)
  unfailed : ∀ a, some a ∈ s'.vBlockIndexByHeight → (s'.nStatus a).failed = false

section Runs

variable {env : Env} {fuel rounds : Nat} {s s' : ChainState} {p q : CBlockIndex}
variable {descendants : List CBlockIndex} {block : CBlock} {pos : CDiskBlockPos}

/-- The ancestry walk that meets a failed block has walked over its
descendants. -/
theorem checkAncestry_failed {walked vAttach : List CBlockIndex}
    (h : checkAncestry s q walked vAttach = .failed descendants) :
    ∃ path f below, q.ancestors = path ++ f :: below ∧ (s.nStatus f).failed = true ∧
      descendants = walked ++ path := by
  induction q generalizing walked vAttach with
  | root block pos =>
    rw [checkAncestry] at h
    split at h
    · rename_i hfailed
      cases h
      exact ⟨[], _, [], rfl, hfailed, by simp⟩
    · cases h
  | next pprev block pos ih =>
    rw [checkAncestry] at h
    split at h
    · rename_i hfailed
      cases h
      exact ⟨[], _, pprev.ancestors, rfl, hfailed, by simp⟩
    split at h
    · cases h
    · obtain ⟨path, f, below, hpath, hfailed, hdesc⟩ := ih h
      refine ⟨.next pprev block pos :: path, f, below, ?_, hfailed, ?_⟩
      · rw [ancestors, hpath]
        rfl
      · rw [hdesc]
        simp

/-- A descendant of a failed block is not in a chain without failed blocks. -/
theorem not_mem_of_failed {tip : Option CBlockIndex} {path below : List CBlockIndex}
    {f : CBlockIndex} (hclean : ∀ a ∈ ancestorsOf tip, (s.nStatus a).failed = false)
    (hpath : q.ancestors = path ++ f :: below) (hf : (s.nStatus f).failed = true) :
    ∀ x ∈ ancestorsOf tip, x ∉ path := by
  intro x hx hin
  have hfx := CBlockIndex.mem_ancestors_of_split hpath hin
  rw [hclean f (ancestorsOf_trans hfx hx)] at hf
  cases hf

/-- A candidate whose ancestry passes has an unmarked branch. -/
theorem clean_of_attach {ps : List CBlockIndex}
    (hmain : ∀ c, s.isInMainChain c = true → c ∈ ancestorsOf s.coinsTip)
    (hclean : ∀ a ∈ ancestorsOf s.coinsTip, (s.nStatus a).failed = false)
    (h : checkAncestry s q [] [] = .attach ps) : Clean s q := by
  obtain ⟨path, below, hpath, hwalked, -, hbelow⟩ := checkAncestry_path h
  intro a ha
  rw [hpath] at ha
  rcases List.mem_append.mp ha with ha | ha
  · exact hwalked a ha
  · obtain ⟨c, hc, hac⟩ := hbelow a ha
    exact hclean a (ancestorsOf_trans hac (hmain c hc))

theorem CallInv.clean_of_attach {ps : List CBlockIndex} (inv : CallInv env s)
    (h : checkAncestry s q [] [] = .attach ps) : Clean s q :=
  CoMoNet.clean_of_attach (fun _ => inv.inv.isInMainChain_iff.mp) inv.clean h

theorem callInv_init (env : Env) : CallInv env {} where
  inv := chainInv_init env
  clean := nofun
  undo := ⟨nofun, nofun⟩

theorem newBlockIndex_notMem (inv : ChainInv env s)
    (h : Accepts env s block pos) : newBlockIndex env s block pos ∉ s.mapBlockIndex := by
  intro hmem
  refine (h.cases inv.tree).1 _ hmem ?_
  rw [newBlockIndex]
  split <;> rfl

theorem insertBlockIndex_status (inv : ChainInv env s)
    (h : Accepts env s block pos) (hp : p ∈ s.mapBlockIndex) :
    (insertBlockIndex s (newBlockIndex env s block pos)).nStatus p = s.nStatus p := by
  refine if_neg ?_
  rintro rfl
  exact newBlockIndex_notMem inv h hp

theorem UndoOK.accept (undo : UndoOK s s.coinsTip)
    (inv : ChainInv env s) (h : Accepts env s block pos) :
    UndoOK (insertBlockIndex s (newBlockIndex env s block pos)) s.coinsTip where
  fits x hx n hn := by
    rcases List.mem_cons.mp hx with rfl | hx
    · have hfresh : (insertBlockIndex s (newBlockIndex env s block pos)).nStatus
          (newBlockIndex env s block pos) = { valid := 3, haveData := true } := if_pos rfl
      rw [hfresh] at hn
      cases hn
    · rw [insertBlockIndex_status inv h hx] at hn
      exact undo.fits x hx n hn
  connected x hx hroot := by
    rw [insertBlockIndex_status inv h (inv.ancestorsOf_mem x hx)]
    exact undo.connected x hx hroot

theorem UndoOK.giveUp (undo : UndoOK s s.coinsTip)
    (h : invalidChainFound (descendants.foldl markFailedChild s) q = .ok s') :
    UndoOK s' s'.coinsTip := by
  have hsame := (sameIndex_markFailed descendants s).trans (sameIndex_invalidChainFound h)
  rw [hsame.tip]
  refine undo.congr hsame.map fun x => ?_
  rw [(invalidChainFound_marks h).2]
  exact (markFailed_status descendants s x).2.2

theorem CallInv.accept (inv : CallInv env s)
    (h : Accepts env s block pos) :
    CallInv env (insertBlockIndex s (newBlockIndex env s block pos)) := by
  refine ⟨chainInv_step inv.inv (a := .accept block pos) ⟨h, rfl⟩, fun x hx => ?_,
    inv.undo.accept inv.inv h⟩
  rw [insertBlockIndex_status inv.inv h (inv.inv.ancestorsOf_mem x hx)]
  exact inv.clean x hx

theorem CallInv.giveUp (inv : CallInv env s)
    (hfailed : checkAncestry s q [] [] = .failed descendants)
    (h : invalidChainFound (descendants.foldl markFailedChild s) q = .ok s') : CallInv env s' := by
  obtain ⟨_, f, below, hpath, hf, rfl⟩ := checkAncestry_failed hfailed
  have hsame := (sameIndex_markFailed descendants s).trans (sameIndex_invalidChainFound h)
  obtain ⟨-, hstatus⟩ := invalidChainFound_marks h
  refine ⟨inv.inv.congr hsame.toSameChain, fun x hx => ?_, inv.undo.giveUp h⟩
  rw [hsame.tip] at hx
  rw [hstatus, (markFailed_status descendants s x).1 (not_mem_of_failed inv.clean hpath hf x hx)]
  exact inv.clean x hx

theorem CallInv.setClock (inv : CallInv env s) (now : Int) :
    CallInv env { s with clock := now } :=
  ⟨⟨inv.inv.tree, inv.inv.tip, inv.inv.slots, inv.inv.best, inv.inv.cands⟩, inv.clean,
    ⟨inv.undo.fits, inv.undo.connected⟩⟩

/-- It holds in runs with calls for branches without failed blocks only. -/
theorem callInv_of_reach (h : (callSystem env).Reach CallsClean s) : CallInv env s := by
  refine h.invariant ?_ ?_
  · rintro s rfl
    exact callInv_init env
  · intro s a s' inv hok hstep
    cases a with
    | accept block pos =>
      obtain ⟨hacc, rfl⟩ := hstep
      exact inv.accept hacc
    | giveUp q =>
      obtain ⟨-, descendants, hfailed, hfound⟩ := hstep
      exact inv.giveUp hfailed hfound
    | setBestChain fuel rounds p =>
      obtain ⟨hp, b, hcall⟩ := hstep
      exact inv.setBestChain hp hok hcall
    | softCP cp =>
      obtain rfl := hstep
      exact ⟨⟨inv.inv.tree, inv.inv.tip, inv.inv.slots, inv.inv.best, inv.inv.cands⟩, inv.clean,
        ⟨inv.undo.fits, inv.undo.connected⟩⟩
    | clock now =>
      obtain rfl := hstep
      exact inv.setClock now

theorem switchChain_length {view : Option CBlockIndex} {vDisconnect vConnect : List CBlockIndex}
    (h : switchChain env fuel s view vDisconnect vConnect p = .ok s') :
    s'.vBlockIndexByHeight.length = p.nHeight + 1 := by
  obtain ⟨-, -, -, -, -, hchain⟩ := switchChain_spec h
  rw [hchain, length_setSlots, length_resizeChain]

end Runs

end CoMoNet
