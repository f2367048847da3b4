import CoMoNet.Chain.Checks
import CoMoNet.Lib.Reach

/-!
# Reorganisations

The parts of a `setBestChain` call keep `ChainInv`: the tree is well formed, and the
main-chain vector has the ancestors of the block of the coin view.
-/

namespace CoMoNet

open UndoStack (Log)
open CBlockIndex (above_none ancestorsOf ancestors_eq_above length_ancestors mem_above
  nHeight_le_of_mem_ancestors)

/-! ## The phases of SetBestChain -/

section Phases

variable {env : Env} {fuel : Nat} {s s' : ChainState} {view view' : Option CBlockIndex}
variable {p : CBlockIndex} {ps : List CBlockIndex}

/-- The view moves to the parent. -/
theorem disconnectBlock_view
    (h : disconnectBlock s view p.block p false = .ok (true, s', view')) :
    view = some p ∧ view' = p.pprev := by
  obtain ⟨hview, ⟨hb, -⟩ | ⟨-, hview', -⟩⟩ := disconnectBlock_cases h
  · cases hb
  · exact ⟨hview, hview'⟩

theorem disconnectBlocks_cons {b : Bool}
    (h : disconnectBlocks s view (p :: ps) = .ok (b, s', view')) :
    (b = false ∧ disconnectBlock s view p.block p false = .ok (false, s', view')) ∨
    ∃ s₁, disconnectBlock s view p.block p false = .ok (true, s₁, p.pprev) ∧ view = some p ∧
      SameChain s s₁ ∧ disconnectBlocks s₁ p.pprev ps = .ok (b, s', view') := by
  rw [disconnectBlocks] at h
  cases hone : disconnectBlock s view p.block p false with
  | error e => simp [hone] at h
  | ok r =>
    obtain ⟨b₁, s₁, view₁⟩ := r
    cases b₁ with
    | false =>
      simp only [hone] at h
      cases h
      exact .inl ⟨rfl, rfl⟩
    | true =>
      simp only [hone] at h
      obtain ⟨hview, rfl⟩ := disconnectBlock_view hone
      exact .inr ⟨s₁, rfl, hview, (onlyIndex_disconnectBlock hone).sameChain, h⟩

theorem disconnectBlock_false
    (h : disconnectBlock s view p.block p false = .ok (false, s', view')) : s' = s := by
  obtain ⟨-, ⟨-, hs⟩ | ⟨hb, -⟩⟩ := disconnectBlock_cases h
  · exact hs
  · cases hb

/-- Disconnecting changes the index only. -/
theorem onlyIndex_disconnectBlocks {b : Bool}
    (h : disconnectBlocks s view ps = .ok (b, s', view')) : OnlyIndex s s' := by
  induction ps generalizing s view with
  | nil =>
    cases h
    exact .refl _
  | cons p ps ih =>
    rcases disconnectBlocks_cons h with ⟨-, hone⟩ | ⟨s₁, hone, -, -, hrest⟩
    · exact onlyIndex_disconnectBlock hone
    · exact (onlyIndex_disconnectBlock hone).trans (ih hrest)

theorem disconnectBlocks_sameChain {b : Bool}
    (h : disconnectBlocks s view ps = .ok (b, s', view')) : SameChain s s' :=
  (onlyIndex_disconnectBlocks h).sameChain

theorem connectBlocks_cons {c : Connected}
    (h : connectBlocks env fuel s view (p :: ps) = .ok c) :
    (∃ s₁ view₁, connectBlock env fuel s view p.block p false = .ok (.valid, s₁, view₁) ∧
      connectBlocks env fuel s₁ view₁ ps = .ok c) ∨
    ∃ nDoS errors s₁ view₁, connectBlock env fuel s view p.block p false =
      .ok (.invalid nDoS errors, s₁, view₁) ∧ c = .rejected s₁ p := by
  rw [connectBlocks] at h
  split at h
  · cases h
  · rename_i nDoS errors s₁ view₁ hone
    cases h
    exact .inr ⟨nDoS, errors, s₁, view₁, hone, rfl⟩
  · rename_i s₁ view₁ hone
    exact .inl ⟨s₁, view₁, hone, h⟩

/-- What each connected block keeps holds after all of them. -/
theorem connectBlocks_rule {P : ChainState → Option CBlockIndex → Prop}
    (hstep : ∀ p ∈ ps, ∀ s view s' view', P s view →
      connectBlock env fuel s view p.block p false = .ok (.valid, s', view') → P s' view')
    (hP : P s view) (h : connectBlocks env fuel s view ps = .ok (.all s' view')) :
    P s' view' := by
  induction ps generalizing s view with
  | nil =>
    cases h
    exact hP
  | cons p ps ih =>
    rcases connectBlocks_cons h with ⟨s₁, view₁, hone, hrest⟩ | ⟨_, _, _, _, -, hc⟩
    · exact ih (fun q hq => hstep q (List.mem_cons_of_mem _ hq))
        (hstep p List.mem_cons_self s view s₁ view₁ hP hone) hrest
    · cases hc

/-- A rejected branch: the blocks before the bad one were connected. -/
theorem connectBlocks_rejected
    (h : connectBlocks env fuel s view ps = .ok (.rejected s' p)) :
    ∃ pre post s₁ view₁ nDoS errors view₂, ps = pre ++ p :: post ∧
      connectBlocks env fuel s view pre = .ok (.all s₁ view₁) ∧
      connectBlock env fuel s₁ view₁ p.block p false = .ok (.invalid nDoS errors, s', view₂) := by
  induction ps generalizing s view with
  | nil => simp [connectBlocks] at h
  | cons q ps ih =>
    rcases connectBlocks_cons h with ⟨s₁, view₁, hone, hrest⟩ | ⟨nDoS, errors, _, view₁, hone, hc⟩
    · obtain ⟨pre, post, s₂, view₂, nDoS, errors, view₃, rfl, hpre, hbad⟩ := ih hrest
      refine ⟨q :: pre, post, s₂, view₂, nDoS, errors, view₃, rfl, ?_, hbad⟩
      rw [connectBlocks, hone]
      exact hpre
    · cases hc
      exact ⟨[], ps, s, view, nDoS, errors, view₁, rfl, rfl, hone⟩

theorem disconnectBlocks_view {rest : List CBlockIndex}
    (hview : ancestorsOf view = ps ++ rest)
    (h : disconnectBlocks s view ps = .ok (true, s', view')) :
    ancestorsOf view' = rest := by
  induction ps generalizing s view with
  | nil =>
    simp only [disconnectBlocks, Except.ok.injEq, Prod.mk.injEq] at h
    rw [← h.2.2]
    exact hview
  | cons p ps ih =>
    rcases disconnectBlocks_cons h with ⟨hb, -⟩ | ⟨s₁, -, rfl, -, hrest⟩
    · cases hb
    · refine ih ?_ hrest
      rw [ancestorsOf, CBlockIndex.ancestors_eq] at hview
      exact (List.cons.inj hview).2

theorem rejected_mem
    (h : connectBlocks env fuel s view ps = .ok (.rejected s' p)) : p ∈ ps := by
  obtain ⟨pre, post, _, _, _, _, _, rfl, -⟩ := connectBlocks_rejected h
  exact List.mem_append_right _ List.mem_cons_self

/-- A relation between states that the writes of `ConnectBlock` respect. -/
structure Frame (R : ChainState → ChainState → Prop) : Prop where
  refl : ∀ s, R s s
  trans : ∀ {s s' s''}, R s s' → R s' s'' → R s s''
  index : ∀ {s s'}, OnlyIndex s s' → R s s'
  undo : ∀ s p, R s (writeUndo s p p.block)

section Frames

variable {R : ChainState → ChainState → Prop} {p : CBlockIndex} {ps : List CBlockIndex}

/-- A block keeps a frame. -/
protected theorem Frame.connectBlock {v : Verdict} (frame : Frame R)
    (h : connectBlock env fuel s view p.block p false = .ok (v, s', view')) : R s s' := by
  rcases connectBlock_cases h with ⟨_, _, -, -, rfl, -⟩ | ⟨-, -, -, -, rfl, -⟩ |
    ⟨-, -, -, w, s₁, hchecks, -, hvalid, hinvalid⟩
  · exact frame.refl _
  · exact frame.refl _
  · have hindex := frame.index (onlyIndex_connectChecks hchecks)
    by_cases hv : v = .valid
    · rw [(hvalid hv).1]
      exact frame.trans (frame.trans hindex (frame.undo s₁ p)) (frame.index ⟨_, rfl⟩)
    · rw [(hinvalid hv).1]
      exact hindex

/-- So do all. -/
protected theorem Frame.connectBlocks (frame : Frame R)
    (h : connectBlocks env fuel s view ps = .ok (.all s' view')) : R s s' :=
  connectBlocks_rule (P := fun t _ => R s t)
    (fun _ _ _ _ _ _ ht hone => frame.trans ht (frame.connectBlock hone)) (frame.refl s) h

theorem Frame.rejected (frame : Frame R)
    (h : connectBlocks env fuel s view ps = .ok (.rejected s' p)) : R s s' := by
  obtain ⟨pre, post, s₁, view₁, _, _, _, -, hpre, hbad⟩ := connectBlocks_rejected h
  exact frame.trans (frame.connectBlocks hpre) (frame.connectBlock hbad)

theorem frame_sameChain : Frame SameChain where
  refl := .refl
  trans := .trans
  index := OnlyIndex.sameChain
  undo s p := sameChain_writeUndo s p p.block

theorem connectBlock_sameChain {v : Verdict}
    (h : connectBlock env fuel s view p.block p false = .ok (v, s', view')) : SameChain s s' :=
  frame_sameChain.connectBlock h

end Frames

theorem connectBlock_view
    (h : connectBlock env fuel s view p.block p false = .ok (.valid, s', view')) :
    p.pprev = view ∧ view' = some p := by
  rcases connectBlock_cases h with ⟨_, _, -, hv, -⟩ | ⟨hview, -, -, -, -, hview'⟩ |
    ⟨hview, -, -, _, _, -, -, hvalid, -⟩
  · cases hv
  · exact ⟨hview, hview'⟩
  · exact ⟨hview, (hvalid rfl).2⟩

theorem connectBlocks_view
    (h : connectBlocks env fuel s view ps = .ok (.all s' view')) :
    SameChain s s' ∧
      ancestorsOf view' = ps.reverse ++ ancestorsOf view := by
  induction ps generalizing s view with
  | nil =>
    cases h
    exact ⟨SameChain.refl _, rfl⟩
  | cons p ps ih =>
    rcases connectBlocks_cons h with ⟨s₁, view₁, hone, hrest⟩ | ⟨_, _, _, _, -, hc⟩
    · obtain ⟨hpprev, rfl⟩ := connectBlock_view hone
      obtain ⟨hsame, hview⟩ := ih hrest
      refine ⟨(connectBlock_sameChain hone).trans hsame, ?_⟩
      rw [hview, ancestorsOf, CBlockIndex.ancestors_eq, hpprev]
      simp
    · cases hc

end Phases

/-! ## Planning a reorganisation -/

/-- Two states that agree on the chain and on the whole user name index. -/
structure SameIndex (s s' : ChainState) : Prop extends SameChain s s' where
  index : s'.txIndex = s.txIndex

namespace SameIndex

variable {s s' s'' : ChainState}

theorem refl (s : ChainState) : SameIndex s s := ⟨SameChain.refl s, rfl⟩

theorem trans (h : SameIndex s s') (h' : SameIndex s' s'') : SameIndex s s'' :=
  ⟨h.toSameChain.trans h'.toSameChain, h'.index.trans h.index⟩

theorem user (h : SameIndex s s') (u : Bytes) : SameUser u s s' :=
  ⟨h.toSameChain, fun _ => by rw [h.index]⟩

end SameIndex

theorem sameIndex_markFailedChild (s : ChainState) (p : CBlockIndex) :
    SameIndex s (markFailedChild s p) := ⟨⟨rfl, rfl, rfl, rfl, List.erase_subset, rfl⟩, rfl⟩

/-- The rule for the marks that are set along the way. -/
theorem markFailed_rule {P : ChainState → Prop} (hmark : ∀ s p, P s → P (markFailedChild s p)) :
    ∀ (ps : List CBlockIndex) {s : ChainState}, P s → P (ps.foldl markFailedChild s)
  | [], _, hs => hs
  | p :: ps, s, hs => markFailed_rule hmark ps (hmark s p hs)

/-- What marking keeps the loop keeps. -/
theorem collectConnect_rule {P : ChainState → Prop}
    (hmark : ∀ s p, P s → P (markFailedChild s p)) :
    ∀ (rest : List CBlockIndex) {s : ChainState} (vConnect : List CBlockIndex), P s →
      P (collectConnect s vConnect rest).2
  | [], _, _, hs => hs
  | p :: rest, s, vConnect, hs => by
    rw [collectConnect]
    split
    · exact collectConnect_rule hmark rest _ (markFailed_rule hmark _ hs)
    · exact collectConnect_rule hmark rest _ hs

theorem sameIndex_markFailed (ps : List CBlockIndex) (s : ChainState) :
    SameIndex s (ps.foldl markFailedChild s) :=
  markFailed_rule (P := SameIndex s) (fun t p ht => ht.trans (sameIndex_markFailedChild t p)) ps
    (.refl s)

/-- What is collected is the lower end of the path. -/
theorem collectConnect_spec : ∀ (rest : List CBlockIndex) (s : ChainState)
    (vConnect : List CBlockIndex),
    (∃ dropped, vConnect ++ rest = dropped ++ (collectConnect s vConnect rest).1) ∧
      SameIndex s (collectConnect s vConnect rest).2
  | [], s, vConnect => ⟨⟨[], by simp [collectConnect]⟩, SameIndex.refl s⟩
  | p :: rest, s, vConnect => by
    rw [collectConnect]
    split
    · obtain ⟨⟨dropped, hpath⟩, hsame⟩ :=
        collectConnect_spec rest ((vConnect ++ [p]).foldl markFailedChild s) []
      refine ⟨⟨vConnect ++ [p] ++ dropped, ?_⟩, (sameIndex_markFailed _ s).trans hsame⟩
      rw [List.append_assoc _ dropped, ← hpath]
      simp
    · obtain ⟨⟨dropped, hpath⟩, hsame⟩ := collectConnect_spec rest s (vConnect ++ [p])
      exact ⟨⟨dropped, by rw [← hpath]; simp⟩, hsame⟩

/-- The tree is well formed, and the vector has the ancestors of the view's block, with null
above. -/
structure ChainInv (env : Env) (s : ChainState) : Prop where
  tree : TreeOK env s.mapBlockIndex
  tip : ∀ p, s.coinsTip = some p → p ∈ s.mapBlockIndex
  slots : ∀ h p, s.vBlockIndexByHeight[h]? = some (some p) ↔
    p ∈ ancestorsOf s.coinsTip ∧ p.nHeight = h
  best : ∀ p ∈ ancestorsOf s.coinsTip, (p.nHeight : Int) ≤ s.nBestHeight
  cands : s.setBlockIndexValid ⊆ s.mapBlockIndex

namespace ChainInv

variable {env : Env} {s s' : ChainState} {p q : CBlockIndex}

theorem congr (inv : ChainInv env s) (h : SameChain s s') : ChainInv env s' where
  tree := h.map ▸ inv.tree
  tip := by rw [h.tip, h.map]; exact inv.tip
  slots := by rw [h.tip, h.chain]; exact inv.slots
  best := by rw [h.tip, h.nBestHeight]; exact inv.best
  cands := by rw [h.map]; exact List.Subset.trans h.cands inv.cands

/-- The main chain is that of the view. -/
theorem isInMainChain_iff (inv : ChainInv env s) :
    s.isInMainChain p = true ↔ p ∈ ancestorsOf s.coinsTip := by
  have hslot := inv.slots p.nHeight p
  rw [ChainState.isInMainChain, beq_iff_eq, List.getD_eq_getElem?_getD]
  constructor
  · intro h
    cases hget : s.vBlockIndexByHeight[p.nHeight]? with
    | none => simp [hget] at h
    | some slot =>
      rw [hget, Option.getD_some] at h
      exact (hslot.mp (by rw [hget, h])).1
  · intro h
    rw [hslot.mpr ⟨h, rfl⟩, Option.getD_some]

theorem ancestorsOf_mem (inv : ChainInv env s) :
    ∀ p ∈ ancestorsOf s.coinsTip, p ∈ s.mapBlockIndex := by
  intro p hp
  cases htip : s.coinsTip with
  | none => rw [htip] at hp; cases hp
  | some tip =>
    rw [htip] at hp
    exact inv.tree.ancestors_mem (inv.tip tip htip) p hp

end ChainInv

/-- All blocks of the tree come from one root. -/
theorem TreeOK.rootOf_eq {env : Env} {map : List CBlockIndex} {p q : CBlockIndex}
    (tree : TreeOK env map) (hp : p ∈ map) (hq : q ∈ map) : p.rootOf = q.rootOf := by
  have hp' := tree.ancestors_mem hp _ p.rootOf_mem_ancestors
  have hq' := tree.ancestors_mem hq _ q.rootOf_mem_ancestors
  refine tree.hash_inj _ hp' _ hq' ?_
  rw [tree.root _ hp' p.rootOf_pprev, tree.root _ hq' q.rootOf_pprev]

/-- What `planReorg` lists, relative to the fork. -/
structure PlanOK (s : ChainState) (pindexNew : CBlockIndex) (plan : Reorg)
    (pfork : Option CBlockIndex) : Prop where
  /-- The blocks to disconnect lead from the tip of the view to the fork. -/
  disconnect : ancestorsOf s.coinsTip =
    plan.vDisconnect ++ ancestorsOf pfork
  /-- The blocks to connect lead from the fork towards the new tip. -/
  connect : ∃ dropped, pindexNew.ancestors =
    dropped ++ plan.vConnect.reverse ++ ancestorsOf pfork
  fresh : ∀ p ∈ plan.vConnect, p ∉ ancestorsOf s.coinsTip
  /-- Marking failed blocks leaves the index alone. -/
  marked : SameIndex s plan.marked

/-- The blocks above the fork on the side of the coin view. -/
def oldBranch (view pfork : Option CBlockIndex) : List CBlockIndex :=
  match view with
  | none => []
  | some best => best.above pfork

/-- The fork splits both chains, and nothing of the new branch is in the old chain. -/
theorem forkWith_of_rootOf {view pfork : Option CBlockIndex} {pindexNew : CBlockIndex}
    (hroot : ∀ tip, view = some tip → pindexNew.rootOf = tip.rootOf)
    (h : forkWith view pindexNew = .ok pfork) :
    ancestorsOf view = oldBranch view pfork ++ ancestorsOf pfork ∧
      pindexNew.ancestors = pindexNew.above pfork ++ ancestorsOf pfork ∧
      ∀ p ∈ pindexNew.above pfork, p ∉ ancestorsOf view := by
  cases view with
  | none =>
    rw [forkWith, Except.ok.injEq] at h
    subst h
    refine ⟨rfl, ?_, fun p _ => List.not_mem_nil⟩
    rw [above_none]
    exact (List.append_nil _).symm
  | some tip =>
    obtain ⟨f, hf, hftip, hfnew, hmax⟩ := CBlockIndex.findFork_spec
      tip.rootOf_mem_ancestors (hroot tip rfl ▸ pindexNew.rootOf_mem_ancestors)
    simp only [forkWith, hf, Except.ok.injEq] at h
    subst h
    refine ⟨ancestors_eq_above hftip, ancestors_eq_above hfnew, ?_⟩
    intro p hp hold
    obtain ⟨hpnew, hlt⟩ := mem_above hfnew hp
    have hle := nHeight_le_of_mem_ancestors (hmax p hold hpnew)
    omega

theorem forkWith_spec {env : Env} {s : ChainState} {pindexNew : CBlockIndex}
    {pfork : Option CBlockIndex} (inv : ChainInv env s) (hnew : pindexNew ∈ s.mapBlockIndex)
    (h : forkWith s.coinsTip pindexNew = .ok pfork) :
    ancestorsOf s.coinsTip =
        oldBranch s.coinsTip pfork ++ ancestorsOf pfork ∧
      pindexNew.ancestors = pindexNew.above pfork ++ ancestorsOf pfork ∧
      ∀ p ∈ pindexNew.above pfork, p ∉ ancestorsOf s.coinsTip :=
  forkWith_of_rootOf (fun tip htip => inv.tree.rootOf_eq hnew (inv.tip tip htip)) h

theorem planReorg_eq {s : ChainState} {pindexNew : CBlockIndex} {plan : Reorg}
    (h : planReorg s pindexNew = .ok plan) :
    ∃ pfork, forkWith s.coinsTip pindexNew = .ok pfork ∧
      plan.vDisconnect = oldBranch s.coinsTip pfork ∧
      plan.vConnect = (collectConnect s [] (pindexNew.above pfork)).1.reverse ∧
      plan.marked = (collectConnect s [] (pindexNew.above pfork)).2 := by
  rw [planReorg] at h
  split at h
  · cases h
  · rename_i pfork hfork
    cases h
    exact ⟨pfork, hfork, rfl, rfl, rfl⟩

theorem planReorg_ok {env : Env} {s : ChainState} {pindexNew : CBlockIndex} {plan : Reorg}
    (inv : ChainInv env s) (hnew : pindexNew ∈ s.mapBlockIndex)
    (h : planReorg s pindexNew = .ok plan) : ∃ pfork, PlanOK s pindexNew plan pfork := by
  obtain ⟨pfork, hfork, hdis, hcon, hmarked⟩ := planReorg_eq h
  obtain ⟨hold, hpath, hfresh⟩ := forkWith_spec inv hnew hfork
  obtain ⟨⟨dropped, hsplit⟩, hsame⟩ := collectConnect_spec (pindexNew.above pfork) s []
  rw [List.nil_append] at hsplit
  refine ⟨pfork, hdis ▸ hold, ⟨dropped, ?_⟩, fun p hp => hfresh p ?_, hmarked ▸ hsame⟩
  · rw [hcon, List.reverse_reverse, ← hsplit]
    exact hpath
  · rw [hcon, List.mem_reverse] at hp
    rw [hsplit]
    exact List.mem_append_right _ hp

section Plan

variable {env : Env} {s : ChainState} {pindexNew : CBlockIndex} {plan : Reorg}
variable {pfork : Option CBlockIndex}

theorem PlanOK.mem (inv : ChainInv env s) (hnew : pindexNew ∈ s.mapBlockIndex)
    (ok : PlanOK s pindexNew plan pfork) :
    (∀ p ∈ plan.vDisconnect, p ∈ s.mapBlockIndex) ∧
      ∀ p ∈ plan.vConnect, p ∈ s.mapBlockIndex := by
  constructor
  · intro p hp
    refine inv.ancestorsOf_mem p ?_
    rw [ok.disconnect]
    exact List.mem_append_left _ hp
  · intro p hp
    obtain ⟨dropped, hpath⟩ := ok.connect
    refine inv.tree.ancestors_mem hnew p ?_
    rw [hpath]
    exact List.mem_append_left _ (List.mem_append_right _ (List.mem_reverse.mpr hp))

/-- Below a block to connect are those before it, and then the fork. -/
theorem PlanOK.pprev {pre post : List CBlockIndex} {p : CBlockIndex}
    (ok : PlanOK s pindexNew plan pfork) (hsplit : plan.vConnect = pre ++ p :: post) :
    ancestorsOf p.pprev = pre.reverse ++ ancestorsOf pfork := by
  obtain ⟨dropped, hpath⟩ := ok.connect
  have hanc : pindexNew.ancestors = (dropped ++ post.reverse) ++
      p :: (pre.reverse ++ ancestorsOf pfork) := by
    rw [hpath, hsplit]
    simp
  exact CBlockIndex.ancestors_split hanc

end Plan

/-! ## Switching to the new chain -/

section Switch

variable {env : Env} {fuel : Nat} {s s' : ChainState}
variable {view pfork tip : Option CBlockIndex} {vDisconnect vConnect : List CBlockIndex}
variable {pindexNew : CBlockIndex}

/-- Only the pool changes. -/
def OnlyPool (s s' : ChainState) : Prop := ∃ txs, s' = { s with mapTx := txs }

theorem OnlyPool.refl (s : ChainState) : OnlyPool s s := ⟨s.mapTx, rfl⟩

theorem OnlyPool.trans {s'' : ChainState} (h : OnlyPool s s') (h' : OnlyPool s' s'') :
    OnlyPool s s'' := by
  obtain ⟨_, rfl⟩ := h
  obtain ⟨txs, rfl⟩ := h'
  exact ⟨txs, rfl⟩

theorem OnlyPool.sameIndex (h : OnlyPool s s') : SameIndex s s' := by
  obtain ⟨txs, rfl⟩ := h
  exact ⟨⟨rfl, rfl, rfl, rfl, List.Subset.refl _, rfl⟩, rfl⟩

/-- `accept` changes the pool only. -/
theorem onlyPool_mempoolAccept {tx : CTransaction} {b limit limited : Bool}
    (h : mempoolAccept env fuel s tx limit limited = .ok (b, s')) : OnlyPool s s' := by
  have hsame : ∀ {t}, verifyDuplicateOrReplacementTx env fuel s tx false true (-1) false =
      .ok t → t.2 = s := by
    intro t ht
    rw [verifyDuplicateOrReplacementTx] at ht
    split at ht
    · cases ht
    · cases ht
      rfl
    · simp only [Bool.false_and, Bool.false_eq_true, if_false, Except.ok.injEq] at ht
      rw [← ht]
  rw [mempoolAccept] at h
  split at h
  · cases h
    exact .refl s
  split at h
  · cases h
    exact .refl s
  split at h
  · cases h
    exact .refl s
  split at h
  · cases h
  · split at h <;> cases h
    · exact .refl s
    · exact ⟨_, rfl⟩
  split at h
  · cases h
  · rename_i ht
    cases h
    obtain rfl : s' = s := hsame ht
    exact .refl _
  · rename_i t ht
    obtain rfl : t = s := hsame ht
    split at h <;> cases h
    · exact .refl _
    · exact ⟨_, rfl⟩

theorem onlyPool_resurrect : ∀ {txs : List CTransaction} {s : ChainState},
    resurrect env fuel s txs = .ok s' → OnlyPool s s'
  | [], s, h => by
    cases h
    exact .refl _
  | tx :: txs, s, h => by
    rw [resurrect] at h
    split at h
    · cases h
    · rename_i hone
      exact (onlyPool_mempoolAccept hone).trans (onlyPool_resurrect h)

theorem onlyPool_mempoolRemove (env : Env) : ∀ (txs : List CTransaction) (s : ChainState),
    OnlyPool s (txs.foldl (mempoolRemove env) s)
  | [], s => .refl s
  | tx :: txs, s => by
    refine OnlyPool.trans ?_ (onlyPool_mempoolRemove env txs _)
    rw [mempoolRemove]
    split
    · exact .refl s
    · exact ⟨_, rfl⟩

theorem length_setSlots (ps : List CBlockIndex) (v : List (Option CBlockIndex)) :
    (ps.foldl (fun v p => v.set p.nHeight (some p)) v).length = v.length := by
  induction ps generalizing v with
  | nil => rfl
  | cons q ps ih => rw [List.foldl_cons, ih, List.length_set]

/-- Setting the slots of blocks with different heights. -/
theorem getElem?_setSlots {ps : List CBlockIndex} {v : List (Option CBlockIndex)} {h : Nat}
    (hps : ps.Pairwise fun a b => a.nHeight < b.nHeight)
    (hlen : ∀ p ∈ ps, p.nHeight < v.length) :
    (∀ p ∈ ps, p.nHeight = h →
      (ps.foldl (fun v p => v.set p.nHeight (some p)) v)[h]? = some (some p)) ∧
    ((∀ p ∈ ps, p.nHeight ≠ h) →
      (ps.foldl (fun v p => v.set p.nHeight (some p)) v)[h]? = v[h]?) := by
  induction ps generalizing v with
  | nil => simp
  | cons q ps ih =>
    obtain ⟨hq, hps⟩ := List.pairwise_cons.mp hps
    obtain ⟨ihin, ihout⟩ := ih (v := v.set q.nHeight (some q)) hps
      (fun p hp => by simpa using hlen p (List.mem_cons_of_mem _ hp))
    rw [List.foldl_cons]
    constructor
    · intro p hp hph
      rcases List.mem_cons.mp hp with rfl | hp
      · rw [ihout fun x hx hxh => by have := hq x hx; omega, ← hph]
        exact List.getElem?_set_self (hlen p List.mem_cons_self)
      · exact ihin p hp hph
    · intro hne
      rw [ihout fun x hx => hne x (List.mem_cons_of_mem _ hx)]
      exact List.getElem?_set_ne (hne q List.mem_cons_self)

theorem getElem?_resizeChain {n h : Nat} {v : List (Option CBlockIndex)} {p : CBlockIndex}
    (hh : h < n) : (resizeChain n v)[h]? = some (some p) ↔ v[h]? = some (some p) := by
  rw [resizeChain]
  by_cases hv : h < v.length
  · rw [List.getElem?_append_left (by simp; omega), List.getElem?_take_of_lt hh]
  · rw [List.getElem?_append_right (by simp; omega),
      List.getElem?_eq_none (by omega : v.length ≤ h)]
    simp [List.getElem?_replicate]

theorem length_resizeChain (n : Nat) (v : List (Option CBlockIndex)) :
    (resizeChain n v).length = n := by
  rw [resizeChain, List.length_append, List.length_take, List.length_replicate]
  omega

theorem switchChain_state
    (h : switchChain env fuel s view vDisconnect vConnect pindexNew = .ok s') :
    ∃ txs, s' = { s with
      coinsTip := view
      vBlockIndexByHeight := vConnect.foldl (fun v p => v.set p.nHeight (some p))
        (resizeChain (pindexNew.nHeight + 1) s.vBlockIndexByHeight)
      mapTx := txs
      pindexBest := some pindexNew } := by
  rw [switchChain] at h
  split at h
  · cases h
  · rename_i s₁ hres
    cases h
    obtain ⟨txs, htxs⟩ := (onlyPool_resurrect hres).trans
      (onlyPool_mempoolRemove env (vConnect.flatMap fun p => p.block.vtx) s₁)
    exact ⟨txs, by rw [htxs]⟩

theorem switchChain_spec
    (h : switchChain env fuel s view vDisconnect vConnect pindexNew = .ok s') :
    s'.mapBlockIndex = s.mapBlockIndex ∧ s'.setBlockIndexValid ⊆ s.setBlockIndexValid ∧
      s'.txIndex = s.txIndex ∧ s'.coinsTip = view ∧ s'.pindexBest = some pindexNew ∧
      s'.vBlockIndexByHeight = vConnect.foldl (fun v p => v.set p.nHeight (some p))
        (resizeChain (pindexNew.nHeight + 1) s.vBlockIndexByHeight) := by
  obtain ⟨txs, rfl⟩ := switchChain_state h
  exact ⟨rfl, List.Subset.refl _, rfl, rfl, rfl, rfl⟩

/-- Heights go up along `vConnect`, and stay below the fork otherwise. -/
theorem vConnect_sorted
    (hview : ancestorsOf view = vConnect.reverse ++ ancestorsOf pfork) :
    vConnect.Pairwise (fun a b => a.nHeight < b.nHeight) ∧
      ∀ p ∈ vConnect, ∀ q ∈ ancestorsOf pfork, q.nHeight < p.nHeight := by
  have hsorted := CBlockIndex.ancestorsOf_sorted view
  rw [hview, List.pairwise_append] at hsorted
  refine ⟨List.pairwise_reverse.mp hsorted.1, fun p hp q hq => ?_⟩
  exact hsorted.2.2 p (List.mem_reverse.mpr hp) q hq

/-- A chain no shorter than another has a block at each of its heights. -/
theorem exists_at_height {tip' : Option CBlockIndex} {q : CBlockIndex}
    (hlen : (ancestorsOf tip).length ≤ (ancestorsOf tip').length)
    (hq : q ∈ ancestorsOf tip) :
    ∃ a ∈ ancestorsOf tip', a.nHeight = q.nHeight := by
  cases tip with
  | none => cases hq
  | some p =>
    cases tip' with
    | none => simp [ancestorsOf, length_ancestors] at hlen
    | some p' =>
      have hle := nHeight_le_of_mem_ancestors hq
      simp only [ancestorsOf, length_ancestors] at hlen
      exact CBlockIndex.exists_ancestor (by omega)

theorem ancestorsOf_inj {a b : CBlockIndex}
    (ha : a ∈ ancestorsOf tip) (hb : b ∈ ancestorsOf tip)
    (h : a.nHeight = b.nHeight) : a = b := by
  cases tip with
  | none => cases ha
  | some p => exact CBlockIndex.eq_of_mem_ancestors ha hb h

theorem switchChain_inv {s₀ : ChainState} {plan : Reorg} (inv : ChainInv env s₀)
    (hnew : pindexNew ∈ s₀.mapBlockIndex)
    (hplan : PlanOK s₀ pindexNew plan pfork) (hsame : SameChain s₀ s)
    (hlen : plan.vDisconnect.length ≤ plan.vConnect.length)
    (hview : ancestorsOf view =
      plan.vConnect.reverse ++ ancestorsOf pfork)
    (h : switchChain env fuel s view plan.vDisconnect plan.vConnect pindexNew = .ok s') :
    ChainInv env s' := by
  obtain ⟨hmap, hcands, -, htip, hbest, hchain⟩ := switchChain_spec h
  obtain ⟨dropped, hpath⟩ := hplan.connect
  obtain ⟨hsorted, hfork⟩ := vConnect_sorted hview
  have hsub : ∀ p ∈ ancestorsOf view, p ∈ pindexNew.ancestors := by
    intro p hp
    rw [hpath, List.append_assoc, ← hview]
    exact List.mem_append_right _ hp
  have hbelow : ∀ p ∈ ancestorsOf view, p.nHeight < pindexNew.nHeight + 1 :=
    fun p hp => Nat.lt_succ_of_le (nHeight_le_of_mem_ancestors (hsub p hp))
  have hin : ∀ p ∈ plan.vConnect, p ∈ ancestorsOf view := by
    intro p hp
    rw [hview]
    exact List.mem_append_left _ (List.mem_reverse.mpr hp)
  have hset := fun h => getElem?_setSlots
    (v := resizeChain (pindexNew.nHeight + 1) s.vBlockIndexByHeight) (h := h) hsorted
    (fun p hp => by rw [length_resizeChain]; exact hbelow p (hin p hp))
  refine ⟨?_, ?_, fun h q => ?_, ?_, ?_⟩
  · rw [hmap, hsame.map]
    exact inv.tree
  · intro p hp
    rw [htip] at hp
    rw [hmap, hsame.map]
    refine inv.tree.ancestors_mem hnew p (hsub p ?_)
    rw [hp]
    exact CBlockIndex.self_mem_ancestors p
  · rw [hchain, htip]
    by_cases hheight : ∃ p ∈ plan.vConnect, p.nHeight = h
    · obtain ⟨p, hp, hph⟩ := hheight
      rw [(hset h).1 p hp hph, Option.some.injEq, Option.some.injEq]
      constructor
      · rintro rfl
        exact ⟨hin p hp, hph⟩
      · rintro ⟨hq, hqh⟩
        exact ancestorsOf_inj (hin p hp) hq (hph.trans hqh.symm)
    · have hne : ∀ p ∈ plan.vConnect, p.nHeight ≠ h := fun p hp hph => hheight ⟨p, hp, hph⟩
      rw [(hset h).2 hne]
      have hold : q ∈ ancestorsOf pfork ∧ q.nHeight = h ↔
          q ∈ ancestorsOf s₀.coinsTip ∧ q.nHeight = h := by
        rw [hplan.disconnect, List.mem_append]
        refine ⟨fun hq => ⟨.inr hq.1, hq.2⟩, fun hq => ⟨?_, hq.2⟩⟩
        have hlen' : (ancestorsOf s₀.coinsTip).length ≤
            (ancestorsOf view).length := by
          rw [hplan.disconnect, hview]
          simp only [List.length_append, List.length_reverse]
          omega
        have hqtip : q ∈ ancestorsOf s₀.coinsTip := by
          rw [hplan.disconnect, List.mem_append]
          exact hq.1
        obtain ⟨a, ha, hah⟩ := exists_at_height hlen' hqtip
        rw [hview, List.mem_append, List.mem_reverse] at ha
        rcases ha with ha | ha
        · exact absurd (hah.trans hq.2) (hne a ha)
        · have hatip : a ∈ ancestorsOf s₀.coinsTip := by
            rw [hplan.disconnect]
            exact List.mem_append_right _ ha
          rwa [ancestorsOf_inj hqtip hatip hah.symm]
      have hnew' : q ∈ ancestorsOf view ∧ q.nHeight = h ↔
          q ∈ ancestorsOf pfork ∧ q.nHeight = h := by
        rw [hview, List.mem_append, List.mem_reverse]
        exact ⟨fun hq => ⟨hq.1.resolve_left fun hq' => hne q hq' hq.2, hq.2⟩,
          fun hq => ⟨.inr hq.1, hq.2⟩⟩
      rw [hnew', hold, ← inv.slots h q, hsame.chain]
      by_cases hh : h < pindexNew.nHeight + 1
      · exact getElem?_resizeChain hh
      · rw [List.getElem?_eq_none (by rw [length_resizeChain]; omega)]
        refine ⟨nofun, fun hq => ?_⟩
        have hq' := hnew'.mpr (hold.mpr ((inv.slots h q).mp hq))
        have := hbelow q hq'.1
        omega
  · intro p hp
    rw [htip] at hp
    rw [ChainState.nBestHeight, hbest]
    have := hbelow p hp
    show (p.nHeight : Int) ≤ (pindexNew.nHeight : Int)
    omega
  · rw [hmap, hsame.map]
    exact List.Subset.trans (List.Subset.trans hcands hsame.cands) inv.cands

end Switch

/-! ## A whole call -/

/-- How a call of `setBestChain` with a given plan ends. -/
inductive CallOutcome (env : Env) (fuel : Nat) (s : ChainState) (pindexNew : CBlockIndex)
    (plan : Reorg) (pfork : Option CBlockIndex) : Bool → ChainState → Prop where
  /-- The new branch is too short: nothing happens. -/
  | short {s' : ChainState} : plan.vConnect.length < plan.vDisconnect.length → SameIndex s s' →
      CallOutcome env fuel s pindexNew plan pfork false s'
  | stuck {s' : ChainState} {view : Option CBlockIndex} :
      plan.vDisconnect.length ≤ plan.vConnect.length →
      disconnectBlocks plan.marked s.coinsTip plan.vDisconnect = .ok (false, s', view) →
      CallOutcome env fuel s pindexNew plan pfork false s'
  | rejected {s₂ s₃ s' : ChainState} {q : CBlockIndex} :
      plan.vDisconnect.length ≤ plan.vConnect.length →
      disconnectBlocks plan.marked s.coinsTip plan.vDisconnect = .ok (true, s₂, pfork) →
      connectBlocks env fuel s₂ pfork plan.vConnect = .ok (.rejected s₃ q) → SameIndex s₃ s' →
      CallOutcome env fuel s pindexNew plan pfork false s'
  | switched {s₂ s₃ s' : ChainState} {view : Option CBlockIndex} :
      plan.vDisconnect.length ≤ plan.vConnect.length →
      disconnectBlocks plan.marked s.coinsTip plan.vDisconnect = .ok (true, s₂, pfork) →
      connectBlocks env fuel s₂ pfork plan.vConnect = .ok (.all s₃ view) →
      switchChain env fuel s₃ view plan.vDisconnect plan.vConnect pindexNew = .ok s' →
      CallOutcome env fuel s pindexNew plan pfork true s'

section Call

variable {env : Env} {fuel : Nat} {s s' : ChainState} {pindexNew : CBlockIndex} {b : Bool}
variable {connectBestBlock : ChainState → Except Halt (Bool × ChainState)}
variable {p : CBlockIndex}

theorem invalidChainFound_state (h : invalidChainFound s p = .ok s') :
    ∃ work, s' = { s with nBestInvalidWork := work } := by
  rw [invalidChainFound] at h
  split at h
  · cases h
  · cases h
    exact ⟨_, rfl⟩

theorem sameIndex_invalidChainFound (h : invalidChainFound s p = .ok s') :
    SameIndex s s' := by
  obtain ⟨work, rfl⟩ := invalidChainFound_state h
  exact ⟨⟨rfl, rfl, rfl, rfl, List.Subset.refl _, rfl⟩, rfl⟩

/-- A block outside the main chain is marked and nothing else happens. -/
theorem sameIndex_invalidBlockFound (hp : s.isInMainChain p = false)
    (h : invalidBlockFound connectBestBlock s p = .ok s') : SameIndex s s' := by
  rw [invalidBlockFound] at h
  split at h
  · cases h
  · rename_i s₁ hfound
    have hsame : SameIndex s s₁ := by
      have := sameIndex_invalidChainFound hfound
      exact ⟨⟨this.map, this.chain, this.tip, this.best,
        List.Subset.trans this.cands List.erase_subset, this.clock⟩,
        this.index⟩
    have hnext : s₁.getNextInMainChain p = none := by
      rw [ChainState.getNextInMainChain, hsame.isInMainChain, hp]
      rfl
    rw [hnext, Except.ok.injEq] at h
    rwa [← h]

theorem setBestChainWith_cases (inv : ChainInv env s) (hnew : pindexNew ∈ s.mapBlockIndex)
    (h : setBestChainWith env fuel connectBestBlock s pindexNew = .ok (b, s')) :
    ∃ plan pfork, planReorg s pindexNew = .ok plan ∧ PlanOK s pindexNew plan pfork ∧
      CallOutcome env fuel s pindexNew plan pfork b s' := by
  rw [setBestChainWith] at h
  split at h
  · cases h
  rename_i plan hplan
  obtain ⟨pfork, ok⟩ := planReorg_ok inv hnew hplan
  refine ⟨plan, pfork, hplan, ok, ?_⟩
  split at h
  · rename_i hlen
    cases h
    exact .short hlen ok.marked
  rename_i hlen
  split at h
  · cases h
  · rename_i hdis
    cases h
    exact .stuck (Nat.le_of_not_lt hlen) hdis
  rename_i s₂ view₂ hdis
  have hview := CBlockIndex.ancestorsOf_injective (disconnectBlocks_view ok.disconnect hdis)
  subst hview
  have hsame₂ := ok.marked.toSameChain.trans (disconnectBlocks_sameChain hdis)
  split at h
  · cases h
  · rename_i s₃ q hcon
    have hsame₃ := hsame₂.trans (frame_sameChain.rejected hcon)
    split at h
    · cases h
    rename_i s₄ hfound
    have hsame₄ := sameIndex_invalidChainFound hfound
    have hq : s₄.isInMainChain q = false := by
      rw [(hsame₃.trans hsame₄.toSameChain).isInMainChain, ← Bool.not_eq_true,
        inv.isInMainChain_iff]
      exact ok.fresh q (rejected_mem hcon)
    obtain ⟨s₅, hbf, h⟩ := Except.map_eq_ok_iff.mp h
    cases h
    exact .rejected (Nat.le_of_not_lt hlen) hdis hcon
      (hsame₄.trans (sameIndex_invalidBlockFound hq hbf))
  · rename_i s₃ view₃ hcon
    obtain ⟨s₄, hsw, h⟩ := Except.map_eq_ok_iff.mp h
    cases h
    exact .switched (Nat.le_of_not_lt hlen) hdis hcon hsw

/-- A call keeps the invariant. -/
theorem CallOutcome.inv {plan : Reorg} {pfork : Option CBlockIndex} (inv : ChainInv env s)
    (hnew : pindexNew ∈ s.mapBlockIndex) (ok : PlanOK s pindexNew plan pfork)
    (h : CallOutcome env fuel s pindexNew plan pfork b s') : ChainInv env s' := by
  cases h with
  | short hlen hsame => exact inv.congr hsame.toSameChain
  | stuck hlen hdis =>
    exact inv.congr (ok.marked.toSameChain.trans (disconnectBlocks_sameChain hdis))
  | rejected hlen hdis hcon hsame =>
    have hsame₂ := ok.marked.toSameChain.trans (disconnectBlocks_sameChain hdis)
    exact inv.congr ((hsame₂.trans (frame_sameChain.rejected hcon)).trans hsame.toSameChain)
  | switched hlen hdis hcon hsw =>
    have hsame₂ := ok.marked.toSameChain.trans (disconnectBlocks_sameChain hdis)
    obtain ⟨hsame₃, hview⟩ := connectBlocks_view hcon
    exact switchChain_inv inv hnew ok (hsame₂.trans hsame₃) hlen hview hsw

end Call

end CoMoNet
