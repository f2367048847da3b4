import CoMoNet.Chain.Arrival

/-!
# Marks

Connecting and disconnecting only adds undo data. Marks are set by the walk that meets a
failed block, by a rejection and by the ancestry check.
-/

namespace CoMoNet

open CBlockIndex (ancestorsOf self_mem_ancestors)
open ChainState (setStatus writeBlockIndex)

/-! ## Frames -/

/-- The marks, the candidates and the soft checkpoint are the same. -/
structure SameMarks (s s' : ChainState) : Prop where
  failedValid : ∀ p, (s'.nStatus p).failedValid = (s.nStatus p).failedValid
  failedChild : ∀ p, (s'.nStatus p).failedChild = (s.nStatus p).failedChild
  cands : s'.setBlockIndexValid = s.setBlockIndexValid
  soft : s'.lastSoftCP = s.lastSoftCP

section Frames

variable {env : Env} {fuel : Nat} {s s' s'' : ChainState} {p : CBlockIndex}
variable {view view' : Option CBlockIndex}

theorem SameMarks.refl (s : ChainState) : SameMarks s s := ⟨fun _ => rfl, fun _ => rfl, rfl, rfl⟩

theorem SameMarks.trans (h : SameMarks s s') (h' : SameMarks s' s'') : SameMarks s s'' :=
  ⟨fun p => (h'.failedValid p).trans (h.failedValid p),
    fun p => (h'.failedChild p).trans (h.failedChild p), h'.cands.trans h.cands,
    h'.soft.trans h.soft⟩

/-- The failed mark is the same. -/
theorem SameMarks.failed (h : SameMarks s s') (p : CBlockIndex) :
    (s'.nStatus p).failed = (s.nStatus p).failed := by
  rw [BlockStatus.failed, BlockStatus.failed, h.failedValid, h.failedChild]

theorem OnlyIndex.marks (h : OnlyIndex s s') : SameMarks s s' := by
  obtain ⟨idx, rfl⟩ := h
  exact ⟨fun _ => rfl, fun _ => rfl, rfl, rfl⟩

theorem switchChain_marks {vDisconnect vConnect : List CBlockIndex} {pindexNew : CBlockIndex}
    (h : switchChain env fuel s view vDisconnect vConnect pindexNew = .ok s') :
    SameMarks s s' ∧ ∀ p, (s'.nStatus p).undo = (s.nStatus p).undo := by
  obtain ⟨txs, rfl⟩ := switchChain_state h
  exact ⟨⟨fun _ => rfl, fun _ => rfl, rfl, rfl⟩, fun _ => rfl⟩

theorem invalidChainFound_marks (h : invalidChainFound s p = .ok s') :
    SameMarks s s' ∧ s'.nStatus = s.nStatus := by
  obtain ⟨work, rfl⟩ := invalidChainFound_state h
  exact ⟨⟨fun _ => rfl, fun _ => rfl, rfl, rfl⟩, rfl⟩

/-! ## Whole calls -/

/-- A relation between states that every write of `SetBestChain` respects. -/
structure CallFrame (R : ChainState → ChainState → Prop) : Prop extends Frame R where
  mark : ∀ s p, R s (markFailedChild s p)
  invalid : ∀ s p, R s { (s.setStatus p { s.nStatus p with failedValid := true }).writeBlockIndex p
    with setBlockIndexValid := s.setBlockIndexValid.erase p }
  work : ∀ s work, R s { s with nBestInvalidWork := work }
  switch : ∀ s view chain txs best, R s { s with
    coinsTip := view, vBlockIndexByHeight := chain, mapTx := txs, pindexBest := best }

namespace CallFrame

variable {R : ChainState → ChainState → Prop} {b : Bool} {rounds : Nat}
variable {search : ChainState → Except Halt (Bool × ChainState)}

theorem markFailed (frame : CallFrame R) (ps : List CBlockIndex) (s : ChainState) :
    R s (ps.foldl markFailedChild s) :=
  markFailed_rule (P := R s) (fun t p ht => frame.trans ht (frame.mark t p)) ps (frame.refl s)

protected theorem invalidChainFound (frame : CallFrame R) (h : invalidChainFound s p = .ok s') :
    R s s' := by
  obtain ⟨work, rfl⟩ := invalidChainFound_state h
  exact frame.work s work

/-- The first part keeps it. -/
protected theorem planReorg {plan : Reorg} (frame : CallFrame R) (h : planReorg s p = .ok plan) :
    R s plan.marked := by
  obtain ⟨pfork, -, -, -, hmarked⟩ := planReorg_eq h
  rw [hmarked]
  exact collectConnect_rule (P := R s) (fun t p ht => frame.trans ht (frame.mark t p)) _ _
    (frame.refl s)

/-- The last part keeps it. -/
protected theorem switchChain {vDisconnect vConnect : List CBlockIndex} (frame : CallFrame R)
    (h : switchChain env fuel s view vDisconnect vConnect p = .ok s') : R s s' := by
  obtain ⟨txs, rfl⟩ := switchChain_state h
  exact frame.switch ..

protected theorem invalidBlockFound (frame : CallFrame R)
    (hsearch : ∀ {s b s'}, search s = .ok (b, s') → R s s')
    (h : invalidBlockFound search s p = .ok s') : R s s' := by
  rw [invalidBlockFound] at h
  split at h
  · cases h
  rename_i s₁ hfound
  have h₁ := frame.trans (frame.invalid s p) (frame.invalidChainFound hfound)
  split at h
  · cases h
    exact h₁
  · obtain ⟨r, hcall, rfl⟩ := Except.map_eq_ok_iff.mp h
    exact frame.trans h₁ (hsearch hcall)

/-- A call keeps it. -/
protected theorem setBestChainWith (frame : CallFrame R)
    (hsearch : ∀ {s b s'}, search s = .ok (b, s') → R s s')
    (h : setBestChainWith env fuel search s p = .ok (b, s')) : R s s' := by
  rw [setBestChainWith] at h
  split at h
  · cases h
  rename_i plan hplan
  have h₁ := frame.planReorg hplan
  split at h
  · cases h
    exact h₁
  split at h
  · cases h
  · rename_i s₂ _ hdis
    cases h
    exact frame.trans h₁ (frame.index (onlyIndex_disconnectBlocks hdis))
  rename_i s₂ _ hdis
  have h₂ := frame.trans h₁ (frame.index (onlyIndex_disconnectBlocks hdis))
  split at h
  · cases h
  · rename_i s₃ q hcon
    split at h
    · cases h
    rename_i s₄ hfound
    have h₄ := frame.trans (frame.trans h₂ (frame.rejected hcon)) (frame.invalidChainFound hfound)
    obtain ⟨s₅, hinvalid, h⟩ := Except.map_eq_ok_iff.mp h
    cases h
    exact frame.trans h₄ (frame.invalidBlockFound hsearch hinvalid)
  · rename_i s₃ _ hcon
    obtain ⟨s₄, hswitch, h⟩ := Except.map_eq_ok_iff.mp h
    cases h
    exact frame.trans (frame.trans h₂ (frame.connectBlocks hcon)) (frame.switchChain hswitch)

/-- A search keeps it. -/
protected theorem connectBestBlock (frame : CallFrame R)
    (h : connectBestBlock env fuel rounds s = .ok (b, s')) : R s s' := by
  induction rounds generalizing s b s' with
  | zero => cases h
  | succ rounds ih =>
    rw [connectBestBlock] at h
    split at h
    · cases h
      exact frame.refl _
    split at h
    · cases h
      exact frame.refl _
    split at h
    · rename_i descendants hfailed
      split at h
      · cases h
      rename_i s₁ hfound
      exact frame.trans (frame.trans (frame.markFailed descendants s)
        (frame.invalidChainFound hfound)) (ih h)
    · refine setBestChains_rule (P := R s) ?_ (frame.refl s) h
      intro p _ t c t' ht hone
      exact frame.trans ht (frame.setBestChainWith ih hone)

/-- A whole call keeps it. -/
protected theorem setBestChain (frame : CallFrame R)
    (h : setBestChain env fuel rounds s p = .ok (b, s')) : R s s' :=
  frame.setBestChainWith frame.connectBestBlock h

end CallFrame

end Frames

/-! ## Undo data -/

/-- Undo data fits its block, and the blocks of the view have some. -/
structure UndoOK (s : ChainState) (view : Option CBlockIndex) : Prop where
  /-- One entry for each transaction but the spam message. -/
  fits : ∀ p ∈ s.mapBlockIndex, ∀ n, (s.nStatus p).undo = some n → n + 1 = p.block.vtx.length
  /-- A connected block that has a parent can be disconnected. -/
  connected : ∀ p ∈ ancestorsOf view, p.pprev ≠ none → (s.nStatus p).undo ≠ none

section Undo

variable {env : Env} {fuel : Nat} {s s' : ChainState} {p : CBlockIndex} {ps : List CBlockIndex}
variable {view view' : Option CBlockIndex}
variable {w : Option CBlockIndex}

theorem UndoOK.congr (h : UndoOK s view) (hmap : s'.mapBlockIndex = s.mapBlockIndex)
    (hundo : ∀ p, (s'.nStatus p).undo = (s.nStatus p).undo) : UndoOK s' view where
  fits p hp n hn := h.fits p (hmap ▸ hp) n (hundo p ▸ hn)
  connected p hp hroot := by
    rw [hundo p]
    exact h.connected p hp hroot

/-- A block of the view that has a parent can be disconnected. -/
theorem UndoOK.disconnectBlock {q : CBlockIndex} (h : UndoOK s (some p)) (hp : p ∈ s.mapBlockIndex)
    (hq : p.pprev = some q) :
    ∃ s', disconnectBlock s (some p) p.block p false = .ok (true, s', p.pprev) := by
  cases hundo : (s.nStatus p).undo with
  | none =>
    refine absurd hundo (h.connected p (self_mem_ancestors p) ?_)
    rw [hq]
    exact Option.some_ne_none q
  | some n =>
    rw [CoMoNet.disconnectBlock, if_neg (not_not.mpr rfl), hundo, hq]
    simp only
    rw [if_neg (not_not.mpr (h.fits p hp n hundo))]
    exact ⟨_, rfl⟩

theorem UndoOK.pprev (h : UndoOK s (some p)) : UndoOK s p.pprev where
  fits := h.fits
  connected q hq hroot := by
    refine h.connected q ?_ hroot
    rw [ancestorsOf, CBlockIndex.ancestors_eq]
    exact List.mem_cons_of_mem _ hq

/-- Blocks with undo data are disconnected. -/
theorem UndoOK.disconnectBlocks {pfork : Option CBlockIndex} (h : UndoOK s view)
    (hview : ancestorsOf view = ps ++ ancestorsOf pfork)
    (hfork : ps ≠ [] → pfork ≠ none) (hps : ∀ p ∈ ps, p ∈ s.mapBlockIndex) :
    ∃ s', disconnectBlocks s view ps = .ok (true, s', pfork) ∧ UndoOK s' pfork := by
  induction ps generalizing s view with
  | nil =>
    obtain rfl : view = pfork := CBlockIndex.ancestorsOf_injective hview
    exact ⟨s, rfl, h⟩
  | cons p ps ih =>
    have htop : view = some p := by
      cases view with
      | none => cases hview
      | some q =>
        rw [ancestorsOf, CBlockIndex.ancestors_eq] at hview
        rw [(List.cons.inj hview).1]
    subst htop
    have hbelow : ancestorsOf p.pprev = ps ++ ancestorsOf pfork := by
      rw [ancestorsOf, CBlockIndex.ancestors_eq] at hview
      exact (List.cons.inj hview).2
    have hfork' := hfork (List.cons_ne_nil p ps)
    obtain ⟨q, hq⟩ : ∃ q, p.pprev = some q := by
      cases hq : p.pprev with
      | none =>
        obtain ⟨f, rfl⟩ := Option.ne_none_iff_exists'.mp hfork'
        have hmem : f ∈ ps ++ f.ancestors :=
          List.mem_append_right _ (self_mem_ancestors f)
        rw [hq] at hbelow
        have hnil : ps ++ f.ancestors = [] := hbelow.symm
        rw [hnil] at hmem
        cases hmem
      | some q => exact ⟨q, rfl⟩
    obtain ⟨s₁, hone⟩ := h.disconnectBlock (hps p List.mem_cons_self) hq
    obtain ⟨idx, rfl⟩ := onlyIndex_disconnectBlock hone
    obtain ⟨s₂, hrest, h₂⟩ := ih (s := { s with txIndex := idx })
      (h.pprev.congr rfl fun _ => rfl) hbelow (fun _ => hfork')
      (fun q hq => hps q (List.mem_cons_of_mem _ hq))
    refine ⟨s₂, ?_, h₂⟩
    rw [CoMoNet.disconnectBlocks, hone]
    exact hrest

/-- Undo data of a block with the shape that `checkBlock` asks for. -/
theorem undo_fits {now : Int} {block : CBlock}
    (h : checkBlock env now block true true = .valid) :
    (block.vtx.filter fun tx => !tx.isSpamMessage).length + 1 = block.vtx.length := by
  obtain ⟨spam, vtx, shape⟩ := checkBlock_shape h
  have hfilter : vtx.filter (fun tx => !tx.isSpamMessage) = vtx := by
    refine List.filter_eq_self.mpr fun tx htx => ?_
    rw [shape.not_spam tx htx]
    rfl
  rw [shape.vtx_eq, List.filter_cons, shape.spam, hfilter]
  rfl

/-- `writeUndo` keeps the marks, and leaves a block with undo data. -/
theorem writeUndo_status (s : ChainState) (p : CBlockIndex) :
    SameMarks s (writeUndo s p p.block) ∧
      (∀ q, q ≠ p → (writeUndo s p p.block).nStatus q = s.nStatus q) ∧
      ((writeUndo s p p.block).nStatus p).undo = ((s.nStatus p).undo <|>
        some (p.block.vtx.filter fun tx => !tx.isSpamMessage).length) := by
  rw [writeUndo]
  split
  · refine ⟨⟨fun q => ?_, fun q => ?_, rfl, rfl⟩, fun q hq => ?_, ?_⟩
    · by_cases hq : q = p <;> simp [writeBlockIndex, setStatus, hq]
    · by_cases hq : q = p <;> simp [writeBlockIndex, setStatus, hq]
    · simp [writeBlockIndex, setStatus, hq]
    · simp [writeBlockIndex, setStatus]
  · rename_i hdone
    refine ⟨SameMarks.refl s, fun _ _ => rfl, ?_⟩
    cases hundo : (s.nStatus p).undo with
    | none => exact absurd (.inl hundo) hdone
    | some n => rfl

theorem frame_marks : Frame SameMarks where
  refl := .refl
  trans := .trans
  index := OnlyIndex.marks
  undo s p := (writeUndo_status s p).1

/-- Undo data is only added, and a block that is connected has some. -/
theorem connectBlock_undo {v : Verdict} (tree : TreeOK env s.mapBlockIndex)
    (hp : p ∈ s.mapBlockIndex)
    (h : connectBlock env fuel s view p.block p false = .ok (v, s', view')) :
    (∀ q n, (s'.nStatus q).undo = some n →
      (s.nStatus q).undo = some n ∨ q = p ∧ n + 1 = p.block.vtx.length) ∧
    (∀ q, (s.nStatus q).undo ≠ none → (s'.nStatus q).undo ≠ none) ∧
    (v = .valid → p.pprev ≠ none → (s'.nStatus p).undo ≠ none) := by
  rcases connectBlock_cases h with ⟨_, _, -, rfl, rfl, -⟩ | ⟨-, -, hgen, -, rfl, -⟩ |
    ⟨-, hcheck, -, w, s₁, hchecks, -, hvalid, hinvalid⟩
  · exact ⟨fun _ _ hn => .inl hn, fun _ hq => hq, nofun⟩
  · refine ⟨fun _ _ hn => .inl hn, fun _ hq => hq, fun _ hroot => ?_⟩
    obtain ⟨q, hq⟩ := Option.ne_none_iff_exists'.mp hroot
    exact absurd hgen (tree.not_genesis p hp q hq)
  · obtain ⟨idx, rfl⟩ := onlyIndex_connectChecks hchecks
    by_cases hv : v = .valid
    · rw [(hvalid hv).1]
      obtain ⟨-, hother, hself⟩ := writeUndo_status { s with txIndex := idx } p
      have hundo : ∀ q, ((connectWrites { s with txIndex := idx } p.block p).nStatus q).undo =
          if q = p then (s.nStatus p).undo <|>
            some (p.block.vtx.filter fun tx => !tx.isSpamMessage).length
          else (s.nStatus q).undo := by
        intro q
        split
        · rename_i heq
          rw [heq]
          exact hself
        · rename_i hne
          exact congrArg BlockStatus.undo (hother q hne)
      refine ⟨fun q n hn => ?_, fun q hq => ?_, fun _ _ => ?_⟩
      · rw [hundo] at hn
        split at hn
        · rename_i heq
          cases hold : (s.nStatus p).undo with
          | none =>
            rw [hold] at hn
            exact .inr ⟨heq, Option.some.inj hn ▸ undo_fits hcheck⟩
          | some m =>
            rw [hold] at hn
            rw [heq, hold]
            exact .inl hn
        · exact .inl hn
      · rw [hundo]
        split
        · cases (s.nStatus p).undo <;> exact Option.some_ne_none _
        · exact hq
      · rw [hundo, if_pos rfl]
        cases (s.nStatus p).undo <;> exact Option.some_ne_none _
    · rw [(hinvalid hv).1]
      exact ⟨fun _ _ hn => .inl hn, fun _ hq => hq, fun hv' => absurd hv' hv⟩

/-- Connecting a block leaves what can be disconnected as it is. -/
theorem UndoOK.keeps {v : Verdict} (tree : TreeOK env s.mapBlockIndex)
    (hp : p ∈ s.mapBlockIndex) (hundo : UndoOK s w)
    (h : connectBlock env fuel s view p.block p false = .ok (v, s', view')) : UndoOK s' w := by
  obtain ⟨hfits, hgrows, -⟩ := connectBlock_undo tree hp h
  refine ⟨fun q hq n hn => ?_, fun q hq hroot => hgrows q (hundo.connected q hq hroot)⟩
  rw [(connectBlock_sameChain h).map] at hq
  rcases hfits q n hn with hn | ⟨rfl, hn⟩
  · exact hundo.fits q hq n hn
  · exact hn

/-- A connected block has undo data. -/
theorem UndoOK.connectBlock (tree : TreeOK env s.mapBlockIndex) (hp : p ∈ s.mapBlockIndex)
    (hundo : UndoOK s view)
    (h : connectBlock env fuel s view p.block p false = .ok (.valid, s', view')) :
    UndoOK s' view' := by
  obtain ⟨hview, rfl⟩ := connectBlock_view h
  have hkeeps := hundo.keeps tree hp h
  refine ⟨hkeeps.fits, fun q hq hroot => ?_⟩
  rw [ancestorsOf, CBlockIndex.ancestors_eq] at hq
  rcases List.mem_cons.mp hq with rfl | hq
  · exact (connectBlock_undo tree hp h).2.2 rfl hroot
  · exact hkeeps.connected q (hview ▸ hq) hroot

/-- A branch that is connected can be disconnected, and so can what could be
before. -/
theorem UndoOK.connectBlocks (tree : TreeOK env s.mapBlockIndex)
    (hps : ∀ p ∈ ps, p ∈ s.mapBlockIndex) (hundo : UndoOK s view) (hkeeps : UndoOK s w)
    (h : connectBlocks env fuel s view ps = .ok (.all s' view')) :
    UndoOK s' view' ∧ UndoOK s' w := by
  have hrule := connectBlocks_rule
    (P := fun t view => t.mapBlockIndex = s.mapBlockIndex ∧ UndoOK t view ∧ UndoOK t w) ?_
    ⟨rfl, hundo, hkeeps⟩ h
  · exact hrule.2
  · intro p hp t view t' view' ⟨hmap, ht, hw⟩ hone
    exact ⟨(connectBlock_sameChain hone).map.trans hmap,
      ht.connectBlock (hmap ▸ tree) (hmap ▸ hps p hp) hone,
      hw.keeps (hmap ▸ tree) (hmap ▸ hps p hp) hone⟩

end Undo

end CoMoNet
