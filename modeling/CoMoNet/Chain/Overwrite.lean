import CoMoNet.Chain.Lookup

/-!
# Overwriting a registration

A later block may repeat a registration or replace the key with a signature of the old
one (`RespectsOwner`). `connectBlock` does not see what the same call has just connected
(`overwrite_within_reorganisation`), and there is nothing else
(`connectBlock_respectsOwner`).
-/

namespace CoMoNet

open UndoStack (Log)

/-- The registration of `u` in `p` repeats that of the nearest ancestor with one, or its key is
signed by the old one. -/
def RespectsOwner (env : Env) (u : Bytes) (p : CBlockIndex) : Prop :=
  ∀ tx x rest, p.block.txFor u = some tx → userStack u p.pprev = x :: rest →
    ∃ old, x.block.txFor u = some old ∧ mayOverwrite env old tx = true

/-! ## The blocks a call touches -/

/-- The `connectBlock` calls for a list of blocks, up to the first that fails. -/
def connectCalls (env : Env) (fuel : Nat) : ChainState → Option CBlockIndex →
    List CBlockIndex → List (CBlockIndex × Verdict)
  | _, _, [] => []
  | s, view, p :: ps =>
    match connectBlock env fuel s view p.block p false with
    | .error _ => []
    | .ok (.invalid nDoS errors, _, _) => [(p, .invalid nDoS errors)]
    | .ok (.valid, s', view') => (p, .valid) :: connectCalls env fuel s' view' ps

/-- The blocks a call disconnects, and its `connectBlock` calls with their verdicts. -/
def blockCalls (env : Env) (fuel : Nat) (s : ChainState) (pindexNew : CBlockIndex) :
    List CBlockIndex × List (CBlockIndex × Verdict) :=
  match planReorg s pindexNew with
  | .error _ => ([], [])
  | .ok plan =>
    if plan.vConnect.length < plan.vDisconnect.length then ([], [])
    else
      match disconnectBlocks plan.marked s.coinsTip plan.vDisconnect with
      | .ok (true, s', view) => (plan.vDisconnect, connectCalls env fuel s' view plan.vConnect)
      | _ => (plan.vDisconnect, [])

/-- No block disconnected or connected by the call has a transaction for `u`. -/
def Untouched (env : Env) (fuel : Nat) (u : Bytes) (s : ChainState) (pindexNew : CBlockIndex) :
    Prop :=
  (∀ q ∈ (blockCalls env fuel s pindexNew).1, q.registers u = false) ∧
    ∀ c ∈ (blockCalls env fuel s pindexNew).2, c.2 = .valid → c.1.registers u = false

/-- A call that fails has not touched a block with a transaction for `u`. -/
def KeepsIndex (env : Env) (u : Bytes) (s : ChainState) : ChainLabel → Prop
  | .setBestChain fuel rounds pindexNew =>
    (∃ s', setBestChain env fuel rounds s pindexNew = .ok (false, s')) →
      Untouched env fuel u s pindexNew
  | _ => True

section Overwrite

variable {env : Env} {fuel : Nat} {s s' : ChainState} {u : Bytes}
variable {view view' : Option CBlockIndex} {p pindexNew : CBlockIndex}
variable {ps : List CBlockIndex} {v : Verdict} {tip tip' : Option CBlockIndex}

theorem connectCalls_split {pre post : List (CBlockIndex × Verdict)}
    (h : connectCalls env fuel s view ps = pre ++ (p, v) :: post) :
    ∃ rest s₁ view₁ s₂ view₂, ps = pre.map Prod.fst ++ p :: rest ∧
      connectBlocks env fuel s view (pre.map Prod.fst) = .ok (.all s₁ view₁) ∧
      connectBlock env fuel s₁ view₁ p.block p false = .ok (v, s₂, view₂) := by
  induction ps generalizing s view pre with
  | nil => simp [connectCalls] at h
  | cons q ps ih =>
    rw [connectCalls] at h
    split at h
    · cases pre <;> cases h
    · rename_i nDoS errors s₁ view₁ hone
      cases pre with
      | nil =>
        cases h
        exact ⟨ps, s, view, s₁, view₁, rfl, rfl, hone⟩
      | cons c pre => simp at h
    · rename_i s₁ view₁ hone
      cases pre with
      | nil =>
        cases h
        exact ⟨ps, s, view, s₁, view₁, rfl, rfl, hone⟩
      | cons c pre =>
        obtain ⟨rfl, hrest⟩ := List.cons.inj h
        obtain ⟨rest, s₂, view₂, s₃, view₃, rfl, hpre, hp⟩ := ih hrest
        refine ⟨rest, s₂, view₂, s₃, view₃, rfl, ?_, hp⟩
        rw [List.map_cons, connectBlocks, hone]
        exact hpre

theorem connectCalls_rejected {pre post : List CBlockIndex} {s₁ : ChainState}
    {view₁ view₂ : Option CBlockIndex} {nDoS : Nat} {errors : List String}
    (hpre : connectBlocks env fuel s view pre = .ok (.all s₁ view₁))
    (hbad : connectBlock env fuel s₁ view₁ p.block p false =
      .ok (.invalid nDoS errors, s', view₂)) :
    connectCalls env fuel s view (pre ++ p :: post) =
      pre.map (·, .valid) ++ [(p, .invalid nDoS errors)] := by
  induction pre generalizing s view with
  | nil =>
    cases hpre
    rw [List.nil_append, connectCalls, hbad]
    rfl
  | cons q pre ih =>
    rcases connectBlocks_cons hpre with ⟨s₂, view₂, hone, hrest⟩ | ⟨_, _, _, _, -, hc⟩
    · rw [List.cons_append, connectCalls, hone]
      exact congrArg ((q, Verdict.valid) :: ·) (ih hrest)
    · cases hc

/-- The calls of `connectBlock`. -/
theorem blockCalls_eq {plan : Reorg} {b : Bool} (hplan : planReorg s pindexNew = .ok plan)
    (hlen : plan.vDisconnect.length ≤ plan.vConnect.length)
    (hdis : disconnectBlocks plan.marked s.coinsTip plan.vDisconnect = .ok (b, s', view)) :
    blockCalls env fuel s pindexNew = (plan.vDisconnect,
      if b then connectCalls env fuel s' view plan.vConnect else []) := by
  rw [blockCalls, hplan]
  simp only [if_neg (Nat.not_lt.mpr hlen), hdis]
  cases b <;> rfl

/-- Where a block is connected the vector is still the old one and the logs are in step with its
branch. -/
theorem blockCalls_site {pre post : List (CBlockIndex × Verdict)}
    (inv : ChainInv env s) (hnew : pindexNew ∈ s.mapBlockIndex)
    (h : (blockCalls env fuel s pindexNew).2 = pre ++ (p, v) :: post) :
    ∃ plan pfork rest s₁ s₂ view₂, planReorg s pindexNew = .ok plan ∧
      PlanOK s pindexNew plan pfork ∧ plan.vConnect = pre.map Prod.fst ++ p :: rest ∧
      SameChain s s₁ ∧ (∀ u, InStep s u s.coinsTip → InStep s₁ u p.pprev) ∧
      connectBlock env fuel s₁ p.pprev p.block p false = .ok (v, s₂, view₂) := by
  rw [blockCalls] at h
  split at h
  · cases pre <;> cases h
  rename_i plan hplan
  split at h
  · cases pre <;> cases h
  obtain ⟨pfork, ok⟩ := planReorg_ok inv hnew hplan
  obtain ⟨hD, hC⟩ := ok.mem inv hnew
  have hmarked := ok.marked
  split at h
  · rename_i s₂ view₂ hdis
    obtain rfl := CBlockIndex.ancestorsOf_injective (disconnectBlocks_view ok.disconnect hdis)
    obtain ⟨rest, s₁, view₁, s₃, view₃, hsplit, hall, hone⟩ := connectCalls_split h
    have hsame₂ := hmarked.toSameChain.trans (disconnectBlocks_sameChain hdis)
    obtain ⟨hsame, hview⟩ := connectBlocks_view hall
    have hpprev : view₁ = p.pprev :=
      CBlockIndex.ancestorsOf_injective (hview.trans (ok.pprev hsplit).symm)
    subst hpprev
    refine ⟨plan, view₂, rest, s₁, s₃, view₃, hplan, ok, hsplit, hsame₂.trans hsame, ?_, hone⟩
    intro u hstep
    have h₂ : InStep s₂ u view₂ := disconnectBlocks_tracks (hmarked.map ▸ inv.tree)
      (hmarked.map ▸ hD) (hstep.congr (hmarked.user u)) hdis
    refine connectBlocks_tracks (hsame₂.map ▸ inv.tree) (fun q hq => ?_) h₂ hall
    rw [hsame₂.map]
    exact hC q (hsplit ▸ List.mem_append_left _ hq)
  · cases pre <;> cases h

theorem blockCalls_mem {pre post : List (CBlockIndex × Verdict)}
    (inv : ChainInv env s) (hnew : pindexNew ∈ s.mapBlockIndex)
    (h : (blockCalls env fuel s pindexNew).2 = pre ++ (p, v) :: post) : p ∈ s.mapBlockIndex := by
  obtain ⟨plan, pfork, rest, -, -, -, -, ok, hsplit, -⟩ := blockCalls_site inv hnew h
  refine (ok.mem inv hnew).2 p ?_
  rw [hsplit]
  exact List.mem_append_right _ List.mem_cons_self

/-! ## The check -/

theorem userStack_append
    (htip : CBlockIndex.ancestorsOf tip = ps ++ CBlockIndex.ancestorsOf tip')
    (hps : ∀ q ∈ ps, q.registers u = false) : userStack u tip = userStack u tip' := by
  rw [userStack, htip, List.filter_append, List.filter_eq_nil_iff.mpr, List.nil_append]
  · rfl
  · intro q hq
    simp [hps q hq]

/-- A registration is checked against the top of the stack if that is in the main chain. -/
theorem connectBlock_mayOverwrite {tx : CTransaction} {x : CBlockIndex}
    {rest : List CBlockIndex} (tree : TreeOK env s.mapBlockIndex) (hp : p ∈ s.mapBlockIndex)
    (hstep : InStep s u p.pprev) (htx : p.block.txFor u = some tx)
    (hstack : userStack u p.pprev = x :: rest) (hlive : s.isInMainChain x = true)
    (hbest : (x.nHeight : Int) ≤ s.nBestHeight)
    (h : connectBlock env fuel s view p.block p false = .ok (.valid, s', view')) :
    ∃ old, x.block.txFor u = some old ∧ mayOverwrite env old tx = true := by
  have hreg : p.registers u = true := by rw [CBlockIndex.registers, htx]; rfl
  obtain ⟨q, hq⟩ := tree.exists_pprev hp hreg
  rcases connectBlock_cases h with ⟨_, _, -, hv, -⟩ | ⟨-, -, hgen, -⟩ |
    ⟨-, hcheck, -, w, s₁, hchecks, rfl, -, -⟩
  · cases hv
  · exact absurd hgen (tree.not_genesis p hp q hq)
  obtain ⟨spam, vtx, shape⟩ := checkBlock_shape hcheck
  obtain ⟨hmem, hreg'⟩ := shape.mem_of_txFor htx
  have hname := (CTransaction.registers_iff.mp hreg').2
  simp only [connectChecks, shape.vtx_eq] at hchecks
  split at hchecks
  · cases hchecks
  · cases hchecks
  obtain ⟨s₂, hone⟩ := checkOverwrites_valid shape.nodup hchecks tx hmem
  obtain ⟨l, rep, tracks⟩ := hstep
  rw [hstack] at tracks
  obtain ⟨hanc, hxreg⟩ := mem_userStack.mp
    (show x ∈ userStack u p.pprev by rw [hstack]; exact List.mem_cons_self)
  obtain ⟨old, hold⟩ := Option.isSome_iff_exists.mp hxreg
  have hlt := nHeight_lt_of_mem_pprev hanc
  have hheight := tree.nHeight_eq hp
  refine ⟨old, hold, ?_⟩
  cases fuel with
  | zero => simp [checkOverwrite, getTransaction, getTransactionFrom] at hone
  | succ fuel =>
    have hfirst : getTransaction env (fuel + 1) s u (-1) =
        .ok (some (old, env.blockHash x.block)) := by
      rw [(getTransaction_top tree rep tracks).2 hlive (by simpa using hbest), hold]
      rfl
    have hsecond : getTransaction env (fuel + 1) s u p.block.nHeight =
        .ok (some (old, env.blockHash x.block)) := by
      rw [(getTransaction_top tree rep tracks).2 hlive
        (by rw [if_neg (by omega)]; omega), hold]
      rfl
    rcases checkOverwrite_cases hone with ⟨hnone, -⟩ | ⟨old', hash, hfound, -, -, hv⟩ |
      ⟨⟨-, hnone⟩, -⟩
    · rw [hname, hfirst] at hnone
      cases hnone
    · rw [hname, hsecond, Except.ok.injEq, Option.some.injEq, Prod.mk.injEq] at hfound
      obtain ⟨rfl, -⟩ := hfound
      by_contra hno
      simp [hno] at hv
    · rw [hname, hsecond] at hnone
      cases hnone

/-! ## Calls that fail -/

/-- Disconnecting blocks without a transaction of `u` leaves the log in step. -/
theorem disconnectBlocks_keeps {b : Bool}
    (tree : TreeOK env s.mapBlockIndex) (hps : ∀ p ∈ ps, p ∈ s.mapBlockIndex)
    (hreg : ∀ p ∈ ps, p.registers u = false) (hstep : InStep s u tip)
    (h : disconnectBlocks s view ps = .ok (b, s', view')) : InStep s' u tip := by
  induction ps generalizing s view with
  | nil =>
    cases h
    exact hstep
  | cons p ps ih =>
    rcases disconnectBlocks_cons h with ⟨-, hone⟩ | ⟨s₁, hone, -, hsame, hrest⟩
    · rw [disconnectBlock_false hone]
      exact hstep
    · have hp := hps p List.mem_cons_self
      refine ih (hsame.map ▸ tree) (fun q hq => ?_) (fun q hq => ?_) ?_ hrest
      · rw [hsame.map]
        exact hps q (List.mem_cons_of_mem _ hq)
      · exact hreg q (List.mem_cons_of_mem _ hq)
      · obtain ⟨l, rep, tracks⟩ := hstep
        have rep' := rep.of_disconnectBlock tree hp hone
        rw [if_neg (by simp [hreg p List.mem_cons_self])] at rep'
        exact ⟨l, rep', tracks⟩

theorem InStep.of_userStack (h : InStep s u tip)
    (hstack : userStack u tip' = userStack u tip) : InStep s u tip' := by
  obtain ⟨l, rep, tracks⟩ := h
  exact ⟨l, rep, hstack ▸ tracks⟩

/-- A failed call leaves the log of `u` in step if it touched no block with a transaction of `u`. -/
theorem CallOutcome.inStep_failed {plan : Reorg} {pfork : Option CBlockIndex}
    (inv : ChainInv env s) (hnew : pindexNew ∈ s.mapBlockIndex)
    (hplan : planReorg s pindexNew = .ok plan) (ok : PlanOK s pindexNew plan pfork)
    (hkeep : Untouched env fuel u s pindexNew)
    (hstep : InStep s u s.coinsTip)
    (h : CallOutcome env fuel s pindexNew plan pfork false s') : InStep s' u s'.coinsTip := by
  obtain ⟨hD, hC⟩ := ok.mem inv hnew
  have hmarked := ok.marked
  have hstep' : InStep plan.marked u s.coinsTip := hstep.congr (hmarked.user u)
  cases h with
  | short hlen hsame =>
    rw [hsame.tip]
    exact hstep.congr (hsame.user u)
  | stuck hlen hdis =>
    rw [Untouched, blockCalls_eq hplan hlen hdis] at hkeep
    rw [(hmarked.toSameChain.trans (disconnectBlocks_sameChain hdis)).tip]
    exact disconnectBlocks_keeps (hmarked.map ▸ inv.tree) (hmarked.map ▸ hD)
      hkeep.1 hstep' hdis
  | @rejected s₂ s₃ _ q hlen hdis hcon hsame =>
    obtain ⟨pre, post, s₁, view₁, nDoS, errors, view₂, hsplit, hpre, hbad⟩ :=
      connectBlocks_rejected hcon
    rw [Untouched, blockCalls_eq hplan hlen hdis, if_pos rfl, hsplit,
      connectCalls_rejected hpre hbad] at hkeep
    have hfree : ∀ p ∈ pre, p.registers u = false := fun p hp =>
      hkeep.2 (p, .valid) (List.mem_append_left _ (List.mem_map.mpr ⟨p, hp, rfl⟩)) rfl
    have hsame₂ := hmarked.toSameChain.trans (disconnectBlocks_sameChain hdis)
    have hsame₁ := hsame₂.trans (connectBlocks_view hpre).1
    have hsame₃ := (hsame₁.trans (connectBlock_sameChain hbad)).trans hsame.toSameChain
    have hC' : ∀ p ∈ pre, p ∈ s₂.mapBlockIndex := fun p hp => by
      rw [hsame₂.map]
      exact hC p (hsplit ▸ List.mem_append_left _ hp)
    have hq : q ∈ s₁.mapBlockIndex := by
      rw [hsame₁.map]
      exact hC q (hsplit ▸ List.mem_append_right _ List.mem_cons_self)
    have hfork : userStack u s.coinsTip = userStack u pfork :=
      userStack_append ok.disconnect hkeep.1
    have hbelow : userStack u q.pprev = userStack u pfork :=
      userStack_append (ok.pprev hsplit) fun p hp => hfree p (List.mem_reverse.mp hp)
    have hview : userStack u view₁ = userStack u pfork :=
      userStack_append (connectBlocks_view hpre).2 fun p hp => hfree p (List.mem_reverse.mp hp)
    have h₂ : InStep s₂ u pfork :=
      disconnectBlocks_tracks (hmarked.map ▸ inv.tree) (hmarked.map ▸ hD) hstep' hdis
    have h₁ : InStep s₁ u view₁ := connectBlocks_tracks (hsame₂.map ▸ inv.tree) hC' h₂ hpre
    have h₃ : InStep s₃ u q.pprev :=
      (connectBlock_tracks (hsame₁.map ▸ inv.tree) hq
        (h₁.of_userStack (hbelow.trans hview.symm)) hbad).1 nofun
    rw [hsame₃.tip]
    exact (h₃.congr (hsame.user u)).of_userStack (hfork.trans hbelow.symm)

theorem inStep_step {a : ChainLabel} (h : ChainInv env s ∧ InStep s u s.coinsTip)
    (hok : KeepsIndex env u s a) (hstep : ChainStep env s a s') :
    ChainInv env s' ∧ InStep s' u s'.coinsTip := by
  refine ⟨chainInv_step h.1 hstep, ?_⟩
  cases a with
  | accept block pos =>
    obtain ⟨-, rfl⟩ := hstep
    exact h.2.insertBlockIndex _
  | mark =>
    rw [hstep.tip]
    exact (h.2.setClock _).congr (hstep.user u)
  | setBestChain fuel rounds pindexNew =>
    obtain ⟨hnew, b, hcall⟩ := hstep
    obtain ⟨plan, pfork, hplan, ok, hout⟩ := setBestChainWith_cases h.1 hnew hcall
    cases b with
    | true => exact hout.inStep h.1 hnew ok h.2
    | false => exact hout.inStep_failed h.1 hnew hplan ok (hok ⟨s', hcall⟩) h.2

theorem inStep_of_reach (h : (chainSystem env).Reach (KeepsIndex env u) s) :
    ChainInv env s ∧ InStep s u s.coinsTip := by
  refine h.invariant (I := fun s => ChainInv env s ∧ InStep s u s.coinsTip) ?_
    fun s a s' hs hok hstep => inStep_step hs hok hstep
  rintro s rfl
  exact ⟨chainInv_init env, inStep_init u⟩

/-- If no call fails after touching a block with a transaction of `u`, every block connected
respects the registration of `u`, unless the same call connected one just before. -/
theorem connectBlock_respectsOwner (h : (chainSystem env).Reach (KeepsIndex env u) s)
    (hnew : pindexNew ∈ s.mapBlockIndex) {pre post : List (CBlockIndex × Verdict)}
    (hcon : (blockCalls env fuel s pindexNew).2 = pre ++ (p, .valid) :: post)
    (hpre : ∀ c ∈ pre, c.1.registers u = false) : RespectsOwner env u p := by
  obtain ⟨inv, hstep⟩ := inStep_of_reach h
  obtain ⟨plan, pfork, rest, s₁, s₂, view₂, -, ok, hsplit, hsame, hin, hone⟩ :=
    blockCalls_site inv hnew hcon
  intro tx x below htx hstack
  have hp : p ∈ s₁.mapBlockIndex := hsame.map ▸ blockCalls_mem inv hnew hcon
  have hx : x ∈ CBlockIndex.ancestorsOf s.coinsTip := by
    have hbelow : userStack u p.pprev = userStack u pfork := by
      refine userStack_append (ok.pprev hsplit) fun q hq => ?_
      obtain ⟨c, hc, rfl⟩ := List.mem_map.mp (List.mem_reverse.mp hq)
      exact hpre c hc
    have hmem : x ∈ userStack u pfork := by
      rw [← hbelow, hstack]
      exact List.mem_cons_self
    rw [ok.disconnect]
    exact List.mem_append_right _ (mem_userStack.mp hmem).1
  refine connectBlock_mayOverwrite (hsame.map ▸ inv.tree) hp (hin u hstep) htx hstack ?_ ?_ hone
  · rw [hsame.isInMainChain]
    exact inv.isInMainChain_iff.mpr hx
  · rw [hsame.nBestHeight]
    exact inv.best x hx

end Overwrite

/-! ## An overwrite that is not noticed

The node has followed a branch of one block.  The other branch registers alice
and then registers alice again with another key.  Both of its blocks are
connected by one call, and the second lookup stops at the first block because
the vector does not have it yet. -/

/-- Alice registers. -/
def registerBlock : CBlockIndex :=
  smallIndex smallGenesis
    (smallBlock smallNet.genesisBlock 3 [registration "alice" "alice's key" 10])

/-- The next block registers alice with another key, not signed by the first. -/
def takeoverBlock : CBlockIndex :=
  smallIndex registerBlock
    (smallBlock registerBlock.block 4 [registration "alice" "mallory's key" 11])

/-- The blocks that arrive. -/
def takeoverArrivals : List Arrival :=
  [smallNet.genesisBlock, smallBlock smallNet.genesisBlock 2 [], registerBlock.block,
    takeoverBlock.block].map fun block => { block, pos := smallPos block }

/-- The registration is taken over. -/
theorem overwrite_within_reorganisation :
    (∃ s, deliverAll smallNet 8 8 {} takeoverArrivals = .ok s ∧
        s.pindexBest = some takeoverBlock) ∧
      ¬RespectsOwner smallNet (ascii "alice") takeoverBlock := by
  obtain ⟨hrun, htx, hstack, hkey, hno⟩ :
      (deliverAll smallNet 8 8 {} takeoverArrivals).toOption.map ChainState.pindexBest =
          some (some takeoverBlock) ∧
        takeoverBlock.block.txFor (ascii "alice") =
          some (registration "alice" "mallory's key" 11) ∧
        userStack (ascii "alice") takeoverBlock.pprev = [registerBlock] ∧
        registerBlock.block.txFor (ascii "alice") =
          some (registration "alice" "alice's key" 10) ∧
        mayOverwrite smallNet (registration "alice" "alice's key" 10)
          (registration "alice" "mallory's key" 11) = false := by
    decide +kernel
  refine ⟨Except.toOption_map_eq_some_iff.mp hrun, fun h => ?_⟩
  obtain ⟨old, hold, hmay⟩ := h _ registerBlock [] htx hstack
  rw [hkey, Option.some.injEq] at hold
  rw [← hold, hno] at hmay
  cases hmay

instance (env : Env) (fuel : Nat) (u : Bytes) (s : ChainState) (pindexNew : CBlockIndex) :
    Decidable (Untouched env fuel u s pindexNew) :=
  inferInstanceAs (Decidable (_ ∧ _))

/-- The test of a step. -/
def keepsIndex (env : Env) (u : Bytes) (s : ChainState) : ChainLabel → Bool
  | .setBestChain fuel rounds pindexNew =>
    succeeds env s (.setBestChain fuel rounds pindexNew) ||
      decide (Untouched env fuel u s pindexNew)
  | _ => true

theorem keepsIndex_sound {env : Env} {u : Bytes} {s : ChainState} {a : ChainLabel}
    (h : keepsIndex env u s a = true) : KeepsIndex env u s a := by
  cases a with
  | accept block pos => trivial
  | mark => trivial
  | setBestChain fuel rounds pindexNew =>
    rintro ⟨s', hcall⟩
    rw [keepsIndex, Bool.or_eq_true] at h
    rcases h with h | h
    · exact absurd (succeeds_sound h false s' hcall) nofun
    · exact of_decide_eq_true h

/-- The registration is repeated. -/
def repeatBlock : CBlockIndex :=
  smallIndex aliceBlock (smallBlock aliceBlock.block 5 [registration "alice" "alice's key" 10])

/-- The chain up to the registration, with the repetition waiting. -/
def repeatState : ChainState :=
  stateAfter smallNet (keepsIndex smallNet (ascii "alice"))
    (arrive smallGenesis ++ arrive aliceBlock ++ [.accept repeatBlock.block repeatBlock.pos])

theorem connectBlock_respectsOwner_repeat :
    (blockCalls smallNet 8 repeatState repeatBlock).2 = [(repeatBlock, .valid)] ∧
      repeatBlock.block.txFor (ascii "alice") = some (registration "alice" "alice's key" 10) ∧
      userStack (ascii "alice") repeatBlock.pprev = [aliceBlock] ∧
      RespectsOwner smallNet (ascii "alice") repeatBlock := by
  obtain ⟨hrun, hnew, hcon, htx, hstack⟩ :
      (runLabels smallNet (keepsIndex smallNet (ascii "alice")) {}
          (arrive smallGenesis ++ arrive aliceBlock ++
            [.accept repeatBlock.block repeatBlock.pos])).isSome = true ∧
        repeatBlock ∈ repeatState.mapBlockIndex ∧
        (blockCalls smallNet 8 repeatState repeatBlock).2 =
          [] ++ (repeatBlock, .valid) :: [] ∧
        repeatBlock.block.txFor (ascii "alice") = some (registration "alice" "alice's key" 10) ∧
        userStack (ascii "alice") repeatBlock.pprev = [aliceBlock] := by
    decide +kernel
  have hreach : (chainSystem smallNet).Reach (KeepsIndex smallNet (ascii "alice")) repeatState :=
    reach_stateAfter (fun _ _ => keepsIndex_sound) hrun
  exact ⟨hcon, htx, hstack, connectBlock_respectsOwner hreach hnew hcon nofun⟩

end CoMoNet
