import CoMoNet.Chain.Atomic

/-!
# The memory pool and the chain

`CTxMemPool::accept` tests a transaction against the main chain. After a switch nothing
is tested again: what is left is `poolAfter`, and the pool is consistent exactly if that
fits the new chain (`pool_consistent_iff`).
-/

namespace CoMoNet

open GuardedRun (System)
open CBlockIndex (ancestorsOf)

/-! ## The test -/

/-- The test of `accept`. -/
def chainTest (env : Env) (fuel : Nat) (s : ChainState) (tx : CTransaction) : Except Halt Bool :=
  match getTransaction env fuel s tx.getUsername (-1) with
  | .error e => .error e
  | .ok none => .ok true
  | .ok (some _) =>
    (verifyDuplicateOrReplacementTx env fuel s tx false true (-1) false).map Prod.fst

/-- The tests of `CTxMemPool::accept` that depend on the transaction only. -/
def poolChecks (env : Env) (tx : CTransaction) : Bool :=
  (checkTransaction env tx).isValid && !tx.isSpamMessage && (env.testNet || isStandardTx tx)

/-- A transaction passes against the blocks of a chain up to a height, the highest first. -/
def fits (env : Env) (chain : List CBlockIndex) (maxHeight : Int) (tx : CTransaction) : Bool :=
  match ((chain.filter (CBlockIndex.registers tx.getUsername)).find? fun x =>
      decide ((x.nHeight : Int) ≤ maxHeight)).bind fun x => x.block.txFor tx.getUsername with
  | none => true
  | some oldTx => isKeyReplacement env oldTx tx

/-- All transactions pass. -/
def PoolOK (env : Env) (s : ChainState) : Prop :=
  ∀ tx ∈ s.mapTx, ∀ fuel, chainTest env (fuel + 1) s tx = .ok true

section Test

variable {env : Env} {fuel : Nat} {s t : ChainState} {tx : CTransaction} {b : Bool}

/-- The test is the one lookup of the user, compared with the transaction. -/
theorem chainTest_eq : chainTest env fuel s tx =
    (getTransaction env fuel s tx.getUsername (-1)).map fun found =>
      match found.map Prod.fst with
      | none => true
      | some oldTx => isKeyReplacement env oldTx tx := by
  rw [chainTest, verifyDuplicateOrReplacementTx]
  cases hget : getTransaction env fuel s tx.getUsername (-1) with
  | error e => rfl
  | ok found =>
    cases found with
    | none => rfl
    | some old => simp [Except.map]

theorem mempoolAccept_eq (limit limited : Bool) : mempoolAccept env fuel s tx limit limited =
    if poolChecks env tx && !(s.mapTx.any fun tx' => env.txHash tx' == env.txHash tx) then
      (chainTest env fuel s tx).map fun fit =>
        if fit && !(limit && limited) then (true, { s with mapTx := s.mapTx ++ [tx] })
        else (false, s)
    else .ok (false, s) := by
  rw [mempoolAccept, poolChecks, chainTest, verifyDuplicateOrReplacementTx]
  cases hvalid : (checkTransaction env tx).isValid with
  | false => simp
  | true =>
  cases hspam : tx.isSpamMessage with
  | true => simp
  | false =>
  cases hstd : !env.testNet && !isStandardTx tx with
  | true =>
    have hneg : (env.testNet || isStandardTx tx) = false := by
      simpa [Bool.and_eq_true] using hstd
    simp [hneg]
  | false =>
  have hpos : (env.testNet || isStandardTx tx) = true := by
    cases htest : env.testNet <;> simp_all
  cases hdup : s.mapTx.any fun tx' => env.txHash tx' == env.txHash tx with
  | true => simp [hpos]
  | false =>
  simp only [hpos, Bool.not_true, Bool.not_false, Bool.or_false, Bool.and_true, Bool.false_eq_true,
    if_false, if_true]
  cases hget : getTransaction env fuel s tx.getUsername (-1) with
  | error e => rfl
  | ok found =>
    cases found with
    | none => cases limit && limited <;> rfl
    | some old =>
      cases hrep : isKeyReplacement env old.1 tx <;> cases limit && limited <;>
        simp [hrep, Except.map]

end Test

/-! ## The test in a chain that is in step -/

section Lookup

variable {env : Env} {fuel : Nat} {s t : ChainState} {tx : CTransaction} {u : Bytes} {b : Bool}

theorem Synced.getTransaction_ok (h : Synced env s) (fuel : Nat) (u : Bytes) :
    ∃ r, getTransaction env (fuel + 1) s u (-1) = .ok r := by
  obtain ⟨l, rep, tracks⟩ := h.inStep u
  rw [getTransaction_eq_walk h.inv.tree rep, if_pos (by decide)]
  cases hhead : l.head with
  | none => exact ⟨none, rfl⟩
  | some x =>
    cases hlive : s.isInMainChain x with
    | false =>
      rw [lookup, UndoStack.Log.walk_succ_dead hlive]
      exact ⟨none, rfl⟩
    | true =>
      have hle := h.inv.best x (h.inv.isInMainChain_iff.mp hlive)
      rw [lookup, UndoStack.Log.walk_succ_some hlive hle]
      exact ⟨_, rfl⟩

/-- A state has the chain and the index of another one, and maybe another best
height. -/
structure SameLookups (s t : ChainState) : Prop where
  map : t.mapBlockIndex = s.mapBlockIndex
  chain : t.vBlockIndexByHeight = s.vBlockIndexByHeight
  index : t.txIndex = s.txIndex

theorem SameLookups.refl (s : ChainState) : SameLookups s s := ⟨rfl, rfl, rfl⟩

/-- A lookup finds the first block of the stack within the best height. -/
theorem Synced.getTransaction_within (h : Synced env s) (hsame : SameLookups s t)
    {r : Option (CTransaction × Uint256)} (hr : getTransaction env fuel t u (-1) = .ok r) :
    r.map Prod.fst = ((userStack u s.coinsTip).find? fun x =>
      decide ((x.nHeight : Int) ≤ t.nBestHeight)).bind fun x => x.block.txFor u := by
  obtain ⟨l, rep, tracks⟩ := h.inStep u
  have rep' : IndexRep t u l := rep.congr hsame.map fun _ => by rw [hsame.index]
  have hlookup : lookup t l = lookup s l := by
    have hlive : t.isInMainChain = s.isInMainChain := by
      funext p
      rw [ChainState.isInMainChain, ChainState.isInMainChain, hsame.chain]
    unfold lookup
    rw [hlive]
  rw [getTransaction_eq_walk (hsame.map ▸ h.inv.tree) rep', if_pos (by decide), hlookup] at hr
  cases hw : lookup s l t.nBestHeight fuel l.head with
  | none => simp [hw, lookupResult] at hr
  | some found =>
    rw [← h.lookup_eq rep tracks hw]
    rw [hw] at hr
    cases found with
    | none =>
      cases hr
      rfl
    | some e =>
      cases hr
      rw [Option.map_map]
      exact Option.map_id'

theorem Synced.chainTest_within (h : Synced env s) (hsame : SameLookups s t)
    (htest : chainTest env fuel t tx = .ok b) :
    b = fits env (ancestorsOf s.coinsTip) t.nBestHeight tx := by
  rw [chainTest_eq] at htest
  obtain ⟨found, hget, htest⟩ := Except.map_eq_ok_iff.mp htest
  have hfound := h.getTransaction_within hsame hget
  rw [← htest, hfound, fits, userStack]

/-- The test is about the chain. -/
theorem Synced.chainTest_eq_fits (h : Synced env s) (fuel : Nat) (tx : CTransaction) :
    chainTest env (fuel + 1) s tx =
      .ok (fits env (ancestorsOf s.coinsTip) s.nBestHeight tx) := by
  obtain ⟨r, hr⟩ := h.getTransaction_ok fuel tx.getUsername
  cases htest : chainTest env (fuel + 1) s tx with
  | error e => simp [chainTest_eq, hr, Except.map] at htest
  | ok b => rw [h.chainTest_within (.refl s) htest]

theorem Synced.poolOK_iff (h : Synced env s) :
    PoolOK env s ↔
      ∀ tx ∈ s.mapTx, fits env (ancestorsOf s.coinsTip) s.nBestHeight tx = true := by
  simp only [PoolOK, h.chainTest_eq_fits, Except.ok.injEq, forall_const]

end Lookup

/-! ## The pool after a switch -/

/-- The pool with what is taken back. -/
def readmitted (env : Env) (fit : CTransaction → Bool) :
    List CTransaction → List CTransaction → List CTransaction
  | pool, [] => pool
  | pool, tx :: txs =>
    readmitted env fit
      (if poolChecks env tx && !(pool.any fun tx' => env.txHash tx' == env.txHash tx) && fit tx
        then pool ++ [tx] else pool) txs

/-- The blocks of the chain after a reorganisation, the highest first. -/
def Reorg.newChain (s : ChainState) (plan : Reorg) : List CBlockIndex :=
  plan.vConnect.reverse ++ (ancestorsOf s.coinsTip).drop plan.vDisconnect.length

/-- A connected block has a transaction with the hash of this one. -/
def Reorg.deletes (env : Env) (plan : Reorg) (tx : CTransaction) : Bool :=
  (plan.vConnect.flatMap fun p => p.block.vtx).any fun tx' =>
    !tx'.isSpamMessage && env.txHash tx' == env.txHash tx

/-- After a reorganisation: what fits up to the old best height is taken back, what is in a
connected block is dropped. -/
def poolAfter (env : Env) (s : ChainState) (plan : Reorg) : List CTransaction :=
  (readmitted env (fits env (plan.newChain s) s.nBestHeight) s.mapTx
    (resurrectable env plan.vDisconnect)).filter fun tx => !plan.deletes env tx

section Switch

variable {env : Env} {fuel : Nat} {s s' t t' : ChainState} {txs : List CTransaction}

theorem mempoolRemove_pool (env : Env) : ∀ (txs : List CTransaction) (s : ChainState),
    (txs.foldl (mempoolRemove env) s).mapTx = s.mapTx.filter fun tx =>
      !txs.any fun tx' => !tx'.isSpamMessage && env.txHash tx' == env.txHash tx
  | [], s => by simp
  | tx :: txs, s => by
    rw [List.foldl_cons, mempoolRemove_pool env txs, mempoolRemove]
    split
    · rename_i hspam
      simp [hspam]
    · rename_i hspam
      rw [List.filter_filter]
      refine List.filter_congr fun tx' _ => ?_
      simp only [List.any_cons, Bool.not_eq_true] at hspam ⊢
      rw [hspam, Bool.not_or, Bool.and_comm]
      congr 1
      rw [Bool.not_false, Bool.true_and, Bool.eq_iff_iff, decide_eq_true_iff, Bool.not_eq_true',
        beq_eq_false_iff_ne, ne_comm]

/-- Taking back the transactions of the old branch. -/
theorem resurrect_pool (h : Synced env s) (hsame : SameLookups s t)
    (hres : resurrect env fuel t txs = .ok t') :
    t'.mapTx = readmitted env
      (fits env (ancestorsOf s.coinsTip) t.nBestHeight) t.mapTx txs := by
  induction txs generalizing t with
  | nil =>
    cases hres
    rfl
  | cons tx txs ih =>
    rw [resurrect, mempoolAccept_eq] at hres
    rw [readmitted]
    split at hres
    · cases hres
    rename_i b t₁ hone
    split at hone
    · rename_i hchecks
      obtain ⟨fit, htest, hone⟩ := Except.map_eq_ok_iff.mp hone
      rw [h.chainTest_within hsame htest] at hone
      simp only [Bool.and_false, Bool.not_false, Bool.and_true] at hone
      rw [hchecks, Bool.true_and]
      split at hone
      · rename_i hfit
        cases hone
        rw [if_pos hfit]
        have hadded : SameLookups s { t with mapTx := t.mapTx ++ [tx] } :=
          ⟨hsame.map, hsame.chain, hsame.index⟩
        exact ih hadded hres
      · rename_i hfit
        cases hone
        rw [if_neg hfit]
        exact ih hsame hres
    · rename_i hchecks
      cases hone
      rw [Bool.eq_false_of_not_eq_true hchecks, Bool.false_and, if_neg (by decide)]
      exact ih hsame hres

end Switch

/-! ## The pool through a call -/

section Call

variable {env : Env} {fuel rounds : Nat} {s s' : ChainState} {p : CBlockIndex}
variable {view view' : Option CBlockIndex}

theorem frame_pool : Frame fun s s' => s'.mapTx = s.mapTx where
  refl _ := rfl
  trans h h' := h'.trans h
  index := by
    rintro s _ ⟨idx, rfl⟩
    rfl
  undo s p := by
    rw [writeUndo]
    split <;> rfl

theorem planReorg_pool {plan : Reorg} (h : planReorg s p = .ok plan) :
    plan.marked.mapTx = s.mapTx := by
  obtain ⟨pfork, -, -, -, hmarked⟩ := planReorg_eq h
  rw [hmarked]
  exact collectConnect_rule (P := fun t => t.mapTx = s.mapTx) (fun _ _ ht => ht) _ _ rfl

theorem setBestChain_pool (synced : Synced env s) (hp : p ∈ s.mapBlockIndex)
    (h : setBestChain env fuel rounds s p = .ok (true, s')) :
    ∃ plan, planReorg s p = .ok plan ∧ Synced env s' ∧
      ancestorsOf s'.coinsTip = plan.newChain s ∧ s'.mapTx = poolAfter env s plan := by
  have synced' : Synced env s' := by
    refine synced_step (a := .setBestChain fuel rounds p) synced ?_ ⟨hp, true, h⟩
    intro b t hcall
    rw [h] at hcall
    cases hcall
    rfl
  obtain ⟨plan, pfork, hplan, ok, hout⟩ := setBestChainWith_cases synced.inv hp h
  cases hout with
  | @switched s₂ s₃ _ view hlen hdis hcon hsw =>
    obtain ⟨-, -, -, htip, -, -⟩ := switchChain_spec hsw
    obtain ⟨hsame, hview⟩ := connectBlocks_view hcon
    have hchain : ancestorsOf s'.coinsTip = plan.newChain s := by
      rw [htip, hview, Reorg.newChain, ok.disconnect, List.drop_left]
    have hbest : s₃.pindexBest = s.pindexBest :=
      hsame.best.trans ((disconnectBlocks_sameChain hdis).best.trans ok.marked.best)
    have hpool : s₃.mapTx = s.mapTx := by
      rw [frame_pool.connectBlocks hcon, frame_pool.index (onlyIndex_disconnectBlocks hdis),
        planReorg_pool hplan]
    refine ⟨plan, hplan, synced', hchain, ?_⟩
    rw [switchChain] at hsw
    split at hsw
    · cases hsw
    rename_i s₄ hres
    have hsame₄ := ((onlyPool_resurrect hres).trans
      (onlyPool_mempoolRemove env (plan.vConnect.flatMap fun p => p.block.vtx) s₄)).sameIndex
    rw [Except.ok.injEq] at hsw
    have hlookups : SameLookups s' { s₃ with
        coinsTip := view
        vBlockIndexByHeight := plan.vConnect.foldl (fun v p => v.set p.nHeight (some p))
          (resizeChain (p.nHeight + 1) s₃.vBlockIndexByHeight) } := by
      rw [← hsw]
      exact ⟨hsame₄.map.symm, hsame₄.chain.symm, hsame₄.index.symm⟩
    have hback := resurrect_pool synced' hlookups hres
    rw [hchain] at hback
    have hheight : ChainState.nBestHeight { s₃ with
        coinsTip := view
        vBlockIndexByHeight := plan.vConnect.foldl (fun v p => v.set p.nHeight (some p))
          (resizeChain (p.nHeight + 1) s₃.vBlockIndexByHeight) } = s.nBestHeight := by
      rw [ChainState.nBestHeight, ChainState.nBestHeight, hbest]
    rw [hheight, hpool] at hback
    rw [← hsw, mempoolRemove_pool, hback, poolAfter]
    rfl

end Call

/-! ## Runs -/

/-- What can happen. -/
inductive PoolLabel where
  | arrive (block : CBlock) (pos : CDiskBlockPos)
  /-- A successful call of `SetBestChain`. -/
  | setBestChain (fuel rounds : Nat) (pindexNew : CBlockIndex)
  /-- A call of `CTxMemPool::accept`. -/
  | accept (fuel : Nat) (tx : CTransaction) (fLimitFree rateLimited : Bool)
  | clock (now : Int)

/-- One step. -/
def PoolStep (env : Env) (s : ChainState) : PoolLabel → ChainState → Prop
  | .arrive block pos, s' => ChainStep env s (.accept block pos) s'
  | .setBestChain fuel rounds pindexNew, s' =>
    pindexNew ∈ s.mapBlockIndex ∧ setBestChain env fuel rounds s pindexNew = .ok (true, s')
  | .accept fuel tx fLimitFree rateLimited, s' =>
    ∃ b, mempoolAccept env fuel s tx fLimitFree rateLimited = .ok (b, s')
  | .clock now, s' => s' = { s with clock := now }

/-- A chain and its pool. -/
def poolSystem (env : Env) : System ChainState PoolLabel where
  init s := s = {}
  step := PoolStep env

/-- What a switch leaves in the pool fits the new chain: no registration there, or signed by the
newest key. -/
def noConflict (env : Env) (s : ChainState) (pindexNew : CBlockIndex) : Bool :=
  match planReorg s pindexNew with
  | .error _ => true
  | .ok plan => (poolAfter env s plan).all (fits env (plan.newChain s) pindexNew.nHeight)

/-- The guard of a step. -/
def NoConflicts (env : Env) (s : ChainState) : PoolLabel → Prop
  | .setBestChain _ _ pindexNew => noConflict env s pindexNew = true
  | _ => True

section Runs

variable {env : Env} {fuel rounds : Nat} {s s' : ChainState} {p : CBlockIndex}

theorem PoolOK.mempoolAccept {tx : CTransaction} {limit limited b : Bool} (synced : Synced env s)
    (hpool : PoolOK env s) (h : mempoolAccept env fuel s tx limit limited = .ok (b, s')) :
    PoolOK env s' := by
  have hsame := (onlyPool_mempoolAccept h).sameIndex
  have synced' : Synced env s' := synced.mark hsame
  rw [synced'.poolOK_iff, hsame.tip, hsame.nBestHeight]
  have hold := synced.poolOK_iff.mp hpool
  rw [mempoolAccept_eq] at h
  split at h
  · obtain ⟨fit, htest, h⟩ := Except.map_eq_ok_iff.mp h
    have hfit := synced.chainTest_within (.refl s) htest
    split at h
    · rename_i hadd
      rw [Prod.mk.injEq] at h
      rw [← h.2]
      intro tx' htx'
      rcases List.mem_append.mp htx' with htx' | htx'
      · exact hold tx' htx'
      · rw [List.mem_singleton.mp htx', ← hfit]
        exact (Bool.and_eq_true _ _ ▸ hadd).1
    · rw [Prod.mk.injEq] at h
      rw [← h.2]
      exact hold
  · cases h
    exact hold

/-- A successful call leaves a consistent pool iff it is not in conflict with it. -/
theorem setBestChain_poolOK_iff (synced : Synced env s) (hp : p ∈ s.mapBlockIndex)
    (h : setBestChain env fuel rounds s p = .ok (true, s')) :
    PoolOK env s' ↔ noConflict env s p = true := by
  obtain ⟨plan, hplan, synced', hchain, hpool⟩ := setBestChain_pool synced hp h
  have hheight : s'.nBestHeight = p.nHeight := by
    obtain ⟨plan, pfork, -, -, hout⟩ := setBestChainWith_cases synced.inv hp h
    cases hout with
    | switched _ _ _ hsw => rw [ChainState.nBestHeight, (switchChain_spec hsw).2.2.2.2.1]
  rw [synced'.poolOK_iff, hchain, hheight, hpool, noConflict, hplan]
  exact List.all_eq_true.symm

theorem pool_of_reach (h : (poolSystem env).Reach (NoConflicts env) s) :
    Synced env s ∧ PoolOK env s := by
  refine System.Reach.invariant (I := fun s => Synced env s ∧ PoolOK env s) ?_ ?_ h
  · rintro s rfl
    exact ⟨⟨chainInv_init env, inStep_init⟩, fun tx htx => by cases htx⟩
  · rintro s a s' ⟨synced, hpool⟩ hok hstep
    cases a with
    | arrive block pos =>
      have synced' : Synced env s' := synced_step (a := .accept block pos) synced trivial hstep
      refine ⟨synced', synced'.poolOK_iff.mpr ?_⟩
      obtain ⟨-, rfl⟩ := hstep
      exact synced.poolOK_iff.mp hpool
    | setBestChain fuel rounds pindexNew =>
      obtain ⟨hp, hcall⟩ := hstep
      obtain ⟨plan, -, synced', -⟩ := setBestChain_pool synced hp hcall
      exact ⟨synced', (setBestChain_poolOK_iff synced hp hcall).mpr hok⟩
    | accept fuel tx fLimitFree rateLimited =>
      obtain ⟨b, hcall⟩ := hstep
      exact ⟨synced.mark (onlyPool_mempoolAccept hcall).sameIndex, hpool.mempoolAccept synced hcall⟩
    | clock now =>
      obtain rfl := hstep
      exact ⟨synced.setClock now, (synced.setClock now).poolOK_iff.mpr (synced.poolOK_iff.mp hpool)⟩

end Runs

/-! ## A pool in the small network -/

/-- Executes a step. -/
def nextPool (env : Env) (s : ChainState) : PoolLabel → Option ChainState
  | .arrive block pos => runLabel env s (.accept block pos)
  | .setBestChain fuel rounds pindexNew =>
    if pindexNew ∈ s.mapBlockIndex then
      match setBestChain env fuel rounds s pindexNew with
      | .ok (true, s') => some s'
      | _ => none
    else none
  | .accept fuel tx fLimitFree rateLimited =>
    (mempoolAccept env fuel s tx fLimitFree rateLimited).toOption.map Prod.snd
  | .clock now => some { s with clock := now }

theorem nextPool_step {env : Env} {s s' : ChainState} {a : PoolLabel}
    (h : nextPool env s a = some s') : PoolStep env s a s' := by
  cases a with
  | arrive block pos => exact runLabel_step (a := .accept block pos) h
  | setBestChain fuel rounds pindexNew =>
    rw [nextPool] at h
    split at h
    · rename_i hp
      split at h
      · rename_i hcall
        cases h
        exact ⟨hp, hcall⟩
      · cases h
    · cases h
  | accept fuel tx fLimitFree rateLimited =>
    rw [nextPool] at h
    obtain ⟨⟨b, s''⟩, hcall, rfl⟩ := Except.toOption_map_eq_some_iff.mp h
    exact ⟨b, hcall⟩
  | clock now => exact (Option.some.inj h).symm

/-- The test of a step. -/
def noConflicts (env : Env) (s : ChainState) : PoolLabel → Bool
  | .setBestChain _ _ pindexNew => noConflict env s pindexNew
  | _ => true

theorem noConflicts_sound {env : Env} {s : ChainState} {a : PoolLabel}
    (h : noConflicts env s a = true) : NoConflicts env s a := by
  cases a with
  | setBestChain fuel rounds pindexNew => exact h
  | _ => trivial

/-- A registration of bob waits in the pool, and a block arrives. -/
def poolRun (p : CBlockIndex) : List PoolLabel :=
  [.arrive smallGenesis.block smallGenesis.pos, .setBestChain 8 8 smallGenesis,
    .accept 8 (registration "bob" "another key" 21) false false, .arrive p.block p.pos]

/-- The chain after a run. -/
def poolState (p : CBlockIndex) : ChainState :=
  (System.run (nextPool smallNet) (noConflicts smallNet) {} (poolRun p)).getD {}

theorem reach_poolState {p : CBlockIndex}
    (h : (System.run (nextPool smallNet) (noConflicts smallNet) {} (poolRun p)).isSome = true) :
    (poolSystem smallNet).Reach (NoConflicts smallNet) (poolState p) := by
  obtain ⟨s, hs⟩ := Option.isSome_iff_exists.mp h
  rw [poolState, hs, Option.getD_some]
  exact .of_run (fun _ _ _ => nextPool_step) (fun _ _ => noConflicts_sound) (.init rfl) hs

section Runs

variable {env : Env} {s : ChainState}

/-- While no switch is in conflict with the pool, its transactions pass. `CTxMemPool::accept`
keeps it so, and a successful `SetBestChain` exactly if it is not in conflict either. -/
theorem pool_consistent_iff (h : (poolSystem env).Reach (NoConflicts env) s) :
    PoolOK env s ∧
      (∀ fuel tx limit limited b s', mempoolAccept env fuel s tx limit limited = .ok (b, s') →
        PoolOK env s') ∧
      ∀ fuel rounds p s', p ∈ s.mapBlockIndex →
        setBestChain env fuel rounds s p = .ok (true, s') →
        (PoolOK env s' ↔ noConflict env s p = true) := by
  obtain ⟨synced, hpool⟩ := pool_of_reach h
  refine ⟨hpool, ?_, ?_⟩
  · intro fuel tx limit limited b s' hcall
    exact hpool.mempoolAccept synced hcall
  · intro fuel rounds p s' hp hcall
    exact setBestChain_poolOK_iff synced hp hcall

/-- A block that registers alice leaves the registration of bob in the pool. -/
theorem pool_consistent_alice :
    ∃ s', setBestChain smallNet 8 8 (poolState aliceBlock) aliceBlock = .ok (true, s') ∧
      s'.mapTx = [registration "bob" "another key" 21] ∧ PoolOK smallNet s' := by
  have hfacts : (System.run (nextPool smallNet) (noConflicts smallNet) {}
        (poolRun aliceBlock)).isSome = true ∧
      aliceBlock ∈ (poolState aliceBlock).mapBlockIndex ∧
      noConflict smallNet (poolState aliceBlock) aliceBlock = true ∧
      (setBestChain smallNet 8 8 (poolState aliceBlock) aliceBlock).toOption.map
        (fun r => (r.1, r.2.mapTx)) = some (true, [registration "bob" "another key" 21]) := by
    decide +kernel
  obtain ⟨hrun, hmem, hfree, hcall⟩ := hfacts
  obtain ⟨⟨b, s'⟩, hr, hvalue⟩ := Except.toOption_map_eq_some_iff.mp hcall
  obtain ⟨rfl, hpool⟩ := Prod.mk.inj hvalue
  refine ⟨s', hr, hpool, ?_⟩
  exact ((pool_consistent_iff (reach_poolState hrun)).2.2 8 8 aliceBlock s' hmem hr).mpr hfree

/-- A block that registers bob leaves the other registration of bob in the
pool. -/
theorem pool_keeps_conflict :
    ∃ s', (poolSystem smallNet).Reach (NoConflicts smallNet) (poolState (besideAlice bobTx)) ∧
      besideAlice bobTx ∈ (poolState (besideAlice bobTx)).mapBlockIndex ∧
      setBestChain smallNet 8 8 (poolState (besideAlice bobTx)) (besideAlice bobTx) =
        .ok (true, s') ∧
      registration "bob" "another key" 21 ∈ s'.mapTx ∧
      chainTest smallNet 8 s' (registration "bob" "another key" 21) = .ok false ∧
      ¬PoolOK smallNet s' := by
  have hfacts : (System.run (nextPool smallNet) (noConflicts smallNet) {}
        (poolRun (besideAlice bobTx))).isSome = true ∧
      besideAlice bobTx ∈ (poolState (besideAlice bobTx)).mapBlockIndex ∧
      (setBestChain smallNet 8 8 (poolState (besideAlice bobTx)) (besideAlice bobTx)).toOption.map
        (fun r => (r.1, r.2.mapTx,
          (chainTest smallNet 8 r.2 (registration "bob" "another key" 21)).toOption)) =
        some (true, [registration "bob" "another key" 21], some false) := by
    decide +kernel
  obtain ⟨hrun, hmem, hcall⟩ := hfacts
  obtain ⟨⟨b, s'⟩, hr, hvalue⟩ := Except.toOption_map_eq_some_iff.mp hcall
  simp only [Prod.mk.injEq] at hvalue
  obtain ⟨rfl, hpool, htest⟩ := hvalue
  have hheld : registration "bob" "another key" 21 ∈ s'.mapTx := by
    rw [hpool]
    exact List.mem_singleton_self _
  have hfails : chainTest smallNet 8 s' (registration "bob" "another key" 21) = .ok false :=
    Except.toOption_eq_some_iff.mp htest
  refine ⟨s', reach_poolState hrun, hmem, hr, hheld, hfails, fun hok => ?_⟩
  have hpass := hok _ hheld 7
  rw [hfails] at hpass
  cases hpass

end Runs

end CoMoNet
