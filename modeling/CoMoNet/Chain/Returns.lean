import Mathlib.Logic.Relation
import CoMoNet.Chain.Marks
import CoMoNet.Lib.Fuel

/-!
# Calls that do not return

The loop of `GetTransaction` is the only one without a bound. Every call that looks
users up is stable in the fuel and loops only if a lookup does, in a state the call goes
through.
-/

namespace CoMoNet

open Fuelled

/-! ## Lookups -/

section Lookups

variable {env : Env} {s : ChainState} {move : ChainState → ChainState → Prop}

/-- Some lookup does not return, in a state that the moves lead to. -/
def LookupLoops (env : Env) (move : ChainState → ChainState → Prop) (s : ChainState) : Prop :=
  ∃ t u maxHeight, Relation.ReflTransGen move s t ∧
    Loops Halt.fuel fun fuel => getTransaction env fuel t u maxHeight

/-- A call that only loops in a lookup, between the moves it makes. -/
abbrev LookupOnly {α : Type} (env : Env) (move : ChainState → ChainState → Prop) (s : ChainState)
    (f : Nat → Except Halt α) : Prop :=
  LoopsOnly Halt.fuel (LookupLoops env move s) f

theorem LookupOnly.after {α : Type} {f : Nat → Except Halt α} {t : ChainState}
    (h : LookupOnly env move t f) (hmove : move s t) : LookupOnly env move s f := by
  refine h.mono fun ⟨t', u, maxHeight, hmoves, hloops⟩ => ?_
  exact ⟨t', u, maxHeight, .head hmove hmoves, hloops⟩

theorem getTransactionFrom_stable (u : Bytes) (maxHeight height : Int) :
    Stable Halt.fuel fun fuel => getTransactionFrom env s u maxHeight fuel height := by
  intro n
  induction n generalizing height with
  | zero => exact fun m _ => .inl rfl
  | succ n ih =>
    intro m hle
    obtain ⟨m, rfl⟩ : ∃ k, m = k + 1 := Nat.exists_eq_succ_of_ne_zero (by omega)
    simp only [getTransactionFrom]
    cases s.txIndex ⟨u, height⟩ with
    | none => exact .inr rfl
    | some postx =>
      simp only
      cases s.readTxAt postx with
      | none => exact .inr rfl
      | some r =>
        simp only
        split
        · exact .inr rfl
        cases s.findBlockIndex env (env.headerHash r.1) with
        | none => exact .inr rfl
        | some pindex =>
          simp only
          split
          · exact .inr rfl
          split
          · exact .inr rfl
          split
          · split
            · exact ih _ m (Nat.le_of_succ_le_succ hle)
            · exact .inr rfl
          · exact .inr rfl

theorem getTransaction_lookupOnly (u : Bytes) (maxHeight : Int) :
    LookupOnly env move s fun fuel => getTransaction env fuel s u maxHeight :=
  ⟨getTransactionFrom_stable u _ (-1), fun h => ⟨s, u, maxHeight, .refl, h⟩⟩

/-! ## Connecting a block -/

theorem checkSpamSigner_eq (env : Env) (fuel : Nat) (s : ChainState) (block : CBlock)
    (tx : CTransaction) : checkSpamSigner env fuel s block tx =
      if CScript.extractPushDataString tx.userName 0 = ascii "nobody" then .ok .valid
      else if CScript.extractPushDataString tx.userName 1 = [] then
        .ok (.invalid 100 ["ConnectBlock() : spam signature missing"])
      else (getTransaction env fuel s (CScript.extractPushDataString tx.userName 0)
          block.nHeight).map fun found => verifySpamSignature env tx
            (CScript.extractPushDataString tx.userName 1) (found.map Prod.fst) := by
  simp only [checkSpamSigner]
  cases getTransaction env fuel s (CScript.extractPushDataString tx.userName 0) block.nHeight with
  | error e => rfl
  | ok found => rfl

theorem checkSpamSigner_lookupOnly (block : CBlock) (tx : CTransaction) :
    LookupOnly env move s fun fuel => checkSpamSigner env fuel s block tx := by
  simp only [checkSpamSigner_eq]
  exact .ite (.const nofun) (.ite (.const nofun) (getTransaction_lookupOnly _ _).map)

theorem verifyDuplicateOrReplacementTx_eq (env : Env) (fuel : Nat) (s : ChainState)
    (tx : CTransaction) (checkDuplicate checkReplacement : Bool) (maxHeight : Int)
    (removeOrphan : Bool) :
    verifyDuplicateOrReplacementTx env fuel s tx checkDuplicate checkReplacement maxHeight
        removeOrphan =
      (getTransaction env fuel s tx.getUsername maxHeight).map fun
        | some (oldTx, _) => ((checkDuplicate && env.txHash oldTx == env.txHash tx) ||
            (checkReplacement && isKeyReplacement env oldTx tx), s)
        | none => if removeOrphan && (s.txIndex ⟨tx.getUsername, -1⟩).isSome then
            (true, s.eraseTxIndex ⟨tx.getUsername, -1⟩) else (false, s) := by
  rw [verifyDuplicateOrReplacementTx]
  cases getTransaction env fuel s tx.getUsername maxHeight with
  | error e => rfl
  | ok found =>
    cases found with
    | none =>
      simp only [Except.map]
      split <;> rfl
    | some old => rfl

theorem verifyDuplicateOrReplacementTx_lookupOnly (tx : CTransaction)
    (checkDuplicate checkReplacement : Bool) (maxHeight : Int) (removeOrphan : Bool) :
    LookupOnly env move s fun fuel => verifyDuplicateOrReplacementTx env fuel s tx checkDuplicate
      checkReplacement maxHeight removeOrphan := by
  simp only [verifyDuplicateOrReplacementTx_eq]
  exact (getTransaction_lookupOnly _ _).map

/-- What one round of the overwrite check does when there is something to
overwrite. -/
def overwriteVerdict : Bool × ChainState → Verdict × ChainState
  | (true, s) => (.valid, s)
  | (false, s) => (.invalid 100 ["ConnectBlock() : tried to overwrite transaction"], s)

theorem checkOverwrite_eq (env : Env) (fuel : Nat) (block : CBlock) (s : ChainState)
    (tx : CTransaction) : checkOverwrite env fuel block s tx =
      (getTransaction env fuel s tx.getUsername (-1)).bind fun
        | none => .ok (.valid, s)
        | some _ => (verifyDuplicateOrReplacementTx env fuel s tx true true block.nHeight true).map
            overwriteVerdict := by
  rw [checkOverwrite]
  cases getTransaction env fuel s tx.getUsername (-1) with
  | error e => rfl
  | ok found =>
    cases found with
    | none => rfl
    | some old =>
      simp only [Except.bind]
      cases verifyDuplicateOrReplacementTx env fuel s tx true true block.nHeight true with
      | error e => rfl
      | ok r => rcases r with ⟨_ | _, s⟩ <;> rfl

theorem checkOverwrite_lookupOnly (block : CBlock) (tx : CTransaction) :
    LookupOnly env move s fun fuel => checkOverwrite env fuel block s tx := by
  simp only [checkOverwrite_eq]
  refine (getTransaction_lookupOnly _ _).bind fun _ found _ => ?_
  cases found with
  | none => exact .const nofun
  | some old => exact (verifyDuplicateOrReplacementTx_lookupOnly tx true true _ true).map

/-- The rest of the overwrite check after one round. -/
theorem checkOverwrites_eq (env : Env) (fuel : Nat) (block : CBlock) (s : ChainState)
    (tx : CTransaction) (vtx : List CTransaction) :
    checkOverwrites env fuel block s (tx :: vtx) =
      (checkOverwrite env fuel block s tx).bind fun
        | (.invalid nDoS errors, s) => .ok (.invalid nDoS errors, s)
        | (.valid, s) => checkOverwrites env fuel block s vtx := by
  rw [checkOverwrites]
  cases checkOverwrite env fuel block s tx with
  | error e => rfl
  | ok r => rcases r with ⟨_ | _, s⟩ <;> rfl

theorem checkOverwrites_lookupOnly (block : CBlock) (vtx : List CTransaction)
    (hmove : ∀ tx ∈ vtx, ∀ fuel s s', checkOverwrite env fuel block s tx = .ok (.valid, s') →
      move s s') :
    LookupOnly env move s fun fuel => checkOverwrites env fuel block s vtx := by
  induction vtx generalizing s with
  | nil => exact .const nofun
  | cons tx vtx ih =>
    simp only [checkOverwrites_eq]
    refine (checkOverwrite_lookupOnly _ _).bind fun _ r hr => ?_
    rcases r with ⟨_ | _, s₁⟩
    · have hrest := ih (s := s₁) fun tx htx => hmove tx (List.mem_cons_of_mem _ htx)
      exact hrest.after (hmove tx List.mem_cons_self _ _ _ hr)
    · exact .const nofun

/-- What `connectBlock` looks up, with the rest of it as one function. -/
theorem connectChecks_eq (env : Env) (fuel : Nat) (s : ChainState) (block : CBlock)
    {spam : CTransaction} {vtx : List CTransaction} (hvtx : block.vtx = spam :: vtx) :
    connectChecks env fuel s block = (checkSpamSigner env fuel s block spam).bind fun
      | .invalid nDoS errors => .ok (.invalid nDoS errors, s)
      | .valid => checkOverwrites env fuel block s vtx := by
  simp only [connectChecks, hvtx]
  cases checkSpamSigner env fuel s block spam with
  | error e => rfl
  | ok v => cases v <;> rfl

theorem connectChecks_lookupOnly (block : CBlock)
    (hmove : ∀ tx ∈ block.vtx, ∀ fuel s s',
      checkOverwrite env fuel block s tx = .ok (.valid, s') → move s s') :
    LookupOnly env move s fun fuel => connectChecks env fuel s block := by
  cases hvtx : block.vtx with
  | nil =>
    simp only [connectChecks, hvtx]
    exact .const (by simp)
  | cons spam vtx =>
    simp only [connectChecks_eq env _ s block hvtx]
    refine (checkSpamSigner_lookupOnly _ _).bind fun _ v _ => ?_
    cases v with
    | valid =>
      refine checkOverwrites_lookupOnly block vtx fun tx htx => hmove tx ?_
      rw [hvtx]
      exact List.mem_cons_of_mem _ htx
    | invalid nDoS errors => exact .const (by simp)

/-- `connectBlock` after the checks that look users up. -/
def connectRest (pindex : CBlockIndex) (view : Option CBlockIndex) (fJustCheck : Bool) :
    Verdict × ChainState → Verdict × ChainState × Option CBlockIndex
  | (.invalid nDoS errors, s) => (.invalid nDoS errors, s, view)
  | (.valid, s) =>
    if fJustCheck then (.valid, s, view)
    else (.valid, connectWrites s pindex.block pindex, some pindex)

theorem connectBlock_eq (env : Env) (fuel : Nat) (s : ChainState) (view : Option CBlockIndex)
    (pindex : CBlockIndex) (fJustCheck : Bool) :
    connectBlock env fuel s view pindex.block pindex fJustCheck =
      match checkBlock env (s.adjustedTime env) pindex.block (!fJustCheck) (!fJustCheck) with
      | .invalid nDoS errors => .ok (.invalid nDoS errors, s, view)
      | .valid =>
        if pindex.pprev ≠ view then .error .assertion
        else if env.blockHash pindex.block = env.hashGenesisBlock then
          .ok (.valid, s, some pindex)
        else (connectChecks env fuel s pindex.block).map (connectRest pindex view fJustCheck) := by
  rw [connectBlock]
  cases connectChecks env fuel s pindex.block with
  | error e => rfl
  | ok r =>
    rcases r with ⟨_ | _, s⟩
    · cases fJustCheck <;> rfl
    · rfl

theorem connectBlock_lookupOnly (view : Option CBlockIndex) (pindex : CBlockIndex)
    (fJustCheck : Bool) (hmove : ∀ tx ∈ pindex.block.vtx, ∀ fuel s s',
      checkOverwrite env fuel pindex.block s tx = .ok (.valid, s') → move s s') :
    LookupOnly env move s fun fuel =>
      connectBlock env fuel s view pindex.block pindex fJustCheck := by
  simp only [connectBlock_eq]
  cases checkBlock env (s.adjustedTime env) pindex.block (!fJustCheck) (!fJustCheck) with
  | invalid nDoS errors => exact .const nofun
  | valid => exact .ite (.const nofun) (.ite (.const nofun) (connectChecks_lookupOnly _ hmove).map)

theorem connectBlocks_eq (env : Env) (fuel : Nat) (s : ChainState) (view : Option CBlockIndex)
    (pindex : CBlockIndex) (vConnect : List CBlockIndex) :
    connectBlocks env fuel s view (pindex :: vConnect) =
      (connectBlock env fuel s view pindex.block pindex false).bind fun
        | (.invalid _ _, s, _) => .ok (.rejected s pindex)
        | (.valid, s, view) => connectBlocks env fuel s view vConnect := by
  rw [connectBlocks]
  cases connectBlock env fuel s view pindex.block pindex false with
  | error e => rfl
  | ok r => rcases r with ⟨_ | _, s, view⟩ <;> rfl

theorem connectBlocks_lookupOnly (view : Option CBlockIndex) (vConnect : List CBlockIndex)
    (hmove : ∀ q ∈ vConnect, ∀ tx ∈ q.block.vtx, ∀ fuel s s',
      checkOverwrite env fuel q.block s tx = .ok (.valid, s') → move s s')
    (hconnect : ∀ q ∈ vConnect, ∀ fuel s view s' view',
      connectBlock env fuel s view q.block q false = .ok (.valid, s', view') → move s s') :
    LookupOnly env move s fun fuel => connectBlocks env fuel s view vConnect := by
  induction vConnect generalizing s view with
  | nil => exact .const nofun
  | cons pindex vConnect ih =>
    simp only [connectBlocks_eq]
    refine (connectBlock_lookupOnly _ _ _ (hmove pindex List.mem_cons_self)).bind fun _ r hr => ?_
    rcases r with ⟨_ | _, s₁, view₁⟩
    · have hrest := ih (s := s₁) view₁ (fun q hq => hmove q (List.mem_cons_of_mem _ hq))
        fun q hq => hconnect q (List.mem_cons_of_mem _ hq)
      exact hrest.after (hconnect pindex List.mem_cons_self _ _ _ _ _ hr)
    · exact .const nofun

/-! ## The memory pool -/

/-- Enters the pool. -/
def mempoolEnter (tx : CTransaction) : Bool × ChainState → Bool × ChainState
  | (false, s) => (false, s)
  | (true, s) => (true, { s with mapTx := s.mapTx ++ [tx] })

theorem mempoolAccept_bind (env : Env) (fuel : Nat) (s : ChainState) (tx : CTransaction) :
    mempoolAccept env fuel s tx false false =
      if !(checkTransaction env tx).isValid || tx.isSpamMessage then .ok (false, s)
      else if !env.testNet && !isStandardTx tx then .ok (false, s)
      else if s.mapTx.any fun tx' => env.txHash tx' == env.txHash tx then .ok (false, s)
      else (getTransaction env fuel s tx.getUsername (-1)).bind fun
        | none => .ok (mempoolEnter tx (true, s))
        | some _ => (verifyDuplicateOrReplacementTx env fuel s tx false true (-1) false).map
            (mempoolEnter tx) := by
  rw [mempoolAccept]
  cases getTransaction env fuel s tx.getUsername (-1) with
  | error e => rfl
  | ok found =>
    cases found with
    | none => rfl
    | some old =>
      cases verifyDuplicateOrReplacementTx env fuel s tx false true (-1) false with
      | error e => rfl
      | ok r => rcases r with ⟨_ | _, s⟩ <;> rfl

theorem mempoolAccept_lookupOnly (tx : CTransaction) :
    LookupOnly env move s fun fuel => mempoolAccept env fuel s tx false false := by
  simp only [mempoolAccept_bind]
  refine .ite (.const nofun) (.ite (.const nofun) (.ite (.const nofun) ?_))
  refine (getTransaction_lookupOnly _ _).bind fun _ found _ => ?_
  cases found with
  | none => exact .const nofun
  | some old => exact (verifyDuplicateOrReplacementTx_lookupOnly tx false true _ false).map

theorem resurrect_eq (env : Env) (fuel : Nat) (s : ChainState) (tx : CTransaction)
    (vResurrect : List CTransaction) : resurrect env fuel s (tx :: vResurrect) =
      (mempoolAccept env fuel s tx false false).bind fun r =>
        resurrect env fuel r.2 vResurrect := by
  rw [resurrect]
  cases mempoolAccept env fuel s tx false false <;> rfl

theorem resurrect_lookupOnly (vResurrect : List CTransaction)
    (hmove : ∀ tx ∈ vResurrect, ∀ fuel s b s',
      mempoolAccept env fuel s tx false false = .ok (b, s') → move s s') :
    LookupOnly env move s fun fuel => resurrect env fuel s vResurrect := by
  induction vResurrect generalizing s with
  | nil => exact .const nofun
  | cons tx vResurrect ih =>
    simp only [resurrect_eq]
    refine (mempoolAccept_lookupOnly tx).bind fun _ r hr => ?_
    have hrest := ih (s := r.2) fun tx htx => hmove tx (List.mem_cons_of_mem _ htx)
    exact hrest.after (hmove tx List.mem_cons_self _ _ _ _ hr)

end Lookups

/-! ## SetBestChain -/

/-- How far `SetBestChain` comes by itself. -/
inductive CallEnd where
  | returned (b : Bool) (s : ChainState)
  /-- `InvalidBlockFound` calls `ConnectBestBlock`; then `SetBestChain` returns
  false. -/
  | searching (s : ChainState)

/-- `InvalidBlockFound`, up to its last test. -/
def invalidBlockMarked (s : ChainState) (pindex : CBlockIndex) : Except Halt ChainState :=
  let s := (s.setStatus pindex { s.nStatus pindex with failedValid := true }).writeBlockIndex pindex
  invalidChainFound { s with setBlockIndexValid := s.setBlockIndexValid.erase pindex } pindex

/-- The last test of `InvalidBlockFound`. -/
def searchOrReturn (pindex : CBlockIndex) (s : ChainState) : CallEnd :=
  if (s.getNextInMainChain pindex).isSome then .searching s else .returned false s

theorem invalidBlockFound_eq (connectBestBlock : ChainState → Except Halt (Bool × ChainState))
    (s : ChainState) (pindex : CBlockIndex) : invalidBlockFound connectBestBlock s pindex =
      (invalidBlockMarked s pindex).bind fun s =>
        if (s.getNextInMainChain pindex).isSome then (connectBestBlock s).map Prod.snd
        else .ok s := by
  rw [invalidBlockFound]
  simp only [invalidBlockMarked]
  cases invalidChainFound _ pindex with
  | error e => rfl
  | ok s =>
    simp only [Except.bind]
    cases s.getNextInMainChain pindex <;> rfl

/-- `SetBestChain` after the new branch was connected, or one of its blocks
rejected. -/
def connectedUntil (env : Env) (plan : Reorg) (pindexNew : CBlockIndex) (fuel : Nat) :
    Connected → Except Halt CallEnd
  | .rejected s pindex => (invalidChainFound s pindexNew).bind fun s =>
    (invalidBlockMarked s pindex).map (searchOrReturn pindex)
  | .all s view => (switchChain env fuel s view plan.vDisconnect plan.vConnect pindexNew).map
      (CallEnd.returned true)

/-- `SetBestChain` after the old branch was disconnected, or could not be. -/
def disconnectedUntil (env : Env) (plan : Reorg) (pindexNew : CBlockIndex) (fuel : Nat) :
    Bool × ChainState × Option CBlockIndex → Except Halt CallEnd
  | (false, s, _) => .ok (.returned false s)
  | (true, s, view) => (connectBlocks env fuel s view plan.vConnect).bind
      (connectedUntil env plan pindexNew fuel)

/-- `SetBestChain`, up to the search that `InvalidBlockFound` starts. -/
def setBestChainUntil (env : Env) (fuel : Nat) (s : ChainState) (pindexNew : CBlockIndex) :
    Except Halt CallEnd :=
  (planReorg s pindexNew).bind fun plan =>
    if plan.vConnect.length < plan.vDisconnect.length then .ok (.returned false plan.marked)
    else (disconnectBlocks plan.marked s.coinsTip plan.vDisconnect).bind
      (disconnectedUntil env plan pindexNew fuel)

/-- The rest of the call, with the search of `InvalidBlockFound` as a parameter. -/
def CallEnd.finish (connectBestBlock : ChainState → Except Halt (Bool × ChainState)) :
    CallEnd → Except Halt (Bool × ChainState)
  | .returned b s => .ok (b, s)
  | .searching s => (connectBestBlock s).map fun r => (false, r.2)

section Calls

variable {env : Env} {s : ChainState} {p : CBlockIndex}

theorem finish_searchOrReturn (connectBestBlock : ChainState → Except Halt (Bool × ChainState))
    (s : ChainState) (p : CBlockIndex) : (searchOrReturn p s).finish connectBestBlock =
      (if (s.getNextInMainChain p).isSome then (connectBestBlock s).map Prod.snd
        else .ok s).map (false, ·) := by
  rw [searchOrReturn]
  split
  · rw [CallEnd.finish]
    cases connectBestBlock s <;> rfl
  · rfl

theorem setBestChainWith_eq (env : Env) (fuel : Nat)
    (connectBestBlock : ChainState → Except Halt (Bool × ChainState)) (s : ChainState)
    (p : CBlockIndex) : setBestChainWith env fuel connectBestBlock s p =
      (setBestChainUntil env fuel s p).bind (CallEnd.finish connectBestBlock) := by
  rw [setBestChainWith, setBestChainUntil]
  cases planReorg s p with
  | error e => rfl
  | ok plan =>
    simp only [Except.bind]
    by_cases hshort : plan.vConnect.length < plan.vDisconnect.length
    · simp only [hshort, if_true, CallEnd.finish]
    simp only [hshort, if_false]
    cases disconnectBlocks plan.marked s.coinsTip plan.vDisconnect with
    | error e => rfl
    | ok r =>
      rcases r with ⟨_ | _, s₁, view⟩
      · rfl
      simp only [disconnectedUntil]
      cases connectBlocks env fuel s₁ view plan.vConnect with
      | error e => rfl
      | ok c =>
        cases c with
        | all s₂ view =>
          simp only [Except.bind, connectedUntil]
          cases switchChain env fuel s₂ view plan.vDisconnect plan.vConnect p <;> rfl
        | rejected s₂ q =>
          simp only [Except.bind, connectedUntil]
          cases invalidChainFound s₂ p with
          | error e => rfl
          | ok s₃ =>
            simp only [invalidBlockFound_eq]
            cases invalidBlockMarked s₃ q with
            | error e => rfl
            | ok s₄ => exact (finish_searchOrReturn connectBestBlock s₄ q).symm

/-- The chain of the new tip, before the memory pool follows. -/
def switchVector (s : ChainState) (view : Option CBlockIndex) (vConnect : List CBlockIndex)
    (pindexNew : CBlockIndex) : ChainState :=
  { s with
      coinsTip := view
      vBlockIndexByHeight := vConnect.foldl (fun v p => v.set p.nHeight (some p))
        (resizeChain (pindexNew.nHeight + 1) s.vBlockIndexByHeight) }

theorem switchChain_eq (env : Env) (fuel : Nat) (s : ChainState) (view : Option CBlockIndex)
    (vDisconnect vConnect : List CBlockIndex) (p : CBlockIndex) :
    switchChain env fuel s view vDisconnect vConnect p =
      (resurrect env fuel (switchVector s view vConnect p) (resurrectable env vDisconnect)).map
        fun s => { (vConnect.flatMap fun p => p.block.vtx).foldl (mempoolRemove env) s with
          pindexBest := some p } := by
  simp only [switchChain, switchVector]
  cases resurrect env fuel _ (resurrectable env vDisconnect) <;> rfl

/-- The moves of the call for `pindexNew` after the old branch was disconnected. -/
inductive CallMove (env : Env) (plan : Reorg) (pindexNew : CBlockIndex) (s : ChainState) :
    ChainState → Prop
  | overwrite {fuel : Nat} {q : CBlockIndex} {tx : CTransaction} {s' : ChainState}
      (hq : q ∈ plan.vConnect) (htx : tx ∈ q.block.vtx)
      (h : checkOverwrite env fuel q.block s tx = .ok (.valid, s')) :
      CallMove env plan pindexNew s s'
  | connect {fuel : Nat} {q : CBlockIndex} {view view' : Option CBlockIndex} {s' : ChainState}
      (hq : q ∈ plan.vConnect)
      (h : connectBlock env fuel s view q.block q false = .ok (.valid, s', view')) :
      CallMove env plan pindexNew s s'
  | switch (view : Option CBlockIndex) :
      CallMove env plan pindexNew s (switchVector s view plan.vConnect pindexNew)
  | resurrect {fuel : Nat} {tx : CTransaction} {b : Bool} {s' : ChainState}
      (htx : tx ∈ resurrectable env plan.vDisconnect)
      (h : mempoolAccept env fuel s tx false false = .ok (b, s')) : CallMove env plan pindexNew s s'

/-- A lookup that the call makes does not return. -/
def CallLoops (env : Env) (s : ChainState) (pindexNew : CBlockIndex) : Prop :=
  ∃ plan s₁ view, planReorg s pindexNew = .ok plan ∧
    disconnectBlocks plan.marked s.coinsTip plan.vDisconnect = .ok (true, s₁, view) ∧
      LookupLoops env (CallMove env plan pindexNew) s₁

theorem switchChain_lookupOnly (plan : Reorg) (view : Option CBlockIndex) :
    LookupOnly env (CallMove env plan p) s fun fuel =>
      switchChain env fuel s view plan.vDisconnect plan.vConnect p := by
  simp only [switchChain_eq]
  have hpool : LookupOnly env (CallMove env plan p) (switchVector s view plan.vConnect p)
      fun fuel => resurrect env fuel (switchVector s view plan.vConnect p)
        (resurrectable env plan.vDisconnect) :=
    resurrect_lookupOnly _ fun _ htx _ _ _ _ h => .resurrect htx h
  exact LookupOnly.after hpool.map (.switch view)

/-! The other parts of `SetBestChain` have no loops of their own. -/

theorem invalidChainFound_ne_fuel (s : ChainState) (p : CBlockIndex) :
    invalidChainFound s p ≠ .error .fuel := by
  rw [invalidChainFound]
  cases s.pindexBest <;> simp

theorem planReorg_ne_fuel (s : ChainState) (p : CBlockIndex) : planReorg s p ≠ .error .fuel := by
  intro h
  rw [planReorg] at h
  split at h
  · rename_i e hfork
    cases h
    cases htip : s.coinsTip with
    | none =>
      rw [htip] at hfork
      cases hfork
    | some best =>
      rw [htip, forkWith] at hfork
      split at hfork <;> cases hfork
  · cases h

theorem disconnectBlocks_ne_fuel (s : ChainState) (view : Option CBlockIndex)
    (ps : List CBlockIndex) : disconnectBlocks s view ps ≠ .error .fuel := by
  induction ps generalizing s view with
  | nil => exact nofun
  | cons p ps ih =>
    intro h
    rw [disconnectBlocks] at h
    split at h
    · rename_i e hone
      cases h
      rw [disconnectBlock] at hone
      split at hone
      · cases hone
      split at hone
      · cases hone
      · cases hone
      · split at hone <;> cases hone
    · cases h
    · exact ih _ _ h

theorem invalidBlockMarked_ne_fuel (s : ChainState) (p : CBlockIndex) :
    invalidBlockMarked s p ≠ .error .fuel :=
  invalidChainFound_ne_fuel _ p

/-- Connecting leads to the state it ends in. -/
theorem connectBlocks_moves {plan : Reorg} {fuel : Nat} {view view' : Option CBlockIndex}
    {s' : ChainState} (h : connectBlocks env fuel s view plan.vConnect = .ok (.all s' view')) :
    Relation.ReflTransGen (CallMove env plan p) s s' :=
  connectBlocks_rule (P := fun t _ => Relation.ReflTransGen (CallMove env plan p) s t)
    (fun _ hq _ _ _ _ hmoves hone => hmoves.tail (.connect hq hone)) .refl h

theorem disconnectedUntil_lookupOnly (plan : Reorg) (s : ChainState) (view : Option CBlockIndex) :
    LookupOnly env (CallMove env plan p) s fun fuel =>
      disconnectedUntil env plan p fuel (true, s, view) := by
  refine (connectBlocks_lookupOnly view plan.vConnect
    (fun _ hq _ htx _ _ _ h => .overwrite hq htx h)
    fun _ hq _ _ _ _ _ h => .connect hq h).bind fun _ c hc => ?_
  cases c with
  | all s₁ view₁ =>
    refine (switchChain_lookupOnly plan view₁).map.mono fun ⟨t, u, maxHeight, hmoves, hloops⟩ => ?_
    exact ⟨t, u, maxHeight, (connectBlocks_moves hc).trans hmoves, hloops⟩
  | rejected s₁ q =>
    exact (LoopsOnly.const (invalidChainFound_ne_fuel s₁ p)).bind fun _ s₂ _ =>
      (LoopsOnly.const (invalidBlockMarked_ne_fuel s₂ q)).map

/-- `SetBestChain` by itself only loops in a lookup that it makes. -/
theorem setBestChainUntil_lookupOnly (s : ChainState) (p : CBlockIndex) :
    LoopsOnly Halt.fuel (CallLoops env s p) fun fuel => setBestChainUntil env fuel s p := by
  simp only [setBestChainUntil]
  refine (LoopsOnly.const (planReorg_ne_fuel s p)).bind fun _ plan hplan =>
    .ite (.const nofun) ?_
  refine (LoopsOnly.const (disconnectBlocks_ne_fuel _ _ _)).bind fun _ r hdis => ?_
  rcases r with ⟨_ | _, s₁, view⟩
  · exact .const nofun
  · exact (disconnectedUntil_lookupOnly plan s₁ view).mono fun hloops =>
      ⟨plan, s₁, view, hplan, hdis, hloops⟩

end Calls

end CoMoNet
