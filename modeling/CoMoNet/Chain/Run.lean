import CoMoNet.Chain.Reorg

/-!
# Runs

A run of a node enters blocks, changes marks, pool and clock, and calls `setBestChain`.
`userStack u tip` are the blocks of a chain with a transaction of `u`; connecting and
disconnecting keep the log of `u` in step with it.
-/

namespace CoMoNet

open UndoStack (Log)
open GuardedRun (System)

/-! ## Stacks of a user -/

/-- The blocks of the chain up to `tip` that have a transaction for `u`. -/
def userStack (u : Bytes) (tip : Option CBlockIndex) : List CBlockIndex :=
  (CBlockIndex.ancestorsOf tip).filter (CBlockIndex.registers u)

/-- The log of a user is in step with the chain up to `tip`. -/
def InStep (s : ChainState) (u : Bytes) (tip : Option CBlockIndex) : Prop :=
  ∃ l, IndexRep s u l ∧ l.Tracks CBlockIndex.nHeight (userStack u tip)

section Stacks

variable {env : Env} {fuel : Nat} {s s' : ChainState} {u : Bytes} {p : CBlockIndex}
variable {view view' : Option CBlockIndex} {v : Verdict}
variable {tip : Option CBlockIndex} {x : CBlockIndex} {l : Log CBlockIndex}

theorem userStack_some (u : Bytes) (p : CBlockIndex) :
    userStack u (some p) =
      if p.registers u then p :: userStack u p.pprev else userStack u p.pprev := by
  rw [userStack, CBlockIndex.ancestorsOf, CBlockIndex.ancestors_eq, List.filter_cons]
  rfl

theorem mem_userStack :
    x ∈ userStack u tip ↔ x ∈ CBlockIndex.ancestorsOf tip ∧ x.registers u = true := by
  rw [userStack, List.mem_filter]

theorem nHeight_lt_of_mem_pprev (h : x ∈ CBlockIndex.ancestorsOf p.pprev) :
    x.nHeight < p.nHeight := by
  cases p with
  | root block pos => cases h
  | next pprev block pos => exact Nat.lt_succ_of_le (CBlockIndex.nHeight_le_of_mem_ancestors h)

/-- The clock is not part of the index. -/
theorem InStep.setClock (h : InStep s u tip) (now : Int) :
    InStep { s with clock := now } u tip := by
  obtain ⟨l, rep, tracks⟩ := h
  exact ⟨l, rep.congr rfl fun _ => rfl, tracks⟩

theorem InStep.congr (h : InStep s u tip) (hs : SameUser u s s') :
    InStep s' u tip := by
  obtain ⟨l, rep, tracks⟩ := h
  exact ⟨l, hs.rep rep, tracks⟩

/-- A lookup sees the top of the stack: it gives up outside the main chain and returns it if low
enough. -/
theorem getTransaction_top {rest : List CBlockIndex}
    {maxHeight : Int} (tree : TreeOK env s.mapBlockIndex) (rep : IndexRep s u l)
    (tracks : l.Tracks CBlockIndex.nHeight (x :: rest)) :
    (s.isInMainChain x = false →
      getTransaction env (fuel + 1) s u maxHeight = .ok none) ∧
    (s.isInMainChain x = true →
      (x.nHeight : Int) ≤ (if maxHeight < 0 then s.nBestHeight else maxHeight) →
      getTransaction env (fuel + 1) s u maxHeight =
        .ok ((x.block.txFor u).map fun tx => (tx, env.blockHash x.block))) := by
  have hhead : l.head = some x := tracks.top x rfl
  rw [getTransaction_eq_walk tree rep, hhead]
  constructor
  · intro hdead
    rw [lookup, Log.walk_succ_dead hdead]
    rfl
  · intro hlive hle
    rw [lookup, Log.walk_succ_some hlive hle]
    rfl

/-- An entry is erased only when the chain of the block has no transaction of the user. -/
theorem stack_nil_of_erasable {tx : CTransaction}
    (tree : TreeOK env s.mapBlockIndex) (hp : p ∈ s.mapBlockIndex) (rep : IndexRep s u l)
    (tracks : l.Tracks CBlockIndex.nHeight (userStack u p.pprev))
    (hname : tx.getUsername = u) (h : Erasable env fuel p.block s tx) :
    userStack u p.pprev = [] := by
  cases hstack : userStack u p.pprev with
  | nil => rfl
  | cons x rest =>
    obtain ⟨⟨r, hbest⟩, hblock⟩ := h
    rw [hname] at hbest hblock
    rw [hstack] at tracks
    have hx : x ∈ userStack u p.pprev := by rw [hstack]; exact List.mem_cons_self
    obtain ⟨hanc, hreg⟩ := mem_userStack.mp hx
    have hlt := nHeight_lt_of_mem_pprev hanc
    have hheight := tree.nHeight_eq hp
    cases fuel with
    | zero => cases hbest
    | succ fuel =>
      cases hlive : s.isInMainChain x with
      | false =>
        rw [(getTransaction_top tree rep tracks).1 hlive] at hbest
        cases hbest
      | true =>
        obtain ⟨tx', htx'⟩ := Option.isSome_iff_exists.mp hreg
        rw [(getTransaction_top tree rep tracks).2 hlive
          (by rw [if_neg (by omega)]; omega), htx'] at hblock
        cases hblock

/-- The log after the checks of a block still stands for the stack below it. -/
theorem CheckedLog.tracks {l' : Log CBlockIndex} (tree : TreeOK env s.mapBlockIndex)
    (hp : p ∈ s.mapBlockIndex) (rep : IndexRep s u l)
    (tracks : l.Tracks CBlockIndex.nHeight (userStack u p.pprev))
    (h : CheckedLog env fuel s u p l l') :
    l'.Tracks CBlockIndex.nHeight (userStack u p.pprev) := by
  rcases h with rfl | ⟨rfl, tx, htx, hE⟩
  · exact tracks
  · have hname := CTransaction.getUsername_of_registers (List.find?_some htx)
    rw [stack_nil_of_erasable tree hp rep tracks hname hE]
    exact Log.Tracks.nil

/-- Connecting keeps the log in step. -/
theorem connectBlock_tracks (tree : TreeOK env s.mapBlockIndex) (hp : p ∈ s.mapBlockIndex)
    (hstep : InStep s u p.pprev)
    (h : connectBlock env fuel s view p.block p false = .ok (v, s', view')) :
    (v ≠ .valid → InStep s' u p.pprev) ∧ (v = .valid → InStep s' u view') := by
  obtain ⟨l, rep, tracks⟩ := hstep
  obtain ⟨-, l', hl', hbad, hgood⟩ := connectBlock_user tree hp rep h
  have tracks' := hl'.tracks tree hp rep tracks
  refine ⟨fun hv => ⟨l', hbad hv, tracks'⟩, fun hv => ?_⟩
  obtain ⟨-, rfl, rep'⟩ := hgood hv
  refine ⟨_, rep', ?_⟩
  rw [userStack_some]
  by_cases hreg : p.registers u = true
  · rw [if_pos hreg, if_pos hreg]
    exact tracks'.push fun f hf => nHeight_lt_of_mem_pprev (mem_userStack.mp hf).1
  · rw [if_neg hreg, if_neg hreg]
    exact tracks'

theorem disconnectBlock_tracks (tree : TreeOK env s.mapBlockIndex) (hp : p ∈ s.mapBlockIndex)
    (hstep : InStep s u view)
    (h : disconnectBlock s view p.block p false = .ok (true, s', view')) :
    InStep s' u view' := by
  obtain ⟨l, rep, tracks⟩ := hstep
  obtain ⟨rfl, rfl, -⟩ := disconnectBlock_view h
  refine ⟨_, rep.of_disconnectBlock tree hp h, ?_⟩
  rw [userStack_some] at tracks
  by_cases hreg : p.registers u = true
  · rw [if_pos hreg] at tracks ⊢
    exact tracks.pop
  · rw [if_neg hreg] at tracks ⊢
    exact tracks

theorem disconnectBlocks_tracks {ps : List CBlockIndex} (tree : TreeOK env s.mapBlockIndex)
    (hps : ∀ p ∈ ps, p ∈ s.mapBlockIndex) (hstep : InStep s u view)
    (h : disconnectBlocks s view ps = .ok (true, s', view')) : InStep s' u view' := by
  induction ps generalizing s view with
  | nil =>
    cases h
    exact hstep
  | cons p ps ih =>
    rcases disconnectBlocks_cons h with ⟨hb, -⟩ | ⟨s₁, hone, -, hsame, hrest⟩
    · cases hb
    · have hp := hps p List.mem_cons_self
      refine ih (hsame.map ▸ tree) (fun q hq => ?_)
        (disconnectBlock_tracks tree hp hstep hone) hrest
      rw [hsame.map]
      exact hps q (List.mem_cons_of_mem _ hq)

theorem connectBlocks_tracks {ps : List CBlockIndex} (tree : TreeOK env s.mapBlockIndex)
    (hps : ∀ p ∈ ps, p ∈ s.mapBlockIndex) (hstep : InStep s u view)
    (h : connectBlocks env fuel s view ps = .ok (.all s' view')) : InStep s' u view' := by
  have hrule := connectBlocks_rule
    (P := fun t view => t.mapBlockIndex = s.mapBlockIndex ∧ InStep t u view)
    ?_ ⟨rfl, hstep⟩ h
  · exact hrule.2
  · intro p hp t view t' view' ⟨hmap, hin⟩ hone
    have hpprev := (connectBlock_view hone).1
    subst hpprev
    refine ⟨(connectBlock_sameChain hone).map.trans hmap, ?_⟩
    exact (connectBlock_tracks (hmap ▸ tree) (hmap ▸ hps p hp) hin hone).2 rfl

end Stacks

/-! ## The transition system -/

/-- What can happen. -/
inductive ChainLabel where
  | accept (block : CBlock) (pos : CDiskBlockPos)
  /-- Status bits, candidates, the memory pool or the clock change. -/
  | mark
  | setBestChain (fuel rounds : Nat) (pindexNew : CBlockIndex)

/-- A block passes `CheckBlock` and `AcceptBlock` and gets a place of its own. The genesis block
is the network's. -/
structure Accepts (env : Env) (s : ChainState) (block : CBlock) (pos : CDiskBlockPos) : Prop where
  /-- The checks of `AcceptBlock`. -/
  accepted : acceptChecks env s block = .ok .valid
  /-- The checks of `CheckBlock`. -/
  checked : env.blockHash block ≠ env.hashGenesisBlock →
    checkBlock env (s.adjustedTime env) block true true = .valid
  /-- No other block has the hash of the genesis block. -/
  genesis : env.blockHash block = env.hashGenesisBlock → block = env.genesisBlock
  fresh : ∀ p ∈ s.mapBlockIndex, p.pos ≠ pos

/-- The step relation. -/
def ChainStep (env : Env) (s : ChainState) : ChainLabel → ChainState → Prop
  | .accept block pos, s' =>
    Accepts env s block pos ∧ s' = insertBlockIndex s (newBlockIndex env s block pos)
  | .mark, s' => SameIndex { s with clock := s'.clock } s'
  | .setBestChain fuel rounds pindexNew, s' =>
    pindexNew ∈ s.mapBlockIndex ∧ ∃ b, setBestChain env fuel rounds s pindexNew = .ok (b, s')

/-- A chain. -/
def chainSystem (env : Env) : System ChainState ChainLabel where
  init s := s = {}
  step := ChainStep env

section Invariant

variable {env : Env} {s s' : ChainState} {block : CBlock} {pos : CDiskBlockPos}

variable (env) in
theorem SameIndex.step (h : SameIndex s s') : ChainStep env s .mark s' := by
  rw [ChainStep, h.clock]
  exact h

variable (env) in
/-- The clock can be set to any time. -/
theorem chainStep_clock (s : ChainState) (now : Int) :
    ChainStep env s .mark { s with clock := now } :=
  SameIndex.refl _

theorem chainInv_init (env : Env) : ChainInv env {} where
  tree := ⟨nofun, nofun, nofun, nofun, nofun, nofun, nofun, nofun⟩
  tip := nofun
  slots h p := ⟨nofun, fun hp => by cases hp.1⟩
  best := nofun
  cands := nofun

theorem findBlockIndex_some {hash : Uint256} {q : CBlockIndex}
    (h : s.findBlockIndex env hash = some q) :
    q ∈ s.mapBlockIndex ∧ env.blockHash q.block = hash := by
  refine ⟨List.mem_of_find?_eq_some h, ?_⟩
  simpa using List.find?_some h

theorem findBlockIndex_none {hash : Uint256} (h : s.findBlockIndex env hash = none) :
    ∀ q ∈ s.mapBlockIndex, env.blockHash q.block ≠ hash := by
  intro q hq
  simpa using List.find?_eq_none.mp h q hq

theorem checkContext_valid {q : CBlockIndex} (h : checkContext env s block q = .ok .valid) :
    getNextWorkRequired env q block = .ok block.nBits ∧ q.getMedianTimePast < block.nTime ∧
      checkpointsCheckBlock env s (q.nHeight + 1) (env.blockHash block) = true ∧
      block.nHeight = q.nHeight + 1 := by
  rw [checkContext] at h
  split at h
  · cases h
  rename_i nBits hbits
  split at h
  · cases h
  rename_i hwork
  split at h
  · cases h
  rename_i htime
  split at h
  · cases h
  rename_i hlock
  split at h
  · cases h
  split at h
  · cases h
  rename_i hheight
  rw [not_not] at hwork hheight
  rw [Bool.not_eq_true', Bool.not_eq_false] at hlock
  exact ⟨hwork ▸ hbits, Nat.lt_of_not_le htime, hlock, hheight⟩

/-- The genesis block in an empty index, or a child of an indexed block at its height. -/
theorem Accepts.cases (tree : TreeOK env s.mapBlockIndex) (h : Accepts env s block pos) :
    (∀ q ∈ s.mapBlockIndex, env.blockHash q.block ≠ env.blockHash block) ∧
    ((s.mapBlockIndex = [] ∧ block = env.genesisBlock ∧
        newBlockIndex env s block pos = .root block pos) ∨
      env.blockHash block ≠ env.hashGenesisBlock ∧ ∃ q ∈ s.mapBlockIndex,
        env.blockHash q.block = block.hashPrevBlock ∧ block.nHeight = q.nHeight + 1 ∧
        newBlockIndex env s block pos = .next q block pos) := by
  have hacc := h.accepted
  rw [acceptChecks] at hacc
  split at hacc
  · cases hacc
  rename_i hnew
  have hnew' := findBlockIndex_none hnew
  refine ⟨hnew', ?_⟩
  split at hacc
  · rename_i hgen
    have hnil : s.mapBlockIndex = [] := by
      cases hmap : s.mapBlockIndex with
      | nil => rfl
      | cons q rest =>
        have hq : q ∈ s.mapBlockIndex := by rw [hmap]; exact List.mem_cons_self
        have hroot := tree.ancestors_mem hq _ q.rootOf_mem_ancestors
        refine absurd ?_ (hnew' _ hroot)
        rw [tree.root _ hroot q.rootOf_pprev, hgen]
        rfl
    refine .inl ⟨hnil, h.genesis hgen, ?_⟩
    rw [newBlockIndex, ChainState.findBlockIndex, hnil]
    rfl
  · rename_i hgen
    split at hacc
    · cases hacc
    rename_i q hq
    obtain ⟨hqmem, hqhash⟩ := findBlockIndex_some hq
    exact .inr ⟨hgen, q, hqmem, hqhash, (checkContext_valid hacc).2.2.2, by rw [newBlockIndex, hq]⟩

/-- A new block keeps the tree. -/
theorem TreeOK.insert (tree : TreeOK env s.mapBlockIndex) (h : Accepts env s block pos) :
    TreeOK env (newBlockIndex env s block pos :: s.mapBlockIndex) := by
  obtain ⟨hnew, hcases⟩ := h.cases tree
  generalize hp : newBlockIndex env s block pos = p at hcases
  have hblock : p.block = block ∧ p.pos = pos := by
    rw [← hp, newBlockIndex]
    split <;> exact ⟨rfl, rfl⟩
  have hparent : ∀ q, p.pprev = some q → q ∈ s.mapBlockIndex ∧
      env.blockHash block ≠ env.hashGenesisBlock ∧ block.hashPrevBlock = env.blockHash q.block ∧
      block.nHeight = p.nHeight := by
    intro q hq
    rcases hcases with ⟨-, -, rfl⟩ | ⟨hgen, q', hq', hhash, hheight, rfl⟩
    · cases hq
    · rw [CBlockIndex.pprev, Option.some.injEq] at hq
      subst hq
      exact ⟨hq', hgen, hhash.symm, hheight⟩
  refine ⟨?_, ?_, ?_, ?_, ?_, ?_, ?_, ?_⟩
  · rintro x hx q hq
    rcases List.mem_cons.mp hx with rfl | hx
    · exact List.mem_cons_of_mem _ (hparent q hq).1
    · exact List.mem_cons_of_mem _ (tree.parent x hx q hq)
  · rintro x hx y hy hxy
    rcases List.mem_cons.mp hx with hxp | hxm <;> rcases List.mem_cons.mp hy with hyp | hym
    · rw [hxp, hyp]
    · rw [hxp, hblock.1] at hxy
      exact absurd hxy.symm (hnew y hym)
    · rw [hyp, hblock.1] at hxy
      exact absurd hxy (hnew x hxm)
    · exact tree.hash_inj x hxm y hym hxy
  · rintro x hx y hy hxy
    rcases List.mem_cons.mp hx with hxp | hxm <;> rcases List.mem_cons.mp hy with hyp | hym
    · rw [hxp, hyp]
    · rw [hxp, hblock.2] at hxy
      exact absurd hxy.symm (h.fresh y hym)
    · rw [hyp, hblock.2] at hxy
      exact absurd hxy (h.fresh x hxm)
    · exact tree.pos_inj x hxm y hym hxy
  · rintro x hx hroot
    rcases List.mem_cons.mp hx with rfl | hx
    · rcases hcases with ⟨-, hgen, -⟩ | ⟨-, q', -, -, -, rfl⟩
      · rw [hblock.1, hgen]
      · cases hroot
    · exact tree.root x hx hroot
  · rintro x hx q hq
    rcases List.mem_cons.mp hx with rfl | hx
    · rw [hblock.1]
      exact ⟨_, h.checked (hparent q hq).2.1⟩
    · exact tree.checked x hx q hq
  · rintro x hx q hq
    rcases List.mem_cons.mp hx with rfl | hx
    · rw [hblock.1]
      exact (hparent q hq).2.1
    · exact tree.not_genesis x hx q hq
  · rintro x hx q hq
    rcases List.mem_cons.mp hx with rfl | hx
    · rw [hblock.1]
      exact (hparent q hq).2.2.1
    · exact tree.linked x hx q hq
  · rintro x hx q hq
    rcases List.mem_cons.mp hx with rfl | hx
    · rw [hblock.1]
      exact (hparent q hq).2.2.2
    · exact tree.height x hx q hq

/-- A step keeps the invariant. -/
theorem chainInv_step {a : ChainLabel} (inv : ChainInv env s) (h : ChainStep env s a s') :
    ChainInv env s' := by
  cases a with
  | accept block pos =>
    obtain ⟨hacc, rfl⟩ := h
    refine ⟨inv.tree.insert hacc, ?_, inv.slots, inv.best, ?_⟩
    · intro p hp
      exact List.mem_cons_of_mem _ (inv.tip p hp)
    · exact List.cons_subset_cons _ inv.cands
  | mark =>
    have inv' : ChainInv env { s with clock := s'.clock } :=
      ⟨inv.tree, inv.tip, inv.slots, inv.best, inv.cands⟩
    exact inv'.congr h.toSameChain
  | setBestChain fuel rounds pindexNew =>
    obtain ⟨hnew, b, hcall⟩ := h
    obtain ⟨plan, pfork, -, ok, hout⟩ := setBestChainWith_cases inv hnew hcall
    exact hout.inv inv hnew ok

end Invariant

/-! ## Executing a run -/

instance (env : Env) (s : ChainState) (block : CBlock) (pos : CDiskBlockPos) :
    Decidable (Accepts env s block pos) :=
  decidable_of_iff
    (acceptChecks env s block = .ok .valid ∧
      (env.blockHash block ≠ env.hashGenesisBlock →
        checkBlock env (s.adjustedTime env) block true true = .valid) ∧
      (env.blockHash block = env.hashGenesisBlock → block = env.genesisBlock) ∧
      ∀ p ∈ s.mapBlockIndex, p.pos ≠ pos)
    ⟨fun h => ⟨h.1, h.2.1, h.2.2.1, h.2.2.2⟩,
      fun h => ⟨h.accepted, h.checked, h.genesis, h.fresh⟩⟩

/-- Executes a step. -/
def runLabel (env : Env) (s : ChainState) : ChainLabel → Option ChainState
  | .accept block pos =>
    if Accepts env s block pos then some (insertBlockIndex s (newBlockIndex env s block pos))
    else none
  | .mark => some s
  | .setBestChain fuel rounds pindexNew =>
    if pindexNew ∈ s.mapBlockIndex then
      match setBestChain env fuel rounds s pindexNew with
      | .error _ => none
      | .ok (_, s') => some s'
    else none

/-- Executes several. -/
def runLabels (env : Env) (check : ChainState → ChainLabel → Bool) :
    ChainState → List ChainLabel → Option ChainState
  | s, [] => some s
  | s, a :: as => if check s a then (runLabel env s a).bind (runLabels env check · as) else none

theorem runLabel_step {env : Env} {s s' : ChainState} {a : ChainLabel}
    (h : runLabel env s a = some s') : ChainStep env s a s' := by
  cases a with
  | accept block pos =>
    rw [runLabel] at h
    split at h
    · rename_i hacc
      exact ⟨hacc, (Option.some.inj h).symm⟩
    · cases h
  | mark =>
    rw [runLabel, Option.some.injEq] at h
    rw [h]
    exact SameIndex.refl s'
  | setBestChain fuel rounds pindexNew =>
    rw [runLabel] at h
    split at h
    · rename_i hmem
      split at h
      · cases h
      · rename_i b s₁ hcall
        rw [Option.some.injEq] at h
        exact ⟨hmem, b, h ▸ hcall⟩
    · cases h

theorem reach_runLabels {env : Env} {ok : ChainState → ChainLabel → Prop}
    {check : ChainState → ChainLabel → Bool} (hcheck : ∀ s a, check s a = true → ok s a) :
    ∀ {as : List ChainLabel} {s s' : ChainState}, (chainSystem env).Reach ok s →
      runLabels env check s as = some s' → (chainSystem env).Reach ok s'
  | [], s, s', hs, h => by
    rw [runLabels, Option.some.injEq] at h
    exact h ▸ hs
  | a :: as, s, s', hs, h => by
    rw [runLabels] at h
    split at h
    · rename_i ha
      obtain ⟨s₁, h₁, h⟩ := Option.bind_eq_some_iff.mp h
      exact reach_runLabels hcheck (.step hs (hcheck s a ha) (runLabel_step h₁)) h
    · cases h

/-- The state after them. -/
def stateAfter (env : Env) (check : ChainState → ChainLabel → Bool) (as : List ChainLabel) :
    ChainState :=
  (runLabels env check {} as).getD {}

theorem reach_stateAfter {env : Env} {ok : ChainState → ChainLabel → Prop}
    {check : ChainState → ChainLabel → Bool} {as : List ChainLabel}
    (hcheck : ∀ s a, check s a = true → ok s a)
    (hrun : (runLabels env check {} as).isSome = true) :
    (chainSystem env).Reach ok (stateAfter env check as) := by
  obtain ⟨s, hs⟩ := Option.isSome_iff_exists.mp hrun
  rw [stateAfter, hs, Option.getD_some]
  exact reach_runLabels hcheck (.init rfl) hs

/-! ## A small network

Concrete blocks for the runs shown in the following modules.  Hashes are the
nonces, proof of work always succeeds and no signature recovers to a key; the
targets and times are those of the main network. -/

/-- A network with small hashes. -/
def smallNet : Env where
  txHash tx := tx.nNonce
  usernameHash u := littleEndian u + 1
  headerHash header := header.nNonce
  powHash _ := 0
  pairHash a b := 1000 * a + b
  messageHash := littleEndian
  recoverCompact _ _ := none
  hash160 := littleEndian
  txBits := 0x1f0300ff
  proofOfWorkLimit := 2 ^ 255 - 1
  genesisTime := 1384394255
  genesisBits := 0x1f02ffff
  genesisNonce := 133578
  testNet := false
  checkpoints := [(55450, 0x5af4c59d0b14183375dc003df956f666e0b20c73e5879f918f5e8fff179e2563)]
  softCheckpoints := true
  startTime := 1500000000

/-- A registration. -/
def registration (user key : String) (nonce : Nat) : CTransaction :=
  { userName := CScript.push (ascii user), pubKey := CScript.push (ascii key), nNonce := nonce }

/-- A block. -/
def smallBlock (prev : CBlock) (nonce : Nat) (vtx : List CTransaction) : CBlock :=
  let spam : CTransaction :=
    { message := CScript.push (ascii "spam"), userName := CScript.push (ascii "nobody"),
      nNonce := nonce }
  { nVersion := 2
    nHeight := prev.nHeight + 1
    hashPrevBlock := prev.nNonce
    hashMerkleRoot := buildMerkleTree smallNet (spam :: vtx)
    nTime := prev.nTime + 600
    nBits := 0x1f02ffff
    nNonce := nonce
    vtx := spam :: vtx }

/-- The place of a block of the small network in the block file. -/
def smallPos (block : CBlock) : CDiskBlockPos := ⟨0, 1000 * block.nNonce⟩

/-- The genesis block. -/
def smallGenesis : CBlockIndex :=
  .root smallNet.genesisBlock (smallPos smallNet.genesisBlock)

/-- An entry. -/
def smallIndex (pprev : CBlockIndex) (block : CBlock) : CBlockIndex :=
  .next pprev block (smallPos block)

/-- The steps that enter a block and try to make it the tip. -/
def arrive (p : CBlockIndex) : List ChainLabel :=
  [.accept p.block p.pos, .setBestChain 8 8 p]

end CoMoNet
