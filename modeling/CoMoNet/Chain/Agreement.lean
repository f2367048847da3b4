import CoMoNet.Chain.Termination

/-!
# Agreement on block validity

`validOn` are the checks of `connectBlock` with every lookup answered by the branch of
the block. The node answers from its index and the old main chain, so nodes can disagree
for ever (`nodes_disagree`). `Undisturbed` lists what has to be excluded in a call.
-/

namespace CoMoNet

open UndoStack (Log)

/-! ## Validity on a branch -/

/-- The newest transaction for `u` on a branch, given from the top down. -/
def registrationOn (u : Bytes) (branch : List CBlock) : Option CTransaction :=
  branch.findSome? (CBlock.txFor u)

/-- The user who signed the spam message of a block. -/
def CBlock.signer (block : CBlock) : Bytes :=
  match block.vtx with
  | [] => ascii "nobody"
  | spam :: _ => CScript.extractPushDataString spam.userName 0

/-- The users whose registrations the checks of a block look up. -/
def CBlock.reads (block : CBlock) : List Bytes :=
  (if block.signer = ascii "nobody" then [] else [block.signer]) ++
    block.vtx.tail.map CTransaction.getUsername

/-- The spam signature is one of the registered user. -/
def spamValidOn (env : Env) (branch : List CBlock) (tx : CTransaction) : Verdict :=
  let spamUser := CScript.extractPushDataString tx.userName 0
  let vchSig := CScript.extractPushDataString tx.userName 1
  if spamUser = ascii "nobody" then .valid
  else if vchSig = [] then .invalid 100 ["ConnectBlock() : spam signature missing"]
  else verifySpamSignature env tx vchSig (registrationOn spamUser branch)

/-- A transaction may follow the registration its user has on the branch. -/
def overwriteValidOn (env : Env) (branch : List CBlock) (tx : CTransaction) : Bool :=
  (registrationOn tx.getUsername branch).all fun old => mayOverwrite env old tx

/-- A block passes the checks of `connectBlock` on a branch, at the time of the
block. -/
def validOn (env : Env) (branch : List CBlock) (block : CBlock) : Bool :=
  checkBlock env block.nTime block true true == .valid &&
    (env.blockHash block == env.hashGenesisBlock ||
      match block.vtx with
      | [] => false
      | spam :: vtx =>
        spamValidOn env branch spam == .valid && vtx.all (overwriteValidOn env branch))

namespace CBlockIndex

/-- The blocks below. -/
def branchBelow (p : CBlockIndex) : List CBlock := (ancestorsOf p.pprev).map block

/-- The block is valid on its branch. -/
def isValidOn (env : Env) (p : CBlockIndex) : Bool := validOn env p.branchBelow p.block

end CBlockIndex

theorem findSome?_eq_head? {α β : Type*} (f : α → Option β) :
    ∀ l : List α, l.findSome? f = (l.filter fun a => (f a).isSome).head?.bind f
  | [] => rfl
  | a :: l => by
    cases hf : f a with
    | none => simp [hf, findSome?_eq_head? f l]
    | some b => simp [hf]

theorem registrationOn_ancestorsOf (u : Bytes) (tip : Option CBlockIndex) :
    registrationOn u ((CBlockIndex.ancestorsOf tip).map CBlockIndex.block) =
      (userStack u tip).head?.bind fun x => x.block.txFor u := by
  rw [registrationOn, List.findSome?_map, findSome?_eq_head?]
  rfl

/-- The newest transaction on a branch. -/
theorem registrationOn_branchBelow (u : Bytes) (p : CBlockIndex) :
    registrationOn u p.branchBelow = (userStack u p.pprev).head?.bind fun x => x.block.txFor u :=
  registrationOn_ancestorsOf u p.pprev

/-! ## Lookups while a block is connected -/

section Lookups

variable {env : Env} {fuel : Nat} {s s' : ChainState} {u : Bytes} {p : CBlockIndex}
variable {tx : CTransaction} {v : Verdict}

theorem getTransaction_live {l : Log CBlockIndex} {maxHeight : Int} {old : CTransaction}
    {hash : Uint256} (tree : TreeOK env s.mapBlockIndex) (rep : IndexRep s u l)
    (h : getTransaction env fuel s u maxHeight = .ok (some (old, hash))) :
    ∃ e, s.isInMainChain e = true ∧ (e.nHeight : Int) ≤ heightBound s maxHeight ∧
      e.block.txFor u = some old := by
  rw [getTransaction_eq_walk tree rep] at h
  cases hw : lookup s l (if maxHeight < 0 then s.nBestHeight else maxHeight) fuel l.head with
  | none => simp [hw, lookupResult] at h
  | some found =>
    cases found with
    | none => simp [hw, lookupResult] at h
    | some e =>
      obtain ⟨-, hlive, hle⟩ := Log.walk_some (fun x hx => .inl hx) hw
      simp only [hw, lookupResult, Except.ok.injEq, Option.map_eq_some_iff,
        Prod.mk.injEq] at h
      obtain ⟨tx, htx, rfl, -⟩ := h
      exact ⟨e, hlive, hle, htx⟩

/-- The nearest registration of `u` on the branch of `p` is in the main-chain
vector. -/
def TopLive (s : ChainState) (u : Bytes) (p : CBlockIndex) : Prop :=
  ∀ x rest, userStack u p.pprev = x :: rest →
    s.isInMainChain x = true ∧ (x.nHeight : Int) ≤ s.nBestHeight

theorem heightBound_nHeight (tree : TreeOK env s.mapBlockIndex) (hp : p ∈ s.mapBlockIndex) :
    heightBound s p.block.nHeight = p.nHeight := by
  rw [heightBound, tree.nHeight_eq hp, if_neg (by omega)]

/-- A live top of the stack is what both lookups of the checks find. -/
theorem getTransaction_topLive {x : CBlockIndex} {rest : List CBlockIndex}
    {r : Option (CTransaction × Uint256)} {maxHeight : Int}
    (tree : TreeOK env s.mapBlockIndex) (hp : p ∈ s.mapBlockIndex) (hstep : InStep s u p.pprev)
    (htop : TopLive s u p) (hstack : userStack u p.pprev = x :: rest)
    (hmax : maxHeight = -1 ∨ maxHeight = p.block.nHeight)
    (h : getTransaction env fuel s u maxHeight = .ok r) :
    r = (x.block.txFor u).map fun tx => (tx, env.blockHash x.block) := by
  obtain ⟨hlive, hbest⟩ := htop x rest hstack
  obtain ⟨l, rep, tracks⟩ := hstep
  rw [hstack] at tracks
  cases fuel with
  | zero => cases h
  | succ fuel =>
    have hx : x ∈ userStack u p.pprev := by rw [hstack]; exact List.mem_cons_self
    have hlt := nHeight_lt_of_mem_pprev (mem_userStack.mp hx).1
    have hbound : (x.nHeight : Int) ≤ if maxHeight < 0 then s.nBestHeight else maxHeight := by
      rcases hmax with rfl | rfl
      · exact hbest
      · rw [tree.nHeight_eq hp, if_neg (by omega)]
        omega
    rw [(getTransaction_top tree rep tracks).2 hlive hbound, Except.ok.injEq] at h
    exact h.symm

/-- The lookup of the spam signer agrees with the branch if no abandoned block answers it. -/
theorem getTransaction_signer {r : Option (CTransaction × Uint256)}
    (tree : TreeOK env s.mapBlockIndex) (hp : p ∈ s.mapBlockIndex) (hstep : InStep s u p.pprev)
    (htop : TopLive s u p)
    (hstale : userStack u p.pprev = [] → ∀ e, s.isInMainChain e = true →
      e.nHeight ≤ p.nHeight → e.registers u = false)
    (h : getTransaction env fuel s u p.block.nHeight = .ok r) :
    r.map Prod.fst = registrationOn u p.branchBelow := by
  rw [registrationOn_branchBelow]
  cases hstack : userStack u p.pprev with
  | cons x rest =>
    rw [getTransaction_topLive tree hp hstep htop hstack (.inr rfl) h, Option.map_map]
    exact Option.map_id'
  | nil =>
    cases r with
    | none => rfl
    | some found =>
      obtain ⟨l, rep, -⟩ := hstep
      obtain ⟨e, hlive, hle, htx⟩ := getTransaction_live tree rep h
      rw [heightBound_nHeight tree hp] at hle
      have hreg := hstale hstack e hlive (by omega)
      rw [CBlockIndex.registers, htx] at hreg
      cases hreg

/-- The overwrite check agrees with the branch if the transaction may overwrite what the abandoned
branch has up to the height of `p`. -/
theorem checkOverwrite_validOn (tree : TreeOK env s.mapBlockIndex) (hp : p ∈ s.mapBlockIndex)
    (hstep : InStep s tx.getUsername p.pprev) (htop : TopLive s tx.getUsername p)
    (hstale : userStack tx.getUsername p.pprev = [] → ∀ e old, s.isInMainChain e = true →
      e.nHeight ≤ p.nHeight → e.block.txFor tx.getUsername = some old →
        mayOverwrite env old tx = true)
    (h : checkOverwrite env fuel p.block s tx = .ok (v, s')) :
    v = .valid ↔ overwriteValidOn env p.branchBelow tx = true := by
  rw [overwriteValidOn, registrationOn_branchBelow]
  cases hstack : userStack tx.getUsername p.pprev with
  | cons x rest =>
    have hx : x ∈ userStack tx.getUsername p.pprev := by rw [hstack]; exact List.mem_cons_self
    obtain ⟨old, hold⟩ := Option.isSome_iff_exists.mp (mem_userStack.mp hx).2
    rw [List.head?_cons, Option.bind_some, hold, Option.all_some]
    rcases checkOverwrite_cases h with ⟨hnone, -⟩ | ⟨old', hash, hfound, -, -, rfl⟩ |
      ⟨⟨-, hnone⟩, -⟩
    · have := getTransaction_topLive tree hp hstep htop hstack (.inl rfl) hnone
      rw [hold] at this
      cases this
    · have hsame := getTransaction_topLive tree hp hstep htop hstack (.inr rfl) hfound
      rw [hold, Option.map_some, Option.some.injEq, Prod.mk.injEq] at hsame
      obtain ⟨rfl, -⟩ := hsame
      cases mayOverwrite env old' tx <;> simp
    · have := getTransaction_topLive tree hp hstep htop hstack (.inr rfl) hnone
      rw [hold] at this
      cases this
  | nil =>
    refine iff_of_true ?_ rfl
    rcases checkOverwrite_cases h with ⟨-, hv, -⟩ | ⟨old, hash, hfound, -, -, rfl⟩ | ⟨-, hv, -⟩
    · exact hv
    · obtain ⟨l, rep, -⟩ := hstep
      obtain ⟨e, hlive, hle, htx⟩ := getTransaction_live tree rep hfound
      rw [heightBound_nHeight tree hp] at hle
      rw [if_pos (hstale hstack e old hlive (by omega) htx)]
    · exact hv

/-- The verdict of `connectBlock` is that of the branch if its lookups agree with it. -/
theorem connectBlock_validOn {view' : Option CBlockIndex} (tree : TreeOK env s.mapBlockIndex)
    (hp : p ∈ s.mapBlockIndex) (hstep : ∀ u, InStep s u p.pprev)
    (htime : (p.block.nTime : Int) ≤ s.adjustedTime env + 2 * 60 * 60)
    (htop : ∀ u ∈ p.block.reads, TopLive s u p)
    (hsigner : p.block.signer ≠ ascii "nobody" → userStack p.block.signer p.pprev = [] →
      ∀ e, s.isInMainChain e = true → e.nHeight ≤ p.nHeight → e.registers p.block.signer = false)
    (hstale : ∀ tx ∈ p.block.vtx.tail, userStack tx.getUsername p.pprev = [] →
      ∀ e old, s.isInMainChain e = true → e.nHeight ≤ p.nHeight →
        e.block.txFor tx.getUsername = some old → mayOverwrite env old tx = true)
    (h : connectBlock env fuel s p.pprev p.block p false = .ok (v, s', view')) :
    v = .valid ↔ p.isValidOn env = true := by
  have hown : (p.block.nTime : Int) ≤ p.block.nTime + 2 * 60 * 60 := by omega
  rw [CBlockIndex.isValidOn, validOn]
  rcases connectBlock_cases h with ⟨nDoS, errors, hbad, rfl, -⟩ | ⟨-, hcheck, hgen, rfl, -⟩ |
    ⟨-, hcheck, hgen, w, s₁, hchecks, rfl, -⟩
  · have hinvalid : checkBlock env p.block.nTime p.block true true ≠ .valid := by
      intro hvalid
      rw [checkBlock_at hvalid htime] at hbad
      cases hbad
    simp [hinvalid]
  · simp [checkBlock_at hcheck hown, hgen]
  obtain ⟨spam, vtx, shape⟩ := checkBlock_shape hcheck
  have hsig : p.block.signer = CScript.extractPushDataString spam.userName 0 := by
    rw [CBlock.signer, shape.vtx_eq]
  have htail : p.block.vtx.tail = vtx := by rw [shape.vtx_eq]; rfl
  have hreads : ∀ tx ∈ vtx, tx.getUsername ∈ p.block.reads := fun tx htx =>
    List.mem_append_right _ (List.mem_map.mpr ⟨tx, htail ▸ htx, rfl⟩)
  have hspam : ∀ r, checkSpamSigner env fuel s p.block spam = .ok r →
      r = spamValidOn env p.branchBelow spam := by
    intro r hr
    rw [checkSpamSigner, ← hsig] at hr
    rw [spamValidOn, ← hsig]
    by_cases hnobody : p.block.signer = ascii "nobody"
    · simp only [hnobody, if_true, Except.ok.injEq] at hr ⊢
      exact hr.symm
    · simp only [hnobody, if_false] at hr ⊢
      split at hr
      · rename_i hnil
        rw [if_pos hnil]
        exact (Except.ok.inj hr).symm
      · rename_i hsome
        rw [if_neg hsome]
        split at hr
        · cases hr
        · rename_i found hfound
          have hmem : p.block.signer ∈ p.block.reads := by
            rw [CBlock.reads, if_neg hnobody]
            exact List.mem_append_left _ List.mem_cons_self
          rw [← getTransaction_signer tree hp (hstep _) (htop _ hmem) (hsigner hnobody) hfound]
          exact (Except.ok.inj hr).symm
  have hone : ∀ tx ∈ vtx, ∀ w s₂, checkOverwrite env fuel p.block s tx = .ok (w, s₂) →
      (w = .valid ↔ overwriteValidOn env p.branchBelow tx = true) := fun tx htx w s₂ hw =>
    checkOverwrite_validOn tree hp (hstep _) (htop _ (hreads tx htx))
      (hstale tx (htail ▸ htx)) hw
  simp only [connectChecks, shape.vtx_eq] at hchecks
  simp only [checkBlock_at hcheck hown, beq_self_eq_true, Bool.true_and, beq_iff_eq, hgen,
    Bool.or_eq_true, false_or, shape.vtx_eq, Bool.and_eq_true, List.all_eq_true]
  split at hchecks
  · cases hchecks
  · rename_i nDoS errors hinvalid
    simp only [Except.ok.injEq, Prod.mk.injEq] at hchecks
    rw [← hspam _ hinvalid, ← hchecks.1]
    simp
  · rename_i hvalid
    rw [← hspam _ hvalid]
    simp only [true_and]
    cases v with
    | valid =>
      refine iff_of_true rfl fun tx htx => ?_
      obtain ⟨s₂, hs₂⟩ := checkOverwrites_valid shape.nodup hchecks tx htx
      exact (hone tx htx _ _ hs₂).mp rfl
    | invalid nDoS errors =>
      refine iff_of_false (by simp) fun hall => ?_
      obtain ⟨tx, htx, s₂, hs₂⟩ := checkOverwrites_invalid shape.nodup hchecks
      exact absurd ((hone tx htx _ _ hs₂).mpr (hall tx htx)) (by simp)

end Lookups

/-! ## Calls that leave no trace of the old branch -/

/-- A user is registered on the old chain at or below the fork. -/
def KnownAtFork (s : ChainState) (plan : Reorg) (u : Bytes) : Prop :=
  ∃ x ∈ CBlockIndex.ancestorsOf s.coinsTip, x ∉ plan.vDisconnect ∧ x.registers u = true

/-- The block has no transactions but spam messages. -/
def CBlockIndex.noUsers (p : CBlockIndex) : Bool := p.block.vtx.all CTransaction.isSpamMessage

/-- The conditions under which a call checks each block against its own
branch. -/
structure Undisturbed (env : Env) (s : ChainState) (plan : Reorg) : Prop where
  /-- No block is more than two hours ahead of the clock. -/
  time : ∀ p ∈ plan.vConnect, (p.block.nTime : Int) ≤ s.adjustedTime env + 2 * 60 * 60
  /-- No block reads a user that a block connected before it registers. -/
  fresh : plan.vConnect.Pairwise fun q p => ∀ u ∈ p.block.reads, q.registers u = false
  /-- A spam signer registered on the old branch, up to the height of the block,
  is registered at or below the fork. -/
  signer : ∀ p ∈ plan.vConnect, p.block.signer ≠ ascii "nobody" → ∀ d ∈ plan.vDisconnect,
    d.nHeight ≤ p.nHeight → d.registers p.block.signer = true →
      KnownAtFork s plan p.block.signer
  /-- So is a user of a transaction, unless it may overwrite the one on the old
  branch. -/
  overwrite : ∀ p ∈ plan.vConnect, ∀ tx ∈ p.block.vtx.tail, ∀ d ∈ plan.vDisconnect,
    d.nHeight ≤ p.nHeight → ∀ old ∈ d.block.txFor tx.getUsername,
      mayOverwrite env old tx = true ∨ KnownAtFork s plan tx.getUsername
  /-- Where a block is invalid on its own branch, the blocks disconnected and
  those connected before it have no users. -/
  rejected : ¬plan.vConnect.all (CBlockIndex.isValidOn env) →
    ∀ q ∈ plan.vDisconnect ++ plan.vConnect.takeWhile (CBlockIndex.isValidOn env),
      q.noUsers = true
  stuck : (disconnectBlocks plan.marked s.coinsTip plan.vDisconnect).toOption.map Prod.fst =
    some false → ∀ q ∈ plan.vDisconnect, q.noUsers = true

/-- A step in which `setBestChain`, if it is called, meets these conditions. -/
def ChecksBranches (env : Env) (s : ChainState) : ChainLabel → Prop
  | .setBestChain _ _ pindexNew => ∀ plan, planReorg s pindexNew = .ok plan → Undisturbed env s plan
  | _ => True

section Undisturbed

variable {env : Env} {fuel rounds : Nat} {s s' : ChainState} {u : Bytes}
variable {p pindexNew : CBlockIndex} {plan : Reorg} {pfork : Option CBlockIndex}

theorem registers_of_noUsers (h : p.noUsers = true) : p.registers u = false := by
  rw [CBlockIndex.registers, Option.isSome_eq_false_iff, Option.isNone_iff_eq_none,
    CBlock.txFor, List.find?_eq_none]
  intro tx htx
  have hspam := List.all_eq_true.mp h tx htx
  simp [CTransaction.registers, hspam]

/-- Without a transaction of `u` on its branch, the main chain has one in abandoned blocks only. -/
theorem mem_vDisconnect {e : CBlockIndex} (inv : ChainInv env s)
    (ok : PlanOK s pindexNew plan pfork) (hnil : userStack u pfork = [])
    (hlive : s.isInMainChain e = true) (hreg : e.registers u = true) : e ∈ plan.vDisconnect := by
  have hmem := inv.isInMainChain_iff.mp hlive
  rw [ok.disconnect] at hmem
  rcases List.mem_append.mp hmem with hmem | hmem
  · exact hmem
  · have : e ∈ userStack u pfork := mem_userStack.mpr ⟨hmem, hreg⟩
    rw [hnil] at this
    cases this

theorem not_knownAtFork (ok : PlanOK s pindexNew plan pfork) (hnil : userStack u pfork = []) :
    ¬KnownAtFork s plan u := by
  rintro ⟨x, hx, hnot, hreg⟩
  rw [ok.disconnect] at hx
  rcases List.mem_append.mp hx with hx | hx
  · exact hnot hx
  · have : x ∈ userStack u pfork := mem_userStack.mpr ⟨hx, hreg⟩
    rw [hnil] at this
    cases this

/-- Every verdict of an undisturbed call is the one of the branch. -/
theorem Undisturbed.verdict {pre post : List (CBlockIndex × Verdict)} {v : Verdict}
    (hsync : Synced env s) (hnew : pindexNew ∈ s.mapBlockIndex)
    (hok : ∀ plan, planReorg s pindexNew = .ok plan → Undisturbed env s plan)
    (hcall : (blockCalls env fuel s pindexNew).2 = pre ++ (p, v) :: post) :
    v = .valid ↔ p.isValidOn env = true := by
  obtain ⟨plan, pfork, rest, s₁, s₂, view₂, hplan, ok, hsplit, hsame, hin, hone⟩ :=
    blockCalls_site hsync.inv hnew hcall
  have hgood := hok plan hplan
  have hpC : p ∈ plan.vConnect := hsplit ▸ List.mem_append_right _ List.mem_cons_self
  have hp : p ∈ s₁.mapBlockIndex := by
    rw [hsame.map]
    exact (ok.mem hsync.inv hnew).2 p hpC
  have hfresh := hgood.fresh
  rw [hsplit, List.pairwise_append] at hfresh
  have hstack : ∀ u ∈ p.block.reads, userStack u p.pprev = userStack u pfork := by
    intro u hu
    refine userStack_append (ok.pprev hsplit) fun q hq => ?_
    exact hfresh.2.2 q (List.mem_reverse.mp hq) p List.mem_cons_self u hu
  refine connectBlock_validOn (hsame.map ▸ hsync.inv.tree) hp
    (fun u => hin u (hsync.inStep u)) (hsame.adjustedTime env ▸ hgood.time p hpC) ?_ ?_ ?_ hone
  · intro u hu x below hx
    rw [hstack u hu] at hx
    have hmem : x ∈ CBlockIndex.ancestorsOf s.coinsTip := by
      rw [ok.disconnect]
      refine List.mem_append_right _ (mem_userStack (u := u).mp ?_).1
      rw [hx]
      exact List.mem_cons_self
    rw [hsame.isInMainChain, hsame.nBestHeight]
    exact ⟨hsync.inv.isInMainChain_iff.mpr hmem, hsync.inv.best x hmem⟩
  · intro hnobody hnil e hlive hle
    have hread : p.block.signer ∈ p.block.reads := by
      rw [CBlock.reads, if_neg hnobody]
      exact List.mem_append_left _ List.mem_cons_self
    rw [hstack _ hread] at hnil
    rw [hsame.isInMainChain] at hlive
    by_contra hreg
    rw [Bool.not_eq_false] at hreg
    refine not_knownAtFork ok hnil (hgood.signer p hpC hnobody e ?_ hle hreg)
    exact mem_vDisconnect hsync.inv ok hnil hlive hreg
  · intro tx htx hnil e old hlive hle hold
    have hread : tx.getUsername ∈ p.block.reads :=
      List.mem_append_right _ (List.mem_map.mpr ⟨tx, htx, rfl⟩)
    rw [hstack _ hread] at hnil
    rw [hsame.isInMainChain] at hlive
    have hreg : e.registers tx.getUsername = true := by
      rw [CBlockIndex.registers, hold]
      rfl
    have hD := mem_vDisconnect hsync.inv ok hnil hlive hreg
    exact (hgood.overwrite p hpC tx htx e hD hle old hold).resolve_right (not_knownAtFork ok hnil)

theorem Undisturbed.untouched (hsync : Synced env s) (hnew : pindexNew ∈ s.mapBlockIndex)
    (hok : ∀ plan, planReorg s pindexNew = .ok plan → Undisturbed env s plan)
    (hplan : planReorg s pindexNew = .ok plan)
    (h : CallOutcome env fuel s pindexNew plan pfork false s') (u : Bytes) :
    Untouched env fuel u s pindexNew := by
  have hgood := hok plan hplan
  cases h with
  | short hlen hsame =>
    rw [Untouched, blockCalls, hplan]
    simp [hlen]
  | stuck hlen hdis =>
    rw [Untouched, blockCalls_eq hplan hlen hdis]
    exact ⟨fun q hq => registers_of_noUsers (hgood.stuck (by rw [hdis]; rfl) q hq), by simp⟩
  | @rejected s₂ s₃ _ q hlen hdis hcon hsame =>
    obtain ⟨pre, post, s₁, view₁, nDoS, errors, view₂, hsplit, hpre, hbad⟩ :=
      connectBlocks_rejected hcon
    have hcalls : (blockCalls env fuel s pindexNew).2 =
        pre.map (·, .valid) ++ [(q, .invalid nDoS errors)] := by
      rw [blockCalls_eq hplan hlen hdis, if_pos rfl, hsplit, connectCalls_rejected hpre hbad]
    have hq : q.isValidOn env = false := by
      have := Undisturbed.verdict hsync hnew hok hcalls
      simpa using this
    have hvalid : ∀ x ∈ pre, x.isValidOn env = true := by
      intro x hx
      obtain ⟨before, after, hx⟩ := List.append_of_mem hx
      rw [hx, List.map_append, List.map_cons, List.append_assoc, List.cons_append] at hcalls
      exact (Undisturbed.verdict hsync hnew hok hcalls).mp rfl
    have htake : plan.vConnect.takeWhile (CBlockIndex.isValidOn env) = pre := by
      rw [hsplit, List.takeWhile_append_of_pos hvalid, List.takeWhile_cons_of_neg (by simp [hq]),
        List.append_nil]
    have hall : ¬plan.vConnect.all (CBlockIndex.isValidOn env) := by
      rw [hsplit]
      simp [hq]
    have hfree := hgood.rejected hall
    rw [htake] at hfree
    refine ⟨fun x hx => ?_, fun c hc hv => ?_⟩
    · rw [blockCalls_eq hplan hlen hdis] at hx
      exact registers_of_noUsers (hfree x (List.mem_append_left _ hx))
    · rw [hcalls] at hc
      rcases List.mem_append.mp hc with hc | hc
      · obtain ⟨x, hx, rfl⟩ := List.mem_map.mp hc
        exact registers_of_noUsers (hfree x (List.mem_append_right _ hx))
      · rw [List.mem_singleton.mp hc] at hv
        cases hv

/-- The index is in step in every such run. -/
theorem synced_of_checksBranches (h : (chainSystem env).Reach (ChecksBranches env) s) :
    Synced env s := by
  refine h.invariant ?_ fun s a s' hs hok hstep => ?_
  · rintro s rfl
    exact ⟨chainInv_init env, inStep_init⟩
  · refine ⟨chainInv_step hs.inv hstep, fun u => ?_⟩
    refine (inStep_step ⟨hs.inv, hs.inStep u⟩ ?_ hstep).2
    cases a with
    | accept block pos => trivial
    | mark => trivial
    | setBestChain fuel rounds pindexNew =>
      rintro ⟨s', hcall⟩
      obtain ⟨hnew, -⟩ := hstep
      obtain ⟨plan, pfork, hplan, -, hout⟩ := setBestChainWith_cases hs.inv hnew hcall
      exact Undisturbed.untouched hs hnew hok hplan hout u

end Undisturbed

/-! ## Two nodes -/

/-- Equal blocks have equal branches, since they name their parents by hash. -/
theorem TreeOK.ancestors_eq {env : Env} {map map' : List CBlockIndex} {T : List CBlock}
    (tree : TreeOK env map) (tree' : TreeOK env map')
    (hinj : ∀ a ∈ T, ∀ b ∈ T, env.blockHash a = env.blockHash b → a = b)
    (hT : ∀ p ∈ map, p.block ∈ T) (hT' : ∀ p ∈ map', p.block ∈ T) {p q : CBlockIndex}
    (hp : p ∈ map) (hq : q ∈ map') (hblock : p.block = q.block) :
    p.ancestors.map CBlockIndex.block = q.ancestors.map CBlockIndex.block := by
  have hgen : ∀ b : CBlock, b = env.genesisBlock → env.blockHash b = env.hashGenesisBlock := by
    rintro b rfl
    rfl
  induction p generalizing q with
  | root block pos =>
    cases q with
    | root block' pos' => simpa [CBlockIndex.ancestors] using hblock
    | next q' block' pos' =>
      refine absurd (hgen _ ?_) (tree'.not_genesis _ hq q' rfl)
      rw [← hblock]
      exact tree.root _ hp rfl
  | next p' block pos ih =>
    cases q with
    | root block' pos' =>
      refine absurd (hgen _ ?_) (tree.not_genesis _ hp p' rfl)
      rw [hblock]
      exact tree'.root _ hq rfl
    | next q' block' pos' =>
      have hp' := tree.parent _ hp p' rfl
      have hq' := tree'.parent _ hq q' rfl
      have hhash : env.blockHash p'.block = env.blockHash q'.block := by
        rw [← tree.linked _ hp p' rfl, ← tree'.linked _ hq q' rfl, hblock]
      have hparent := hinj _ (hT p' hp') _ (hT' q' hq') hhash
      rw [CBlockIndex.ancestors, CBlockIndex.ancestors, List.map_cons, List.map_cons,
        ih hp' hq' hparent, hblock]

/-- Two nodes that received the same blocks, in any order, agree on every block both try to
connect. -/
theorem connectBlock_agrees {env : Env} {T : List CBlock} {s t : ChainState}
    {fuel rounds fuel' rounds' : Nat} {pindexNew qindexNew p q : CBlockIndex} {v w : Verdict}
    (hinj : ∀ a ∈ T, ∀ b ∈ T, env.blockHash a = env.blockHash b → a = b)
    (hs : (chainSystem env).Reach (ChecksBranches env) s)
    (ht : (chainSystem env).Reach (ChecksBranches env) t)
    (hsT : ∀ p ∈ s.mapBlockIndex, p.block ∈ T) (htT : ∀ q ∈ t.mapBlockIndex, q.block ∈ T)
    (hnew : pindexNew ∈ s.mapBlockIndex) (hnew' : qindexNew ∈ t.mapBlockIndex)
    (hok : ChecksBranches env s (.setBestChain fuel rounds pindexNew))
    (hok' : ChecksBranches env t (.setBestChain fuel' rounds' qindexNew))
    (hp : (p, v) ∈ (blockCalls env fuel s pindexNew).2)
    (hq : (q, w) ∈ (blockCalls env fuel' t qindexNew).2) (hblock : p.block = q.block) :
    v = .valid ↔ w = .valid := by
  have hsync := synced_of_checksBranches hs
  have hsync' := synced_of_checksBranches ht
  obtain ⟨pre, post, hcall⟩ := List.append_of_mem hp
  obtain ⟨pre', post', hcall'⟩ := List.append_of_mem hq
  rw [Undisturbed.verdict hsync hnew hok hcall, Undisturbed.verdict hsync' hnew' hok' hcall']
  have hpmem : p ∈ s.mapBlockIndex := blockCalls_mem hsync.inv hnew hcall
  have hqmem : q ∈ t.mapBlockIndex := blockCalls_mem hsync'.inv hnew' hcall'
  have hanc := hsync.inv.tree.ancestors_eq hsync'.inv.tree hinj hsT htT hpmem hqmem hblock
  rw [CBlockIndex.ancestors_eq, CBlockIndex.ancestors_eq, List.map_cons, List.map_cons,
    List.cons.injEq] at hanc
  rw [CBlockIndex.isValidOn, CBlockIndex.isValidOn, CBlockIndex.branchBelow,
    CBlockIndex.branchBelow, hanc.2, hblock]

instance (env : Env) (s : ChainState) (plan : Reorg) : Decidable (Undisturbed env s plan) :=
  have (u : Bytes) : Decidable (KnownAtFork s plan u) :=
    inferInstanceAs (Decidable (∃ x ∈ _, _ ∧ _))
  decidable_of_iff (_ ∧ _ ∧ _ ∧ _ ∧ _ ∧ _)
    ⟨fun h => ⟨h.1, h.2.1, h.2.2.1, h.2.2.2.1, h.2.2.2.2.1, h.2.2.2.2.2⟩,
      fun h => ⟨h.time, h.fresh, h.signer, h.overwrite, h.rejected, h.stuck⟩⟩

/-- The test of a step. -/
def checksBranches (env : Env) (s : ChainState) : ChainLabel → Bool
  | .setBestChain _ _ pindexNew =>
    match planReorg s pindexNew with
    | .error _ => true
    | .ok plan => decide (Undisturbed env s plan)
  | _ => true

theorem checksBranches_sound {env : Env} {s : ChainState} {a : ChainLabel}
    (h : checksBranches env s a = true) : ChecksBranches env s a := by
  cases a with
  | accept block pos => trivial
  | mark => trivial
  | setBestChain fuel rounds pindexNew =>
    intro plan hplan
    rw [checksBranches, hplan] at h
    exact of_decide_eq_true h

/-- A block without a registration. -/
def emptyBlock : CBlockIndex :=
  smallIndex smallGenesis (smallBlock smallNet.genesisBlock 2 [])

/-- Alice registers above it. -/
def lateBlock : CBlockIndex :=
  smallIndex emptyBlock (smallBlock emptyBlock.block 6 [registration "alice" "alice's key" 10])

/-- A node that has to leave the branch of `aliceBlock` for that of
`lateBlock`. -/
def leavingState : ChainState :=
  stateAfter smallNet (checksBranches smallNet)
    (arrive smallGenesis ++ arrive aliceBlock ++
      [.accept emptyBlock.block emptyBlock.pos, .accept lateBlock.block lateBlock.pos])

/-- A node that is on the branch of `lateBlock` from the start. -/
def stayingState : ChainState :=
  stateAfter smallNet (checksBranches smallNet)
    (arrive smallGenesis ++ arrive emptyBlock ++
      [.accept lateBlock.block lateBlock.pos, .accept aliceBlock.block aliceBlock.pos])

theorem connectBlock_agrees_late :
    (blockCalls smallNet 8 leavingState lateBlock).2 =
        [(emptyBlock, .valid), (lateBlock, .valid)] ∧
      (blockCalls smallNet 8 stayingState lateBlock).2 = [(lateBlock, .valid)] ∧
      ∀ v w, (lateBlock, v) ∈ (blockCalls smallNet 8 leavingState lateBlock).2 →
        (lateBlock, w) ∈ (blockCalls smallNet 8 stayingState lateBlock).2 →
        (v = .valid ↔ w = .valid) := by
  obtain ⟨⟨hrun, hcalls, hnew, hok⟩, ⟨hrun', hcalls', hnew', hok'⟩, hinj, hsT, htT⟩ :
      ((runLabels smallNet (checksBranches smallNet) {}
          (arrive smallGenesis ++ arrive aliceBlock ++
            [.accept emptyBlock.block emptyBlock.pos,
              .accept lateBlock.block lateBlock.pos])).isSome = true ∧
        (blockCalls smallNet 8 leavingState lateBlock).2 =
          [(emptyBlock, .valid), (lateBlock, .valid)] ∧
        lateBlock ∈ leavingState.mapBlockIndex ∧
        checksBranches smallNet leavingState (.setBestChain 8 8 lateBlock) = true) ∧
      ((runLabels smallNet (checksBranches smallNet) {}
          (arrive smallGenesis ++ arrive emptyBlock ++
            [.accept lateBlock.block lateBlock.pos,
              .accept aliceBlock.block aliceBlock.pos])).isSome = true ∧
        (blockCalls smallNet 8 stayingState lateBlock).2 = [(lateBlock, .valid)] ∧
        lateBlock ∈ stayingState.mapBlockIndex ∧
        checksBranches smallNet stayingState (.setBestChain 8 8 lateBlock) = true) ∧
      (∀ a ∈ leavingState.mapBlockIndex.map CBlockIndex.block,
        ∀ b ∈ leavingState.mapBlockIndex.map CBlockIndex.block,
        smallNet.blockHash a = smallNet.blockHash b → a = b) ∧
        (∀ p ∈ leavingState.mapBlockIndex,
          p.block ∈ leavingState.mapBlockIndex.map CBlockIndex.block) ∧
        ∀ q ∈ stayingState.mapBlockIndex,
          q.block ∈ leavingState.mapBlockIndex.map CBlockIndex.block := by
    decide +kernel
  refine ⟨hcalls, hcalls', fun v w hp hq => ?_⟩
  exact connectBlock_agrees hinj (reach_stateAfter (fun _ _ => checksBranches_sound) hrun)
    (reach_stateAfter (fun _ _ => checksBranches_sound) hrun') hsT htT hnew hnew'
    (checksBranches_sound hok) (checksBranches_sound hok') hp hq rfl

/-! ## A disagreement

Two branches register alice with different keys.  A node that saw the shorter
branch first compares the registration of the other branch with the one it is
about to abandon. -/

/-- Another registration of alice. -/
def rivalBlock : CBlockIndex :=
  smallIndex smallGenesis
    (smallBlock smallNet.genesisBlock 7 [registration "alice" "mallory's key" 12])

/-- A block above it. -/
def rivalTip : CBlockIndex := smallIndex rivalBlock (smallBlock rivalBlock.block 8 [])

/-- The blocks as arrivals. -/
def deliveries (ps : List CBlockIndex) : List Arrival :=
  ps.map fun p => { block := p.block, pos := p.pos }

/-- One node rejects the block the other has in its main chain. -/
theorem nodes_disagree :
    ([smallGenesis, aliceBlock, rivalBlock, rivalTip].map fun p =>
        smallNet.blockHash p.block).Nodup ∧
      ∃ s t, deliverAll smallNet 8 8 {}
          (deliveries [smallGenesis, aliceBlock, rivalBlock, rivalTip]) = .ok s ∧
        deliverAll smallNet 8 8 {}
          (deliveries [smallGenesis, rivalBlock, rivalTip, aliceBlock]) = .ok t ∧
        (s.nStatus rivalBlock).failedValid = true ∧ t.isInMainChain rivalBlock = true := by
  obtain ⟨hnodup, hfirst, hsecond⟩ :
      ([smallGenesis, aliceBlock, rivalBlock, rivalTip].map fun p =>
        smallNet.blockHash p.block).Nodup ∧
      (deliverAll smallNet 8 8 {}
        (deliveries [smallGenesis, aliceBlock, rivalBlock, rivalTip])).toOption.map
          (fun s => (s.nStatus rivalBlock).failedValid) = some true ∧
      (deliverAll smallNet 8 8 {}
        (deliveries [smallGenesis, rivalBlock, rivalTip, aliceBlock])).toOption.map
          (fun t => t.isInMainChain rivalBlock) = some true := by
    decide +kernel
  obtain ⟨s, hs, hfailed⟩ := Except.toOption_map_eq_some_iff.mp hfirst
  obtain ⟨t, ht, hmain⟩ := Except.toOption_map_eq_some_iff.mp hsecond
  exact ⟨hnodup, s, t, hs, ht, hfailed, hmain⟩

end CoMoNet
