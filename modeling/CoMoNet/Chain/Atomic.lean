import CoMoNet.Chain.Lookup
import CoMoNet.Chain.Switched

/-!
# Is a rejected reorganisation undone?

When `ConnectBlock` rejects a block the coin view is dropped, but what was written to
the user name index stays. `Kept` says when the newest entry of a user is the old one
again, and lookups are the same exactly then (`rejection_atomic`).
-/

namespace CoMoNet

open GuardedRun (System)
open UndoStack (Log)

/-! ## The log of a user during a call -/

section Phases

variable {env : Env} {fuel : Nat} {s s' : ChainState} {u : Bytes} {l : Log CBlockIndex}
variable {ps : List CBlockIndex} {view view' : Option CBlockIndex}

/-- Disconnecting pops the blocks that have a transaction for the user. -/
theorem IndexRep.of_disconnectBlocks (tree : TreeOK env s.mapBlockIndex)
    (hps : ∀ p ∈ ps, p ∈ s.mapBlockIndex) (rep : IndexRep s u l)
    (h : disconnectBlocks s view ps = .ok (true, s', view')) :
    IndexRep s' u ((ps.filter (CBlockIndex.registers u)).foldl
      (Log.pop CBlockIndex.nHeight) l) := by
  induction ps generalizing s view l with
  | nil =>
    cases h
    exact rep
  | cons p ps ih =>
    rcases disconnectBlocks_cons h with ⟨hb, -⟩ | ⟨s₁, hone, -, hsame, hrest⟩
    · cases hb
    have hp := hps p List.mem_cons_self
    have hrep := ih (hsame.map ▸ tree)
      (fun q hq => hsame.map ▸ hps q (List.mem_cons_of_mem _ hq))
      (rep.of_disconnectBlock tree hp hone) hrest
    rw [List.filter_cons]
    by_cases hreg : p.registers u = true
    · rw [if_pos hreg] at hrep ⊢
      exact hrep
    · rw [if_neg hreg] at hrep ⊢
      exact hrep

theorem CheckedLog.of_not_registers {p : CBlockIndex} {l' : Log CBlockIndex}
    (h : CheckedLog env fuel s u p l l') (hreg : p.registers u = false) : l' = l := by
  rcases h with rfl | ⟨-, tx, htx, -⟩
  · rfl
  · rw [CBlockIndex.registers, htx] at hreg
    cases hreg

/-- Blocks without a transaction leave a log alone; else the newest entry is one of them. -/
theorem IndexRep.of_connectBlocks (tree : TreeOK env s.mapBlockIndex)
    (hps : ∀ p ∈ ps, p ∈ s.mapBlockIndex) (rep : IndexRep s u l)
    (h : connectBlocks env fuel s view ps = .ok (.all s' view')) :
    ∃ l', IndexRep s' u l' ∧
      ((∀ p ∈ ps, p.registers u = false) ∧ l' = l ∨
        ∃ c ∈ ps, c.registers u = true ∧ l'.head = some c) := by
  induction ps generalizing s view l with
  | nil =>
    cases h
    exact ⟨l, rep, .inl ⟨by simp, rfl⟩⟩
  | cons p ps ih =>
    rcases connectBlocks_cons h with ⟨s₁, view₁, hone, hrest⟩ | ⟨_, _, _, _, -, hc⟩
    swap
    · cases hc
    obtain ⟨hsame, l', hl', -, hvalid⟩ := connectBlock_user tree (hps p List.mem_cons_self) rep hone
    obtain ⟨-, -, rep₁⟩ := hvalid rfl
    obtain ⟨l₂, rep₂, hcases⟩ := ih (hsame.map ▸ tree)
      (fun q hq => hsame.map ▸ hps q (List.mem_cons_of_mem _ hq)) rep₁ hrest
    refine ⟨l₂, rep₂, ?_⟩
    rcases hcases with ⟨hnone, rfl⟩ | ⟨c, hc, hreg, hhead⟩
    · cases hreg : p.registers u with
      | true =>
        rw [if_pos rfl]
        exact .inr ⟨p, List.mem_cons_self, hreg, rfl⟩
      | false =>
        rw [hl'.of_not_registers hreg]
        refine .inl ⟨fun q hq => ?_, if_neg Bool.false_ne_true⟩
        rcases List.mem_cons.mp hq with rfl | hq
        · exact hreg
        · exact hnone q hq
    · exact .inr ⟨c, List.mem_cons_of_mem _ hc, hreg, hhead⟩

/-! ## The block that is rejected -/

/-- The transactions whose overwrite check is passed, up to the first that is
refused. -/
def passedOverwrites (env : Env) (fuel : Nat) (block : CBlock) :
    ChainState → List CTransaction → List CTransaction
  | _, [] => []
  | s, tx :: vtx =>
    match checkOverwrite env fuel block s tx with
    | .ok (.valid, s) => tx :: passedOverwrites env fuel block s vtx
    | _ => []

/-- The transactions of a block that pass the overwrite check, none if it does not get there. -/
def passedTxs (env : Env) (fuel : Nat) (s : ChainState) (block : CBlock) : List CTransaction :=
  match checkBlock env (s.adjustedTime env) block true true, block.vtx with
  | .valid, spam :: vtx =>
    match checkSpamSigner env fuel s block spam with
    | .ok .valid => passedOverwrites env fuel block s vtx
    | _ => []
  | _, _ => []

theorem passedOverwrites_subset {block : CBlock} {vtx : List CTransaction} :
    passedOverwrites env fuel block s vtx ⊆ vtx := by
  induction vtx generalizing s with
  | nil => exact List.Subset.refl _
  | cons tx vtx ih =>
    rw [passedOverwrites]
    split
    · exact List.cons_subset_cons tx ih
    · exact List.nil_subset _

theorem passedTxs_subset {block : CBlock} : passedTxs env fuel s block ⊆ block.vtx.tail := by
  rw [passedTxs]
  split
  · rename_i spam vtx _ hvtx
    rw [hvtx]
    split
    · exact passedOverwrites_subset
    · exact List.nil_subset _
  · exact List.nil_subset _

/-- A transaction whose check erases the newest entry of its user. -/
def Erases (env : Env) (fuel : Nat) (s : ChainState) (block : CBlock) (u : Bytes)
    (txs : List CTransaction) : Prop :=
  ∃ tx ∈ txs, tx.getUsername = u ∧ Erasable env fuel block s tx

section Checks

variable {block : CBlock} {tx : CTransaction} {vtx : List CTransaction} {v : Verdict}

theorem Erasable.carry {s₁ : ChainState} (hs : SameUser tx.getUsername s s₁)
    (h : Erasable env fuel block s tx) : Erasable env fuel block s₁ tx := by
  rw [Erasable, hs.getTransaction, hs.getTransaction]
  exact h

/-- Checks without an erasure leave the user. -/
theorem checkOverwrites_keeps (hnodup : (vtx.map CTransaction.getUsername).Nodup)
    (h : checkOverwrites env fuel block s vtx = .ok (v, s'))
    (hnone : ¬Erases env fuel s block u (passedOverwrites env fuel block s vtx)) :
    SameUser u s s' := by
  induction vtx generalizing s with
  | nil =>
    rw [checkOverwrites, Except.ok.injEq, Prod.mk.injEq] at h
    rw [← h.2]
    exact SameUser.refl u s
  | cons t vtx ih =>
    rw [List.map_cons, List.nodup_cons] at hnodup
    rcases checkOverwrites_cons h with ⟨_, _, rfl, hone⟩ | ⟨s₁, hone, hrest⟩
    · rcases checkOverwrite_cases hone with ⟨-, hv, -⟩ | ⟨_, _, -, -, rfl, -⟩ | ⟨-, hv, -⟩
      · cases hv
      · exact SameUser.refl u _
      · cases hv
    rw [passedOverwrites, hone] at hnone
    by_cases hname : t.getUsername = u
    · have hother : ∀ t' ∈ vtx, t'.getUsername ≠ u := fun t' ht' heq =>
        hnodup.1 (List.mem_map.mpr ⟨t', ht', heq.trans hname.symm⟩)
      rcases checkOverwrite_user hone with rfl | ⟨hE, -⟩
      · exact checkOverwrites_other hother hrest
      · exact absurd ⟨t, List.mem_cons_self, hname, hE⟩ hnone
    · have hsame := checkOverwrite_other hname hone
      refine hsame.trans (ih hnodup.2 hrest ?_)
      rintro ⟨tx, htx, rfl, hE⟩
      exact hnone ⟨tx, List.mem_cons_of_mem _ htx, rfl, hE.congr hsame⟩

theorem checkOverwrites_erases (hnodup : (vtx.map CTransaction.getUsername).Nodup)
    (h : checkOverwrites env fuel block s vtx = .ok (v, s'))
    (herase : Erases env fuel s block u (passedOverwrites env fuel block s vtx)) :
    s'.txIndex ⟨u, -1⟩ = none := by
  induction vtx generalizing s with
  | nil =>
    obtain ⟨tx, htx, -⟩ := herase
    cases htx
  | cons t vtx ih =>
    rw [List.map_cons, List.nodup_cons] at hnodup
    obtain ⟨tx, htx, rfl, hE⟩ := herase
    rcases checkOverwrites_cons h with ⟨_, _, rfl, hone⟩ | ⟨s₁, hone, hrest⟩
    · rw [passedOverwrites, hone] at htx
      cases htx
    rw [passedOverwrites, hone] at htx
    rcases List.mem_cons.mp htx with rfl | htx
    · have hother : ∀ t' ∈ vtx, t'.getUsername ≠ tx.getUsername := fun t' ht' heq =>
        hnodup.1 (List.mem_map.mpr ⟨t', ht', heq⟩)
      have hrest_same := checkOverwrites_other hother hrest
      obtain ⟨⟨r, hbest⟩, hblock⟩ := hE
      rcases checkOverwrite_cases hone with ⟨hno, -⟩ | ⟨_, _, hyes, -⟩ | ⟨-, -, rfl⟩
      · rw [hbest] at hno
        cases hno
      · rw [hblock] at hyes
        cases hyes
      · rw [hrest_same.index]
        exact if_pos rfl
    · have hmem := passedOverwrites_subset htx
      have hne : t.getUsername ≠ tx.getUsername := fun heq =>
        hnodup.1 (List.mem_map.mpr ⟨tx, hmem, heq.symm⟩)
      exact ih hnodup.2 hrest ⟨tx, htx, rfl, hE.carry (checkOverwrite_other hne hone)⟩

end Checks

/-- What a rejected block does to a user. -/
theorem connectBlock_rejects_user {q : CBlockIndex} {nDoS : Nat} {errors : List String}
    (h : connectBlock env fuel s view q.block q false = .ok (.invalid nDoS errors, s', view')) :
    (¬Erases env fuel s q.block u (passedTxs env fuel s q.block) → SameUser u s s') ∧
      (Erases env fuel s q.block u (passedTxs env fuel s q.block) →
        s'.txIndex ⟨u, -1⟩ = none) := by
  rcases connectBlock_cases h with ⟨_, _, hcheck, -, rfl, -⟩ | ⟨-, -, -, hv, -⟩ |
    ⟨-, hcheck, -, w, s₁, hchecks, rfl, -, hinvalid⟩
  · rw [passedTxs, hcheck]
    refine ⟨fun _ => SameUser.refl u s', ?_⟩
    rintro ⟨tx, htx, -⟩
    cases htx
  · cases hv
  obtain ⟨rfl, -⟩ := hinvalid nofun
  obtain ⟨spam, vtx, shape⟩ := checkBlock_shape hcheck
  simp only [connectChecks, shape.vtx_eq] at hchecks
  simp only [passedTxs, hcheck, shape.vtx_eq]
  cases hspam : checkSpamSigner env fuel s q.block spam with
  | error e => simp [hspam] at hchecks
  | ok w =>
    cases w with
    | invalid nDoS' errors' =>
      simp only [hspam, Except.ok.injEq, Prod.mk.injEq] at hchecks
      rw [← hchecks.2]
      refine ⟨fun _ => SameUser.refl u s, ?_⟩
      rintro ⟨tx, htx, -⟩
      cases htx
    | valid =>
      simp only [hspam] at hchecks
      exact ⟨checkOverwrites_keeps shape.nodup hchecks,
        checkOverwrites_erases shape.nodup hchecks⟩

end Phases

/-! ## When the newest entry comes back -/

/-- After disconnecting, the newest entry is again the saved one of the lowest block with a
transaction, or that block itself if nothing was saved. -/
def Restored (s : ChainState) (u : Bytes) (ds : List CBlockIndex) : Prop :=
  ∀ low, (ds.filter (CBlockIndex.registers u)).getLast? = some low →
    s.txIndex ⟨u, -1⟩ = some ((s.txIndex ⟨u, low.nHeight - 1⟩).getD (low.txPos u))

/-- A call rejects `q`: `pre` was connected before, and `seen` are the transactions of `q` that
had passed. -/
structure RejectsAt (env : Env) (fuel : Nat) (s : ChainState) (plan : Reorg)
    (pre : List CBlockIndex) (q : CBlockIndex) (seen : List CTransaction) : Prop where
  long : plan.vDisconnect.length ≤ plan.vConnect.length
  split : ∃ post, plan.vConnect = pre ++ q :: post
  run : ∃ s₂ pfork s₃ view s₄ view' nDoS errors,
    disconnectBlocks plan.marked s.coinsTip plan.vDisconnect = .ok (true, s₂, pfork) ∧
      connectBlocks env fuel s₂ pfork pre = .ok (.all s₃ view) ∧
      connectBlock env fuel s₃ view q.block q false = .ok (.invalid nDoS errors, s₄, view') ∧
      seen = passedTxs env fuel s₃ q.block

/-- A rejected call leaves the newest entry of a user. -/
structure Kept (env : Env) (fuel : Nat) (s : ChainState) (plan : Reorg) (pre : List CBlockIndex)
    (q : CBlockIndex) (seen : List CTransaction) (u : Bytes) : Prop where
  /-- No block that is connected before has a transaction for the user. -/
  pre : ∀ c ∈ pre, c.registers u = false
  /-- The blocks that are disconnected leave the newest entry. -/
  restored : Restored s u plan.vDisconnect
  /-- The checks of the rejected block do not erase it: a transaction for the user
  that passes finds the one it follows. -/
  found : ∀ tx ∈ seen, tx.getUsername = u → getTransaction env fuel s u q.block.nHeight ≠ .ok none

section Kept

variable {env : Env} {fuel : Nat} {s s' : ChainState} {u : Bytes} {l l' : Log CBlockIndex}
variable {x : CBlockIndex} {rest : List CBlockIndex}

theorem TreeOK.txPos_inj {y : CBlockIndex} (tree : TreeOK env s.mapBlockIndex)
    (hx : x ∈ s.mapBlockIndex) (hy : y ∈ s.mapBlockIndex) (h : x.txPos u = y.txPos u) : x = y :=
  tree.pos_inj x hx y hy (congrArg CDiskTxPos.toCDiskBlockPos h)

theorem restored_iff {ds : List CBlockIndex} (tree : TreeOK env s.mapBlockIndex)
    (hds : ∀ d ∈ ds, d ∈ s.mapBlockIndex) (rep : IndexRep s u l) :
    Restored s u ds ↔ ∀ low, (ds.filter (CBlockIndex.registers u)).getLast? = some low →
      l.head = some ((l.saved low.nHeight).getD low) := by
  refine forall₂_congr fun low hlow => ?_
  obtain ⟨hmem, hreg⟩ := List.mem_filter.mp (List.mem_of_getLast? hlow)
  have hsaved := rep.saved low.nHeight (tree.nHeight_pos (hds low hmem) hreg)
  have hpos : some ((s.txIndex ⟨u, low.nHeight - 1⟩).getD (low.txPos u)) =
      some (((l.saved low.nHeight).getD low).txPos u) := by
    rw [hsaved]
    cases l.saved low.nHeight <;> rfl
  rw [rep.newest, hpos]
  constructor
  · intro h
    obtain ⟨x, hx, heq⟩ := Option.map_eq_some_iff.mp h
    have hin : ((l.saved low.nHeight).getD low) ∈ s.mapBlockIndex := by
      cases hs : l.saved low.nHeight with
      | none => exact hds low hmem
      | some f => exact (rep.entries f (.inr ⟨_, hs⟩)).1
    rw [hx, tree.txPos_inj (rep.entries x (.inl hx)).1 hin heq]
  · intro h
    rw [h]
    rfl

/-- Restored, the log is as it was; otherwise the head has changed. -/
theorem restored_iff_pops {ds st : List CBlockIndex} (tree : TreeOK env s.mapBlockIndex)
    (hds : ∀ d ∈ ds, d ∈ s.mapBlockIndex) (rep : IndexRep s u l)
    (tracks : l.Tracks CBlockIndex.nHeight (ds.filter (CBlockIndex.registers u) ++ st)) :
    (Restored s u ds →
      (ds.filter (CBlockIndex.registers u)).foldl (Log.pop CBlockIndex.nHeight) l = l) ∧
    (¬Restored s u ds →
      ((ds.filter (CBlockIndex.registers u)).foldl (Log.pop CBlockIndex.nHeight) l).head ≠
        l.head) := by
  obtain ⟨hsaved, hlow⟩ := tracks.foldl_pop
  rw [restored_iff tree hds rep]
  constructor
  · intro h
    cases hlast : (ds.filter (CBlockIndex.registers u)).getLast? with
    | none =>
      rw [List.getLast?_eq_none_iff] at hlast
      rw [hlast]
      rfl
    | some low =>
      have hhead := (hlow low hlast).trans (h low hlast).symm
      generalize (ds.filter (CBlockIndex.registers u)).foldl (Log.pop CBlockIndex.nHeight) l =
        l₂ at hsaved hhead ⊢
      cases l₂
      cases l
      simp only at hsaved hhead
      rw [hsaved, hhead]
  · intro h hhead
    refine h fun low hlast => ?_
    rw [← hhead]
    exact hlow low hlast

/-- Equal logs give equal lookups. -/
theorem getTransaction_of_rep (tree : TreeOK env s.mapBlockIndex) (hsame : SameChain s s')
    (rep : IndexRep s u l) (rep' : IndexRep s' u l) (fuel : Nat) (maxHeight : Int) :
    getTransaction env fuel s' u maxHeight = getTransaction env fuel s u maxHeight := by
  rw [getTransaction_eq_walk tree rep, getTransaction_eq_walk (hsame.map ▸ tree) rep',
    hsame.lookup, hsame.nBestHeight]

theorem Synced.getTransaction_newest
    (synced : Synced env s) (hstack : userStack u s.coinsTip = x :: rest) :
    ∃ tx, ∀ fuel, getTransaction env (fuel + 1) s u (-1) =
      .ok (some (tx, env.blockHash x.block)) := by
  obtain ⟨l, rep, tracks⟩ := synced.inStep u
  rw [hstack] at tracks
  obtain ⟨hx, hreg⟩ := mem_userStack.mp (hstack ▸ List.mem_cons_self : x ∈ userStack u s.coinsTip)
  obtain ⟨tx, htx⟩ := Option.isSome_iff_exists.mp hreg
  refine ⟨tx, fun fuel => ?_⟩
  rw [(getTransaction_top synced.inv.tree rep tracks).2 (synced.inv.isInMainChain_iff.mpr hx) ?_,
    htx]
  · rfl
  · rw [if_pos (by decide)]
    exact synced.inv.best x hx

/-- Another head gives another lookup. -/
theorem getTransaction_of_head_ne
    (synced : Synced env s) (hsame : SameChain s s') (hstack : userStack u s.coinsTip = x :: rest)
    (rep' : IndexRep s' u l') (hne : l'.head ≠ some x) :
    getTransaction env 1 s' u (-1) ≠ getTransaction env 1 s u (-1) := by
  have tree := synced.inv.tree
  have hx : x ∈ s.mapBlockIndex :=
    synced.inv.ancestorsOf_mem x (mem_userStack.mp (hstack ▸ List.mem_cons_self)).1
  obtain ⟨tx, hbefore⟩ := synced.getTransaction_newest hstack
  rw [hbefore 0, getTransaction_eq_walk (hsame.map ▸ tree) rep',
    if_pos (show (-1 : Int) < 0 by decide)]
  intro heq
  cases hhead : l'.head with
  | none =>
    rw [hhead] at heq
    cases heq
  | some y =>
    rw [hhead, lookup, Log.walk] at heq
    split at heq
    · cases heq
    split at heq
    · split at heq <;> cases heq
    · have hy : y ∈ s.mapBlockIndex := hsame.map ▸ (rep'.entries y (.inl hhead)).1
      rw [lookupResult, Except.ok.injEq, Option.map_eq_some_iff] at heq
      obtain ⟨tx', -, heq⟩ := heq
      have hyx : y = x := tree.hash_inj y hy x hx (Prod.mk.inj heq).2
      exact hne (hhead.trans (congrArg some hyx))

/-- A user without a transaction is not found. -/
theorem getTransaction_unknown (inv : ChainInv env s) (rep : IndexRep s u l)
    (hnil : userStack u s.coinsTip = []) (fuel : Nat) (maxHeight : Int) :
    getTransaction env (fuel + 1) s u maxHeight = .ok none := by
  rw [getTransaction_eq_walk inv.tree rep, lookup]
  cases hhead : l.head with
  | none => rfl
  | some y =>
    have hdead : s.isInMainChain y = false := by
      rw [← Bool.not_eq_true, inv.isInMainChain_iff]
      intro hy
      have hmem : y ∈ userStack u s.coinsTip :=
        mem_userStack.mpr ⟨hy, (rep.entries y (.inl hhead)).2⟩
      rw [hnil] at hmem
      cases hmem
    rw [Log.walk_succ_dead hdead]
    rfl

/-- The phases of a rejected call, as one user sees them. -/
theorem rejection_log {pindexNew : CBlockIndex} {plan : Reorg} {pfork : Option CBlockIndex}
    {s₂ s₃ s₄ : ChainState} {view view' : Option CBlockIndex} {pre post : List CBlockIndex}
    {q : CBlockIndex} {nDoS : Nat} {errors : List String} (synced : Synced env s)
    (hnew : pindexNew ∈ s.mapBlockIndex) (ok : PlanOK s pindexNew plan pfork)
    (hsplit : plan.vConnect = pre ++ q :: post)
    (hdis : disconnectBlocks plan.marked s.coinsTip plan.vDisconnect = .ok (true, s₂, pfork))
    (hpre : connectBlocks env fuel s₂ pfork pre = .ok (.all s₃ view))
    (hbad : connectBlock env fuel s₃ view q.block q false = .ok (.invalid nDoS errors, s₄, view'))
    (rep : IndexRep s u l) (tracks : l.Tracks CBlockIndex.nHeight (userStack u s.coinsTip))
    (hstack : userStack u s.coinsTip ≠ []) :
    (Kept env fuel s plan pre q (passedTxs env fuel s₃ q.block) u → IndexRep s₄ u l) ∧
      (¬Kept env fuel s plan pre q (passedTxs env fuel s₃ q.block) u →
        ∃ l', IndexRep s₄ u l' ∧ l'.head ≠ l.head) := by
  have inv := synced.inv
  obtain ⟨hD, hC⟩ := ok.mem inv hnew
  have hsame₂ := ok.marked.toSameChain.trans (disconnectBlocks_sameChain hdis)
  have hsame₃ := hsame₂.trans (connectBlocks_view hpre).1
  have hCpre : ∀ c ∈ pre, c ∈ plan.vConnect := fun c hc => hsplit ▸ List.mem_append_left _ hc
  obtain ⟨x, rest, hx⟩ := List.exists_cons_of_ne_nil hstack
  have hhead : l.head = some x := tracks.top x (by rw [hx]; rfl)
  have hxmem : x ∈ CBlockIndex.ancestorsOf s.coinsTip :=
    (mem_userStack.mp (hx ▸ List.mem_cons_self)).1
  have hsplit_stack : userStack u s.coinsTip =
      plan.vDisconnect.filter (CBlockIndex.registers u) ++ userStack u pfork := by
    rw [userStack, ok.disconnect, List.filter_append]
    rfl
  rw [hsplit_stack] at tracks
  obtain ⟨hrestored, hmoved⟩ := restored_iff_pops inv.tree hD rep tracks
  have rep₂ := ((ok.marked.user u).rep rep).of_disconnectBlocks (ok.marked.map ▸ inv.tree)
    (fun p hp => ok.marked.map ▸ hD p hp) hdis
  generalize (plan.vDisconnect.filter (CBlockIndex.registers u)).foldl
    (Log.pop CBlockIndex.nHeight) l = l₂ at hrestored hmoved rep₂
  obtain ⟨l₃, rep₃, hl₃⟩ := rep₂.of_connectBlocks (hsame₂.map ▸ inv.tree)
    (fun c hc => hsame₂.map ▸ hC c (hCpre c hc)) hpre
  obtain ⟨hkeeps, herases⟩ := connectBlock_rejects_user (u := u) hbad
  have hlookup : l₃ = l → ∀ fuel maxHeight,
      getTransaction env fuel s₃ u maxHeight = getTransaction env fuel s u maxHeight := by
    rintro rfl
    exact getTransaction_of_rep inv.tree hsame₃ rep rep₃
  constructor
  · intro kept
    have hl : l₃ = l := by
      rcases hl₃ with ⟨-, rfl⟩ | ⟨c, hc, hreg, -⟩
      · exact hrestored kept.restored
      · rw [kept.pre c hc] at hreg
        cases hreg
    have hsame : SameUser u s₃ s₄ := by
      refine hkeeps ?_
      rintro ⟨tx, htx, rfl, -, hblock⟩
      rw [hlookup hl] at hblock
      exact kept.found tx htx rfl hblock
    exact hsame.rep (hl ▸ rep₃)
  · intro hnot
    have hq : q ∈ s₃.mapBlockIndex := by
      rw [hsame₃.map]
      exact hC q (hsplit ▸ List.mem_append_right _ List.mem_cons_self)
    obtain ⟨-, l₄, hl₄, hrep₄, -⟩ := connectBlock_user (hsame₃.map ▸ inv.tree) hq rep₃ hbad
    have rep₄ := hrep₄ (by simp)
    refine ⟨l₄, rep₄, fun hsame₄ => hnot ?_⟩
    have hl₄' : l₄ = l₃ := by
      rcases hl₄ with hl₄ | ⟨rfl, -⟩
      · exact hl₄
      · rw [hhead] at hsame₄
        cases hsame₄
    subst hl₄'
    rcases hl₃ with ⟨hnone, rfl⟩ | ⟨c, hc, -, hhead₃⟩
    · have hres : Restored s u plan.vDisconnect := by
        by_contra hres
        exact hmoved hres hsame₄
      refine ⟨hnone, hres, ?_⟩
      rintro tx htx rfl hblock
      have hl := hrestored hres
      have hfound : ∃ r, getTransaction env fuel s tx.getUsername (-1) = .ok (some r) := by
        cases fuel with
        | zero => cases hblock
        | succ fuel =>
          obtain ⟨tx', hbest⟩ := synced.getTransaction_newest hx
          exact ⟨_, hbest fuel⟩
      rw [← hlookup hl] at hblock hfound
      have hgone := rep₄.newest.symm.trans (herases ⟨tx, htx, rfl, hfound, hblock⟩)
      rw [hsame₄, hhead] at hgone
      cases hgone
    · rw [hhead₃, hhead, Option.some.injEq] at hsame₄
      exact absurd (hsame₄ ▸ hxmem) (ok.fresh c (hCpre c hc))

end Kept

/-! ## A rejected call -/

section Call

variable {env : Env} {fuel rounds : Nat} {s s' : ChainState} {p q : CBlockIndex} {plan : Reorg}
variable {pre : List CBlockIndex} {seen : List CTransaction} {b : Bool}

theorem connectBlocks_append_rejected {view view₁ view₂ : Option CBlockIndex} {s₁ : ChainState}
    {post : List CBlockIndex} {nDoS : Nat} {errors : List String}
    (hpre : connectBlocks env fuel s view pre = .ok (.all s₁ view₁))
    (hbad : connectBlock env fuel s₁ view₁ q.block q false =
      .ok (.invalid nDoS errors, s', view₂)) :
    connectBlocks env fuel s view (pre ++ q :: post) = .ok (.rejected s' q) := by
  induction pre generalizing s view with
  | nil =>
    cases hpre
    rw [List.nil_append, connectBlocks, hbad]
  | cons c pre ih =>
    rcases connectBlocks_cons hpre with ⟨s₂, view₂, hone, hrest⟩ | ⟨_, _, _, _, -, hc⟩
    · rw [List.cons_append, connectBlocks, hone]
      exact ih hrest
    · cases hc

theorem RejectsAt.outcome (inv : ChainInv env s) (hp : p ∈ s.mapBlockIndex)
    (hplan : planReorg s p = .ok plan) (hrej : RejectsAt env fuel s plan pre q seen)
    (hcall : setBestChain env fuel rounds s p = .ok (b, s')) :
    b = false ∧ ∃ s₂ pfork s₃ view s₄ view' nDoS errors, PlanOK s p plan pfork ∧
      disconnectBlocks plan.marked s.coinsTip plan.vDisconnect = .ok (true, s₂, pfork) ∧
      connectBlocks env fuel s₂ pfork pre = .ok (.all s₃ view) ∧
      connectBlock env fuel s₃ view q.block q false = .ok (.invalid nDoS errors, s₄, view') ∧
      seen = passedTxs env fuel s₃ q.block ∧ SameIndex s₄ s' := by
  obtain ⟨plan', pfork', hplan', ok, hout⟩ := setBestChainWith_cases inv hp hcall
  obtain rfl : plan = plan' := Except.ok.inj (hplan.symm.trans hplan')
  obtain ⟨s₂, pfork, s₃, view, s₄, view', nDoS, errors, hdis, hpre, hbad, hseen⟩ := hrej.run
  obtain ⟨post, hsplit⟩ := hrej.split
  have hcon : connectBlocks env fuel s₂ pfork plan.vConnect = .ok (.rejected s₄ q) := by
    rw [hsplit]
    exact connectBlocks_append_rejected hpre hbad
  cases hout with
  | short hlen => exact absurd hrej.long (Nat.not_le_of_lt hlen)
  | stuck hlen hdis' =>
    rw [hdis] at hdis'
    cases hdis'
  | rejected hlen hdis' hcon' hsame =>
    rw [hdis] at hdis'
    cases hdis'
    rw [hcon] at hcon'
    cases hcon'
    exact ⟨rfl, s₂, _, s₃, view, s₄, view', nDoS, errors, ok, hdis, hpre, hbad, hseen, hsame⟩
  | switched hlen hdis' hcon' hsw =>
    rw [hdis] at hdis'
    cases hdis'
    rw [hcon] at hcon'
    cases hcon'

/-- A call that returns false has done nothing or has rejected a block. -/
theorem rejects_of_false (inv : ChainInv env s) (undo : UndoOK s s.coinsTip)
    (hp : p ∈ s.mapBlockIndex) (hcall : setBestChain env fuel rounds s p = .ok (false, s')) :
    ∃ plan, planReorg s p = .ok plan ∧
      (plan.vConnect.length < plan.vDisconnect.length ∧ SameIndex s s' ∨
        ∃ pre q seen, RejectsAt env fuel s plan pre q seen) := by
  obtain ⟨plan, pfork, hplan, ok, hout⟩ := setBestChainWith_cases inv hp hcall
  refine ⟨plan, hplan, ?_⟩
  cases hout with
  | short hlen hsame => exact .inl ⟨hlen, hsame⟩
  | stuck hlen hdis =>
    obtain ⟨s₂, hdis', -⟩ := undo.carryOut inv hp hplan ok
    rw [hdis] at hdis'
    cases hdis'
  | @rejected s₂ s₃ _ q hlen hdis hcon hsame =>
    obtain ⟨pre, post, s₁, view₁, nDoS, errors, view₂, hsplit, hpre, hbad⟩ :=
      connectBlocks_rejected hcon
    exact .inr ⟨pre, q, _, hlen, ⟨post, hsplit⟩,
      s₂, _, s₁, view₁, s₃, view₂, nDoS, errors, hdis, hpre, hbad, rfl⟩

/-- A rejected call leaves the chain, and each user its log or another head. -/
theorem RejectsAt.user (synced : Synced env s) (hp : p ∈ s.mapBlockIndex)
    (hplan : planReorg s p = .ok plan) (hrej : RejectsAt env fuel s plan pre q seen)
    (hcall : setBestChain env fuel rounds s p = .ok (b, s')) :
    SameChain s s' ∧ ∀ u, ∃ l l', IndexRep s u l ∧
      l.Tracks CBlockIndex.nHeight (userStack u s.coinsTip) ∧ IndexRep s' u l' ∧
      (userStack u s.coinsTip ≠ [] →
        (Kept env fuel s plan pre q seen u → l' = l) ∧
        (¬Kept env fuel s plan pre q seen u → l'.head ≠ l.head)) := by
  have inv := synced.inv
  obtain ⟨-, s₂, pfork, s₃, view, s₄, view', nDoS, errors, ok, hdis, hpre, hbad, rfl, hsame⟩ :=
    hrej.outcome inv hp hplan hcall
  obtain ⟨post, hsplit⟩ := hrej.split
  obtain ⟨hD, hC⟩ := ok.mem inv hp
  have hsame₂ := ok.marked.toSameChain.trans (disconnectBlocks_sameChain hdis)
  obtain ⟨hsame₁, hview⟩ := connectBlocks_view hpre
  have hsame₃ := hsame₂.trans hsame₁
  refine ⟨(hsame₃.trans (connectBlock_sameChain hbad)).trans hsame.toSameChain, fun u => ?_⟩
  obtain ⟨l, rep, tracks⟩ := synced.inStep u
  by_cases hstack : userStack u s.coinsTip = []
  · have h₂ : InStep s₂ u pfork :=
      disconnectBlocks_tracks (ok.marked.map ▸ inv.tree) (fun d hd => ok.marked.map ▸ hD d hd)
        ((synced.inStep u).congr (ok.marked.user u)) hdis
    have h₃ : InStep s₃ u view :=
      connectBlocks_tracks (hsame₂.map ▸ inv.tree)
        (fun c hc => hsame₂.map ▸ hC c (hsplit ▸ List.mem_append_left _ hc)) h₂ hpre
    obtain ⟨l₃, rep₃, -⟩ := h₃
    have hq : q ∈ s₃.mapBlockIndex := by
      rw [hsame₃.map]
      exact hC q (hsplit ▸ List.mem_append_right _ List.mem_cons_self)
    obtain ⟨-, l₄, -, hrep₄, -⟩ := connectBlock_user (hsame₃.map ▸ inv.tree) hq rep₃ hbad
    exact ⟨l, l₄, rep, tracks, (hsame.user u).rep (hrep₄ nofun), fun hne => absurd hstack hne⟩
  · obtain ⟨hkept, hlost⟩ := rejection_log synced hp ok hsplit hdis hpre hbad rep tracks hstack
    by_cases kept : Kept env fuel s plan pre q (passedTxs env fuel s₃ q.block) u
    · exact ⟨l, l, rep, tracks, (hsame.user u).rep (hkept kept), fun _ =>
        ⟨fun _ => rfl, fun hnot => absurd kept hnot⟩⟩
    · obtain ⟨l', rep', hhead⟩ := hlost kept
      exact ⟨l, l', rep, tracks, (hsame.user u).rep rep', fun _ =>
        ⟨fun hyes => absurd hyes kept, fun _ => hhead⟩⟩

/-- Lookups are the same after a rejection iff the user has no transaction or keeps the newest
entry. -/
theorem RejectsAt.lookups_iff (synced : Synced env s) (hp : p ∈ s.mapBlockIndex)
    (hplan : planReorg s p = .ok plan) (hrej : RejectsAt env fuel s plan pre q seen)
    (hcall : setBestChain env fuel rounds s p = .ok (b, s')) (u : Bytes) :
    (∀ fuel maxHeight, getTransaction env fuel s' u maxHeight =
        getTransaction env fuel s u maxHeight) ↔
      (userStack u s.coinsTip ≠ [] → Kept env fuel s plan pre q seen u) := by
  have inv := synced.inv
  obtain ⟨hsame, huser⟩ := hrej.user synced hp hplan hcall
  obtain ⟨l, l', rep, tracks, rep', hlogs⟩ := huser u
  cases hstack : userStack u s.coinsTip with
  | nil =>
    refine iff_of_true (fun fuel maxHeight => ?_) (fun hne => absurd rfl hne)
    cases fuel with
    | zero => rfl
    | succ fuel =>
      rw [getTransaction_unknown inv rep hstack,
        getTransaction_unknown (inv.congr hsame) rep' (by rw [hsame.tip, hstack])]
  | cons x rest =>
    obtain ⟨hkept, hlost⟩ := hlogs (by rw [hstack]; exact List.cons_ne_nil x rest)
    constructor
    · intro hall _
      by_contra hnot
      have hhead : l.head = some x := tracks.top x (by rw [hstack]; rfl)
      exact getTransaction_of_head_ne synced hsame hstack rep' (hhead ▸ hlost hnot) (hall 1 (-1))
    · intro kept
      obtain rfl := hkept (kept (List.cons_ne_nil x rest))
      exact getTransaction_of_rep inv.tree hsame rep rep'

end Call

/-! ## Runs -/

/-- The rejected calls of a run leave every user the newest entry. -/
def Atomic (env : Env) (s : ChainState) : CallLabel → Prop
  | .setBestChain fuel _ p => ∀ plan pre q seen, planReorg s p = .ok plan →
      RejectsAt env fuel s plan pre q seen → ∀ u, userStack u s.coinsTip ≠ [] →
        Kept env fuel s plan pre q seen u
  | _ => True

section Runs

variable {env : Env} {fuel rounds : Nat} {s s' : ChainState} {p q : CBlockIndex} {plan : Reorg}
variable {pre : List CBlockIndex} {seen : List CTransaction}

/-- The index is in step in every such run. -/
theorem synced_of_atomic (h : (callSystem env).Reach (Atomic env) s) :
    Synced env s ∧ UndoOK s s.coinsTip := by
  refine h.invariant (I := fun s => Synced env s ∧ UndoOK s s.coinsTip) ?_ ?_
  · rintro s rfl
    exact ⟨⟨chainInv_init env, inStep_init⟩, ⟨nofun, nofun⟩⟩
  · rintro s a s' ⟨synced, undo⟩ hok hstep
    cases a with
    | accept block pos =>
      have hnext := synced_step synced (a := .accept block pos) trivial hstep
      obtain ⟨hacc, rfl⟩ := hstep
      exact ⟨hnext, undo.accept synced.inv hacc⟩
    | giveUp q =>
      obtain ⟨-, descendants, -, hfound⟩ := hstep
      have hsame := (sameIndex_markFailed descendants s).trans (sameIndex_invalidChainFound hfound)
      exact ⟨synced.mark hsame, undo.giveUp hfound⟩
    | softCP cp =>
      obtain rfl := hstep
      have hsame : SameIndex s { s with lastSoftCP := cp } :=
        ⟨⟨rfl, rfl, rfl, rfl, List.Subset.refl _, rfl⟩, rfl⟩
      exact ⟨synced.mark hsame, undo.congr rfl fun _ => rfl⟩
    | clock now =>
      obtain rfl := hstep
      exact ⟨synced.setClock now, undo.congr rfl fun _ => rfl⟩
    | setBestChain fuel rounds p =>
      obtain ⟨hp, b, hcall⟩ := hstep
      refine ⟨?_, undo.setBestChain synced.inv hp hcall⟩
      cases b with
      | true =>
        refine synced_step synced (a := .setBestChain fuel rounds p) ?_ ⟨hp, true, hcall⟩
        intro b s₁ hcall'
        rw [hcall] at hcall'
        cases hcall'
        rfl
      | false =>
        obtain ⟨plan, hplan, ⟨-, hsame⟩ | ⟨pre, q, seen, hrej⟩⟩ :=
          rejects_of_false synced.inv undo hp hcall
        · exact synced.mark hsame
        obtain ⟨hsame, huser⟩ := hrej.user synced hp hplan hcall
        refine ⟨synced.inv.congr hsame, fun u => ?_⟩
        obtain ⟨l, l', -, tracks, rep', hlogs⟩ := huser u
        rw [hsame.tip]
        by_cases hstack : userStack u s.coinsTip = []
        · exact ⟨l', rep', hstack ▸ Log.Tracks.nil⟩
        · obtain rfl := (hlogs hstack).1 (hok plan pre q seen hplan hrej u hstack)
          exact ⟨l', rep', tracks⟩

/-- A rejected call leaves best block and vector, and lookups of a user are the same exactly if it
has no transaction in the main chain or keeps the newest entry. -/
theorem rejection_atomic (h : (callSystem env).Reach (Atomic env) s) (hp : p ∈ s.mapBlockIndex)
    (hcall : setBestChain env fuel rounds s p = .ok (false, s'))
    (hplan : planReorg s p = .ok plan) (hrej : RejectsAt env fuel s plan pre q seen) :
    s'.pindexBest = s.pindexBest ∧ s'.vBlockIndexByHeight = s.vBlockIndexByHeight ∧
      ∀ u, (∀ fuel maxHeight, getTransaction env fuel s' u maxHeight =
          getTransaction env fuel s u maxHeight) ↔
        (userStack u s.coinsTip ≠ [] → Kept env fuel s plan pre q seen u) := by
  have synced := (synced_of_atomic h).1
  have hsame := (hrej.user synced hp hplan hcall).1
  exact ⟨hsame.best, hsame.chain, hrej.lookups_iff synced hp hplan hcall⟩

end Runs

/-! ## Two rejected branches -/

/-- Executes a step. -/
def nextCall (env : Env) (s : ChainState) : CallLabel → Option ChainState
  | .accept block pos => runLabel env s (.accept block pos)
  | .setBestChain fuel rounds p => runLabel env s (.setBestChain fuel rounds p)
  | _ => none

theorem nextCall_step {env : Env} {s s' : ChainState} {a : CallLabel}
    (h : nextCall env s a = some s') : CallStep env s a s' := by
  cases a with
  | accept block pos => exact runLabel_step (a := .accept block pos) h
  | setBestChain fuel rounds p => exact runLabel_step (a := .setBestChain fuel rounds p) h
  | giveUp q => cases h
  | softCP cp => cases h
  | clock now => cases h

/-- The call returns true. -/
def callSucceeds (env : Env) (s : ChainState) : CallLabel → Bool
  | .setBestChain fuel rounds p =>
    match setBestChain env fuel rounds s p with
    | .ok (b, _) => b
    | .error _ => false
  | _ => true

theorem RejectsAt.not_true {env : Env} {fuel rounds : Nat} {s s' : ChainState} {p q : CBlockIndex}
    {plan : Reorg} {pre : List CBlockIndex} {seen : List CTransaction}
    (hplan : planReorg s p = .ok plan) (hrej : RejectsAt env fuel s plan pre q seen) :
    setBestChain env fuel rounds s p ≠ .ok (true, s') := by
  obtain ⟨s₂, pfork, s₃, view, s₄, view', nDoS, errors, hdis, hpre, hbad, -⟩ := hrej.run
  obtain ⟨post, hsplit⟩ := hrej.split
  have hcon : connectBlocks env fuel s₂ pfork plan.vConnect = .ok (.rejected s₄ q) := by
    rw [hsplit]
    exact connectBlocks_append_rejected hpre hbad
  rw [setBestChain, setBestChainWith, hplan]
  simp only [Nat.not_lt_of_le hrej.long, if_false, hdis, hcon]
  split
  · simp
  · rename_i s₅ hfound
    cases invalidBlockFound (connectBestBlock env fuel rounds) s₅ q <;> simp [Except.map]

theorem callSucceeds_sound {env : Env} {s : ChainState} {a : CallLabel}
    (h : callSucceeds env s a = true) : Atomic env s a := by
  cases a with
  | setBestChain fuel rounds p =>
    intro plan pre q seen hplan hrej
    rw [callSucceeds] at h
    split at h
    · rename_i b s' hcall
      subst h
      exact absurd hcall (hrej.not_true hplan)
    · cases h
  | _ => trivial

/-- The entry of a block whose spam message names a user and is not signed. -/
def unsignedOn (prev : CBlockIndex) : CBlockIndex :=
  let spam : CTransaction :=
    { message := CScript.push (ascii "spam"), userName := CScript.push (ascii "stranger"),
      nNonce := 7 }
  smallIndex prev
    { smallBlock prev.block 7 [] with
        hashMerkleRoot := buildMerkleTree smallNet [spam]
        vtx := [spam] }

/-- A block beside that of alice. -/
def besideAlice (tx : CTransaction) : CBlockIndex :=
  smallIndex smallGenesis (smallBlock smallNet.genesisBlock 2 [tx])

/-- The run up to the call with an unsigned block above that one. -/
def besideRun (tx : CTransaction) : List CallLabel :=
  [.accept smallGenesis.block smallGenesis.pos, .setBestChain 8 8 smallGenesis,
    .accept aliceBlock.block aliceBlock.pos, .setBestChain 8 8 aliceBlock,
    .accept (besideAlice tx).block (besideAlice tx).pos,
    .accept (unsignedOn (besideAlice tx)).block (unsignedOn (besideAlice tx)).pos]

/-- The chain of alice. -/
def besideState (tx : CTransaction) : ChainState :=
  (System.run (nextCall smallNet) (callSucceeds smallNet) {} (besideRun tx)).getD {}

/-- The branch is rejected. -/
structure BesideRejected (tx : CTransaction) : Prop where
  run : (System.run (nextCall smallNet) (callSucceeds smallNet) {} (besideRun tx)).isSome = true
  arrived : unsignedOn (besideAlice tx) ∈ (besideState tx).mapBlockIndex
  plan : (planReorg (besideState tx) (unsignedOn (besideAlice tx))).toOption.map
    (fun plan => (plan.vDisconnect, plan.vConnect)) =
      some ([aliceBlock], [besideAlice tx, unsignedOn (besideAlice tx)])
  call : (setBestChain smallNet 8 8 (besideState tx) (unsignedOn (besideAlice tx))).toOption.map
    Prod.fst = some false

theorem BesideRejected.rejects {tx : CTransaction} (h : BesideRejected tx) :
    ∃ s' plan pre q seen, (callSystem smallNet).Reach (Atomic smallNet) (besideState tx) ∧
      setBestChain smallNet 8 8 (besideState tx) (unsignedOn (besideAlice tx)) = .ok (false, s') ∧
      planReorg (besideState tx) (unsignedOn (besideAlice tx)) = .ok plan ∧
      plan.vDisconnect = [aliceBlock] ∧
      plan.vConnect = [besideAlice tx, unsignedOn (besideAlice tx)] ∧
      RejectsAt smallNet 8 (besideState tx) plan pre q seen := by
  have hreach : (callSystem smallNet).Reach (Atomic smallNet) (besideState tx) := by
    obtain ⟨s, hs⟩ := Option.isSome_iff_exists.mp h.run
    rw [besideState, hs, Option.getD_some]
    exact .of_run (fun _ _ _ => nextCall_step) (fun _ _ => callSucceeds_sound) (.init rfl) hs
  obtain ⟨synced, undo⟩ := synced_of_atomic hreach
  obtain ⟨s', hcall⟩ : ∃ s', setBestChain smallNet 8 8 (besideState tx)
      (unsignedOn (besideAlice tx)) = .ok (false, s') := by
    obtain ⟨⟨b, s'⟩, hcall, hfalse⟩ := Except.toOption_map_eq_some_iff.mp h.call
    cases hfalse
    exact ⟨s', hcall⟩
  obtain ⟨plan, hplan, hcases⟩ := rejects_of_false synced.inv undo h.arrived hcall
  have hlists := h.plan
  rw [hplan] at hlists
  simp only [Except.toOption, Option.map_some, Option.some.injEq, Prod.mk.injEq] at hlists
  rcases hcases with ⟨hshort, -⟩ | ⟨pre, q, seen, hrej⟩
  · rw [hlists.1, hlists.2] at hshort
    simp at hshort
  · exact ⟨s', plan, pre, q, seen, hreach, hcall, hplan, hlists.1, hlists.2, hrej⟩

theorem eq_alice_of_userStack {u : Bytes} (h : userStack u (some aliceBlock) ≠ []) :
    u = ascii "alice" := by
  obtain ⟨x, hx⟩ := List.exists_mem_of_ne_nil _ h
  obtain ⟨hmem, hreg⟩ := mem_userStack.mp hx
  rcases List.mem_cons.mp hmem with rfl | hmem
  · obtain ⟨tx, htx⟩ := Option.isSome_iff_exists.mp hreg
    obtain ⟨hspam, hname⟩ := CTransaction.registers_iff.mp (List.find?_some htx)
    have htx' := List.mem_of_find?_eq_some htx
    rcases List.mem_cons.mp htx' with rfl | htx'
    · exact absurd hspam (by decide)
    · rw [List.mem_singleton.mp htx'] at hname
      rw [← hname]
      decide
  · rw [List.mem_singleton.mp hmem] at hreg
    have hgenesis : (smallNet.genesisBlock.txFor u).isSome = true := hreg
    rw [txFor_genesisBlock] at hgenesis
    cases hgenesis

/-- Bob registers. -/
def bobTx : CTransaction := registration "bob" "bob's key" 20

theorem bob_rejected :
    BesideRejected bobTx ∧ (besideState bobTx).coinsTip = some aliceBlock ∧
      Restored (besideState bobTx) (ascii "alice") [aliceBlock] := by
  have hfacts : (System.run (nextCall smallNet) (callSucceeds smallNet) {}
        (besideRun bobTx)).isSome = true ∧
      unsignedOn (besideAlice bobTx) ∈ (besideState bobTx).mapBlockIndex ∧
      (planReorg (besideState bobTx) (unsignedOn (besideAlice bobTx))).toOption.map
        (fun plan => (plan.vDisconnect, plan.vConnect)) =
          some ([aliceBlock], [besideAlice bobTx, unsignedOn (besideAlice bobTx)]) ∧
      (setBestChain smallNet 8 8 (besideState bobTx)
        (unsignedOn (besideAlice bobTx))).toOption.map Prod.fst = some false ∧
      (besideState bobTx).coinsTip = some aliceBlock ∧
      aliceBlock.registers (ascii "alice") = true ∧
      (besideState bobTx).txIndex ⟨ascii "alice", -1⟩ =
        some (((besideState bobTx).txIndex ⟨ascii "alice", aliceBlock.nHeight - 1⟩).getD
          (aliceBlock.txPos (ascii "alice"))) := by
    decide +kernel
  obtain ⟨hrun, harrived, hplan, hcall, htip, hreg, hnewest⟩ := hfacts
  refine ⟨⟨hrun, harrived, hplan, hcall⟩, htip, ?_⟩
  intro low hlow
  simp only [List.filter_cons, hreg, if_true, List.filter_nil, List.getLast?_singleton,
    Option.some.injEq] at hlow
  rw [← hlow]
  exact hnewest

theorem bob_branch_not_alice :
    ∀ q ∈ [besideAlice bobTx, unsignedOn (besideAlice bobTx)],
      q.registers (ascii "alice") = false ∧
        ∀ tx ∈ q.block.vtx.tail, tx.getUsername ≠ ascii "alice" := by
  decide +kernel

/-- A branch that registers another user is rejected: nothing is lost. -/
theorem rejection_atomic_bob :
    ∃ s p s', (callSystem smallNet).Reach (Atomic smallNet) s ∧ p ∈ s.mapBlockIndex ∧
      setBestChain smallNet 8 8 s p = .ok (false, s') ∧ s'.pindexBest = s.pindexBest ∧
      s'.vBlockIndexByHeight = s.vBlockIndexByHeight ∧
      ∀ u fuel maxHeight, getTransaction smallNet fuel s' u maxHeight =
        getTransaction smallNet fuel s u maxHeight := by
  obtain ⟨hbeside, htip, hrestored⟩ := bob_rejected
  obtain ⟨s', plan, pre, q, seen, hreach, hcall, hplan, hdis, hcon, hrej⟩ := hbeside.rejects
  obtain ⟨hbest, hchain, hlookups⟩ :=
    rejection_atomic hreach hbeside.arrived hcall hplan hrej
  refine ⟨_, _, s', hreach, hbeside.arrived, hcall, hbest, hchain, fun u => ?_⟩
  refine (hlookups u).mpr fun hstack => ?_
  rw [htip] at hstack
  obtain rfl := eq_alice_of_userStack hstack
  obtain ⟨post, hsplit⟩ := hrej.split
  obtain ⟨s₂, pfork, s₃, view, s₄, view', nDoS, errors, -, -, -, hseen⟩ := hrej.run
  rw [hcon] at hsplit
  have hbranch := bob_branch_not_alice
  rw [hsplit] at hbranch
  constructor
  · intro c hc
    exact (hbranch c (List.mem_append_left _ hc)).1
  · rw [hdis]
    exact hrestored
  · intro tx htx hname
    rw [hseen] at htx
    have hq := (hbranch q (List.mem_append_right _ List.mem_cons_self)).2
    exact absurd hname (hq tx (passedTxs_subset htx))

/-- Alice registers. -/
def aliceTx : CTransaction := registration "alice" "alice's key" 10

/-- A branch repeating the registration of alice is rejected: alice is not found any more. -/
theorem rejection_loses_lookup :
    ∃ s p plan pre q seen s', (callSystem smallNet).Reach (Atomic smallNet) s ∧
      p ∈ s.mapBlockIndex ∧ setBestChain smallNet 8 8 s p = .ok (false, s') ∧
      planReorg s p = .ok plan ∧ RejectsAt smallNet 8 s plan pre q seen ∧
      getTransaction smallNet 8 s' (ascii "alice") (-1) ≠
        getTransaction smallNet 8 s (ascii "alice") (-1) := by
  have hfacts : (System.run (nextCall smallNet) (callSucceeds smallNet) {}
        (besideRun aliceTx)).isSome = true ∧
      unsignedOn (besideAlice aliceTx) ∈ (besideState aliceTx).mapBlockIndex ∧
      (planReorg (besideState aliceTx) (unsignedOn (besideAlice aliceTx))).toOption.map
        (fun plan => (plan.vDisconnect, plan.vConnect)) =
          some ([aliceBlock], [besideAlice aliceTx, unsignedOn (besideAlice aliceTx)]) ∧
      (setBestChain smallNet 8 8 (besideState aliceTx)
        (unsignedOn (besideAlice aliceTx))).toOption.map Prod.fst = some false ∧
      (setBestChain smallNet 8 8 (besideState aliceTx)
        (unsignedOn (besideAlice aliceTx))).toOption.map
          (fun r => (getTransaction smallNet 8 r.2 (ascii "alice") (-1)).toOption) =
            some (some none) ∧
      (getTransaction smallNet 8 (besideState aliceTx) (ascii "alice") (-1)).toOption ≠
        some none := by
    decide +kernel
  obtain ⟨hrun, harrived, hplans, hfalse, hlost, hfound⟩ := hfacts
  have hbeside : BesideRejected aliceTx := ⟨hrun, harrived, hplans, hfalse⟩
  obtain ⟨s', plan, pre, q, seen, hreach, hcall, hplan, -, -, hrej⟩ := hbeside.rejects
  refine ⟨_, _, plan, pre, q, seen, s', hreach, harrived, hcall, hplan, hrej, fun hsame => ?_⟩
  rw [hcall] at hlost
  have hnone : (getTransaction smallNet 8 s' (ascii "alice") (-1)).toOption = some none :=
    Option.some.inj hlost
  rw [hsame] at hnone
  exact hfound hnone

end CoMoNet
