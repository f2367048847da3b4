import CoMoNet.Chain.Termination

/-!
# VerifyDB

At level 4 blocks are disconnected with their index entries and connected again. Popping
and pushing an entry gives the same log, so lookups give the same answers
(`verifyDB_getTransaction`).
-/

namespace CoMoNet

open UndoStack (Log)

/-- Where the first loop of `VerifyDB` stands. -/
structure VerifyState where
  chain : ChainState
  view : Option CBlockIndex
  /-- The block up to which nothing was disconnected. -/
  pindexState : CBlockIndex

/-- The first loop; `cacheFits` is the test on the coin caches. Blocks can be read. -/
def verifyBlocks (env : Env) (cacheFits : CBlockIndex → Bool) (nCheckLevel lowest : Int) :
    CBlockIndex → VerifyState → Except Halt (Bool × VerifyState)
  | .root .., t => .ok (true, t)
  | p@(.next pprev ..), t =>
    if p.nHeight < lowest then .ok (true, t)
    else if nCheckLevel ≥ 1 ∧
        checkBlock env (t.chain.adjustedTime env) p.block true true ≠ .valid then .ok (false, t)
    else if !checkpointsCheckBlock env t.chain p.nHeight (env.blockHash p.block) then
      .ok (false, t)
    else if nCheckLevel ≥ 3 ∧ p = t.pindexState ∧ cacheFits p = true then
      match disconnectBlock t.chain t.view p.block p (decide (nCheckLevel < 4)) with
      | .error e => .error e
      | .ok (false, s, view) => .ok (false, { t with chain := s, view := view })
      | .ok (true, s, view) => verifyBlocks env cacheFits nCheckLevel lowest pprev ⟨s, view, pprev⟩
    else verifyBlocks env cacheFits nCheckLevel lowest pprev t

/-- The second loop, with a bound. -/
def reconnect (env : Env) (fuel : Nat) (pindexBest : CBlockIndex) :
    Nat → ChainState → Option CBlockIndex → CBlockIndex → Except Halt (Bool × ChainState)
  | 0, _, _, _ => .error .fuel
  | rounds + 1, s, view, pindex =>
    if pindex = pindexBest then .ok (true, s)
    else
      match s.getNextInMainChain pindex with
      | none => .error .nullPointer
      | some pindex =>
        match connectBlock env fuel s view pindex.block pindex false with
        | .error e => .error e
        | .ok (.invalid .., s, _) => .ok (false, s)
        | .ok (.valid, s, view) => reconnect env fuel pindexBest rounds s view pindex

/-- `VerifyDB`.  The second loop goes up the slots of the main chain. -/
def verifyDB (env : Env) (fuel : Nat) (cacheFits : CBlockIndex → Bool) (s : ChainState)
    (nCheckLevel nCheckDepth : Int) : Except Halt (Bool × ChainState) :=
  match s.pindexBest with
  | none => .ok (true, s)
  | some best =>
    if best.pprev = none then .ok (true, s)
    else
      let nCheckDepth := if nCheckDepth ≤ 0 then 1000000000 else nCheckDepth
      let nCheckDepth := if nCheckDepth > s.nBestHeight then s.nBestHeight else nCheckDepth
      let nCheckLevel := max 0 (min 4 nCheckLevel)
      match verifyBlocks env cacheFits nCheckLevel (s.nBestHeight - nCheckDepth) best
          ⟨s, s.coinsTip, best⟩ with
      | .error e => .error e
      | .ok (false, t) => .ok (false, t.chain)
      | .ok (true, t) =>
        if nCheckLevel ≥ 4 then
          reconnect env fuel best (s.vBlockIndexByHeight.length + 1) t.chain t.view t.pindexState
        else .ok (true, t.chain)

section Verify

variable {env : Env} {fuel : Nat} {cacheFits : CBlockIndex → Bool} {nCheckLevel lowest : Int}
variable {s s' s₁ s₂ : ChainState} {p best : CBlockIndex} {u : Bytes} {t t' : VerifyState}
variable {view view' : Option CBlockIndex} {ds : List CBlockIndex}
variable {l : Log CBlockIndex}

/-! ## The first loop -/

theorem disconnectBlock_justCheck
    (h : disconnectBlock s view p.block p true = .ok (true, s', view')) : s' = s := by
  rw [disconnectBlock] at h
  split at h
  · cases h
  split at h
  · cases h
  · cases h
  split at h
  · cases h
  · cases h
    rfl

theorem verifyBlocks_chain (hlevel : nCheckLevel < 4) :
    ∀ {p : CBlockIndex} {t : VerifyState},
      verifyBlocks env cacheFits nCheckLevel lowest p t = .ok (true, t') → t'.chain = t.chain
  | .root .., t, h => by
    cases h
    rfl
  | .next pprev block pos, t, h => by
    rw [verifyBlocks] at h
    split at h
    · cases h
      rfl
    split at h
    · cases h
    split at h
    · cases h
    split at h
    · rw [decide_eq_true hlevel] at h
      split at h
      · cases h
      · cases h
      · rename_i s₁ view₁ hdis
        exact (verifyBlocks_chain hlevel h).trans (disconnectBlock_justCheck hdis)
    · exact verifyBlocks_chain hlevel h

theorem verifyBlocks_below :
    ∀ {p : CBlockIndex} {t : VerifyState}, p.nHeight < t.pindexState.nHeight →
      verifyBlocks env cacheFits nCheckLevel lowest p t = .ok (true, t') → t' = t
  | .root .., t, _, h => by
    cases h
    rfl
  | .next pprev block pos, t, hlt, h => by
    rw [verifyBlocks] at h
    split at h
    · cases h
      rfl
    split at h
    · cases h
    split at h
    · cases h
    split at h
    · rename_i hdis
      rw [← hdis.2.1] at hlt
      exact absurd hlt (Nat.lt_irrefl _)
    · exact verifyBlocks_below (Nat.lt_of_succ_lt hlt) h

/-- What was disconnected at level 4: the blocks from the tip down to
`pindexState`. -/
theorem verifyBlocks_disconnected (hlevel : 4 ≤ nCheckLevel) :
    ∀ {p : CBlockIndex} {s : ChainState} {view : Option CBlockIndex},
      verifyBlocks env cacheFits nCheckLevel lowest p ⟨s, view, p⟩ = .ok (true, t') →
      ∃ ds, p.ancestors = ds ++ t'.pindexState.ancestors ∧
        disconnectBlocks s view ds = .ok (true, t'.chain, t'.view)
  | .root .., s, view, h => by
    cases h
    exact ⟨[], rfl, rfl⟩
  | .next pprev block pos, s, view, h => by
    rw [verifyBlocks] at h
    split at h
    · cases h
      exact ⟨[], rfl, rfl⟩
    split at h
    · cases h
    split at h
    · cases h
    split at h
    · rw [decide_eq_false (Int.not_lt.mpr hlevel)] at h
      split at h
      · cases h
      · cases h
      · rename_i s₁ view₁ hdis
        obtain ⟨ds, hpath, hrest⟩ := verifyBlocks_disconnected hlevel h
        refine ⟨.next pprev block pos :: ds, ?_, ?_⟩
        · rw [CBlockIndex.ancestors, hpath]
          rfl
        · rw [disconnectBlocks, hdis]
          exact hrest
    · obtain rfl := verifyBlocks_below (Nat.lt_succ_self _) h
      exact ⟨[], rfl, rfl⟩

/-! ## The second loop -/

/-- The blocks of a chain are in their slots. -/
def InSlots (s : ChainState) (best : CBlockIndex) : Prop :=
  ∀ a ∈ best.ancestors, s.vBlockIndexByHeight[a.nHeight]? = some (some a)

theorem InSlots.next {r : CBlockIndex} (h : InSlots s best) (hr : r ∈ best.ancestors)
    (hp : r.pprev = some p) : s.getNextInMainChain p = some r := by
  have hpbest : p ∈ best.ancestors := by
    refine CBlockIndex.ancestors_trans ?_ hr
    rw [CBlockIndex.ancestors_eq, hp]
    exact List.mem_cons_of_mem _ (CBlockIndex.self_mem_ancestors p)
  have hheight := CBlockIndex.nHeight_of_pprev hp
  have hmain : s.isInMainChain p = true := by
    rw [ChainState.isInMainChain, List.getD_eq_getElem?_getD, h p hpbest]
    simp
  rw [ChainState.getNextInMainChain, if_pos hmain, ← hheight, List.getD_eq_getElem?_getD, h r hr]
  rfl

/-- The second loop connects the blocks. -/
theorem reconnect_eq {rounds : Nat} {rs : List CBlockIndex} (hslots : InSlots s best)
    (hpath : best.ancestors = rs.reverse ++ p.ancestors)
    (h : reconnect env fuel best rounds s view p = .ok (true, s')) :
    ∃ view', connectBlocks env fuel s view rs = .ok (.all s' view') := by
  induction rs generalizing rounds s view p with
  | nil =>
    have hbest : p = best := by
      rw [List.reverse_nil, List.nil_append, CBlockIndex.ancestors_eq,
        CBlockIndex.ancestors_eq p] at hpath
      exact (List.cons.inj hpath).1.symm
    cases rounds with
    | zero => cases h
    | succ rounds =>
      rw [reconnect, if_pos hbest] at h
      cases h
      exact ⟨view, rfl⟩
  | cons r rs ih =>
    rw [List.reverse_cons, List.append_assoc, List.singleton_append] at hpath
    have hr : r ∈ best.ancestors := by
      rw [hpath]
      exact List.mem_append_right _ List.mem_cons_self
    have hpprev : r.pprev = some p :=
      CBlockIndex.ancestorsOf_injective (CBlockIndex.ancestors_split hpath)
    have hne : p ≠ best := by
      rintro rfl
      have hle := CBlockIndex.nHeight_le_of_mem_ancestors hr
      have hlt := nHeight_lt_of_mem_pprev (p := r) (x := p)
        (by rw [hpprev]; exact CBlockIndex.self_mem_ancestors p)
      omega
    cases rounds with
    | zero => cases h
    | succ rounds =>
      rw [reconnect, if_neg hne, hslots.next hr hpprev] at h
      simp only at h
      split at h
      · cases h
      · cases h
      · rename_i s₁ view₁ hone
        have hchain := (connectBlock_sameChain hone).chain
        obtain ⟨view', hrest⟩ := ih (fun a ha => by rw [hchain]; exact hslots a ha)
          (by rw [hpath, CBlockIndex.ancestors_eq r, hpprev]; rfl) h
        refine ⟨view', ?_⟩
        rw [connectBlocks, hone]
        exact hrest

/-! ## The logs -/

theorem connectBlocks_concat {rs : List CBlockIndex}
    (h : connectBlocks env fuel s view (rs ++ [p]) = .ok (.all s' view')) :
    ∃ t view₁, connectBlocks env fuel s view rs = .ok (.all t view₁) ∧
      connectBlock env fuel t view₁ p.block p false = .ok (.valid, s', view') := by
  induction rs generalizing s view with
  | nil =>
    rw [List.nil_append, connectBlocks] at h
    split at h
    · cases h
    · cases h
    · rename_i t view₁ hone
      cases h
      exact ⟨s, view, rfl, hone⟩
  | cons r rs ih =>
    rw [List.cons_append, connectBlocks] at h
    split at h
    · cases h
    · cases h
    · rename_i t view₁ hone
      obtain ⟨t', view₂, hrest, hlast⟩ := ih h
      refine ⟨t', view₂, ?_, hlast⟩
      rw [connectBlocks, hone]
      exact hrest

/-- One block: popped, the newest entry perhaps dropped, and pushed again. -/
theorem CheckedLog.push_pop {l' : Log CBlockIndex}
    (tracks : l.Tracks CBlockIndex.nHeight (userStack u (some p)))
    (h : CheckedLog env fuel s u p (if p.registers u then l.pop CBlockIndex.nHeight p else l) l') :
    (if p.registers u then l'.push CBlockIndex.nHeight p else l') = l := by
  rw [userStack_some] at tracks
  by_cases hreg : p.registers u = true
  · rw [if_pos hreg] at tracks h ⊢
    have hhead : l.head = some p := tracks.top p rfl
    rcases h with rfl | ⟨rfl, -⟩
    · exact Log.push_pop hhead
    · exact Log.push_forget_pop hhead
  · rw [if_neg hreg] at h ⊢
    rcases h with rfl | ⟨-, tx, htx, -⟩
    · rfl
    · rw [CBlockIndex.registers, htx] at hreg
      exact absurd rfl hreg

/-- Disconnecting and connecting blocks leaves the log of a user. -/
theorem reconnect_rep {view₁ : Option CBlockIndex}
    (tree : TreeOK env s.mapBlockIndex) (hds : ∀ d ∈ ds, d ∈ s.mapBlockIndex)
    (rep : IndexRep s u l) (tracks : l.Tracks CBlockIndex.nHeight (userStack u view))
    (hdis : disconnectBlocks s view ds = .ok (true, s₁, view₁))
    (hcon : connectBlocks env fuel s₁ view₁ ds.reverse = .ok (.all s₂ view')) :
    IndexRep s₂ u l := by
  induction ds generalizing s l view s₂ view' with
  | nil =>
    cases hdis
    cases hcon
    exact rep
  | cons d ds ih =>
    rcases disconnectBlocks_cons hdis with ⟨hb, -⟩ | ⟨s₀, hone, rfl, hsame, hrest⟩
    · cases hb
    have hd := hds d List.mem_cons_self
    have rep₀ := rep.of_disconnectBlock tree hd hone
    have tracks₀ : (if d.registers u then l.pop CBlockIndex.nHeight d else l).Tracks
        CBlockIndex.nHeight (userStack u d.pprev) := by
      have tracks' := tracks
      rw [userStack_some] at tracks'
      by_cases hreg : d.registers u = true
      · rw [if_pos hreg] at tracks' ⊢
        exact tracks'.pop
      · rw [if_neg hreg] at tracks' ⊢
        exact tracks'
    rw [List.reverse_cons] at hcon
    obtain ⟨t, view₂, hinner, hlast⟩ := connectBlocks_concat hcon
    have rep₁ := ih (hsame.map ▸ tree)
      (fun x hx => hsame.map ▸ hds x (List.mem_cons_of_mem _ hx)) rep₀ tracks₀ hrest hinner
    have hmap : t.mapBlockIndex = s.mapBlockIndex :=
      ((connectBlocks_view hinner).1.map.trans (disconnectBlocks_sameChain hrest).map).trans
        hsame.map
    obtain ⟨-, l', hl', -, hgood⟩ := connectBlock_user (hmap ▸ tree) (hmap ▸ hd) rep₁ hlast
    obtain ⟨-, -, rep'⟩ := hgood rfl
    rwa [hl'.push_pop tracks] at rep'

theorem getTransaction_congr (tree : TreeOK env s.mapBlockIndex)
    (hsame : SameChain s s') (rep : IndexRep s u l) (rep' : IndexRep s' u l) (n : Nat)
    (maxHeight : Int) : getTransaction env n s' u maxHeight =
      getTransaction env n s u maxHeight := by
  rw [getTransaction_eq_walk tree rep, getTransaction_eq_walk (hsame.map ▸ tree) rep', hsame.lookup,
    hsame.nBestHeight]

/-- `VerifyDB` does nothing, or disconnects some blocks and connects them again. -/
theorem verifyDB_cases {cacheFits : CBlockIndex → Bool} {nCheckLevel nCheckDepth : Int}
    (inv : ChainInv env s)
    (h : verifyDB env fuel cacheFits s nCheckLevel nCheckDepth = .ok (true, s')) :
    s' = s ∨ ∃ ds t view view', (∀ d ∈ ds, d ∈ s.mapBlockIndex) ∧
      disconnectBlocks s s.coinsTip ds = .ok (true, t, view) ∧
      connectBlocks env fuel t view ds.reverse = .ok (.all s' view') := by
  rw [verifyDB] at h
  split at h
  · cases h
    exact .inl rfl
  rename_i best hbest
  split at h
  · cases h
    exact .inl rfl
  simp only at h
  split at h
  · cases h
  · cases h
  rename_i t hblocks
  split at h
  · rename_i hlevel
    obtain ⟨ds, hpath, hdis⟩ := verifyBlocks_disconnected hlevel hblocks
    have hsame := disconnectBlocks_sameChain hdis
    cases ds with
    | nil =>
      simp only [disconnectBlocks, Except.ok.injEq, Prod.mk.injEq] at hdis
      have hstate : t.pindexState = best := by
        rw [List.nil_append, CBlockIndex.ancestors_eq, CBlockIndex.ancestors_eq t.pindexState]
          at hpath
        exact (List.cons.inj hpath).1.symm
      rw [reconnect, if_pos hstate] at h
      cases h
      exact .inl hdis.2.1.symm
    | cons d ds =>
      have hd : d = best := by
        rw [CBlockIndex.ancestors_eq] at hpath
        exact (List.cons.inj hpath).1.symm
      subst hd
      have htip : s.coinsTip = some d := by
        rcases disconnectBlocks_cons hdis with ⟨hb, -⟩ | ⟨s₀, -, htip, -⟩
        · cases hb
        · exact htip
      have hslots : InSlots t.chain d := by
        intro a ha
        rw [hsame.chain, inv.slots, htip]
        exact ⟨ha, rfl⟩
      obtain ⟨view', hcon⟩ := reconnect_eq hslots (by rwa [List.reverse_reverse]) h
      refine .inr ⟨d :: ds, t.chain, t.view, view', fun x hx => ?_, hdis, hcon⟩
      refine inv.tree.ancestors_mem (inv.tip d htip) x ?_
      rw [hpath]
      exact List.mem_append_left _ hx
  · rename_i hlevel
    cases h
    exact .inl (verifyBlocks_chain (Int.lt_of_not_ge hlevel) hblocks)

/-- Lookups give the same answers after `VerifyDB` as before it. -/
theorem verifyDB_getTransaction {cacheFits : CBlockIndex → Bool} {nCheckLevel nCheckDepth : Int}
    (hreach : (chainSystem env).Reach (Succeeds env) s)
    (h : verifyDB env fuel cacheFits s nCheckLevel nCheckDepth = .ok (true, s'))
    (n : Nat) (u : Bytes) (maxHeight : Int) :
    getTransaction env n s' u maxHeight = getTransaction env n s u maxHeight := by
  obtain ⟨inv, hstep⟩ := synced_of_reach hreach
  rcases verifyDB_cases inv h with rfl | ⟨ds, t, view, view', hds, hdis, hcon⟩
  · rfl
  obtain ⟨l, rep, tracks⟩ := hstep u
  have rep' := reconnect_rep inv.tree hds rep tracks hdis hcon
  have hsame := (disconnectBlocks_sameChain hdis).trans (connectBlocks_view hcon).1
  exact getTransaction_congr inv.tree hsame rep rep' n maxHeight

end Verify

/-- After a switch of branches `VerifyDB` disconnects the registration of alice, which brings back
the old one, and connects it again. -/
theorem verifyDB_getTransaction_alice :
    ∃ s s', (chainSystem smallNet).Reach (Succeeds smallNet) s ∧
      s.txIndex ⟨ascii "alice", 1⟩ = some ((branch 20 0).txPos (ascii "alice")) ∧
      verifyDB smallNet 8 (fun _ => true) s 4 0 = .ok (true, s') ∧
      getTransaction smallNet 8 s' (ascii "alice") (-1) =
        getTransaction smallNet 8 s (ascii "alice") (-1) := by
  let labels := arrive smallGenesis ++ arrive commonBlock ++ arrive (branch 20 0) ++
    [.accept (branch 30 0).block (branch 30 0).pos] ++ arrive (branch 30 1)
  let s := stateAfter smallNet (succeeds smallNet) labels
  obtain ⟨hrun, hsaved, hverify⟩ :
      (runLabels smallNet (succeeds smallNet) {} labels).isSome = true ∧
        s.txIndex ⟨ascii "alice", 1⟩ = some ((branch 20 0).txPos (ascii "alice")) ∧
        ((verifyDB smallNet 8 (fun _ => true) s 4 0).toOption.map Prod.fst) = some true := by
    decide +kernel
  have hreach : (chainSystem smallNet).Reach (Succeeds smallNet) s :=
    reach_stateAfter (fun _ _ => succeeds_sound) hrun
  obtain ⟨⟨b, s'⟩, hs', rfl⟩ := Except.toOption_map_eq_some_iff.mp hverify
  exact ⟨s, s', hreach, hsaved, hs', verifyDB_getTransaction hreach hs' 8 (ascii "alice") (-1)⟩

end CoMoNet
