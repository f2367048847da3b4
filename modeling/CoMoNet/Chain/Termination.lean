import CoMoNet.Chain.Overwrite

/-!
# Lookups that do not return

Heights need not go down along the saved entries. A lookup returns, passing ever lower
blocks, unless the stale entry under the lowest registration is of a main-chain block;
then it goes round for ever (`lookup_returns_iff`, `lookup_loops`).
-/

namespace CoMoNet

open UndoStack (Log)

/-- The heights of the main-chain blocks that the loop of `getTransactionFrom`
meets. -/
def visitedHeights (env : Env) (s : ChainState) (username : Bytes) (maxHeight : Int) :
    Nat → Int → List Int
  | 0, _ => []
  | fuel + 1, height =>
    match s.txIndex ⟨username, height⟩ with
    | none => []
    | some postx =>
      match s.readTxAt postx with
      | none => []
      | some (header, txOut) =>
        if txOut.getUsername ≠ username then []
        else
          match s.findBlockIndex env (env.headerHash header) with
          | none => []
          | some pindex =>
            if !s.isInMainChain pindex then []
            else if header.nHeight > maxHeight ∧ header.nHeight - 1 > 0 ∧
                header.nHeight - 1 ≥ maxHeight then
              header.nHeight ::
                visitedHeights env s username maxHeight fuel (header.nHeight - 1)
            else [header.nHeight]

/-- The height a lookup goes up to. -/
def heightBound (s : ChainState) (maxHeight : Int) : Int :=
  if maxHeight < 0 then s.nBestHeight else maxHeight

/-- The lowest main-chain transaction of `u` is above `maxHeight`, and the entry saved under it is
of a main-chain block. -/
def GoesRound (s : ChainState) (u : Bytes) (maxHeight : Int) : Prop :=
  ∃ lowest q, (s.isInMainChain lowest = true ∧ lowest.registers u = true) ∧
    (∀ p, s.isInMainChain p = true → p.registers u = true → lowest.nHeight ≤ p.nHeight) ∧
    1 < lowest.nHeight ∧ heightBound s maxHeight < lowest.nHeight ∧
    s.isInMainChain q = true ∧ s.txIndex ⟨u, lowest.nHeight - 1⟩ = some (q.txPos u)

section Termination

variable {env : Env} {s : ChainState} {u : Bytes} {l : Log CBlockIndex} {maxHeight : Int}

/-- The heights a lookup passes. -/
theorem visitedHeights_eq (tree : TreeOK env s.mapBlockIndex) (rep : IndexRep s u l)
    (fuel : Nat) {height : Int} {cur : Option CBlockIndex}
    (hkey : s.txIndex ⟨u, height⟩ = cur.map (CBlockIndex.txPos u))
    (hcur : ∀ x, cur = some x → l.Has x) :
    visitedHeights env s u maxHeight fuel height =
      (l.trail CBlockIndex.nHeight s.isInMainChain maxHeight fuel cur).map
        fun e => (e.nHeight : Int) := by
  induction fuel generalizing height cur with
  | zero => rfl
  | succ fuel ih =>
    rw [visitedHeights, hkey]
    cases cur with
    | none => rfl
    | some e =>
      obtain ⟨he, hu⟩ := rep.entries e (hcur e rfl)
      obtain ⟨tx, htx⟩ := Option.isSome_iff_exists.mp hu
      have hname := CTransaction.getUsername_of_registers (List.find?_some htx)
      have hfind : s.findBlockIndex env (env.headerHash e.block.toCBlockHeader) = some e :=
        tree.find_hash he
      have hheight : e.block.nHeight = e.nHeight := tree.nHeight_eq he
      simp only [Option.map_some, readTxAt_txPos tree he htx, hname, ne_eq, not_true_eq_false,
        if_false, hfind, hheight, Log.trail]
      split
      · rfl
      · by_cases hgo : (e.nHeight : Int) > maxHeight ∧ e.nHeight > 1
        · rw [if_pos ⟨hgo.1, by omega, by omega⟩, if_pos hgo, List.map_cons]
          congr 1
          exact ih (rep.saved e.nHeight (by omega)) (fun x hx => .inr ⟨_, hx⟩)
        · rw [if_neg (by omega), if_neg hgo]
          rfl

theorem getTransaction_ok_iff (tree : TreeOK env s.mapBlockIndex) (rep : IndexRep s u l)
    (fuel : Nat) : (∃ r, getTransaction env fuel s u maxHeight = .ok r) ↔
      ∃ r, l.walk CBlockIndex.nHeight s.isInMainChain (heightBound s maxHeight) fuel l.head =
        some r := by
  rw [getTransaction_eq_walk tree rep, heightBound, lookup]
  cases l.walk CBlockIndex.nHeight s.isInMainChain
      (if maxHeight < 0 then s.nBestHeight else maxHeight) fuel l.head with
  | none => simp [lookupResult]
  | some r => cases r <;> simp [lookupResult]

theorem Synced.goesRound_iff (h : Synced env s) (rep : IndexRep s u l)
    (tracks : l.Tracks CBlockIndex.nHeight (userStack u s.coinsTip)) :
    GoesRound s u maxHeight ↔ l.Trapped CBlockIndex.nHeight s.isInMainChain
      (heightBound s maxHeight) (userStack u s.coinsTip) := by
  have hmem : ∀ p, p ∈ userStack u s.coinsTip ↔
      s.isInMainChain p = true ∧ p.registers u = true := by
    intro p
    rw [mem_userStack, h.inv.isInMainChain_iff]
  constructor
  · rintro ⟨b, q, hb, hlow, hone, hbound, hq, hidx⟩
    have hbst := (hmem b).mpr hb
    obtain ⟨c, hc⟩ : ∃ c, (userStack u s.coinsTip).getLast? = some c := by
      rw [List.getLast?_eq_some_getLast (List.ne_nil_of_mem hbst)]
      exact ⟨_, rfl⟩
    have hcb : c = b := by
      have hcst := List.mem_of_getLast? hc
      have hle := tracks.le_of_getLast? hc hbst
      have hge := hlow c ((hmem c).mp hcst).1 ((hmem c).mp hcst).2
      exact ancestorsOf_inj (mem_userStack.mp hcst).1 (mem_userStack.mp hbst).1 (by omega)
    subst hcb
    rw [rep.saved c.nHeight (by omega), Option.map_eq_some_iff] at hidx
    obtain ⟨x, hx, hpos⟩ := hidx
    have hxq : x = q := by
      refine h.inv.tree.pos_inj x (rep.entries x (.inr ⟨_, hx⟩)).1 q ?_ ?_
      · exact h.inv.ancestorsOf_mem q (h.inv.isInMainChain_iff.mp hq)
      · exact congrArg CDiskTxPos.toCDiskBlockPos hpos
    exact ⟨c, x, hc, hone, hbound, hx, hxq ▸ hq⟩
  · rintro ⟨b, x, hb, hone, hbound, hsaved, hx⟩
    have hbst := List.mem_of_getLast? hb
    refine ⟨b, x, (hmem b).mp hbst, ?_, hone, hbound, hx, ?_⟩
    · intro p hp hreg
      exact tracks.le_of_getLast? hb ((hmem p).mpr ⟨hp, hreg⟩)
    · rw [rep.saved b.nHeight (by omega), hsaved]
      rfl

/-- In step, a lookup passes ever lower blocks and returns unless it goes round. -/
theorem Synced.getTransaction_returns (h : Synced env s) (u : Bytes) (maxHeight : Int) :
    ((∃ fuel r, getTransaction env fuel s u maxHeight = .ok r) ↔ ¬GoesRound s u maxHeight) ∧
      ((∀ fuel, (visitedHeights env s u (heightBound s maxHeight) fuel (-1)).Pairwise (· > ·)) ↔
        ¬GoesRound s u maxHeight) := by
  obtain ⟨l, rep, tracks⟩ := h.inStep u
  have hst : ∀ x, l.Has x → s.isInMainChain x = true → x ∈ userStack u s.coinsTip := by
    intro x hx hlive
    exact mem_userStack.mpr ⟨h.inv.isInMainChain_iff.mp hlive, (rep.entries x hx).2⟩
  have hlive : ∀ x ∈ userStack u s.coinsTip, s.isInMainChain x = true := by
    intro x hx
    exact h.inv.isInMainChain_iff.mpr (mem_userStack.mp hx).1
  obtain ⟨hwalk, htrail⟩ := tracks.walk_returns_iff (heightBound s maxHeight) hst hlive
  rw [h.goesRound_iff rep tracks]
  constructor
  · rw [← hwalk]
    exact exists_congr fun fuel => getTransaction_ok_iff h.inv.tree rep fuel
  · rw [← htrail]
    refine forall_congr' fun fuel => ?_
    rw [visitedHeights_eq h.inv.tree rep fuel rep.newest fun _ hx => .inl hx, List.pairwise_map]
    simp only [gt_iff_lt, Int.ofNat_lt]

/-- After any run of successful calls, a lookup passes ever lower blocks and returns, unless the
entry saved under the user's lowest main-chain registration is of a main-chain block. -/
theorem lookup_returns_iff (h : (chainSystem env).Reach (Succeeds env) s) (u : Bytes)
    (maxHeight : Int) :
    ((∃ fuel r, getTransaction env fuel s u maxHeight = .ok r) ↔ ¬GoesRound s u maxHeight) ∧
      ((∀ fuel, (visitedHeights env s u (heightBound s maxHeight) fuel (-1)).Pairwise (· > ·)) ↔
        ¬GoesRound s u maxHeight) := by
  exact (synced_of_reach h).getTransaction_returns u maxHeight

end Termination

theorem lookup_returns_iff_alice :
    (chainSystem smallNet).Reach (Succeeds smallNet) aliceState ∧
      ((∃ fuel r, getTransaction smallNet fuel aliceState (ascii "alice") 0 = .ok r) ↔
        ¬GoesRound aliceState (ascii "alice") 0) := by
  have hreach : (chainSystem smallNet).Reach (Succeeds smallNet) aliceState :=
    reach_stateAfter (fun _ _ => succeeds_sound) (by decide +kernel)
  exact ⟨hreach, (lookup_returns_iff hreach (ascii "alice") 0).1⟩

/-! ## A lookup that goes round

Two branches have the same registration at the same height.  The node leaves the
first branch: the registration of the second one is allowed, since it repeats
the one of the old branch, and the old entry is saved under the common height.
Then the node goes back.  The old entry is the newest again, it is not saved
once more, and it is saved under its own height. -/

/-- A block without registrations. -/
def commonBlock : CBlockIndex :=
  smallIndex smallGenesis (smallBlock smallNet.genesisBlock 1 [])

/-- A branch above it with the registration of alice in its first block. -/
def branch (nonce : Nat) : Nat → CBlockIndex
  | 0 => smallIndex commonBlock
      (smallBlock commonBlock.block nonce [registration "alice" "alice's key" 10])
  | n + 1 => smallIndex (branch nonce n) (smallBlock (branch nonce n).block (nonce + n + 1) [])

/-- The node moves from the first branch to the second one and back. -/
def thereAndBack : List ChainLabel :=
  let enter (p : CBlockIndex) : ChainLabel := .accept p.block p.pos
  arrive smallGenesis ++ arrive commonBlock ++ arrive (branch 20 0) ++
    [enter (branch 30 0)] ++ arrive (branch 30 1) ++
    [enter (branch 20 1)] ++ arrive (branch 20 2)

/-- A lookup of alice that never returns. -/
theorem lookup_loops : ∃ s, (chainSystem smallNet).Reach (Succeeds smallNet) s ∧
    ∀ fuel r, getTransaction smallNet fuel s (ascii "alice") 1 ≠ .ok r := by
  let s := stateAfter smallNet (succeeds smallNet) thereAndBack
  obtain ⟨hrun, hmain, hlow, hbound, hsaved⟩ :
      (runLabels smallNet (succeeds smallNet) {} thereAndBack).isSome = true ∧
        (s.isInMainChain (branch 20 0) = true ∧ (branch 20 0).registers (ascii "alice") = true) ∧
        (∀ p ∈ CBlockIndex.ancestorsOf s.coinsTip, p.registers (ascii "alice") = true →
          (branch 20 0).nHeight ≤ p.nHeight) ∧
        (1 < (branch 20 0).nHeight ∧ heightBound s 1 < (branch 20 0).nHeight) ∧
        s.txIndex ⟨ascii "alice", (branch 20 0).nHeight - 1⟩ =
          some ((branch 20 0).txPos (ascii "alice")) := by
    decide +kernel
  have hreach : (chainSystem smallNet).Reach (Succeeds smallNet) s :=
    reach_stateAfter (fun _ _ => succeeds_sound) hrun
  refine ⟨s, hreach, fun fuel r hr => ?_⟩
  have hsync := synced_of_reach hreach
  refine (hsync.getTransaction_returns (ascii "alice") 1).1.mp ⟨fuel, r, hr⟩ ?_
  refine ⟨branch 20 0, branch 20 0, hmain, fun p hp hreg => ?_, hbound.1, hbound.2, hmain.1,
    hsaved⟩
  exact hlow p (hsync.inv.isInMainChain_iff.mp hp) hreg

end CoMoNet
