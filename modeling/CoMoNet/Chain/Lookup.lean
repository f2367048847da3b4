import CoMoNet.Chain.Run

/-!
# Lookups after successful reorganisations

While every `setBestChain` call returns true the index is in step with the chain
(`Synced`), and a lookup that returns is exact. Stale entries do no harm, since it gives
up outside the main chain.
-/

namespace CoMoNet

open UndoStack (Log)

/-- The chain invariant holds and the log of every user is in step with the
chain. -/
structure Synced (env : Env) (s : ChainState) : Prop where
  inv : ChainInv env s
  inStep : ∀ u, InStep s u s.coinsTip

/-- A step in which `setBestChain`, if it is called, returns true. -/
def Succeeds (env : Env) (s : ChainState) : ChainLabel → Prop
  | .setBestChain fuel rounds pindexNew =>
    ∀ b s', setBestChain env fuel rounds s pindexNew = .ok (b, s') → b = true
  | _ => True

section Synced

variable {env : Env} {fuel : Nat} {s s' : ChainState} {u : Bytes}

theorem InStep.insertBlockIndex {tip : Option CBlockIndex} (h : InStep s u tip)
    (p : CBlockIndex) : InStep (insertBlockIndex s p) u tip := by
  obtain ⟨l, rep, tracks⟩ := h
  refine ⟨l, ⟨rep.newest, rep.saved, fun e he => ?_⟩, tracks⟩
  exact ⟨List.mem_cons_of_mem _ (rep.entries e he).1, (rep.entries e he).2⟩

theorem inStep_init (u : Bytes) : InStep {} u none := by
  refine ⟨⟨none, fun _ => none⟩, ⟨rfl, fun _ _ => rfl, ?_⟩, Log.Tracks.nil⟩
  rintro e (he | ⟨k, he⟩) <;> cases he

/-- A successful call keeps the log of a user in step. -/
theorem CallOutcome.inStep {pindexNew : CBlockIndex} {plan : Reorg} {pfork : Option CBlockIndex}
    (inv : ChainInv env s) (hnew : pindexNew ∈ s.mapBlockIndex)
    (ok : PlanOK s pindexNew plan pfork) (hstep : InStep s u s.coinsTip)
    (h : CallOutcome env fuel s pindexNew plan pfork true s') : InStep s' u s'.coinsTip := by
  obtain ⟨hD, hC⟩ := ok.mem inv hnew
  have hmarked := ok.marked
  cases h with
  | @switched s₂ s₃ _ view hlen hdis hcon hsw =>
    have hsame₂ := hmarked.toSameChain.trans (disconnectBlocks_sameChain hdis)
    have h₂ : InStep s₂ u pfork :=
      disconnectBlocks_tracks (hmarked.map ▸ inv.tree) (hmarked.map ▸ hD)
        (hstep.congr (hmarked.user u)) hdis
    have h₃ : InStep s₃ u view :=
      connectBlocks_tracks (hsame₂.map ▸ inv.tree) (hsame₂.map ▸ hC) h₂ hcon
    obtain ⟨hmap, -, hidx, htip, -, -⟩ := switchChain_spec hsw
    obtain ⟨l, rep, tracks⟩ := h₃
    rw [htip]
    exact ⟨l, rep.congr hmap fun _ => by rw [hidx], tracks⟩

theorem synced_step {a : ChainLabel} (h : Synced env s) (hok : Succeeds env s a)
    (hstep : ChainStep env s a s') : Synced env s' := by
  refine ⟨chainInv_step h.inv hstep, fun u => ?_⟩
  cases a with
  | accept block pos =>
    obtain ⟨-, rfl⟩ := hstep
    exact (h.inStep u).insertBlockIndex _
  | mark =>
    rw [hstep.tip]
    exact ((h.inStep u).setClock _).congr (hstep.user u)
  | setBestChain fuel rounds pindexNew =>
    obtain ⟨hnew, b, hcall⟩ := hstep
    obtain rfl : b = true := hok b s' hcall
    obtain ⟨plan, pfork, -, ok, hout⟩ := setBestChainWith_cases h.inv hnew hcall
    exact hout.inStep h.inv hnew ok (h.inStep u)

theorem Synced.mark (h : Synced env s) (hsame : SameIndex s s') : Synced env s' :=
  synced_step (a := .mark) h trivial (hsame.step env)

theorem Synced.setClock (h : Synced env s) (now : Int) : Synced env { s with clock := now } :=
  synced_step (a := .mark) h trivial (chainStep_clock env s now)

theorem synced_of_reach (h : (chainSystem env).Reach (Succeeds env) s) : Synced env s := by
  refine h.invariant ?_ fun s a s' hs hok hstep => synced_step hs hok hstep
  rintro s rfl
  exact ⟨chainInv_init env, inStep_init⟩

end Synced

/-! ## What a lookup returns -/

/-- A main-chain block within the wanted height that has a transaction for
`u`. -/
def Candidate (s : ChainState) (u : Bytes) (maxHeight : Int) (p : CBlockIndex) : Prop :=
  s.isInMainChain p = true ∧ (p.nHeight : Int) ≤ maxHeight ∧ (p.nHeight : Int) ≤ s.nBestHeight ∧
    p.registers u = true

/-- The highest block within the height. -/
def IsHighest (s : ChainState) (u : Bytes) (maxHeight : Int) (p : CBlockIndex) : Prop :=
  Candidate s u maxHeight p ∧ ∀ q, Candidate s u maxHeight q → q.nHeight ≤ p.nHeight

section Highest

variable {env : Env} {fuel : Nat} {s : ChainState} {u : Bytes} {maxHeight : Int}

/-- The first of a stack is the highest. -/
theorem find_highest {st : List CBlockIndex} {e q : CBlockIndex}
    (hsorted : st.Pairwise fun a b => b.nHeight < a.nHeight)
    (h : (st.find? fun x => decide ((x.nHeight : Int) ≤ maxHeight)) = some e)
    (hq : q ∈ st) (hle : (q.nHeight : Int) ≤ maxHeight) : q.nHeight ≤ e.nHeight := by
  obtain ⟨-, before, after, rfl, hbefore⟩ := List.find?_eq_some_iff_append.mp h
  rcases List.mem_append.mp hq with hq | hq
  · have := hbefore q hq
    simp [hle] at this
  · rcases List.mem_cons.mp hq with rfl | hq
    · exact Nat.le_refl _
    · have hrest := (List.pairwise_append.mp hsorted).2.1
      exact Nat.le_of_lt ((List.pairwise_cons.mp hrest).1 q hq)

/-- The candidates are the stack. -/
theorem ChainInv.candidate_iff (inv : ChainInv env s) {p : CBlockIndex} :
    Candidate s u maxHeight p ↔ p ∈ userStack u s.coinsTip ∧ (p.nHeight : Int) ≤ maxHeight := by
  rw [Candidate, inv.isInMainChain_iff, mem_userStack]
  constructor
  · rintro ⟨hmem, hle, -, hreg⟩
    exact ⟨⟨hmem, hreg⟩, hle⟩
  · rintro ⟨⟨hmem, hreg⟩, hle⟩
    exact ⟨hmem, hle, inv.best p hmem, hreg⟩

/-- The walk over a log in step with the chain. -/
theorem Synced.lookup_eq (h : Synced env s) {l : Log CBlockIndex} (rep : IndexRep s u l)
    (tracks : l.Tracks CBlockIndex.nHeight (userStack u s.coinsTip)) {r : Option CBlockIndex}
    (hr : lookup s l maxHeight fuel l.head = some r) :
    r = (userStack u s.coinsTip).find? fun x => decide ((x.nHeight : Int) ≤ maxHeight) := by
  refine tracks.walk_eq ?_ ?_ hr
  · intro x hx hlive
    exact mem_userStack.mpr ⟨h.inv.isInMainChain_iff.mp hlive, (rep.entries x hx).2⟩
  · intro x hx
    obtain ⟨hmem, hreg⟩ := mem_userStack.mp hx
    exact ⟨h.inv.isInMainChain_iff.mpr hmem,
      h.inv.tree.nHeight_pos (h.inv.ancestorsOf_mem x hmem) hreg⟩

/-- A lookup that returns finds the first block of the stack within the wanted
height. -/
theorem Synced.getTransaction_eq (h : Synced env s) {r : Option (CTransaction × Uint256)}
    (hr : getTransaction env fuel s u maxHeight = .ok r) :
    r = ((userStack u s.coinsTip).find? fun x =>
        decide ((x.nHeight : Int) ≤ if maxHeight < 0 then s.nBestHeight else maxHeight)).bind
      fun e => (e.block.txFor u).map fun tx => (tx, env.blockHash e.block) := by
  obtain ⟨l, rep, tracks⟩ := h.inStep u
  rw [getTransaction_eq_walk h.inv.tree rep] at hr
  cases hw : lookup s l (if maxHeight < 0 then s.nBestHeight else maxHeight) fuel l.head with
  | none => simp [hw, lookupResult] at hr
  | some found =>
    rw [← h.lookup_eq rep tracks hw]
    rw [hw] at hr
    cases found with
    | none => exact (Except.ok.inj hr).symm
    | some e => exact (Except.ok.inj hr).symm

/-- After any run of successful calls, a lookup that returns finds the transaction of `u` in the
highest main-chain block within `maxHeight`, and nothing only if there is none. -/
theorem getTransaction_highest (h : (chainSystem env).Reach (Succeeds env) s)
    (hmax : 0 ≤ maxHeight) {r : Option (CTransaction × Uint256)}
    (hr : getTransaction env fuel s u maxHeight = .ok r) :
    match r with
    | some (tx, hash) => ∃ p, IsHighest s u maxHeight p ∧ p.block.txFor u = some tx ∧
        env.blockHash p.block = hash
    | none => ∀ p, ¬Candidate s u maxHeight p := by
  have hsync := synced_of_reach h
  have hfound := hsync.getTransaction_eq hr
  rw [if_neg (Int.not_lt.mpr hmax)] at hfound
  cases hfind : (userStack u s.coinsTip).find? fun x => decide ((x.nHeight : Int) ≤ maxHeight) with
  | none =>
    rw [hfind, Option.bind_none] at hfound
    subst hfound
    intro p hp
    obtain ⟨hmem, hle⟩ := hsync.inv.candidate_iff.mp hp
    have := List.find?_eq_none.mp hfind p hmem
    simp [hle] at this
  | some e =>
    have hmem : e ∈ userStack u s.coinsTip := List.mem_of_find?_eq_some hfind
    have hle : (e.nHeight : Int) ≤ maxHeight := by simpa using List.find?_some hfind
    obtain ⟨tx, htx⟩ := Option.isSome_iff_exists.mp (mem_userStack.mp hmem).2
    rw [hfind, Option.bind_some, htx, Option.map_some] at hfound
    subst hfound
    refine ⟨e, ⟨hsync.inv.candidate_iff.mpr ⟨hmem, hle⟩, fun q hq => ?_⟩, htx, rfl⟩
    obtain ⟨hqmem, hqle⟩ := hsync.inv.candidate_iff.mp hq
    have hsorted := (CBlockIndex.ancestorsOf_sorted s.coinsTip).filter (CBlockIndex.registers u)
    exact find_highest hsorted hfind hqmem hqle

end Highest

/-- The call returns true. -/
def succeeds (env : Env) (s : ChainState) : ChainLabel → Bool
  | .setBestChain fuel rounds pindexNew =>
    match setBestChain env fuel rounds s pindexNew with
    | .error _ => true
    | .ok (b, _) => b
  | _ => true

theorem succeeds_sound {env : Env} {s : ChainState} {a : ChainLabel}
    (h : succeeds env s a = true) : Succeeds env s a := by
  cases a with
  | accept block pos => trivial
  | mark => trivial
  | setBestChain fuel rounds pindexNew =>
    intro b s' hcall
    rw [succeeds, hcall] at h
    exact h

/-- Alice registers. -/
def aliceBlock : CBlockIndex :=
  smallIndex smallGenesis
    (smallBlock smallNet.genesisBlock 1 [registration "alice" "alice's key" 10])

/-- The chain with it. -/
def aliceState : ChainState :=
  stateAfter smallNet (succeeds smallNet) (arrive smallGenesis ++ arrive aliceBlock)

theorem getTransaction_highest_alice :
    getTransaction smallNet 8 aliceState (ascii "alice") 1 =
        .ok (some (registration "alice" "alice's key" 10, 1)) ∧
      ∃ p, IsHighest aliceState (ascii "alice") 1 p ∧
        p.block.txFor (ascii "alice") = some (registration "alice" "alice's key" 10) ∧
        smallNet.blockHash p.block = 1 := by
  obtain ⟨hrun, hr⟩ :
      (runLabels smallNet (succeeds smallNet) {}
        (arrive smallGenesis ++ arrive aliceBlock)).isSome =
          true ∧
        getTransaction smallNet 8 aliceState (ascii "alice") 1 =
          .ok (some (registration "alice" "alice's key" 10, 1)) := by
    decide +kernel
  have hreach : (chainSystem smallNet).Reach (Succeeds smallNet) aliceState :=
    reach_stateAfter (fun _ _ => succeeds_sound) hrun
  exact ⟨hr, getTransaction_highest hreach (by decide) hr⟩

end CoMoNet
