import CoMoNet.Chain.Reload
import CoMoNet.Chain.Termination

/-!
# The search for the best chain ends

No candidate picked carries a failed mark (`Picks`), and a round that goes on takes one
away, so rounds are bounded. The search ends exactly if every call of `SetBestChain` it
makes does (`connectBestBlock_returns_iff`), which `search_loops` does not.
-/

namespace CoMoNet

open GuardedRun (System)
open Fuelled

/-! ## Rounds -/

/-- A round of the outer loop, up to the calls of `SetBestChain`. -/
inductive SearchRound where
  | done
  | again (s : ChainState)
  /-- `SetBestChain` is called for each block of a list, until a call fails. -/
  | attach (vAttach : List CBlockIndex)

/-- One round of `ConnectBestBlock`. -/
def searchRound (env : Env) (s : ChainState) : Except Halt SearchRound :=
  match bestCandidate env s.setBlockIndexValid with
  | none => .ok .done
  | some q =>
    if s.pindexBest.any fun best => best == q || best.nChainWork == q.nChainWork then .ok .done
    else
      match checkAncestry s q [] [] with
      | .failed descendants =>
        (invalidChainFound (descendants.foldl markFailedChild s) q).map SearchRound.again
      | .attach vAttach => .ok (.attach vAttach)

/-- The rest of a round. -/
def SearchRound.finish (env : Env) (fuel rounds : Nat) (s : ChainState) :
    SearchRound → Except Halt (Bool × ChainState)
  | .done => .ok (true, s)
  | .again s => connectBestBlock env fuel rounds s
  | .attach vAttach =>
    setBestChains (setBestChainWith env fuel (connectBestBlock env fuel rounds)) s vAttach

/-- The calls for a list of blocks: the first, and the others after successes. -/
inductive CallsOf (env : Env) : ChainState → List CBlockIndex → ChainState → CBlockIndex →
  Prop where
  | head {s : ChainState} {p : CBlockIndex} {ps : List CBlockIndex} : CallsOf env s (p :: ps) s p
  | tail {s s' t : ChainState} {p q : CBlockIndex} {ps : List CBlockIndex} {fuel : Nat} :
      setBestChainUntil env fuel s p = .ok (.returned true s') → CallsOf env s' ps t q →
      CallsOf env s (p :: ps) t q

/-- `ConnectBestBlock`, started in `s`, picks a candidate in the state `t`. -/
inductive Picks (env : Env) (s : ChainState) : ChainState → Prop where
  | start : Picks env s s
  | again {t t' : ChainState} : Picks env s t → searchRound env t = .ok (.again t') →
      Picks env s t'
  /-- In the search that a call of `SetBestChain` starts. -/
  | nested {t t₁ t' : ChainState} {ps : List CBlockIndex} {p : CBlockIndex} {fuel : Nat} :
      Picks env s t → searchRound env t = .ok (.attach ps) → CallsOf env t ps t₁ p →
      setBestChainUntil env fuel t₁ p = .ok (.searching t') → Picks env s t'

/-- `ConnectBestBlock` in `s` calls `SetBestChain` with `p` in the state `t`. -/
def Calls (env : Env) (s t : ChainState) (p : CBlockIndex) : Prop :=
  ∃ t₀ ps, Picks env s t₀ ∧ searchRound env t₀ = .ok (.attach ps) ∧ CallsOf env t₀ ps t p

section Rounds

variable {env : Env} {fuel rounds : Nat} {s s' t t' : ChainState} {p q : CBlockIndex}
variable {ps : List CBlockIndex}

theorem connectBestBlock_succ (env : Env) (fuel rounds : Nat) (s : ChainState) :
    connectBestBlock env fuel (rounds + 1) s =
      (searchRound env s).bind (SearchRound.finish env fuel rounds s) := by
  rw [connectBestBlock, searchRound]
  cases bestCandidate env s.setBlockIndexValid with
  | none => rfl
  | some q =>
    simp only
    split
    · rfl
    cases checkAncestry s q [] [] with
    | failed descendants =>
      simp only
      cases invalidChainFound (descendants.foldl markFailedChild s) q <;> rfl
    | attach ps => rfl

theorem searchRound_again (h : searchRound env s = .ok (.again s')) :
    ∃ q descendants, q ∈ s.setBlockIndexValid ∧
      checkAncestry s q [] [] = .failed descendants ∧
      invalidChainFound (descendants.foldl markFailedChild s) q = .ok s' := by
  rw [searchRound] at h
  split at h
  · cases h
  rename_i q hq
  split at h
  · cases h
  split at h
  · rename_i descendants hfailed
    obtain ⟨s₁, hfound, heq⟩ := Except.map_eq_ok_iff.mp h
    cases heq
    exact ⟨q, descendants, bestCandidate_mem hq, hfailed, hfound⟩
  · cases h

theorem searchRound_attach (h : searchRound env s = .ok (.attach ps)) :
    ∃ q ∈ s.setBlockIndexValid, ∀ p ∈ ps, p ∈ q.ancestors := by
  rw [searchRound] at h
  split at h
  · cases h
  rename_i q hq
  split at h
  · cases h
  split at h
  · obtain ⟨s₁, hfound, heq⟩ := Except.map_eq_ok_iff.mp h
    cases heq
  · rename_i ps' hattach
    cases h
    exact ⟨q, bestCandidate_mem hq, checkAncestry_mem hattach⟩

/-! ## The candidates in a search -/

/-- A round that goes on takes a candidate away. -/
theorem IndexOK.again (h : IndexOK s) (hround : searchRound env s = .ok (.again s')) :
    Keeps s s' ∧ ∃ q ∈ s.setBlockIndexValid, q ∉ s'.setBlockIndexValid := by
  obtain ⟨q, descendants, hq, hfailed, hfound⟩ := searchRound_again hround
  refine ⟨(callFrame_keeps.markFailed descendants s).trans
    (callFrame_keeps.invalidChainFound hfound), q, hq, ?_⟩
  obtain ⟨path, f, below, hpath, hf, hdesc⟩ := checkAncestry_failed hfailed
  rw [List.nil_append] at hdesc
  subst hdesc
  rw [(invalidChainFound_marks hfound).1.cands, (markFailed_cands descendants s h.nodup).2]
  refine fun hx => hx.2 ?_
  rw [CBlockIndex.ancestors_eq] at hpath
  cases descendants with
  | nil =>
    rw [List.nil_append] at hpath
    have hunfailed := ((h.cands q).mp hq).2
    rw [(List.cons.inj hpath).1, hf] at hunfailed
    cases hunfailed
  | cons x xs =>
    rw [List.cons_append] at hpath
    rw [(List.cons.inj hpath).1]
    exact List.mem_cons_self

theorem IndexOK.again_fewer (h : IndexOK s) (hround : searchRound env s = .ok (.again s')) :
    s'.setBlockIndexValid.length < s.setBlockIndexValid.length := by
  obtain ⟨hkeeps, q, hq, hq'⟩ := h.again hround
  refine Nat.lt_of_le_of_ne hkeeps.length_le fun hlen => hq' ?_
  rw [hkeeps.cands.eq_of_length hlen]
  exact hq

theorem IndexOK.attach_mem (h : IndexOK s) (hround : searchRound env s = .ok (.attach ps)) :
    ∀ p ∈ ps, p ∈ s.mapBlockIndex := by
  obtain ⟨q, hq, hps⟩ := searchRound_attach hround
  exact fun p hp => h.ancestors_mem ((h.cands q).mp hq).1 p (hps p hp)

theorem CallsOf.keeps (h : CallsOf env s ps t p) (hps : ∀ p ∈ ps, p ∈ s.mapBlockIndex) :
    Keeps s t ∧ p ∈ t.mapBlockIndex := by
  induction h with
  | head => exact ⟨.refl _, hps _ List.mem_cons_self⟩
  | tail hcall _ ih =>
    have hkeeps := keeps_returned hcall
    obtain ⟨hrest, hmem⟩ := ih fun x hx => hkeeps.map ▸ hps x (List.mem_cons_of_mem _ hx)
    exact ⟨hkeeps.trans hrest, hmem⟩

/-- Candidates are picked in good states. -/
theorem Picks.index (h : Picks env s t) (hs : IndexOK s) : IndexOK t ∧ Keeps s t := by
  induction h with
  | start => exact ⟨hs, .refl s⟩
  | again _ hround ih =>
    have hkeeps := (ih.1.again hround).1
    exact ⟨hkeeps.index ih.1, ih.2.trans hkeeps⟩
  | nested _ hround hcalls hcall ih =>
    obtain ⟨hkeeps, hmem⟩ := hcalls.keeps (ih.1.attach_mem hround)
    have hkeeps' := hkeeps.trans (keeps_searching hmem hcall).1
    exact ⟨hkeeps'.index ih.1, ih.2.trans hkeeps'⟩

/-! ## A call that loops -/

/-- A call that does not return stops the calls for a list of blocks. -/
theorem CallsOf.setBestChains {search : ChainState → Except Halt (Bool × ChainState)}
    (h : CallsOf env s ps t p) (hloops : setBestChainWith env fuel search t p = .error .fuel) :
    CoMoNet.setBestChains (setBestChainWith env fuel search) s ps = .error .fuel := by
  induction h with
  | head => rw [CoMoNet.setBestChains, hloops]
  | @tail s s' t p q ps fuel' hcall _ ih =>
    have hfirst : setBestChainWith env fuel search s p = .error .fuel ∨
        setBestChainWith env fuel search s p = .ok (true, s') := by
      rw [setBestChainWith_eq]
      rcases (setBestChainUntil_lookupOnly s p).stable.stop_or_eq hcall fuel with hstop | hsame
      · exact .inl (by rw [hstop]; rfl)
      · exact .inr (by rw [hsame]; rfl)
    rw [CoMoNet.setBestChains]
    rcases hfirst with hstop | hsame
    · rw [hstop]
    · rw [hsame]
      exact ih hloops

/-- A later loop is one of the search. -/
theorem Picks.loops (h : Picks env s t)
    (hloops : ∀ fuel rounds, connectBestBlock env fuel rounds t = .error .fuel) :
    ∀ fuel rounds, connectBestBlock env fuel rounds s = .error .fuel := by
  induction h with
  | start => exact hloops
  | @again t t' _ hround ih =>
    refine ih fun fuel rounds => ?_
    cases rounds with
    | zero => rfl
    | succ rounds =>
      rw [connectBestBlock_succ, hround]
      exact hloops fuel rounds
  | @nested t t₁ t' ps p fuel' _ hround hcalls hcall ih =>
    refine ih fun fuel rounds => ?_
    cases rounds with
    | zero => rfl
    | succ rounds =>
      rw [connectBestBlock_succ, hround]
      refine hcalls.setBestChains ?_
      rw [setBestChainWith_eq]
      rcases (setBestChainUntil_lookupOnly t₁ p).stable.stop_or_eq hcall fuel with hstop | hsame
      · rw [hstop]
        rfl
      · rw [hsame]
        show (connectBestBlock env fuel rounds t').map _ = _
        rw [hloops fuel rounds]
        rfl

theorem Calls.loops (h : Calls env s t p)
    (hloops : Loops Halt.fuel fun fuel => setBestChainUntil env fuel t p) :
    ∀ fuel rounds, connectBestBlock env fuel rounds s = .error .fuel := by
  obtain ⟨t₀, ps, hpicks, hround, hcalls⟩ := h
  refine hpicks.loops fun fuel rounds => ?_
  cases rounds with
  | zero => rfl
  | succ rounds =>
    rw [connectBestBlock_succ, hround]
    refine hcalls.setBestChains ?_
    have hstop : setBestChainUntil env fuel t p = .error .fuel := hloops fuel
    rw [setBestChainWith_eq, hstop]
    rfl

/-! ## Calls that all return -/

theorem searchRound_ne_fuel (env : Env) (s : ChainState) :
    searchRound env s ≠ .error .fuel := by
  rw [searchRound]
  split
  · exact nofun
  rename_i q _
  split
  · exact nofun
  split
  · rename_i descendants _
    have hfound := invalidChainFound_ne_fuel (descendants.foldl markFailedChild s) q
    cases hcase : invalidChainFound (descendants.foldl markFailedChild s) q with
    | error e =>
      rw [hcase] at hfound
      exact fun heq => hfound (by rw [Except.error.inj heq])
    | ok t => exact nofun
  · exact nofun

/-- `n` rounds are enough, from some amount of fuel on. -/
def EndsWithin (env : Env) (n : Nat) (s : ChainState) : Prop :=
  ∃ enough, ∀ fuel, enough ≤ fuel → ∀ rounds, n ≤ rounds →
    connectBestBlock env fuel rounds s ≠ .error .fuel

/-- The calls for a list end if each does, with the searches they start. -/
theorem setBestChains_ends {n : Nat}
    (hcalls : ∀ t p, CallsOf env s ps t p → ∃ fuel, setBestChainUntil env fuel t p ≠ .error .fuel)
    (hnested : ∀ t p t' fuel, CallsOf env s ps t p →
      setBestChainUntil env fuel t p = .ok (.searching t') → EndsWithin env n t') :
    ∃ enough, ∀ fuel, enough ≤ fuel → ∀ rounds, n ≤ rounds →
      setBestChains (setBestChainWith env fuel (connectBestBlock env fuel rounds)) s ps ≠
        .error .fuel := by
  induction ps generalizing s with
  | nil => exact ⟨0, fun _ _ _ _ => by simp [setBestChains]⟩
  | cons p ps ih =>
    obtain ⟨fuel₀, hfuel₀⟩ := hcalls s p .head
    have hsame : ∀ fuel, fuel₀ ≤ fuel →
        setBestChainUntil env fuel s p = setBestChainUntil env fuel₀ s p := fun fuel hle =>
      (setBestChainUntil_lookupOnly s p).stable.eq_of_le hle hfuel₀
    cases hcall : setBestChainUntil env fuel₀ s p with
    | error e =>
      refine ⟨fuel₀, fun fuel hle rounds _ => ?_⟩
      rw [setBestChains, setBestChainWith_eq, hsame fuel hle, hcall]
      exact fun heq => hfuel₀ (hcall.trans (congrArg Except.error (Except.error.inj heq)))
    | ok e =>
      cases e with
      | returned b s' =>
        cases b with
        | false =>
          refine ⟨fuel₀, fun fuel hle rounds _ => ?_⟩
          rw [setBestChains, setBestChainWith_eq, hsame fuel hle, hcall]
          simp [Except.bind, CallEnd.finish]
        | true =>
          obtain ⟨enough, hrest⟩ := ih (fun t q hq => hcalls t q (.tail hcall hq))
            fun t q t' fuel hq => hnested t q t' fuel (.tail hcall hq)
          refine ⟨max fuel₀ enough, fun fuel hle rounds hrounds => ?_⟩
          rw [Nat.max_le] at hle
          rw [setBestChains, setBestChainWith_eq, hsame fuel hle.1, hcall]
          exact hrest fuel hle.2 rounds hrounds
      | searching s' =>
        obtain ⟨enough, hsearch⟩ := hnested s p s' fuel₀ .head hcall
        refine ⟨max fuel₀ enough, fun fuel hle rounds hrounds => ?_⟩
        rw [Nat.max_le] at hle
        have hends := hsearch fuel hle.2 rounds hrounds
        rw [setBestChains, setBestChainWith_eq, hsame fuel hle.1, hcall]
        simp only [Except.bind, CallEnd.finish]
        cases hcase : connectBestBlock env fuel rounds s' with
        | error e =>
          rw [hcase] at hends
          exact fun heq => hends (congrArg Except.error (Except.error.inj heq))
        | ok r => simp [Except.map]

theorem Picks.of_again (hround : searchRound env s = .ok (.again s')) (h : Picks env s' t) :
    Picks env s t := by
  induction h with
  | start => exact .again .start hround
  | again _ hround' ih => exact .again ih hround'
  | nested _ hround' hcalls hcall ih => exact .nested ih hround' hcalls hcall

theorem Picks.of_nested {t₁ : ChainState} (hround : searchRound env s = .ok (.attach ps))
    (hcalls : CallsOf env s ps t₁ p) (hcall : setBestChainUntil env fuel t₁ p = .ok (.searching s'))
    (h : Picks env s' t) : Picks env s t := by
  induction h with
  | start => exact .nested .start hround hcalls hcall
  | again _ hround' ih => exact .again ih hround'
  | nested _ hround' hcalls' hcall' ih => exact .nested ih hround' hcalls' hcall'

/-- As many rounds as there are candidates are enough. -/
theorem endsWithin_of_calls {n : Nat} (hs : IndexOK s) (hlen : s.setBlockIndexValid.length < n)
    (hcalls : ∀ t p, Calls env s t p → ∃ fuel, setBestChainUntil env fuel t p ≠ .error .fuel) :
    EndsWithin env n s := by
  induction n generalizing s with
  | zero => exact absurd hlen (Nat.not_lt_zero _)
  | succ n ih =>
    suffices hfinish : ∃ enough, ∀ fuel, enough ≤ fuel → ∀ rounds, n ≤ rounds →
        (searchRound env s).bind (SearchRound.finish env fuel rounds s) ≠ .error .fuel by
      obtain ⟨enough, hfinish⟩ := hfinish
      refine ⟨enough, fun fuel hle rounds hrounds => ?_⟩
      obtain ⟨rounds, rfl⟩ := Nat.exists_eq_succ_of_ne_zero (by omega : rounds ≠ 0)
      rw [connectBestBlock_succ]
      exact hfinish fuel hle rounds (Nat.le_of_succ_le_succ hrounds)
    cases hround : searchRound env s with
    | error e =>
      refine ⟨0, fun _ _ _ _ heq => searchRound_ne_fuel env s ?_⟩
      exact hround.trans (congrArg Except.error (Except.error.inj heq))
    | ok r =>
      cases r with
      | done => exact ⟨0, fun _ _ _ _ => nofun⟩
      | again s' =>
        have hfewer := hs.again_fewer hround
        refine ih ((hs.again hround).1.index hs) (by omega) fun t p hp => ?_
        obtain ⟨t₀, ps, hpicks, hround', hcall⟩ := hp
        exact hcalls t p ⟨t₀, ps, hpicks.of_again hround, hround', hcall⟩
      | attach ps =>
        refine setBestChains_ends (fun t p hp => hcalls t p ⟨s, ps, .start, hround, hp⟩) ?_
        intro t p t' fuel hp hcall
        obtain ⟨hkeeps, hmem⟩ := hp.keeps (hs.attach_mem hround)
        obtain ⟨hkeeps', hfewer⟩ := keeps_searching hmem hcall
        have hlen' := hfewer (hkeeps.index hs)
        have hle := hkeeps.length_le
        refine ih ((hkeeps.trans hkeeps').index hs) (by omega) fun x q hq => ?_
        obtain ⟨t₀, ps', hpicks, hround', hcall'⟩ := hq
        exact hcalls x q ⟨t₀, ps', hpicks.of_nested hround hp hcall, hround', hcall'⟩

/-- The search ends iff its calls do. -/
theorem connectBestBlock_returns_iff (hs : IndexOK s) :
    (∃ fuel rounds, connectBestBlock env fuel rounds s ≠ .error .fuel) ↔
      ∀ t p, Calls env s t p → ∃ fuel, setBestChainUntil env fuel t p ≠ .error .fuel := by
  constructor
  · rintro ⟨fuel, rounds, hends⟩ t p hp
    refine not_loops_iff.mp fun hloops => ?_
    exact hends (hp.loops hloops fuel rounds)
  · intro hcalls
    obtain ⟨enough, hends⟩ := endsWithin_of_calls hs (Nat.lt_succ_self _) hcalls
    exact ⟨enough, _, hends enough (Nat.le_refl _) _ (Nat.le_refl _)⟩

end Rounds

/-! ## The states of a node -/

/-- The state after `LoadBlockIndexDB`, with a stored best block. -/
def reload (s : ChainState) (best : Option CBlockIndex) : ChainState :=
  let nStatus := fun p => (s.diskStatus p).getD {}
  let mapBlockIndex := s.mapBlockIndex.filter fun p => (s.diskStatus p).isSome
  { s with
    mapBlockIndex := mapBlockIndex
    nStatus := nStatus
    setBlockIndexValid := (mapBlockIndex.filter fun p =>
      decide ((nStatus p).valid ≥ 3) && !(nStatus p).failed).dedup
    vBlockIndexByHeight := (CBlockIndex.ancestorsOf best).reverse.map some
    coinsTip := best
    pindexBest := best }

/-- What can happen. -/
inductive SearchLabel where
  /-- `AddToBlockIndex` enters a block. -/
  | enter (block : CBlock) (pos : CDiskBlockPos)
  /-- `ConnectBestBlock`, by `AddToBlockIndex` or at the start. -/
  | connectBestBlock (fuel rounds : Nat)
  | invalidBlockFound (fuel rounds : Nat) (pindex : CBlockIndex)
  | setBestChain (fuel rounds : Nat) (pindexNew : CBlockIndex)
  /-- `LoadBlockIndexDB` after a restart, with the memory pool and the soft
  checkpoint of the new process. -/
  | load (best : Option CBlockIndex) (mapTx : List CTransaction) (lastSoftCP : Nat × Uint256)
  | clock (now : Int)

/-- One step. -/
def SearchStep (env : Env) (s : ChainState) : SearchLabel → ChainState → Prop
  | .enter block pos, s' =>
    Placed env s block ∧ s.findBlockIndex env (env.blockHash block) = none ∧
      s' = insertBlockIndex s (newBlockIndex env s block pos)
  | .connectBestBlock fuel rounds, s' => ∃ b, connectBestBlock env fuel rounds s = .ok (b, s')
  | .invalidBlockFound fuel rounds pindex, s' => pindex ∈ s.mapBlockIndex ∧
      invalidBlockFound (connectBestBlock env fuel rounds) s pindex = .ok s'
  | .setBestChain fuel rounds pindexNew, s' => pindexNew ∈ s.mapBlockIndex ∧
      ∃ b, setBestChain env fuel rounds s pindexNew = .ok (b, s')
  | .load best mapTx lastSoftCP, s' => (∀ p, best = some p → p ∈ s.mapBlockIndex) ∧
      s' = { reload s best with mapTx := mapTx, lastSoftCP := lastSoftCP }
  | .clock now, s' => s' = { s with clock := now }

/-- Blocks, searches and loading. -/
def searchSystem (env : Env) : System ChainState SearchLabel where
  init s := s = {}
  step := SearchStep env

section Nodes

variable {env : Env} {s s' t : ChainState} {p : CBlockIndex} {best : Option CBlockIndex}

/-- What is loaded, when the records are up to date. -/
theorem IndexOK.reload_spec (h : IndexOK s) (best : Option CBlockIndex) :
    (reload s best).mapBlockIndex = s.mapBlockIndex ∧
      (∀ p ∈ s.mapBlockIndex, (reload s best).nStatus p = s.nStatus p) ∧
      ∀ p, p ∈ (reload s best).setBlockIndexValid ↔ p ∈ s.setBlockIndexValid := by
  have hmap : (s.mapBlockIndex.filter fun p => (s.diskStatus p).isSome) = s.mapBlockIndex := by
    refine List.filter_eq_self.mpr fun p hp => ?_
    rw [h.stored p hp]
    rfl
  have hstatus : ∀ p ∈ s.mapBlockIndex, (s.diskStatus p).getD {} = s.nStatus p := by
    intro p hp
    rw [h.stored p hp]
    rfl
  refine ⟨hmap, hstatus, fun p => ?_⟩
  simp only [reload, hmap]
  rw [List.mem_dedup, List.mem_filter, h.cands]
  refine and_congr_right fun hp => ?_
  simp [hstatus p hp, h.level p hp]

theorem IndexOK.reload (h : IndexOK s) (best : Option CBlockIndex) :
    IndexOK (reload s best) := by
  obtain ⟨hmap, hstatus, hcands⟩ := h.reload_spec best
  refine ⟨?_, fun p => ?_, List.nodup_dedup _, ?_, ?_⟩
  · rw [hmap]
    exact h.parent
  · rw [hcands, hmap, h.cands]
    exact and_congr_right fun hp => by rw [hstatus p hp]
  · rw [hmap]
    intro p hp
    rw [hstatus p hp]
    exact h.stored p hp
  · rw [hmap]
    intro p hp
    rw [hstatus p hp]
    exact h.level p hp

/-- The state is the one that the loader computes. -/
theorem reload_loads (h : IndexOK s) (hlinked : Linked env s.mapBlockIndex)
    (hne : ∀ p ∈ s.mapBlockIndex, p.hash env ≠ 0) (addr : Uint256 → Nat)
    {records : List CDiskBlockIndex} (hrecords : records.Perm (blockRecords env s))
    (hbest : ∀ p, best = some p → p ∈ s.mapBlockIndex) :
    ∃ r, loadBlockIndexDB env addr records (best.map (CBlockIndex.hash env)) = .ok r ∧
      Reloads env (reload s best) r ∧ r.vBlockIndexByHeight =
        (reload s best).vBlockIndexByHeight.map (Option.map (CBlockIndex.hash env)) := by
  obtain ⟨r, hload, hreloads, hchain⟩ :=
    loadBlockIndexDB_reloads h hlinked hne addr hrecords hbest
  obtain ⟨hmap, hstatus, hcands⟩ := h.reload_spec best
  refine ⟨r, hload, ⟨?_, ?_, ?_, ?_, ?_, fun k => ?_⟩, ?_⟩
  · exact hmap ▸ hreloads.keys
  · exact hmap ▸ hreloads.pprev
  · exact hmap ▸ hreloads.nHeight
  · rw [hmap]
    intro p hp
    rw [hreloads.nStatus p hp, hstatus p hp]
  · exact hmap ▸ hreloads.sums
  · rw [hreloads.candidates]
    exact exists_congr fun p => by rw [hcands]
  · rw [hchain]
    show _ = ((CBlockIndex.ancestorsOf best).reverse.map some).map _
    rw [List.map_map]
    rfl

/-- Candidates are right in every run. -/
theorem index_of_reach {ok : ChainState → SearchLabel → Prop}
    (h : (searchSystem env).Reach ok s) : IndexOK s ∧ Linked env s.mapBlockIndex := by
  refine h.invariant (I := fun s => IndexOK s ∧ Linked env s.mapBlockIndex) ?_ ?_
  · rintro _ rfl
    exact ⟨⟨nofun, fun p => ⟨nofun, nofun⟩, List.nodup_nil, nofun, nofun⟩,
      ⟨nofun, nofun, nofun, nofun, nofun⟩⟩
  rintro s a s' ⟨hindex, hlinked⟩ - hstep
  have hkeep : Keeps s s' → IndexOK s' ∧ Linked env s'.mapBlockIndex := fun hkeeps =>
    ⟨hkeeps.index hindex, hkeeps.map ▸ hlinked⟩
  cases a with
  | enter block pos =>
    obtain ⟨hplaced, hnew, rfl⟩ := hstep
    exact IndexOK.enter hindex hlinked hplaced hnew pos
  | connectBestBlock fuel rounds =>
    obtain ⟨b, hrun⟩ := hstep
    exact hkeep (callFrame_keeps.connectBestBlock hrun)
  | invalidBlockFound fuel rounds pindex =>
    obtain ⟨-, hrun⟩ := hstep
    exact hkeep (callFrame_keeps.invalidBlockFound callFrame_keeps.connectBestBlock hrun)
  | setBestChain fuel rounds pindexNew =>
    obtain ⟨-, b, hrun⟩ := hstep
    exact hkeep (callFrame_keeps.setBestChain hrun)
  | load best mapTx lastSoftCP =>
    obtain ⟨-, rfl⟩ := hstep
    have hsame : Keeps (reload s best)
        { reload s best with mapTx := mapTx, lastSoftCP := lastSoftCP } := .of_same rfl rfl rfl rfl
    refine ⟨hsame.index (hindex.reload best), ?_⟩
    show Linked env (reload s best).mapBlockIndex
    rw [(hindex.reload_spec best).1]
    exact hlinked
  | clock now =>
    obtain rfl := hstep
    exact hkeep (.of_same rfl rfl rfl rfl)

/-- In a state of a node, no candidate picked has a failed mark, a round that goes on takes one
away, and the search ends exactly if every call of `SetBestChain` does. Such a call loops only in
a lookup. -/
theorem search_ends_iff {ok : ChainState → SearchLabel → Prop}
    (h : (searchSystem env).Reach ok s) :
    (∀ t, Picks env s t → ∀ p ∈ t.setBlockIndexValid, (t.nStatus p).failed = false) ∧
      (∀ t t', Picks env s t → searchRound env t = .ok (.again t') →
        t'.setBlockIndexValid ⊆ t.setBlockIndexValid ∧
          ∃ p ∈ t.setBlockIndexValid, p ∉ t'.setBlockIndexValid) ∧
      ((∃ fuel rounds, connectBestBlock env fuel rounds s ≠ .error .fuel) ↔
        ∀ t p, Calls env s t p → ∃ fuel, setBestChainUntil env fuel t p ≠ .error .fuel) ∧
      ∀ t p, Calls env s t p → (∀ fuel, setBestChainUntil env fuel t p = .error .fuel) →
        CallLoops env t p := by
  obtain ⟨hindex, -⟩ := index_of_reach h
  refine ⟨?_, ?_, connectBestBlock_returns_iff hindex, ?_⟩
  · intro t ht p hp
    exact (((ht.index hindex).1.cands p).mp hp).2
  · intro t t' ht hround
    obtain ⟨hkeeps, hgone⟩ := (ht.index hindex).1.again hround
    exact ⟨hkeeps.cands.subset, hgone⟩
  · intro t p _ hloops
    exact (setBestChainUntil_lookupOnly _ _).loops hloops

theorem reach_search (h : (addSystem env).Reach (fun s a => Placed env s a.1) s) :
    (searchSystem env).Reach (fun _ _ => True) s := by
  induction h with
  | @init s hinit =>
    have hstart : (searchSystem env).Reach (fun _ _ => True) {} := .init rfl
    exact .step hstart trivial (a := .clock s.clock) hinit
  | @step s s' a _ hplaced hadd ih =>
    obtain ⟨-, fuel, rounds, b, t, hadd, hclock⟩ := hadd
    have ht : (searchSystem env).Reach (fun _ _ => True) t := by
      rw [addToBlockIndex] at hadd
      split at hadd
      · cases hadd
        exact ih
      · rename_i hnew
        have hentered : (searchSystem env).Reach (fun _ _ => True)
            (insertBlockIndex s (newBlockIndex env s a.1 a.2)) :=
          .step ih trivial (a := .enter a.1 a.2) ⟨hplaced, hnew, rfl⟩
        exact .step hentered trivial (a := .connectBestBlock fuel rounds) ⟨b, hadd⟩
    exact .step ht trivial (a := .clock s'.clock) hclock

end Nodes

/-- The state in which `AddToBlockIndex` calls `ConnectBestBlock`. -/
def enteredState (ps : List CBlockIndex) (p : CBlockIndex) : Option ChainState :=
  (addState smallNet (fun s a => decide (Placed smallNet s a.1)) ps).bind fun s =>
    if Placed smallNet s p.block ∧
      s.findBlockIndex smallNet (smallNet.blockHash p.block) = none then
      some (insertBlockIndex s (newBlockIndex smallNet s p.block p.pos))
    else none

theorem reach_enteredState {ps : List CBlockIndex} {p : CBlockIndex} {s : ChainState}
    (h : enteredState ps p = some s) : (searchSystem smallNet).Reach (fun _ _ => True) s := by
  obtain ⟨s₀, hs₀, h⟩ := Option.bind_eq_some_iff.mp h
  have hreach := reach_search (reach_addState (fun _ _ => of_decide_eq_true) hs₀)
  split at h
  · rename_i hguards
    cases h
    exact .step hreach trivial (a := .enter p.block p.pos) ⟨hguards.1, hguards.2, rfl⟩
  · cases h

/-- The search after the first registration of alice has arrived. -/
theorem search_ends_iff_alice : ∃ s, (searchSystem smallNet).Reach (fun _ _ => True) s ∧
    branch 20 0 ∈ s.setBlockIndexValid ∧
    ∀ t p, Calls smallNet s t p → ∃ fuel, setBestChainUntil smallNet fuel t p ≠ .error .fuel := by
  have hfacts : ((enteredState [smallGenesis, commonBlock] (branch 20 0)).any fun s =>
      s.setBlockIndexValid.contains (branch 20 0) &&
        (connectBestBlock smallNet 8 8 s).toOption.isSome) = true := by
    decide +kernel
  rw [Option.any_eq_true] at hfacts
  obtain ⟨s, hs, hfacts⟩ := hfacts
  rw [Bool.and_eq_true, List.contains_iff_mem] at hfacts
  obtain ⟨hmem, hsome⟩ := hfacts
  have hreach := reach_enteredState hs
  obtain ⟨r, hr⟩ := Except.exists_ok_of_isSome hsome
  refine ⟨s, hreach, hmem, (search_ends_iff hreach).2.2.1.mp ⟨8, 8, ?_⟩⟩
  rw [hr]
  exact nofun

/-! ## A search that does not end -/

/-- The next height of a lookup. -/
def lookupNext (env : Env) (s : ChainState) (u : Bytes) (maxHeight height : Int) : Option Int :=
  (s.txIndex ⟨u, height⟩).bind fun postx => (s.readTxAt postx).bind fun r =>
    (s.findBlockIndex env (env.headerHash r.1)).bind fun pindex =>
      if r.2.getUsername = u ∧ r.1.nHeight = pindex.nHeight ∧ s.isInMainChain pindex = true ∧
          r.1.nHeight > maxHeight ∧ r.1.nHeight - 1 > 0 ∧ r.1.nHeight - 1 ≥ maxHeight then
        some (r.1.nHeight - 1)
      else none

theorem getTransactionFrom_next {env : Env} {s : ChainState} {u : Bytes}
    {maxHeight height next : Int} (h : lookupNext env s u maxHeight height = some next)
    (fuel : Nat) : getTransactionFrom env s u maxHeight (fuel + 1) height =
      getTransactionFrom env s u maxHeight fuel next := by
  rw [lookupNext] at h
  obtain ⟨postx, hpos, h⟩ := Option.bind_eq_some_iff.mp h
  obtain ⟨⟨header, tx⟩, hread, h⟩ := Option.bind_eq_some_iff.mp h
  obtain ⟨pindex, hfind, h⟩ := Option.bind_eq_some_iff.mp h
  split at h
  · rename_i hguards
    obtain ⟨huser, hheight, hmain, hhigh, hpositive, hge⟩ := hguards
    cases h
    dsimp only at huser hheight hhigh hpositive hge
    rw [getTransactionFrom]
    simp only [hpos, hread, hfind]
    rw [if_neg (not_not.mpr huser), if_neg (not_not.mpr hheight), hmain, Bool.not_true,
      if_neg Bool.false_ne_true, if_pos hhigh, if_pos ⟨hpositive, hge⟩]
  · cases h

/-- A lookup that returns to a height loops. -/
theorem getTransaction_loops {env : Env} {s : ChainState} {u : Bytes} {maxHeight height : Int}
    (hbound : 0 ≤ maxHeight) (hfirst : lookupNext env s u maxHeight (-1) = some height)
    (hcycle : lookupNext env s u maxHeight height = some height) :
    Loops Halt.fuel fun fuel => getTransaction env fuel s u maxHeight := by
  have hloops : ∀ fuel, getTransactionFrom env s u maxHeight fuel height = .error .fuel := by
    intro fuel
    induction fuel with
    | zero => rfl
    | succ fuel ih => rw [getTransactionFrom_next hcycle, ih]
  intro fuel
  simp only [getTransaction, if_neg (Int.not_lt.mpr hbound)]
  cases fuel with
  | zero => rfl
  | succ fuel => rw [getTransactionFrom_next hfirst, hloops]

/-- A branch from the genesis block on, in whose first block alice signs. -/
def lateBranch : Nat → CBlockIndex
  | 0 =>
    let spam : CTransaction :=
      { message := CScript.push (ascii "spam")
        userName := CScript.push (ascii "alice") ++ CScript.push (ascii "signature")
        nNonce := 40 }
    smallIndex smallGenesis
      { smallBlock smallNet.genesisBlock 40 [] with
        hashMerkleRoot := buildMerkleTree smallNet [spam]
        vtx := [spam] }
  | n + 1 => smallIndex (lateBranch n) (smallBlock (lateBranch n).block (41 + n) [])

/-- The node moves to another branch and back, and a longer one comes up. -/
def lateArrivals : List CBlockIndex :=
  [smallGenesis, commonBlock, branch 20 0, branch 30 0, branch 30 1, branch 20 1, branch 20 2,
    lateBranch 0, lateBranch 1, lateBranch 2, lateBranch 3]

/-- A call loops if the lookup of the signer of the first block to connect does. -/
theorem setBestChainUntil_loops_of_signer {env : Env} {s s₁ : ChainState} {p q : CBlockIndex}
    {plan : Reorg} {view : Option CBlockIndex} {spam : CTransaction}
    (hplan : planReorg s p = .ok plan)
    (hlen : plan.vDisconnect.length ≤ plan.vConnect.length)
    (hdis : disconnectBlocks plan.marked s.coinsTip plan.vDisconnect = .ok (true, s₁, view))
    (hfirst : plan.vConnect.head? = some q) (hview : q.pprev = view)
    (hcheck : checkBlock env (s₁.adjustedTime env) q.block true true = .valid)
    (hgen : env.blockHash q.block ≠ env.hashGenesisBlock) (hvtx : q.block.vtx.head? = some spam)
    (huser : CScript.extractPushDataString spam.userName 0 ≠ ascii "nobody")
    (hsig : CScript.extractPushDataString spam.userName 1 ≠ [])
    (hloops : Loops Halt.fuel fun fuel => getTransaction env fuel s₁
      (CScript.extractPushDataString spam.userName 0) q.block.nHeight) :
    ∀ fuel, setBestChainUntil env fuel s p = .error .fuel := by
  intro fuel
  obtain ⟨vConnect, hvConnect⟩ := List.head?_eq_some_iff.mp hfirst
  obtain ⟨vtx, hvtx⟩ := List.head?_eq_some_iff.mp hvtx
  have hlookup : getTransaction env fuel s₁ (CScript.extractPushDataString spam.userName 0)
      q.block.nHeight = .error .fuel := hloops fuel
  have hblock : connectBlock env fuel s₁ view q.block q false = .error .fuel := by
    rw [connectBlock_eq, Bool.not_false, hcheck]
    simp only
    rw [if_neg (not_not.mpr hview), if_neg hgen, connectChecks_eq env fuel s₁ q.block hvtx,
      checkSpamSigner_eq, if_neg huser, if_neg hsig, hlookup]
    rfl
  rw [setBestChainUntil, hplan]
  simp only [Except.bind]
  rw [if_neg (Nat.not_lt.mpr hlen), hdis]
  simp only [disconnectedUntil]
  rw [hvConnect, connectBlocks_eq, hblock]
  rfl

/-- The longer branch is attached. -/
def attachesLate (s : ChainState) : Bool :=
  match searchRound smallNet s with
  | .ok (.attach ps) => ps == [lateBranch 4]
  | _ => false

/-- Disconnecting leaves the entry of alice saved under itself. -/
def cyclesLate (s : ChainState) : Bool :=
  match planReorg s (lateBranch 4) with
  | .ok plan =>
    match disconnectBlocks plan.marked s.coinsTip plan.vDisconnect with
    | .ok (true, s₁, view) => decide (plan.vDisconnect.length ≤ plan.vConnect.length) &&
        plan.vConnect.head? == some (lateBranch 0) && (lateBranch 0).pprev == view &&
        decide (checkBlock smallNet (s₁.adjustedTime smallNet) (lateBranch 0).block true true =
          .valid) &&
        lookupNext smallNet s₁ (ascii "alice") 1 (-1) == some 1 &&
        lookupNext smallNet s₁ (ascii "alice") 1 1 == some 1
    | _ => false
  | _ => false

/-- The longer branch arrives. The restored entry of alice is saved under itself, so her lookup
for the new branch never ends, and neither does the search. -/
theorem search_loops : ∃ s, (searchSystem smallNet).Reach (fun _ _ => True) s ∧
    ∀ fuel rounds, connectBestBlock smallNet fuel rounds s = .error .fuel := by
  have hfacts : ((enteredState lateArrivals (lateBranch 4)).any fun s =>
      attachesLate s && cyclesLate s) = true := by
    decide +kernel
  rw [Option.any_eq_true] at hfacts
  obtain ⟨s, hs, hfacts⟩ := hfacts
  rw [Bool.and_eq_true] at hfacts
  obtain ⟨hround, hcall⟩ := hfacts
  refine ⟨s, reach_enteredState hs, ?_⟩
  rw [attachesLate] at hround
  split at hround
  case h_2 => cases hround
  rename_i ps hattach
  obtain rfl : ps = [lateBranch 4] := by simpa using hround
  rw [cyclesLate] at hcall
  split at hcall
  case h_2 => cases hcall
  rename_i plan hplan
  split at hcall
  case h_2 => cases hcall
  rename_i s₁ view hdis
  simp only [Bool.and_eq_true, decide_eq_true_eq, beq_iff_eq] at hcall
  obtain ⟨⟨⟨⟨⟨hlen, hhead⟩, hview⟩, hcheck⟩, hfirst⟩, hcycle⟩ := hcall
  have hcalls : Calls smallNet s s (lateBranch 4) := ⟨s, _, .start, hattach, .head⟩
  have hlookup := getTransaction_loops (by decide : (0 : Int) ≤ 1) hfirst hcycle
  refine hcalls.loops (setBestChainUntil_loops_of_signer hplan hlen hdis hhead hview
    hcheck (by decide +kernel) rfl (by decide +kernel) (by decide +kernel) ?_)
  exact hlookup

end CoMoNet
