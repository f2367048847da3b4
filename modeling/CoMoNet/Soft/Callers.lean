import CoMoNet.Soft.Trunk

/-!
# The two callers of `SetBestChain`

`ConnectBestBlock` gives a candidate up whose branch has a failed block;
`SetSoftCPBestChain` does not look. A true result means what it says exactly for
branches without failed blocks (`switched_iff`).
-/

namespace CoMoNet

section Calls

variable {env : Env} {fuel rounds : Nat} {s s' : ChainState} {p q : CBlockIndex} {b : Bool}

/-! ## `ConnectBestBlock` -/

theorem Clean.of_sameMarks (h : Clean s p) (hmarks : SameMarks s s') : Clean s' p := by
  intro a ha
  have hfailed := h a ha
  rw [BlockStatus.failed] at hfailed ⊢
  rw [hmarks.failedValid, hmarks.failedChild]
  exact hfailed

/-- A call for an unmarked branch keeps the run clean. -/
theorem callsClean_setBestChain (h : (callSystem env).Reach CallsClean s)
    (hp : p ∈ s.mapBlockIndex) (hclean : Clean s p)
    (hcall : setBestChain env fuel rounds s p = .ok (b, s')) :
    (callSystem env).Reach CallsClean s' :=
  .step h (a := .setBestChain fuel rounds p) hclean ⟨hp, b, hcall⟩

/-- Blocks with unmarked branches are attached in turn; a true call changes no mark. -/
theorem callsClean_setBestChains {ps : List CBlockIndex} (h : (callSystem env).Reach CallsClean s)
    (hps : ∀ p ∈ ps, p ∈ s.mapBlockIndex ∧ Clean s p)
    (hcall : setBestChains (setBestChain env fuel rounds) s ps = .ok (b, s')) :
    (callSystem env).Reach CallsClean s' := by
  induction ps generalizing s with
  | nil =>
    cases hcall
    exact h
  | cons p ps ih =>
    obtain ⟨hp, hclean⟩ := hps p List.mem_cons_self
    rw [setBestChains] at hcall
    split at hcall
    · cases hcall
    · rename_i s₁ hone
      cases hcall
      exact callsClean_setBestChain h hp hclean hone
    · rename_i s₁ hone
      obtain ⟨hout, -⟩ := setBestChain_clean (callInv_of_reach h) hp hclean hone
      cases hout with
      | switched hlong hmap hmarks htip hbest =>
        refine ih (callsClean_setBestChain h hp hclean hone) (fun q hq => ?_) hcall
        obtain ⟨hqmem, hqclean⟩ := hps q (List.mem_cons_of_mem _ hq)
        exact ⟨hmap ▸ hqmem, hqclean.of_sameMarks hmarks⟩

/-- `connectBestBlock` only calls `setBestChain` for branches without failed
blocks. -/
theorem callsClean_connectBestBlock (h : (callSystem env).Reach CallsClean s)
    (hcall : connectBestBlock env fuel rounds s = .ok (b, s')) :
    (callSystem env).Reach CallsClean s' := by
  induction rounds generalizing s with
  | zero => cases hcall
  | succ rounds ih =>
    rw [connectBestBlock] at hcall
    split at hcall
    · cases hcall
      exact h
    rename_i q hq
    split at hcall
    · cases hcall
      exact h
    split at hcall
    · rename_i descendants hfailed
      split at hcall
      · cases hcall
      · rename_i s₁ hfound
        exact ih (.step h (a := .giveUp q) trivial
          ⟨bestCandidate_mem hq, descendants, hfailed, hfound⟩) hcall
    · rename_i ps hattach
      have inv := callInv_of_reach h
      refine callsClean_setBestChains h (fun p hp => ?_) hcall
      have hpq := checkAncestry_mem hattach p hp
      exact ⟨inv.inv.tree.ancestors_mem (inv.inv.cands (bestCandidate_mem hq)) p hpq,
        fun a ha => inv.clean_of_attach hattach a (CBlockIndex.ancestors_trans ha hpq)⟩

/-- `AddToBlockIndex` keeps the run clean. -/
theorem callsClean_addToBlockIndex {block : CBlock} {pos : CDiskBlockPos}
    (h : (callSystem env).Reach CallsClean s) (hacc : Accepts env s block pos)
    (hadd : addToBlockIndex env fuel rounds s block pos = .ok (b, s')) :
    (callSystem env).Reach CallsClean s' := by
  rw [addToBlockIndex] at hadd
  split at hadd
  · cases hadd
    exact h
  · exact callsClean_connectBestBlock (.step h (a := .accept block pos) trivial ⟨hacc, rfl⟩) hadd

/-! ## `SetSoftCPBestChain` -/

/-- So does `setSoftCPBestChain` if no block below the checkpoint has failed. -/
theorem callsClean_setSoftCPBestChain (h : (callSystem env).Reach CallsClean s)
    (hclean : ∀ p, SoftCalls env s p → Clean s p)
    (hsoft : setSoftCPBestChain env fuel rounds s = .ok s') :
    (callSystem env).Reach CallsClean s' := by
  rcases setSoftCPBestChain_cases hsoft with ⟨rfl, -⟩ | ⟨p, b, hcalls, hcall⟩
  · exact h
  · exact callsClean_setBestChain h (findBlockIndex_some hcalls.found).1 (hclean p hcalls) hcall

end Calls

namespace Node

variable {env : Env} {n : Node}

/-- The states in which a step of a node comes to `SetSoftCPBestChain`. -/
def AsksSoft (env : Env) (n : Node) : NodeLabel → ChainState → Prop
  | .block _ _ block pos, s =>
    ∃ fuel rounds, addToBlockIndex env fuel rounds n.chain block pos = .ok (true, s)
  | .vote vote, s =>
    ∃ found, s = (n.setSoft (n.castWith env found vote).soft).chain
  | .clock _, _ => False

/-- The soft checkpoints that would move the chain are not above failed blocks. -/
def SoftClean (env : Env) (n : Node) (a : NodeLabel) : Prop :=
  ∀ s p, n.AsksSoft env a s → SoftCalls env s p → Clean s p

/-- In such runs every call is made for a branch without failed blocks. -/
theorem reach_callsClean (h : (nodeSystem env).Reach (SoftClean env) n) :
    (callSystem env).Reach CallsClean n.chain := by
  induction h with
  | init hinit =>
    obtain rfl := hinit
    exact .init rfl
  | @step n n' a hn hok hstep ih =>
    have hset : ∀ {n : Node}, (callSystem env).Reach CallsClean n.chain → ∀ soft,
        (callSystem env).Reach CallsClean (n.setSoft soft).chain := fun hn soft =>
      .step hn (a := .softCP soft.lastSoftCP) trivial rfl
    cases a with
    | vote vote =>
      obtain ⟨fuel, rounds, relay, hcast⟩ := hstep
      obtain ⟨found, -, hcast⟩ := castVote_cases hcast
      rcases hcast with ⟨-, rfl⟩ | ⟨-, chain, hsoft, rfl⟩
      · exact hset ih _
      · exact callsClean_setSoftCPBestChain (hset ih _)
          (fun p => hok _ p ⟨_, rfl⟩) hsoft
    | clock now =>
      obtain rfl := hstep
      exact .step ih (a := .clock now) trivial rfl
    | block post busy block pos =>
      obtain ⟨hacc, fuel, rounds, b, hblock⟩ := hstep
      obtain ⟨chain, hadd, hrest⟩ := acceptBlock_cases hacc.accepted hblock
      have hchain := callsClean_addToBlockIndex ih hacc hadd
      rcases hrest with ⟨-, rfl⟩ | ⟨rfl, hnew⟩
      · exact hchain
      obtain ⟨chain', hsoft, hvote⟩ := newBlockAccepted_cases hnew
      have hchain' : (callSystem env).Reach CallsClean chain' :=
        callsClean_setSoftCPBestChain hchain (fun p => hok chain p ⟨fuel, rounds, hadd⟩) hsoft
      rcases hvote with rfl | ⟨vote, p, relay, n₁, hown, hcast, rfl⟩
      · rw [clearUnchecked_chain]
        exact hchain'
      · rw [clearUnchecked_chain]
        obtain ⟨cast, rfl⟩ := (hown.sign _).cast (callInv_of_reach hchain').inv hcast
        exact hset (n := { n with chain := chain', signed := vote :: n.signed }) hchain' _

end Node

/-! ## What a true result means -/

section Result

variable {env : Env} {fuel rounds : Nat} {s s' : ChainState} {p : CBlockIndex}

/-- In runs with calls for branches without failed blocks only, a call that returns true leaves
the chain of the new tip exactly if its branch has no failed block either. -/
theorem switched_iff (h : (callSystem env).Reach CallsClean s) (hp : p ∈ s.mapBlockIndex)
    (hcall : setBestChain env fuel rounds s p = .ok (true, s')) : Switched s' p ↔ Clean s p := by
  have inv := callInv_of_reach h
  obtain ⟨plan, pfork, hplan, ok, hout⟩ := setBestChainWith_cases inv.inv hp hcall
  have inv' := hout.inv inv.inv hp ok
  constructor
  · intro hswitched
    by_contra hdirty
    obtain ⟨pfork', hfork, hdis', hcon, -⟩ := planReorg_eq hplan
    obtain ⟨hold, hpath, -⟩ := forkWith_spec inv.inv hp hfork
    obtain ⟨a, ha, hfailed⟩ : ∃ a ∈ p.ancestors, (s.nStatus a).failed = true := by
      rw [Clean, not_forall] at hdirty
      obtain ⟨a, ha⟩ := hdirty
      rw [Classical.not_imp, Bool.not_eq_false] at ha
      exact ⟨a, ha⟩
    have habove : a ∈ p.above pfork' := by
      rw [hpath] at ha
      refine (List.mem_append.mp ha).resolve_right fun hbelow => ?_
      have hmain : a ∈ CBlockIndex.ancestorsOf s.coinsTip := by
        rw [hold]
        exact List.mem_append_right _ hbelow
      rw [inv.clean a hmain] at hfailed
      cases hfailed
    have hshort := collectConnect_failed (p.above pfork') s [] ⟨a, habove, hfailed⟩
    have hlen : plan.vConnect.length < (p.above pfork').length := by
      rw [hcon, List.length_reverse]
      simpa using hshort
    cases hout with
    | switched hlong hdis hconnect hsw =>
      obtain ⟨-, hview⟩ := connectBlocks_view hconnect
      obtain ⟨-, -, -, htip, -, -⟩ := switchChain_spec hsw
      have hfork' : pfork' = pfork := by
        have hold' := ok.disconnect
        rw [hold, hdis'] at hold'
        exact CBlockIndex.ancestorsOf_injective (List.append_cancel_left hold')
      have hview' := hswitched.view
      rw [htip] at hview'
      rw [hview', ← hfork'] at hview
      have hview'' : p.ancestors = plan.vConnect.reverse ++ CBlockIndex.ancestorsOf pfork' := hview
      rw [hpath] at hview''
      have := congrArg List.length hview''
      simp only [List.length_append, List.length_reverse] at this
      omega
  · intro hclean
    obtain ⟨houtcome, -⟩ := setBestChain_clean inv hp hclean hcall
    have hafter := (inv.setBestChain hp hclean hcall).clean
    cases houtcome with
    | switched hlong hmap hmarks htip hbest =>
      refine ⟨htip, ?_, fun height hle => ?_, fun a ha => ?_⟩
      · cases hout with
        | switched hlong hdis hconnect hsw => exact switchChain_length hsw
      · obtain ⟨a, ha, hah⟩ := CBlockIndex.exists_ancestor hle
        refine ⟨a, ha, hah, (inv'.slots height a).mpr ⟨?_, hah⟩⟩
        rw [htip]
        exact ha
      · obtain ⟨height, hslot⟩ := List.getElem?_of_mem ha
        exact hafter a ((inv'.slots height a).mp hslot).1

end Result

/-- The block of the voters becomes the tip. -/
theorem switched_iff_votersBlock :
    ∃ s s', (callSystem voteNet).Reach CallsClean s ∧ votersBlock ∈ s.mapBlockIndex ∧
      setBestChain voteNet 8 7 s votersBlock = .ok (true, s') ∧ Switched s' votersBlock := by
  obtain ⟨s₀, s₁, hacc₀, hadd₀, hgrown₀, -, hacc₁, hx₁, hheavy, hadd₁⟩ := first_blocks
  have hreach₀ : (callSystem voteNet).Reach CallsClean s₀ :=
    callsClean_addToBlockIndex (.init rfl) hacc₀ hadd₀
  have hreach : (callSystem voteNet).Reach CallsClean (insertBlockIndex s₀ votersBlock) :=
    .step hreach₀ (a := .accept votersBlock.block votersBlock.pos) trivial ⟨hacc₁, by rw [hx₁]⟩
  have hcall : setBestChain voteNet 8 7 (insertBlockIndex s₀ votersBlock) votersBlock =
      .ok (true, s₁) :=
    (addToBlockIndex_heavier hgrown₀.search hgrown₀.unfailed hacc₁ hx₁ hheavy).symm.trans hadd₁
  have hmem : votersBlock ∈ (insertBlockIndex s₀ votersBlock).mapBlockIndex := List.mem_cons_self
  have hunfailed := hgrown₀.unfailed.insert hgrown₀.search.call.inv hacc₁
  rw [hx₁] at hunfailed
  have hclean : Clean (insertBlockIndex s₀ votersBlock) votersBlock :=
    hunfailed.clean (callInv_of_reach hreach).inv hmem
  exact ⟨_, s₁, hreach, hmem, hcall, (switched_iff hreach hmem hcall).mpr hclean⟩

/-! ## A failed block is voted for -/

/-- A block above the trunk whose spam message names a user and is not signed. -/
def unsignedIndex (k : Nat) : CBlockIndex := spamIndex "stranger" (trunk k) false (k + 2)

theorem unsignedIndex_nHeight (k : Nat) : (unsignedIndex k).nHeight = k + 2 := by
  show (trunk k).nHeight + 1 = k + 2
  rw [trunk_nHeight]

section Unsigned

variable {s : ChainState} {k : Nat}

theorem unsigned_heavier (h : TrunkAt anyNode k s) (hk : k < 1900) :
    heavier s (unsignedIndex k) = true := by
  rw [heavier, h.grown.tip]
  refine decide_eq_true ?_
  rw [unsignedIndex, spamIndex_work (trunk_work_small (by omega))]
  exact Nat.lt_add_of_pos_right (by decide)

theorem unsigned_not_genesis (hk : k < 1900) :
    voteNet.blockHash (unsignedIndex k).block ≠ voteNet.hashGenesisBlock := by
  have hgenesis : voteNet.hashGenesisBlock = (414098458 : Nat) := rfl
  have hnonce : (unsignedIndex k).block.nNonce = k + 2 := rfl
  rw [voteNet_blockHash, hgenesis, hnonce]
  split
  · decide
  · exact Nat.ne_of_lt (by omega)

theorem unsigned_rejected (h : TrunkAt anyNode k s) (hk : k < 1900) :
    ∃ s', (nodeSystem voteNet).Reach anyNode { chain := s' } ∧ Synced voteNet s' ∧
      SameChain (insertBlockIndex s (unsignedIndex k)) s' ∧
      (s'.nStatus (unsignedIndex k)).failed = true ∧ s'.lastSoftCP = (0, 0) := by
  have hfits := h.fits hk
  have tree := h.grown.search.call.inv.tree
  have hacc : Accepts voteNet s (unsignedIndex k).block (unsignedIndex k).pos :=
    accepts_spamBlock (.inr rfl) tree hfits.named hfits.small hfits.parent hfits.steady hfits.low
      hfits.clock hfits.cp
  have hx : newBlockIndex voteNet s (unsignedIndex k).block (unsignedIndex k).pos =
      unsignedIndex k := newBlockIndex_spamBlock tree hfits.parent
  have inv := (h.grown.search.insert hacc).call
  have hunfailed := h.grown.unfailed.insert h.grown.search.call.inv hacc
  rw [hx] at inv hunfailed
  have hmem : unsignedIndex k ∈ (insertBlockIndex s (unsignedIndex k)).mapBlockIndex :=
    List.mem_cons_self
  have hbest : (insertBlockIndex s (unsignedIndex k)).pindexBest ≠ none := by
    show s.pindexBest ≠ none
    rw [h.grown.tip]
    nofun
  obtain ⟨s', hcall, hsame⟩ : ∃ s', setBestChain voteNet 8 7
      (insertBlockIndex s (unsignedIndex k)) (unsignedIndex k) = .ok (false, s') ∧
      SameIndex (insertBlockIndex s (unsignedIndex k)) s' := by
    have htip : (insertBlockIndex s (unsignedIndex k)).coinsTip = (unsignedIndex k).pprev :=
      h.grown.coinsTip
    have hbad : connectBlock voteNet 8 (insertBlockIndex s (unsignedIndex k))
        (unsignedIndex k).pprev (unsignedIndex k).block (unsignedIndex k) false = _ :=
      connectBlock_unsigned (spamBlock_checked (.inr rfl) hfits.steady hfits.low hfits.clock) rfl
        (unsigned_not_genesis hk)
        (show CScript.extractPushDataString (spamBy "stranger" 0).userName 0 ≠ ascii "nobody" by
          decide)
        (show CScript.extractPushDataString (spamBy "stranger" 0).userName 1 = [] by decide)
    exact setBestChain_reject inv (hunfailed _ hmem) htip.symm hbest (htip ▸ hbad)
  have hfailed : (s'.nStatus (unsignedIndex k)).failed = true := by
    obtain ⟨hout, -⟩ := setBestChain_clean inv hmem (hunfailed.clean inv.inv hmem) hcall
    have hlong : (CBlockIndex.ancestorsOf (insertBlockIndex s (unsignedIndex k)).coinsTip).length <
        (unsignedIndex k).ancestors.length := by
      show (CBlockIndex.ancestorsOf s.coinsTip).length < _
      rw [h.grown.coinsTip]
      exact Nat.lt_succ_self _
    cases hout with
    | short hshort => exact absurd hlong (Nat.not_lt_of_gt hshort)
    | @rejected _ q hle hq hqout hne hchain hrejects =>
      rcases List.mem_cons.mp hq with hq | hq
      · have hvalid : (s'.nStatus (unsignedIndex k)).failedValid = true :=
          (hrejects.failedValid _).mpr (.inl hq.symm)
        rw [BlockStatus.failed, hvalid]
        rfl
      · refine absurd ?_ hqout
        show q ∈ CBlockIndex.ancestorsOf s.coinsTip
        rw [h.grown.coinsTip]
        exact hq
  have hadd : addToBlockIndex voteNet 8 8 s (unsignedIndex k).block (unsignedIndex k).pos =
      .ok (false, s') :=
    (addToBlockIndex_heavier h.grown.search h.grown.unfailed hacc hx (unsigned_heavier h hk)).trans
      hcall
  have hblock : Node.acceptBlock voteNet 8 8 (walletOf none) false { chain := s }
      (unsignedIndex k).block (unsignedIndex k).pos = .ok (false, { chain := s' }) := by
    rw [Node.acceptBlock]
    simp only [hacc.accepted, hadd]
  have synced : Synced voteNet (insertBlockIndex s (unsignedIndex k)) :=
    synced_step h.grown.synced (a := .accept _ _) trivial ⟨hacc, by rw [hx]⟩
  exact ⟨s', .step h.reach (a := .block (walletOf none) false _ _) trivial
    ⟨hacc, 8, 8, false, hblock⟩,
    synced.mark hsame, hsame.toSameChain, hfailed,
    (setBestChain_soft hcall).trans h.soft⟩

/-- The rejected block, indexed above the tip, is called with as a soft checkpoint. -/
theorem unsigned_softCalls {s₁ : ChainState} (h : TrunkAt anyNode k s) (hk : k < 1900)
    (hk' : k + 2 ≠ 546) (inv : ChainInv voteNet s₁)
    (hsame : SameChain (insertBlockIndex s (unsignedIndex k)) s₁) :
    SoftCalls voteNet { s₁ with lastSoftCP := (k + 2, k + 2) } (unsignedIndex k) := by
  have hmain : ∀ p, s₁.isInMainChain p = true ↔ p ∈ (trunk k).ancestors := by
    intro p
    have htip : s₁.coinsTip = some (trunk k) := hsame.tip.trans h.grown.coinsTip
    rw [inv.isInMainChain_iff, htip]
    rfl
  have hmem : unsignedIndex k ∈ s₁.mapBlockIndex := by
    rw [hsame.map]
    exact List.mem_cons_self
  refine ⟨rfl, Nat.succ_ne_zero _, ?_, ?_, ?_⟩
  · have hhash : voteNet.blockHash (unsignedIndex k).block = (k + 2 : Nat) := by
      have hheight : (unsignedIndex k).block.nHeight = (k + 2 : Nat) := by
        show (trunk k).block.nHeight + 1 = _
        rw [(steady_trunk (by omega)).height, trunk_nHeight]
        rfl
      rw [voteNet_blockHash, hheight, if_neg (by omega)]
      rfl
    show s₁.findBlockIndex voteNet (k + 2 : Nat) = some (unsignedIndex k)
    rw [← hhash]
    exact inv.tree.find_hash hmem
  · show s₁.isInMainChain (unsignedIndex k) = false
    rw [← Bool.not_eq_true, hmain]
    intro hin
    have hle := CBlockIndex.nHeight_le_of_mem_ancestors hin
    rw [unsignedIndex_nHeight, trunk_nHeight] at hle
    omega
  · refine List.any_eq_true.mpr ⟨trunk k, List.mem_cons_of_mem _ ?_, (hmain _).mpr ?_⟩
    · exact CBlockIndex.self_mem_ancestors _
    · exact CBlockIndex.self_mem_ancestors _

theorem unsigned_votedFor (hk : k < 1900) (hk' : k + 2 ≠ 546)
    (hdecides : decides (k + 1 : Nat) (k + 2, k + 2) = true) :
    ∃ n vote found s', (nodeSystem voteNet).Reach anyNode n ∧
      getTransaction voteNet 8 n.chain vote.username (-1) = .ok found ∧
      (n.castWith voteNet (found.map Prod.fst) vote).updated = true ∧
      SoftCalls voteNet (n.setSoft (n.castWith voteNet (found.map Prod.fst) vote).soft).chain
        (unsignedIndex k) ∧
      setBestChain voteNet 8 8
        (n.setSoft (n.castWith voteNet (found.map Prod.fst) vote).soft).chain (unsignedIndex k) =
          .ok (true, s') ∧ s'.coinsTip = some (trunk k) := by
  obtain ⟨s, hs⟩ : ∃ s, TrunkAt anyNode k s := trunk_reached (fun _ _ _ => trivial) k (by omega)
  obtain ⟨s₁, hreach, synced, hsame, hfailed, hsoft⟩ := unsigned_rejected hs hk
  have htip : s₁.coinsTip = some (trunk k) := hsame.tip.trans hs.grown.coinsTip
  have hheight : s₁.nBestHeight = (k + 1 : Nat) := by
    have hbest : s₁.pindexBest = some (trunk k) := hsame.best.trans hs.grown.tip
    rw [ChainState.nBestHeight, hbest, ← trunk_nHeight k]
  rw [← hheight] at hdecides
  obtain ⟨m, found, hm, hchain, -, hfound, hupdated, hlast⟩ :=
    reach_decided (n := { chain := s₁ }) (fun _ _ _ => trivial) rfl hreach
      (by rw [Node.soft, hsoft]) synced htip (steady_trunk (by omega)) hdecides
  have hstate : (m.setSoft (m.castWith voteNet (found.map Prod.fst)
      (ballot (k + 2, k + 2) "mf3")).soft).chain = { s₁ with lastSoftCP := (k + 2, k + 2) } := by
    rw [Node.setSoft, hlast, hchain]
  obtain ⟨s', hcall, hstay, -⟩ : ∃ s', setBestChain voteNet 8 8
      { s₁ with lastSoftCP := (k + 2, k + 2) } (unsignedIndex k) = .ok (true, s') ∧
      s'.coinsTip = s₁.coinsTip ∧ s'.pindexBest = some (unsignedIndex k) :=
    setBestChain_failed hfailed htip.symm
  refine ⟨m, ballot (k + 2, k + 2) "mf3", found, s', hm, hfound, hupdated, ?_⟩
  rw [hstate]
  exact ⟨unsigned_softCalls hs hk hk' synced.inv hsame, hcall, hstay.trans htip⟩

end Unsigned

/-- A failed block is voted in: `SetBestChain` returns true and the chain stays where it was. -/
theorem failed_checkpoint_not_switched :
    ∃ n vote found p s', (nodeSystem voteNet).Reach anyNode n ∧
      getTransaction voteNet 8 n.chain vote.username (-1) = .ok found ∧
      (n.castWith voteNet (found.map Prod.fst) vote).updated = true ∧
      SoftCalls voteNet (n.setSoft (n.castWith voteNet (found.map Prod.fst) vote).soft).chain p ∧
      setBestChain voteNet 8 8
        (n.setSoft (n.castWith voteNet (found.map Prod.fst) vote).soft).chain p = .ok (true, s') ∧
      ¬Switched s' p := by
  obtain ⟨n, vote, found, s', hn, hfound, hupdated, hcalls, hcall, htip⟩ :=
    unsigned_votedFor (k := 550) (by decide) (by decide) (by decide +kernel)
  refine ⟨n, vote, found, _, s', hn, hfound, hupdated, hcalls, hcall, fun hswitched => ?_⟩
  have hview := congrArg (Option.map CBlockIndex.nHeight) (htip.symm.trans hswitched.view)
  rw [Option.map_some, Option.map_some, trunk_nHeight, unsignedIndex_nHeight] at hview
  exact absurd hview (by decide)

end CoMoNet
