import CoMoNet.Chain.Switched

/-!
# Most work

The tip has the most work of all blocks without a rejected block below (`SearchInv`).
`setBestChain` refuses a branch with fewer blocks, however much work it has, and that is
the only way to lose this (`mostWork_iff`).
-/

namespace CoMoNet

open GuardedRun (System)

/-- Neither the block nor one of its ancestors was rejected by `ConnectBlock`. -/
def Eligible (s : ChainState) (p : CBlockIndex) : Prop :=
  ∀ a ∈ p.ancestors, (s.nStatus a).failedValid = false

/-- The tip is eligible and has the most work of all eligible blocks. -/
def TipHasMostWork (s : ChainState) : Prop :=
  ∃ best, s.pindexBest = some best ∧ best ∈ s.mapBlockIndex ∧ Eligible s best ∧
    ∀ p ∈ s.mapBlockIndex, Eligible s p → p.nChainWork ≤ best.nChainWork

/-- The invariant of the search; `new` may have more work than the tip. -/
structure SearchInv (env : Env) (new : Option CBlockIndex) (s : ChainState) : Prop where
  call : CallInv env s
  tip : s.coinsTip = s.pindexBest
  /-- There is a tip, unless the genesis block has just arrived. -/
  started : ∀ p ∈ s.mapBlockIndex, s.pindexBest = none → some p = new ∧ Eligible s p
  marks : ∀ p ∈ s.mapBlockIndex, (s.nStatus p).failed = true → ¬Eligible s p
  cands : ∀ p ∈ s.mapBlockIndex, Eligible s p → p ∈ s.setBlockIndexValid
  unmarked : ∀ p ∈ s.setBlockIndexValid, (s.nStatus p).failed = false
  nodup : s.setBlockIndexValid.Nodup
  /-- Eligible blocks have no more work than the tip. -/
  most : ∀ p ∈ s.mapBlockIndex, some p ≠ new → Eligible s p →
    ∀ best, s.pindexBest = some best → p.nChainWork ≤ best.nChainWork

section Search

variable {env : Env} {fuel rounds : Nat} {s s' : ChainState} {p q x best : CBlockIndex} {b : Bool}
variable {new : Option CBlockIndex}
variable {block : CBlock} {pos : CDiskBlockPos} {ps : List CBlockIndex}

theorem Clean.eligible (h : Clean s p) : Eligible s p := by
  intro a ha
  have hfailed := h a ha
  rw [BlockStatus.failed, Bool.or_eq_false_iff] at hfailed
  exact hfailed.1

theorem Eligible.of_mem (h : Eligible s p) (ha : q ∈ p.ancestors) : Eligible s q :=
  fun a haq => h a (CBlockIndex.ancestors_trans haq ha)

namespace SearchInv

theorem setClock (inv : SearchInv env new s) (now : Int) :
    SearchInv env new { s with clock := now } :=
  ⟨inv.call.setClock now, inv.tip, inv.started, inv.marks, inv.cands, inv.unmarked, inv.nodup,
    inv.most⟩

/-- The tip has no rejected block below. -/
theorem tip_eligible (inv : SearchInv env new s) (hbest : s.pindexBest = some best) :
    best ∈ s.mapBlockIndex ∧ Clean s best := by
  have htip : s.coinsTip = some best := inv.tip.trans hbest
  refine ⟨inv.call.inv.tip best htip, fun a ha => inv.call.clean a ?_⟩
  rw [htip]
  exact ha

/-- With no exception, or one with no more work, the tip has the most work. -/
theorem tipHasMostWork (inv : SearchInv env new s) (hbest : s.pindexBest = some best)
    (hnew : ∀ p ∈ s.mapBlockIndex, some p = new → Eligible s p →
      p.nChainWork ≤ best.nChainWork) : TipHasMostWork s := by
  obtain ⟨hmem, hclean⟩ := inv.tip_eligible hbest
  refine ⟨best, hbest, hmem, hclean.eligible, fun p hp helig => ?_⟩
  by_cases hp' : some p = new
  · exact hnew p hp hp' helig
  · exact inv.most p hp hp' helig best hbest

theorem settle (inv : SearchInv env new s) (hbest : s.pindexBest = some best)
    (hnew : ∀ p ∈ s.mapBlockIndex, some p = new → Eligible s p →
      p.nChainWork ≤ best.nChainWork) : SearchInv env none s where
  call := inv.call
  tip := inv.tip
  started _ _ hnone := by
    rw [hbest] at hnone
    cases hnone
  marks := inv.marks
  cands := inv.cands
  unmarked := inv.unmarked
  nodup := inv.nodup
  most p hp _ helig best' hbest' := by
    obtain rfl : best = best' := Option.some.inj (hbest.symm.trans hbest')
    by_cases hp' : some p = new
    · exact hnew p hp hp' helig
    · exact inv.most p hp hp' helig best hbest

end SearchInv

/-! ## A block is entered -/

theorem searchInv_init (env : Env) : SearchInv env none {} where
  call := callInv_init env
  tip := rfl
  started := nofun
  marks := nofun
  cands := nofun
  unmarked := nofun
  nodup := List.nodup_nil
  most := nofun

theorem newBlockIndex_pprev (inv : ChainInv env s)
    (h : Accepts env s block pos) :
    ∀ a ∈ CBlockIndex.ancestorsOf (newBlockIndex env s block pos).pprev, a ∈ s.mapBlockIndex := by
  intro a ha
  rcases (h.cases inv.tree).2 with ⟨-, -, hroot⟩ | ⟨-, q, hq, -, -, hnext⟩
  · rw [hroot] at ha
    cases ha
  · rw [hnext] at ha
    exact inv.tree.ancestors_mem hq a ha

theorem eligible_insertBlockIndex (inv : ChainInv env s)
    (h : Accepts env s block pos) (hp : p ∈ s.mapBlockIndex) :
    Eligible (insertBlockIndex s (newBlockIndex env s block pos)) p ↔ Eligible s p := by
  have hstatus : ∀ a ∈ p.ancestors,
      (insertBlockIndex s (newBlockIndex env s block pos)).nStatus a = s.nStatus a := fun a ha =>
    insertBlockIndex_status inv h (inv.tree.ancestors_mem hp a ha)
  exact forall₂_congr fun a ha => by rw [hstatus a ha]

/-- A new block is the exception. -/
theorem SearchInv.insert (inv : SearchInv env none s)
    (h : Accepts env s block pos) :
    SearchInv env (some (newBlockIndex env s block pos))
      (insertBlockIndex s (newBlockIndex env s block pos)) := by
  have hfresh : ((insertBlockIndex s (newBlockIndex env s block pos)).nStatus
      (newBlockIndex env s block pos)).failed = false := by
    have hself : (insertBlockIndex s (newBlockIndex env s block pos)).nStatus
        (newBlockIndex env s block pos) = { valid := 3, haveData := true } := if_pos rfl
    rw [hself]
    rfl
  refine ⟨inv.call.accept h, inv.tip, fun p hp hnone => ?_, fun p hp hfailed => ?_,
    fun p hp helig => ?_, fun p hp => ?_, ?_, fun p hp hne helig best hbest => ?_⟩
  · have hempty : s.mapBlockIndex = [] := by
      cases hmap : s.mapBlockIndex with
      | nil => rfl
      | cons q rest =>
        have hq : q ∈ s.mapBlockIndex := by rw [hmap]; exact List.mem_cons_self
        exact absurd (inv.started q hq hnone).1 (Option.some_ne_none q)
    rcases List.mem_cons.mp hp with rfl | hp
    · refine ⟨rfl, fun a ha => ?_⟩
      rw [BlockStatus.failed, Bool.or_eq_false_iff] at hfresh
      rw [CBlockIndex.ancestors_eq] at ha
      rcases List.mem_cons.mp ha with rfl | ha
      · exact hfresh.1
      · have ha' := newBlockIndex_pprev inv.call.inv h a ha
        rw [hempty] at ha'
        cases ha'
    · have hp' : p ∈ s.mapBlockIndex := hp
      rw [hempty] at hp'
      cases hp'
  · rcases List.mem_cons.mp hp with rfl | hp
    · rw [hfresh] at hfailed
      cases hfailed
    · rw [insertBlockIndex_status inv.call.inv h hp] at hfailed
      rw [eligible_insertBlockIndex inv.call.inv h hp]
      exact inv.marks p hp hfailed
  · rcases List.mem_cons.mp hp with rfl | hp
    · exact List.mem_cons_self
    · rw [eligible_insertBlockIndex inv.call.inv h hp] at helig
      exact List.mem_cons_of_mem _ (inv.cands p hp helig)
  · rcases List.mem_cons.mp hp with rfl | hp
    · exact hfresh
    · rw [insertBlockIndex_status inv.call.inv h (inv.call.inv.cands hp)]
      exact inv.unmarked p hp
  · refine List.nodup_cons.mpr ⟨fun hmem => ?_, inv.nodup⟩
    exact newBlockIndex_notMem inv.call.inv h (inv.call.inv.cands hmem)
  · rcases List.mem_cons.mp hp with rfl | hp
    · exact absurd rfl hne
    · rw [eligible_insertBlockIndex inv.call.inv h hp] at helig
      exact inv.most p hp (by simp) helig best hbest

/-! ## A candidate is given up -/

/-- Marking takes the blocks of the list out of the candidates. -/
theorem markFailed_cands : ∀ (ps : List CBlockIndex) (s : ChainState),
    s.setBlockIndexValid.Nodup →
    (ps.foldl markFailedChild s).setBlockIndexValid.Nodup ∧
      ∀ x, x ∈ (ps.foldl markFailedChild s).setBlockIndexValid ↔
        x ∈ s.setBlockIndexValid ∧ x ∉ ps
  | [], s, h => ⟨h, fun x => by simp⟩
  | p :: ps, s, h => by
    have herase : (markFailedChild s p).setBlockIndexValid = s.setBlockIndexValid.erase p := rfl
    obtain ⟨hnodup, hmem⟩ := markFailed_cands ps (markFailedChild s p) (herase ▸ h.erase p)
    rw [List.foldl_cons]
    refine ⟨hnodup, fun x => ?_⟩
    rw [hmem, herase, h.mem_erase_iff, List.mem_cons, not_or]
    tauto

theorem SearchInv.giveUp {descendants : List CBlockIndex} (inv : SearchInv env new s)
    (hq : q ∈ s.setBlockIndexValid) (hfailed : checkAncestry s q [] [] = .failed descendants)
    (h : invalidChainFound (descendants.foldl markFailedChild s) q = .ok s') :
    SearchInv env new s' := by
  obtain ⟨_, f, below, hpath, hf, rfl⟩ := checkAncestry_failed hfailed
  have hqmem := inv.call.inv.cands hq
  have hsame := (sameIndex_markFailed descendants s).trans (sameIndex_invalidChainFound h)
  obtain ⟨hmarks, hstatus⟩ := invalidChainFound_marks h
  obtain ⟨hnodup, hcands⟩ := markFailed_cands descendants s inv.nodup
  have helig : ∀ p, Eligible s' p ↔ Eligible s p := fun p => forall₂_congr fun a _ => by
    rw [hstatus, (markFailed_status descendants s a).2.1]
  have hbad : ∀ p ∈ descendants, ¬Eligible s p := by
    intro p hp hp'
    have hfp : f ∈ p.ancestors := CBlockIndex.mem_ancestors_of_split hpath hp
    have hfmem : f ∈ s.mapBlockIndex := by
      refine inv.call.inv.tree.ancestors_mem hqmem f ?_
      rw [hpath]
      exact List.mem_append_right _ List.mem_cons_self
    exact inv.marks f hfmem hf (hp'.of_mem hfp)
  refine ⟨inv.call.giveUp hfailed h, ?_, ?_, fun p hp hp' => ?_, fun p hp hp' => ?_,
    fun p hp => ?_, ?_, fun p hp hne hp' => ?_⟩
  · rw [hsame.tip, hsame.best]
    exact inv.tip
  · rw [hsame.map, hsame.best]
    intro p hp hnone
    rw [helig]
    exact inv.started p hp hnone
  · rw [hsame.map] at hp
    rw [helig]
    by_cases hmem : p ∈ descendants
    · exact hbad p hmem
    · rw [hstatus, (markFailed_status descendants s p).1 hmem] at hp'
      exact inv.marks p hp hp'
  · rw [hsame.map] at hp
    rw [helig] at hp'
    rw [hmarks.cands, hcands]
    exact ⟨inv.cands p hp hp', fun hmem => hbad p hmem hp'⟩
  · rw [hmarks.cands, hcands] at hp
    rw [hstatus, (markFailed_status descendants s p).1 hp.2]
    exact inv.unmarked p hp.1
  · rw [hmarks.cands]
    exact hnodup
  · rw [hsame.map] at hp
    rw [helig] at hp'
    rw [hsame.best]
    exact inv.most p hp hne hp'

/-! ## The candidate with the most work -/

/-- The candidate picked has the most work. -/
theorem bestCandidate_most : ∀ {ps : List CBlockIndex} {q : CBlockIndex},
    bestCandidate env ps = some q → ∀ p ∈ ps, p.nChainWork ≤ q.nChainWork
  | x :: ps, q, h => by
    rw [bestCandidate] at h
    split at h
    · rename_i hnone
      cases h
      intro p hp
      cases ps with
      | nil =>
        rw [List.mem_singleton.mp hp]
      | cons y ys =>
        rw [bestCandidate] at hnone
        split at hnone
        · cases hnone
        · split at hnone <;> cases hnone
    · rename_i q' hq'
      have ih := bestCandidate_most hq'
      split at h
      · rename_i hless
        cases h
        intro p hp
        rcases List.mem_cons.mp hp with rfl | hp
        · rw [workLess, Bool.or_eq_true, Bool.and_eq_true, decide_eq_true_eq, beq_iff_eq] at hless
          rcases hless with hlt | ⟨heq, -⟩
          · exact hlt.le
          · exact heq.le
        · exact ih p hp
      · rename_i hless
        cases h
        have hge : q'.nChainWork ≤ x.nChainWork := by
          rw [workLess, Bool.not_eq_true, Bool.or_eq_false_iff, decide_eq_false_iff_not] at hless
          exact Nat.le_of_not_lt hless.1
        intro p hp
        rcases List.mem_cons.mp hp with rfl | hp
        · exact Nat.le_refl _
        · exact (ih p hp).trans hge

theorem bestCandidate_none (h : bestCandidate env ps = none) : ps = [] := by
  cases ps with
  | nil => rfl
  | cons x ps =>
    rw [bestCandidate] at h
    split at h
    · cases h
    · split at h <;> cases h

theorem SearchInv.attach (inv : SearchInv env (some x) s)
    (hq : bestCandidate env s.setBlockIndexValid = some q)
    (hne : s.pindexBest.any (fun best => best == q || best.nChainWork == q.nChainWork) = false)
    (h : checkAncestry s q [] [] = .attach ps) :
    q = x ∧ Clean s x ∧ ps = [x] ∧ heavier s x = true := by
  obtain ⟨path, below, hpath, hclean, hps, hbelow⟩ := checkAncestry_path h
  have hcleanq : Clean s q := inv.call.clean_of_attach h
  have hqmem := inv.call.inv.cands (bestCandidate_mem hq)
  have hlight : ∀ p ∈ q.ancestors, p ≠ x → heavier s p = false := by
    intro p hp hpx
    have hpmem := inv.call.inv.tree.ancestors_mem hqmem p hp
    have helig := hcleanq.eligible.of_mem hp
    rw [heavier]
    cases hbest : s.pindexBest with
    | none => exact absurd (Option.some.inj (inv.started p hpmem hbest).1) hpx
    | some best =>
      have hle := inv.most p hpmem (fun heq => hpx (Option.some.inj heq)) helig best hbest
      simpa using hle
  have hheavy : heavier s q = true := by
    rw [heavier]
    cases hbest : s.pindexBest with
    | none => rfl
    | some best =>
      obtain ⟨hmem, hbclean⟩ := inv.tip_eligible hbest
      have hle := bestCandidate_most hq best (inv.cands best hmem hbclean.eligible)
      rw [hbest, Option.any_some, Bool.or_eq_false_iff, beq_eq_false_iff_ne,
        beq_eq_false_iff_ne] at hne
      exact decide_eq_true (Nat.lt_of_le_of_ne hle hne.2)
  have hqx : q = x := by
    by_contra hqx
    rw [hlight q (CBlockIndex.self_mem_ancestors q) hqx] at hheavy
    cases hheavy
  subst hqx
  refine ⟨rfl, hcleanq, ?_, hheavy⟩
  have hrest : path.filter (heavier s) = [] := by
    refine List.filter_eq_nil_iff.mpr fun p hp => ?_
    have hanc : p ∈ q.ancestors := by
      rw [hpath]
      exact List.mem_append_left _ (List.mem_cons_of_mem _ hp)
    have hlt : p.nHeight < q.nHeight := by
      have hsorted := CBlockIndex.ancestors_sorted q
      rw [hpath, List.cons_append] at hsorted
      exact List.rel_of_pairwise_cons hsorted (List.mem_append_left _ hp)
    rw [hlight p hanc fun heq => by rw [heq] at hlt; omega]
    exact Bool.false_ne_true
  rw [hps, List.nil_append, List.filter_cons, if_pos hheavy, hrest]
  rfl

/-- There is always a candidate: the tip, or the genesis block. -/
theorem SearchInv.cands_ne_nil (inv : SearchInv env (some x) s) (hx : x ∈ s.mapBlockIndex) :
    s.setBlockIndexValid ≠ [] := by
  cases hbest : s.pindexBest with
  | none => exact List.ne_nil_of_mem (inv.cands x hx (inv.started x hx hbest).2)
  | some best =>
    obtain ⟨hmem, hclean⟩ := inv.tip_eligible hbest
    exact List.ne_nil_of_mem (inv.cands best hmem hclean.eligible)

/-- The search ends with only marks changed: the new block has no more work, or `setBestChain` is
called with it. -/
theorem connectBestBlock_search (inv : SearchInv env (some x) s) (hx : x ∈ s.mapBlockIndex)
    (h : connectBestBlock env fuel rounds s = .ok (b, s')) :
    ∃ t, SearchInv env (some x) t ∧ SameIndex s t ∧ (∀ p, Eligible t p ↔ Eligible s p) ∧
      ((s' = t ∧ ∃ best, t.pindexBest = some best ∧
          (Eligible t x → x.nChainWork ≤ best.nChainWork)) ∨
        Clean t x ∧ heavier t x = true ∧ ∃ n, setBestChain env fuel n t x = .ok (b, s')) := by
  induction rounds generalizing s with
  | zero => cases h
  | succ rounds ih =>
    rw [connectBestBlock] at h
    split at h
    · rename_i hnone
      exact absurd (bestCandidate_none hnone) (inv.cands_ne_nil hx)
    rename_i q hq
    split at h
    · rename_i hequal
      cases h
      refine ⟨_, inv, SameIndex.refl _, fun _ => Iff.rfl, .inl ⟨rfl, ?_⟩⟩
      rw [Option.any_eq_true] at hequal
      obtain ⟨best, hbest, hequal⟩ := hequal
      refine ⟨best, hbest, fun helig => ?_⟩
      have hle := bestCandidate_most hq x (inv.cands x hx helig)
      rw [Bool.or_eq_true, beq_iff_eq, beq_iff_eq] at hequal
      rcases hequal with rfl | hwork
      · exact hle
      · rw [hwork]
        exact hle
    rename_i hnot
    split at h
    · rename_i descendants hfailed
      split at h
      · cases h
      rename_i s₁ hfound
      have hsame := (sameIndex_markFailed descendants s).trans (sameIndex_invalidChainFound hfound)
      obtain ⟨-, hstatus⟩ := invalidChainFound_marks hfound
      obtain ⟨t, ht, hsame', helig, hend⟩ := ih (inv.giveUp (bestCandidate_mem hq) hfailed hfound)
        (hsame.map ▸ hx) h
      refine ⟨t, ht, hsame.trans hsame', fun p => (helig p).trans ?_, hend⟩
      exact forall₂_congr fun a _ => by rw [hstatus, (markFailed_status descendants s a).2.1]
    · rename_i ps hattach
      obtain ⟨rfl, hclean, rfl, hheavy⟩ := inv.attach hq (Bool.eq_false_of_not_eq_true hnot) hattach
      refine ⟨s, inv, SameIndex.refl s, fun _ => Iff.rfl, .inr ⟨hclean, hheavy, rounds, ?_⟩⟩
      rw [setBestChain]
      rw [setBestChains] at h
      split at h
      · cases h
      · rename_i hone
        rw [hone]
        exact h
      · rename_i s₁ hone
        rw [setBestChains] at h
        rw [hone]
        exact h

/-! ## The call -/

theorem SearchInv.reject (inv : SearchInv env (some x) s) (call : CallInv env s')
    (hq : q ∈ x.ancestors) (hbest : s.pindexBest ≠ none) (hsame : SameChain s s')
    (h : Rejects s q s') : SearchInv env none s' := by
  have hmono : ∀ p, Eligible s' p → Eligible s p ∧ q ∉ p.ancestors := by
    intro p helig
    have hnot : ∀ a ∈ p.ancestors, ¬(a = q ∨ (s.nStatus a).failedValid = true) := by
      intro a ha hor
      have hfailed := (h.failedValid a).mpr hor
      rw [helig a ha] at hfailed
      cases hfailed
    exact ⟨fun a ha => Bool.eq_false_of_not_eq_true fun hf => hnot a ha (.inr hf),
      fun hqp => hnot q hqp (.inl rfl)⟩
  refine ⟨call, ?_, fun p _ hnone => ?_, fun p hp hfailed helig => ?_, fun p hp helig => ?_,
    fun p hp => ?_, ?_, fun p hp _ helig best hbest' => ?_⟩
  · rw [hsame.tip, hsame.best]
    exact inv.tip
  · rw [hsame.best] at hnone
    exact absurd hnone hbest
  · obtain ⟨helig', hqp⟩ := hmono p helig
    rw [hsame.map] at hp
    refine inv.marks p hp ?_ helig'
    rw [BlockStatus.failed, Bool.or_eq_true, h.failedValid, h.failedChild] at hfailed
    rw [BlockStatus.failed, Bool.or_eq_true]
    rcases hfailed with (rfl | hf) | hf
    · exact absurd (CBlockIndex.self_mem_ancestors p) hqp
    · exact .inl hf
    · exact .inr hf
  · obtain ⟨helig', hqp⟩ := hmono p helig
    rw [hsame.map] at hp
    rw [h.cands, inv.nodup.mem_erase_iff]
    refine ⟨?_, inv.cands p hp helig'⟩
    rintro rfl
    exact hqp (CBlockIndex.self_mem_ancestors p)
  · rw [h.cands, inv.nodup.mem_erase_iff] at hp
    have hold := inv.unmarked p hp.2
    rw [BlockStatus.failed, Bool.or_eq_false_iff] at hold ⊢
    refine ⟨Bool.eq_false_of_not_eq_true fun hf => ?_, (h.failedChild p).trans hold.2⟩
    rcases (h.failedValid p).mp hf with heq | hf
    · exact hp.1 heq
    · rw [hold.1] at hf
      cases hf
  · rw [h.cands]
    exact inv.nodup.erase q
  · obtain ⟨helig', hqp⟩ := hmono p helig
    rw [hsame.map] at hp
    rw [hsame.best] at hbest'
    refine inv.most p hp (fun heq => hqp ?_) helig' best hbest'
    rw [Option.some.inj heq]
    exact hq

theorem SearchInv.switch (inv : SearchInv env (some x) s) (call : CallInv env s')
    (hheavy : heavier s x = true) (hmap : s'.mapBlockIndex = s.mapBlockIndex)
    (hmarks : SameMarks s s') (htip : s'.coinsTip = some x) (hbest : s'.pindexBest = some x) :
    SearchInv env none s' := by
  have helig : ∀ p, Eligible s' p ↔ Eligible s p := fun p => forall₂_congr fun a _ => by
    rw [hmarks.failedValid]
  refine ⟨call, htip.trans hbest.symm, fun p _ hnone => ?_, fun p hp hfailed => ?_,
    fun p hp hp' => ?_, fun p hp => ?_, ?_, fun p hp _ hp' best hbest' => ?_⟩
  · rw [hbest] at hnone
    cases hnone
  · rw [hmap] at hp
    rw [hmarks.failed] at hfailed
    rw [helig]
    exact inv.marks p hp hfailed
  · rw [hmap] at hp
    rw [helig] at hp'
    rw [hmarks.cands]
    exact inv.cands p hp hp'
  · rw [hmarks.cands] at hp
    rw [hmarks.failed]
    exact inv.unmarked p hp
  · rw [hmarks.cands]
    exact inv.nodup
  · obtain rfl : x = best := Option.some.inj (hbest.symm.trans hbest')
    rw [hmap] at hp
    rw [helig] at hp'
    by_cases hpx : p = x
    · rw [hpx]
    · rw [heavier] at hheavy
      cases hold : s.pindexBest with
      | none => exact absurd (Option.some.inj (inv.started p hp hold).1) hpx
      | some old =>
        rw [hold] at hheavy
        have hle := inv.most p hp (fun heq => hpx (Option.some.inj heq)) hp' old hold
        have hlt : old.nChainWork < x.nChainWork := of_decide_eq_true hheavy
        omega

end Search

/-! ## Arriving blocks -/

/-- A block that passed the checks is entered; the clock may then show any time. -/
def AddStep (env : Env) (s : ChainState) (a : CBlock × CDiskBlockPos) (s' : ChainState) : Prop :=
  Accepts env s a.1 a.2 ∧ ∃ fuel rounds b t,
    addToBlockIndex env fuel rounds s a.1 a.2 = .ok (b, t) ∧ s' = { t with clock := s'.clock }

/-- A node without soft checkpoints, from before its genesis block on. -/
def addSystem (env : Env) : System ChainState (CBlock × CDiskBlockPos) where
  init s := s = { clock := s.clock }
  step := AddStep env

/-- A block with more work and no rejected block below is not lower than the tip. -/
def NotLower (env : Env) (s : ChainState) (a : CBlock × CDiskBlockPos) : Prop :=
  let x := newBlockIndex env s a.1 a.2
  ∀ best, s.pindexBest = some best →
    (∀ c ∈ CBlockIndex.ancestorsOf x.pprev, (s.nStatus c).failedValid = false) →
    best.nChainWork < x.nChainWork → best.nHeight ≤ x.nHeight

section Arrivals

variable {env : Env} {fuel rounds : Nat} {s s' : ChainState} {b : Bool} {block : CBlock}
variable {pos : CDiskBlockPos}

/-- A new block is eligible if nothing below it was rejected. -/
theorem eligible_newBlockIndex (inv : ChainInv env s) (h : Accepts env s block pos) :
    Eligible (insertBlockIndex s (newBlockIndex env s block pos)) (newBlockIndex env s block pos) ↔
      ∀ c ∈ CBlockIndex.ancestorsOf (newBlockIndex env s block pos).pprev,
        (s.nStatus c).failedValid = false := by
  have hself : (insertBlockIndex s (newBlockIndex env s block pos)).nStatus
      (newBlockIndex env s block pos) = { valid := 3, haveData := true } := if_pos rfl
  have hstatus := fun c hc =>
    insertBlockIndex_status inv h (newBlockIndex_pprev inv h c hc)
  rw [Eligible, CBlockIndex.ancestors_eq]
  constructor
  · intro helig c hc
    rw [← hstatus c hc]
    exact helig c (List.mem_cons_of_mem _ hc)
  · intro helig c hc
    rcases List.mem_cons.mp hc with rfl | hc
    · rw [hself]
    · rw [hstatus c hc]
      exact helig c hc

/-- An arrival keeps the invariant and the most work exactly if it is no lower block with more
work. -/
theorem SearchInv.add (inv : SearchInv env none s) (hacc : Accepts env s block pos)
    (h : addToBlockIndex env fuel rounds s block pos = .ok (b, s')) :
    (NotLower env s (block, pos) → SearchInv env none s' ∧ TipHasMostWork s') ∧
      (TipHasMostWork s' → NotLower env s (block, pos)) := by
  have hnew := (hacc.cases inv.call.inv.tree).1
  rw [addToBlockIndex] at h
  split at h
  · rename_i p hp
    obtain ⟨hmem, hhash⟩ := findBlockIndex_some hp
    exact absurd hhash (hnew p hmem)
  have hx : newBlockIndex env s block pos ∈
      (insertBlockIndex s (newBlockIndex env s block pos)).mapBlockIndex := List.mem_cons_self
  have hxelig := eligible_newBlockIndex inv.call.inv hacc
  obtain ⟨t, ht, hsame, helig, hend⟩ := connectBestBlock_search (inv.insert hacc) hx h
  have hbest : t.pindexBest = s.pindexBest := hsame.best
  generalize hxdef : newBlockIndex env s block pos = x at *
  rw [← helig] at hxelig
  have hlower : NotLower env s (block, pos) ↔ ∀ best, t.pindexBest = some best → Eligible t x →
      best.nChainWork < x.nChainWork → best.nHeight ≤ x.nHeight := by
    rw [NotLower, hbest, hxelig]
    simp only [hxdef]
  rw [hlower]
  rcases hend with ⟨rfl, best, hb, hlight⟩ | ⟨hclean, hheavy, n, hcall⟩
  · have hnew' : ∀ p ∈ s'.mapBlockIndex, some p = some x → Eligible s' p →
        p.nChainWork ≤ best.nChainWork := by
      intro p _ heq hp
      obtain rfl := Option.some.inj heq
      exact hlight hp
    refine ⟨fun _ => ⟨ht.settle hb hnew', ht.tipHasMostWork hb hnew'⟩,
      fun _ best' hb' hel hlt => ?_⟩
    obtain rfl : best = best' := Option.some.inj (hb.symm.trans hb')
    have := hlight hel
    omega
  · have hx' : x ∈ t.mapBlockIndex := hsame.map ▸ hx
    have hheights : ∀ best, t.pindexBest = some best →
        (CBlockIndex.ancestorsOf t.coinsTip).length = best.nHeight + 1 := by
      intro best hb
      rw [ht.tip, hb]
      exact CBlockIndex.length_ancestors best
    have hxlen : x.ancestors.length = x.nHeight + 1 := CBlockIndex.length_ancestors x
    have call := ht.call.setBestChain hx' hclean hcall
    obtain ⟨hout, -⟩ := setBestChain_clean ht.call hx' hclean hcall
    cases hout with
    | short hlen =>
      obtain ⟨best, hb⟩ : ∃ best, s'.pindexBest = some best := by
        cases hb : s'.pindexBest with
        | none =>
          rw [ht.tip, hb] at hlen
          cases hlen
        | some best => exact ⟨best, rfl⟩
      rw [heavier, hb, decide_eq_true_eq] at hheavy
      rw [hheights best hb] at hlen
      refine ⟨fun hlow => ?_, fun hmost => ?_⟩
      · have := hlow best hb hclean.eligible hheavy
        omega
      · obtain ⟨best', hb', -, -, hmax⟩ := hmost
        obtain rfl : best = best' := Option.some.inj (hb.symm.trans hb')
        have := hmax x hx' hclean.eligible
        omega
    | rejected hlen hq hout hne hchain hrejects =>
      obtain ⟨best, hb⟩ := Option.ne_none_iff_exists'.mp hne
      have inv' := ht.reject call hq hne hchain hrejects
      refine ⟨fun _ => ⟨inv', inv'.tipHasMostWork (hchain.best.trans hb) (by simp)⟩,
        fun _ best' hb' _ _ => ?_⟩
      rw [hheights best' hb'] at hlen
      omega
    | switched hlen hmap hmarks htip hbest' =>
      have inv' := ht.switch call hheavy hmap hmarks htip hbest'
      refine ⟨fun _ => ⟨inv', inv'.tipHasMostWork hbest' (by simp)⟩, fun _ best' hb' _ _ => ?_⟩
      rw [hheights best' hb'] at hlen
      omega

/-- In runs whose blocks are never lower than a tip with less work, the tip has the most work
after the next arrival exactly if that block is not either. -/
theorem mostWork_iff (h : (addSystem env).Reach (NotLower env) s) (hacc : Accepts env s block pos)
    (hcall : addToBlockIndex env fuel rounds s block pos = .ok (b, s')) :
    TipHasMostWork s' ↔ NotLower env s (block, pos) := by
  have inv : SearchInv env none s := by
    refine h.invariant ?_ ?_
    · intro s hinit
      rw [hinit]
      exact (searchInv_init env).setClock s.clock
    · rintro s a s' inv hlow ⟨hacc, fuel, rounds, b, t, hadd, hclock⟩
      rw [hclock]
      exact ((inv.add hacc hadd).1 hlow).1.setClock s'.clock
  exact ⟨(inv.add hacc hcall).2, fun hlow => ((inv.add hacc hcall).1 hlow).2⟩

end Arrivals

/-! ### A heavier branch with fewer blocks

On the test network a block may use the lowest difficulty when it comes more than
twenty minutes after its parent. -/

/-- The small test network; a block at the height of the checkpoint has its hash. -/
def smallTestNet : Env :=
  { smallNet with
      headerHash := fun header =>
        if header.nHeight = 546 then
          0x000000002a936ca763904c3c35fce2f3556c559c0214345d31b1bcebf76acb70
        else header.nNonce
      testNet := true
      checkpoints := [(546, 0x000000002a936ca763904c3c35fce2f3556c559c0214345d31b1bcebf76acb70)]
      genesisTime := 1296688602
      genesisNonce := 414098458 }

/-- Its genesis block. -/
def testGenesis : CBlockIndex :=
  .root smallTestNet.genesisBlock (smallPos smallTestNet.genesisBlock)

/-- A late, easy block. -/
def easyBlock (prev : CBlock) (nonce : Nat) : CBlock :=
  { smallBlock prev nonce [] with nTime := prev.nTime + 1201, nBits := 0x207fffff }

/-- Three of them. -/
def easyBranch : List CBlockIndex :=
  let first := smallIndex testGenesis (easyBlock smallTestNet.genesisBlock 1)
  let second := smallIndex first (easyBlock first.block 2)
  [testGenesis, first, second]

/-- A block of more work. -/
def hardBlock : CBlockIndex :=
  smallIndex testGenesis (smallBlock smallTestNet.genesisBlock 3 [])

/-- Executes a step. -/
def nextAdd (env : Env) (s : ChainState) (a : CBlock × CDiskBlockPos) : Option ChainState :=
  if Accepts env s a.1 a.2 then (addToBlockIndex env 8 8 s a.1 a.2).toOption.map Prod.snd else none

theorem nextAdd_step {env : Env} {s s' : ChainState} {a : CBlock × CDiskBlockPos}
    (h : nextAdd env s a = some s') : AddStep env s a s' := by
  rw [nextAdd] at h
  split at h
  · rename_i hacc
    obtain ⟨⟨b, s''⟩, hadd, rfl⟩ := Except.toOption_map_eq_some_iff.mp h
    exact ⟨hacc, 8, 8, b, _, hadd, rfl⟩
  · cases h

/-- The test of a step. -/
def notLower (env : Env) (s : ChainState) (a : CBlock × CDiskBlockPos) : Bool :=
  let x := newBlockIndex env s a.1 a.2
  s.pindexBest.all fun best =>
    decide (x.nChainWork ≤ best.nChainWork) || decide (best.nHeight ≤ x.nHeight)

theorem notLower_sound {env : Env} {s : ChainState} {a : CBlock × CDiskBlockPos}
    (h : notLower env s a = true) : NotLower env s a := by
  intro best hbest _ hlt
  rw [notLower, hbest, Option.all_some, Bool.or_eq_true, decide_eq_true_eq, decide_eq_true_eq] at h
  exact h.resolve_left (Nat.not_le_of_lt hlt)

/-- The state after blocks. -/
def addState (env : Env) (check : ChainState → CBlock × CDiskBlockPos → Bool)
    (ps : List CBlockIndex) : Option ChainState :=
  System.run (nextAdd env) check {} (ps.map fun p => (p.block, p.pos))

theorem reach_addState {env : Env} {check : ChainState → CBlock × CDiskBlockPos → Bool}
    {ok : ChainState → CBlock × CDiskBlockPos → Prop} {ps : List CBlockIndex} {s : ChainState}
    (hcheck : ∀ s a, check s a = true → ok s a) (h : addState env check ps = some s) :
    (addSystem env).Reach ok s := by
  have hinit : (addSystem env).init {} := rfl
  exact .of_run (fun _ _ _ => nextAdd_step) hcheck (.init hinit) h

theorem exists_addState {env : Env} {check : ChainState → CBlock × CDiskBlockPos → Bool}
    {ps : List CBlockIndex} {p : CBlockIndex}
    (h : ((addState env check ps).bind fun s => nextAdd env s (p.block, p.pos)).isSome = true) :
    ∃ s b s', addState env check ps = some s ∧ Accepts env s p.block p.pos ∧
      addToBlockIndex env 8 8 s p.block p.pos = .ok (b, s') ∧
      ((addState env check ps).bind fun s => nextAdd env s (p.block, p.pos)) = some s' := by
  obtain ⟨s', hs'⟩ := Option.isSome_iff_exists.mp h
  obtain ⟨s, hs, hnext⟩ := Option.bind_eq_some_iff.mp hs'
  have hnext' := hnext
  rw [nextAdd] at hnext'
  split at hnext'
  · rename_i hacc
    obtain ⟨⟨b, s''⟩, hadd, rfl⟩ := Except.toOption_map_eq_some_iff.mp hnext'
    exact ⟨s, b, s'', hs, hacc, hadd, hs'⟩
  · cases hnext'

theorem mostWork_iff_easy :
    ∃ s b s', addToBlockIndex smallTestNet 8 8 s (easyBranch.getD 2 testGenesis).block
        (easyBranch.getD 2 testGenesis).pos = .ok (b, s') ∧ TipHasMostWork s' := by
  obtain ⟨hrun, hlow⟩ :
      ((addState smallTestNet (notLower smallTestNet) (easyBranch.take 2)).bind fun s =>
        nextAdd smallTestNet s ((easyBranch.getD 2 testGenesis).block,
          (easyBranch.getD 2 testGenesis).pos)).isSome = true ∧
      (addState smallTestNet (notLower smallTestNet) (easyBranch.take 2)).all (fun s =>
        notLower smallTestNet s ((easyBranch.getD 2 testGenesis).block,
          (easyBranch.getD 2 testGenesis).pos)) = true := by
    decide +kernel
  obtain ⟨s, b, s', hs, hacc, hadd, -⟩ := exists_addState hrun
  rw [hs, Option.all_some] at hlow
  exact ⟨s, b, s', hadd, (mostWork_iff (reach_addState (fun _ _ => notLower_sound) hs) hacc
    hadd).mpr (notLower_sound hlow)⟩

/-- The tip stays at the second easy block when the heavier block arrives. -/
theorem heavier_branch_refused :
    ∃ s b s', (addSystem smallTestNet).Reach (fun _ _ => True) s ∧
      Accepts smallTestNet s hardBlock.block hardBlock.pos ∧
      addToBlockIndex smallTestNet 8 8 s hardBlock.block hardBlock.pos = .ok (b, s') ∧
      ¬TipHasMostWork s' := by
  obtain ⟨hrun, hfacts⟩ :
      ((addState smallTestNet (fun _ _ => true) easyBranch).bind fun s =>
        nextAdd smallTestNet s (hardBlock.block, hardBlock.pos)).isSome = true ∧
      (((addState smallTestNet (fun _ _ => true) easyBranch).bind fun s =>
        nextAdd smallTestNet s (hardBlock.block, hardBlock.pos)).all fun s' =>
          s'.pindexBest == easyBranch[2]? && s'.mapBlockIndex.contains hardBlock &&
            hardBlock.ancestors.all (fun a => !(s'.nStatus a).failedValid) &&
            easyBranch[2]?.all fun best => best.nChainWork < hardBlock.nChainWork) = true := by
    decide +kernel
  obtain ⟨s, b, s', hs, hacc, hadd, hs'⟩ := exists_addState hrun
  rw [hs', Option.all_some] at hfacts
  simp only [Bool.and_eq_true, beq_iff_eq, List.contains_iff_mem, List.all_eq_true,
    Bool.not_eq_true'] at hfacts
  obtain ⟨⟨⟨hbest, hmem⟩, helig⟩, hwork⟩ := hfacts
  refine ⟨s, b, s', reach_addState (fun _ _ _ => trivial) hs, hacc, hadd, ?_⟩
  rintro ⟨best, hbest', -, -, hmost⟩
  rw [← hbest, hbest', Option.all_some, decide_eq_true_eq] at hwork
  exact absurd (hmost hardBlock hmem helig) (Nat.not_le_of_lt hwork)

end CoMoNet
