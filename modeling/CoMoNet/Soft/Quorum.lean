import CoMoNet.Soft.Vote
import CoMoNet.Lib.Reach
import CoMoNet.Admin.Quorum
import Mathlib.Data.Finset.Card

/-!
# Runs of votes

The vote state machine of a node, under changes of the best height and the registered
users. Checkpoints at one height agree when every winner has a majority of the
`uniqueUsersList` itself (`checkpoints_agree`); the code also counts the
`upcomingUsersList`.
-/

namespace CoMoNet

open GuardedRun (System)

/-! ## The system -/

/-- Votes and what the chain says. -/
structure VoteState where
  nBestHeight : Int := -1
  /-- `GetTransaction(username, …)`. -/
  registered : Bytes → Option CTransaction := fun _ => none
  soft : SoftState := {}
  /-- The votes cast so far whose signature `verifySignature` accepted at that
  time; no code reads it. -/
  verified : List Vote := []

/-- What can happen. -/
inductive VoteLabel where
  | chain (nBestHeight : Int) (registered : Bytes → Option CTransaction)
  | vote (vote : Vote)
  /-- `NewBlockAccepted` drops the unchecked votes. -/
  | clear

namespace VoteState

/-- The signature of a vote is good. -/
def verifies (env : Env) (s : VoteState) (vote : Vote) : Bool :=
  vote.verifies env (s.registered vote.username)

/-- Casts a vote. -/
def cast (env : Env) (s : VoteState) (vote : Vote) : Cast :=
  castVoteSoftCheckpoint env s.nBestHeight (s.registered vote.username) s.soft vote

/-- One step. -/
def next (env : Env) (s : VoteState) : VoteLabel → VoteState
  | .chain nBestHeight registered => { s with nBestHeight, registered }
  | .vote vote =>
    { s with
        soft := (s.cast env vote).soft
        verified := if s.verifies env vote then vote :: s.verified else s.verified }
  | .clear => { s with soft := { s.soft with uncheckedCandidates := ∅ } }

/-- Several steps. -/
def run (env : Env) (s : VoteState) (as : List VoteLabel) : VoteState := as.foldl (next env) s

end VoteState

/-- The votes of a node. -/
def voteSystem (env : Env) : System VoteState VoteLabel where
  init s := s = {}
  step s a s' := s' = s.next env a

/-- No condition. -/
def anyVote (_ : VoteState) (_ : VoteLabel) : Prop := True

/-! ## Executing votes -/

/-- Every step of a list passes a test where it is taken. -/
def VoteState.passes (env : Env) (check : VoteState → VoteLabel → Bool) :
    VoteState → List VoteLabel → Bool
  | _, [] => true
  | s, a :: as => check s a && (s.next env a).passes env check as

theorem reach_run {env : Env} {ok : VoteState → VoteLabel → Prop}
    {check : VoteState → VoteLabel → Bool} (hcheck : ∀ s a, check s a = true → ok s a)
    {as : List VoteLabel} {s : VoteState} (hs : (voteSystem env).Reach ok s)
    (h : s.passes env check as = true) : (voteSystem env).Reach ok (s.run env as) := by
  induction as generalizing s with
  | nil => exact hs
  | cons a as ih =>
    rw [VoteState.passes, Bool.and_eq_true] at h
    exact ih (.step hs (hcheck s a h.1) rfl) h.2

/-- An executed run ends in a state that comes after its start. -/
theorem later_run (env : Env) : ∀ (s : VoteState) (as : List VoteLabel),
    (voteSystem env).Later anyVote s (s.run env as)
  | _, [] => .refl
  | s, a :: as => .head ⟨a, trivial, rfl⟩ (later_run env (s.next env a) as)

/-- The key a voter has registered, by the place of the name in the lists. -/
def voterKey (username : Bytes) : UInt8 :=
  UInt8.ofNat ((uniqueUsersList ++ upcomingUsersList).idxOf username + 1)

/-- All voters are registered. -/
def votersRegistered (username : Bytes) : Option CTransaction :=
  if isAllowedVoter username then
    some { userName := CScript.push username
           pubKey := CScript.push (2 :: List.replicate 32 (voterKey username)) }
  else none

/-- A signed vote. -/
def ballot (cp : Checkpoint) (username : String) : Vote where
  height := cp.1
  hash := cp.2
  username := ascii username
  sign := [voterKey (ascii username),
    UInt8.ofNat (signNet.messageHash (cpToString cp) % 251)]

/-- A node past the hard checkpoints gets the votes of some users. -/
def polled (cp : Checkpoint) (usernames : List String) : List VoteLabel :=
  .chain 55460 votersRegistered :: usernames.map fun username => .vote (ballot cp username)

/-- Five voters. -/
def fiveVoters : List String := ["mf1", "mf1a", "mf2", "mf2a", "mf3"]

/-- The other five. -/
def otherVoters : List String := ["wn41", "omgasm", "rantizdani", "rantisluni", "nobody"]

/-! ## The invariant -/

/-- Every signature was verified, for the checkpoint, as one of its allowed user. -/
def Justified (verified : List Vote) (cp : Checkpoint) (sigs : CPSigMap) : Prop :=
  ∀ username sign, sigs.lookup username = some sign → isAllowedVoter username = true ∧
    ∃ vote ∈ verified, vote.cp = cp ∧ vote.username = username ∧ vote.sign = sign

/-- Candidates are above the checkpoint, and signatures are verified. -/
structure SoftInv (s : VoteState) : Prop where
  candidates : ∀ cp ∈ s.soft.nextCandidates, s.soft.lastSoftCP.1 < cp.1
  votes : ∀ cp, Justified s.verified cp (s.soft.votesFor cp)
  sigs : Justified s.verified s.soft.lastSoftCP s.soft.lastSoftCPSigs
  quorum : s.soft.lastSoftCP.1 ≠ 0 → 5 ≤ s.soft.lastSoftCPSigs.keys.length

section Invariant

variable {env : Env} {s s' : VoteState} {cp : Checkpoint} {sigs : CPSigMap} {vote : Vote}

theorem justified_empty (verified : List Vote) (cp : Checkpoint) : Justified verified cp ∅ :=
  fun _ _ h => by simp at h

theorem Justified.mono {verified verified' : List Vote} (h : Justified verified cp sigs)
    (hsub : verified ⊆ verified') : Justified verified' cp sigs := by
  intro username sign hsign
  obtain ⟨hallowed, vote, hvote, hv⟩ := h username sign hsign
  exact ⟨hallowed, vote, hsub hvote, hv⟩

theorem Justified.insert {verified : List Vote} (h : Justified verified vote.cp sigs)
    (hallowed : isAllowedVoter vote.username = true) (hvote : vote ∈ verified) :
    Justified verified vote.cp (sigs.insert vote.username vote.sign) := by
  intro username sign hsign
  by_cases heq : username = vote.username
  · subst heq
    rw [AList.lookup_insert, Option.some.injEq] at hsign
    exact ⟨hallowed, vote, hvote, rfl, rfl, hsign⟩
  · rw [AList.lookup_insert_ne heq] at hsign
    exact h username sign hsign

theorem votesFor_insert (soft : SoftState) (cp cp' : Checkpoint) (sigs : CPSigMap) :
    { soft with nextCandidates := soft.nextCandidates.insert cp sigs }.votesFor cp' =
      if cp' = cp then sigs else soft.votesFor cp' := by
  rw [SoftState.votesFor]
  split
  · rename_i heq
    subst heq
    rw [AList.lookup_insert]
    rfl
  · rename_i hne
    rw [AList.lookup_insert_ne hne]
    rfl

/-- The checkpoint moves up only. -/
theorem CastOutcome.lastSoftCP_mono {found : Option CTransaction} {soft soft' : SoftState}
    {updated : Bool} (h : CastOutcome env found soft vote soft' updated) :
    soft'.lastSoftCP = soft.lastSoftCP ∨ soft.lastSoftCP.1 < soft'.lastSoftCP.1 := by
  cases h with
  | ignored hcp hsigs hnext => exact .inl hcp
  | late hvalid hcp hnew => exact .inl rfl
  | counted hvalid hlt hnew => exact .inl rfl
  | wins hvalid hlt hnew hsize => exact .inr hlt

theorem SoftInv.of_cast (env : Env) {soft' : SoftState} {verified' : List Vote} {updated : Bool}
    (inv : SoftInv s) (hsub : s.verified ⊆ verified')
    (hvote : s.verifies env vote = true → vote ∈ verified')
    (h : CastOutcome env (s.registered vote.username) s.soft vote soft' updated) :
    SoftInv { s with soft := soft', verified := verified' } := by
  cases h with
  | ignored hcp hsigs hnext =>
    have hvotes : soft'.votesFor = s.soft.votesFor := by
      funext cp
      rw [SoftState.votesFor, hnext]
      rfl
    refine ⟨?_, fun cp => ?_, ?_, ?_⟩
    · rw [hcp, hnext]
      exact inv.candidates
    · rw [hvotes]
      exact (inv.votes cp).mono hsub
    · rw [hcp, hsigs]
      exact inv.sigs.mono hsub
    · rw [hcp, hsigs]
      exact inv.quorum
  | late hvalid hcp hnew =>
    refine ⟨inv.candidates, fun cp => (inv.votes cp).mono hsub, ?_, fun hset => ?_⟩
    · show Justified verified' s.soft.lastSoftCP _
      rw [← hcp]
      refine Justified.insert ?_ hvalid.allowed (hvote hvalid.verified)
      rw [hcp]
      exact inv.sigs.mono hsub
    · have := inv.quorum hset
      show 5 ≤ (s.soft.lastSoftCPSigs.insert vote.username vote.sign).keys.length
      rw [keys_length_insert hnew]
      omega
  | counted hvalid hlt hnew =>
    refine ⟨fun cp hcp => ?_, fun cp => ?_, inv.sigs.mono hsub, inv.quorum⟩
    · rcases (AList.mem_insert _).mp hcp with rfl | hcp
      · exact hlt
      · exact inv.candidates cp hcp
    · show Justified verified' cp (SoftState.votesFor _ cp)
      rw [votesFor_insert]
      split
      · rename_i heq
        subst heq
        exact ((inv.votes _).mono hsub).insert hvalid.allowed (hvote hvalid.verified)
      · exact (inv.votes cp).mono hsub
  | wins hvalid hlt hnew hsize =>
    refine ⟨fun cp hcp => absurd hcp (AList.notMem_empty cp), fun cp => justified_empty _ _, ?_,
      fun _ => ?_⟩
    · exact ((inv.votes _).mono hsub).insert hvalid.allowed (hvote hvalid.verified)
    · show 5 ≤ ((s.soft.votesFor vote.cp).insert vote.username vote.sign).keys.length
      rw [keys_length_insert hnew]
      have : uniqueUsersList.length = 9 := rfl
      omega

theorem softInv_step (inv : SoftInv s) (a : VoteLabel) : SoftInv (s.next env a) := by
  cases a with
  | chain nBestHeight registered => exact ⟨inv.candidates, inv.votes, inv.sigs, inv.quorum⟩
  | clear => exact ⟨inv.candidates, inv.votes, inv.sigs, inv.quorum⟩
  | vote vote =>
    refine inv.of_cast env ?_ ?_ (castVoteSoftCheckpoint_cases env s.nBestHeight _ s.soft vote)
    · intro v hv
      show v ∈ if s.verifies env vote then vote :: s.verified else s.verified
      split
      · exact List.mem_cons_of_mem _ hv
      · exact hv
    · intro hverifies
      show vote ∈ if s.verifies env vote then vote :: s.verified else s.verified
      rw [if_pos hverifies]
      exact List.mem_cons_self

theorem softInv_init : SoftInv {} where
  candidates cp hcp := absurd hcp (AList.notMem_empty cp)
  votes cp := justified_empty _ cp
  sigs := justified_empty _ _
  quorum h := absurd rfl h

/-- A step moves the checkpoint up only. -/
theorem lastSoftCP_step (s : VoteState) (a : VoteLabel) :
    (s.next env a).soft.lastSoftCP = s.soft.lastSoftCP ∨
      s.soft.lastSoftCP.1 < (s.next env a).soft.lastSoftCP.1 := by
  cases a with
  | chain nBestHeight registered => exact .inl rfl
  | clear => exact .inl rfl
  | vote vote =>
    exact (castVoteSoftCheckpoint_cases env s.nBestHeight _ s.soft vote).lastSoftCP_mono

/-- Along every run the checkpoint only moves up, candidates stay above it, and a set checkpoint
has verified signatures of five allowed users. -/
theorem softCheckpoint_invariant (h : (voteSystem env).Reach anyVote s)
    (hlater : (voteSystem env).Later anyVote s s') :
    s.soft.lastSoftCP.1 ≤ s'.soft.lastSoftCP.1 ∧
      (s'.soft.lastSoftCP.1 = s.soft.lastSoftCP.1 →
        s'.soft.lastSoftCP.2 = s.soft.lastSoftCP.2) ∧
      (∀ cp ∈ s'.soft.nextCandidates, s'.soft.lastSoftCP.1 < cp.1) ∧
      (s'.soft.lastSoftCP.1 ≠ 0 →
        5 ≤ s'.soft.lastSoftCPSigs.keys.length ∧ s'.soft.lastSoftCPSigs.keys.Nodup ∧
          Justified s'.verified s'.soft.lastSoftCP s'.soft.lastSoftCPSigs) := by
  have hinv : SoftInv s := by
    refine h.invariant ?_ ?_
    · rintro s rfl
      exact softInv_init
    · rintro s a s' hs - rfl
      exact softInv_step hs a
  obtain ⟨inv', hmono⟩ := System.Later.rule
    (R := fun s s' : VoteState => s'.soft.lastSoftCP = s.soft.lastSoftCP ∨
      s.soft.lastSoftCP.1 < s'.soft.lastSoftCP.1)
    (fun _ => .inl rfl)
    (fun {s₁ s₂ s₃} h₁ h₂ => by
      rcases h₁ with h₁ | h₁ <;> rcases h₂ with h₂ | h₂
      · exact .inl (h₂.trans h₁)
      · exact .inr (h₁ ▸ h₂)
      · exact .inr (h₂ ▸ h₁)
      · exact .inr (h₁.trans h₂))
    (fun s a s' hs _ hstep => by
      obtain rfl := hstep
      exact ⟨softInv_step hs a, lastSoftCP_step s a⟩)
    hinv hlater
  refine ⟨?_, ?_, inv'.candidates, fun hset => ⟨inv'.quorum hset, AList.keys_nodup _, inv'.sigs⟩⟩
  · rcases hmono with heq | hlt
    · rw [heq]
    · exact hlt.le
  · intro hsame
    rcases hmono with heq | hlt
    · rw [heq]
    · omega

theorem softCheckpoint_invariant_five :
    let s := VoteState.run signNet {} (polled (55452, 1) fiveVoters)
    s.soft.lastSoftCP = (55452, 1) ∧ 5 ≤ s.soft.lastSoftCPSigs.keys.length ∧
      Justified s.verified (55452, 1) s.soft.lastSoftCPSigs := by
  intro s
  have hset : s.soft.lastSoftCP = (55452, 1) := by decide +kernel
  obtain ⟨-, -, -, hquorum⟩ := softCheckpoint_invariant (.init rfl)
    (later_run signNet {} (polled (55452, 1) fiveVoters))
  obtain ⟨hfive, -, hsigs⟩ := hquorum (by rw [hset]; decide)
  exact ⟨hset, hfive, hset ▸ hsigs⟩

end Invariant

/-! ## Agreement of two nodes -/

/-- The number of members of the `uniqueUsersList` among the voters. -/
def uniqueVotes (sigs : CPSigMap) : Nat := sigs.keys.countP uniqueUsersList.contains

/-- No allowed voter signs two hashes at one height. -/
def SignsOnce (signed : Bytes → Checkpoint → Prop) : Prop :=
  ∀ username cp cp', isAllowedVoter username = true → signed username cp → signed username cp' →
    cp.1 = cp'.1 → cp.2 = cp'.2

/-- A signature that is accepted was made by the voter. -/
def Truthful (env : Env) (signed : Bytes → Checkpoint → Prop) (s : VoteState) : VoteLabel → Prop
  | .vote vote => s.verifies env vote = true → signed vote.username vote.cp
  | _ => True

/-- A new vote that lifts a count above half of the `uniqueUsersList` lifts its members' votes
above it. Repeated votes are not counted. -/
def DecidedByUnique (env : Env) (s : VoteState) : VoteLabel → Prop
  | .vote vote =>
    vote.Valid env (s.registered vote.username) → vote.username ∉ s.soft.votesFor vote.cp →
    uniqueUsersList.length / 2 < (s.soft.votesFor vote.cp).keys.length + 1 →
    uniqueUsersList.length / 2 <
      uniqueVotes ((s.soft.votesFor vote.cp).insert vote.username vote.sign)
  | _ => True

/-- Votes are what voters signed, and more than half of the `uniqueUsersList` voted for the
checkpoint. -/
structure QuorumInv (signed : Bytes → Checkpoint → Prop) (s : VoteState) : Prop where
  votes : ∀ cp, ∀ username ∈ s.soft.votesFor cp, signed username cp
  sigs : ∀ username ∈ s.soft.lastSoftCPSigs, signed username s.soft.lastSoftCP
  majority : s.soft.lastSoftCP.1 ≠ 0 →
    uniqueUsersList.length / 2 < uniqueVotes s.soft.lastSoftCPSigs

section Agreement

variable {env env' : Env} {signed : Bytes → Checkpoint → Prop} {s s' : VoteState}

theorem uniqueVotes_insert {sigs : CPSigMap} {username sign : Bytes} (h : username ∉ sigs) :
    uniqueVotes sigs ≤ uniqueVotes (sigs.insert username sign) := by
  rw [AList.insert_of_notMem h]
  show uniqueVotes sigs ≤ (username :: sigs.keys).countP uniqueUsersList.contains
  rw [List.countP_cons]
  exact Nat.le_add_right _ _

theorem QuorumInv.of_cast {vote : Vote} {soft' : SoftState} {verified' : List Vote}
    {updated : Bool} (inv : QuorumInv signed s) (hsigned : Truthful env signed s (.vote vote))
    (hunique : DecidedByUnique env s (.vote vote))
    (h : CastOutcome env (s.registered vote.username) s.soft vote soft' updated) :
    QuorumInv signed { s with soft := soft', verified := verified' } := by
  have hinsert : ∀ {sigs : CPSigMap}, vote.Valid env (s.registered vote.username) →
      (∀ username ∈ sigs, signed username vote.cp) →
      ∀ username ∈ sigs.insert vote.username vote.sign, signed username vote.cp := by
    intro sigs hvalid hsigs username hmem
    rcases (AList.mem_insert _).mp hmem with rfl | hmem
    · exact hsigned hvalid.verified
    · exact hsigs username hmem
  cases h with
  | ignored hcp hsigs hnext =>
    have hvotes : soft'.votesFor = s.soft.votesFor := by
      funext cp
      rw [SoftState.votesFor, hnext]
      rfl
    exact ⟨by rw [hvotes]; exact inv.votes, by rw [hcp, hsigs]; exact inv.sigs,
      by rw [hcp, hsigs]; exact inv.majority⟩
  | late hvalid hcp hnew =>
    refine ⟨inv.votes, ?_, fun hset => ?_⟩
    · intro username hmem
      show signed username s.soft.lastSoftCP
      rw [← hcp]
      refine hinsert hvalid ?_ username hmem
      rw [hcp]
      exact inv.sigs
    · exact (inv.majority hset).trans_le (uniqueVotes_insert hnew)
  | counted hvalid hlt hnew =>
    refine ⟨fun cp => ?_, inv.sigs, inv.majority⟩
    show ∀ username ∈ SoftState.votesFor _ cp, _
    rw [votesFor_insert]
    split
    · rename_i heq
      subst heq
      exact hinsert hvalid (inv.votes _)
    · exact inv.votes cp
  | wins hvalid hlt hnew hsize =>
    exact ⟨fun cp username hmem => absurd hmem (AList.notMem_empty username),
      hinsert hvalid (inv.votes _), fun _ => hunique hvalid hnew hsize⟩

theorem quorumInv_of_reach
    (h : (voteSystem env).Reach (fun s a => Truthful env signed s a ∧ DecidedByUnique env s a) s) :
    QuorumInv signed s := by
  refine h.invariant ?_ ?_
  · rintro s rfl
    exact ⟨fun cp username hmem => absurd hmem (AList.notMem_empty username),
      fun username hmem => absurd hmem (AList.notMem_empty username), fun h => absurd rfl h⟩
  · rintro s a s' inv ⟨hsigned, hunique⟩ rfl
    cases a with
    | chain nBestHeight registered => exact ⟨inv.votes, inv.sigs, inv.majority⟩
    | clear => exact ⟨inv.votes, inv.sigs, inv.majority⟩
    | vote vote =>
      exact inv.of_cast hsigned hunique
        (castVoteSoftCheckpoint_cases env s.nBestHeight _ s.soft vote)

/-- Two sets of more than half of the `uniqueUsersList` have a member in common. -/
theorem exists_common_voter {sigs sigs' : CPSigMap}
    (h : uniqueUsersList.length / 2 < uniqueVotes sigs)
    (h' : uniqueUsersList.length / 2 < uniqueVotes sigs') :
    ∃ username ∈ uniqueUsersList, username ∈ sigs ∧ username ∈ sigs' := by
  let voters (sigs : CPSigMap) : Finset Bytes :=
    (sigs.keys.filter fun u => uniqueUsersList.contains u).toFinset
  have hcard : ∀ sigs, (voters sigs).card = uniqueVotes sigs := by
    intro sigs
    rw [uniqueVotes, List.countP_eq_length_filter]
    exact List.toFinset_card_of_nodup ((AList.keys_nodup sigs).filter _)
  have hsub : ∀ sigs, voters sigs ⊆ uniqueUsersList.toFinset := by
    intro sigs username hmem
    rw [List.mem_toFinset, List.mem_filter] at hmem
    simpa using hmem.2
  have hlength : uniqueUsersList.toFinset.card = 9 := by decide
  have hnine : uniqueUsersList.length = 9 := rfl
  obtain ⟨username, hmem⟩ := Finset.inter_nonempty_of_card_lt_card_add_card (hsub sigs)
    (hsub sigs') (by rw [hcard, hcard, hlength]; omega)
  rw [Finset.mem_inter, List.mem_toFinset, List.mem_toFinset, List.mem_filter,
    List.mem_filter] at hmem
  exact ⟨username, by simpa using hmem.1.2, hmem.1.1, hmem.2.1⟩

/-- Two nodes that let only a majority of the `uniqueUsersList` decide never have different
checkpoints at one height, if no voter signs twice. -/
theorem checkpoints_agree (honce : SignsOnce signed)
    (h : (voteSystem env).Reach (fun s a => Truthful env signed s a ∧ DecidedByUnique env s a) s)
    (h' : (voteSystem env').Reach
      (fun s a => Truthful env' signed s a ∧ DecidedByUnique env' s a) s')
    (hset : s.soft.lastSoftCP.1 ≠ 0)
    (hheight : s'.soft.lastSoftCP.1 = s.soft.lastSoftCP.1) :
    s'.soft.lastSoftCP.2 = s.soft.lastSoftCP.2 := by
  have inv := quorumInv_of_reach h
  have inv' := quorumInv_of_reach h'
  obtain ⟨username, hunique, hmem, hmem'⟩ := exists_common_voter (inv.majority hset)
    (inv'.majority (hheight ▸ hset))
  have hallowed : isAllowedVoter username = true := by
    rw [isAllowedVoter, List.contains_iff_mem.mpr hunique]
    rfl
  exact honce username _ _ hallowed (inv'.sigs username hmem') (inv.sigs username hmem) hheight

end Agreement

/-! ### A split vote -/

/-- The five vote for one hash and the other voters for another one. -/
def splitVote (username : Bytes) (cp : Checkpoint) : Bool :=
  cp == if (fiveVoters.map ascii).contains username then (55452, 1) else (55452, 2)

theorem splitVote_signsOnce : SignsOnce fun username cp => splitVote username cp = true := by
  intro username cp cp' _ h h' _
  rw [splitVote, beq_iff_eq] at h h'
  rw [h, h']

/-- The test of a vote. -/
def decidedVote (signed : Bytes → Checkpoint → Bool) (s : VoteState) :
    VoteLabel → Bool
  | .vote vote =>
    signed vote.username vote.cp &&
      (decide (vote.username ∈ s.soft.votesFor vote.cp) ||
        !decide (uniqueUsersList.length / 2 < (s.soft.votesFor vote.cp).keys.length + 1) ||
        decide (uniqueUsersList.length / 2 <
          uniqueVotes ((s.soft.votesFor vote.cp).insert vote.username vote.sign)))
  | _ => true

theorem decidedVote_sound {env : Env} {signed : Bytes → Checkpoint → Bool} {s : VoteState}
    {a : VoteLabel} (h : decidedVote signed s a = true) :
    Truthful env (fun username cp => signed username cp = true) s a ∧ DecidedByUnique env s a := by
  cases a with
  | chain nBestHeight registered => exact ⟨trivial, trivial⟩
  | clear => exact ⟨trivial, trivial⟩
  | vote vote =>
    simp only [decidedVote, Bool.and_eq_true, Bool.or_eq_true, Bool.not_eq_true',
      decide_eq_true_eq, decide_eq_false_iff_not] at h
    refine ⟨fun _ => h.1, fun _ hnew hsize => ?_⟩
    rcases h.2 with (hrepeated | hsmall) | hunique
    · exact absurd hrepeated hnew
    · exact absurd hsize hsmall
    · exact hunique

/-- The five voters, one of them once more before the last vote. -/
def repeatedVotes : List String := ["mf1", "mf1a", "mf2", "mf2a", "mf1", "mf3"]

theorem checkpoints_agree_five :
    let s := VoteState.run signNet {} (polled (55452, 1) repeatedVotes)
    let s' := VoteState.run signNet {} (polled (55452, 1) fiveVoters.reverse)
    s.soft.lastSoftCP.1 = 55452 ∧ s'.soft.lastSoftCP.2 = s.soft.lastSoftCP.2 := by
  intro s s'
  obtain ⟨hpass, hpass', hheight, hheight'⟩ :
      VoteState.passes signNet (decidedVote splitVote) {} (polled (55452, 1) repeatedVotes) =
        true ∧
      VoteState.passes signNet (decidedVote splitVote) {} (polled (55452, 1) fiveVoters.reverse) =
        true ∧
      s.soft.lastSoftCP.1 = 55452 ∧ s'.soft.lastSoftCP.1 = 55452 := by
    decide +kernel
  refine ⟨hheight, checkpoints_agree splitVote_signsOnce
    (reach_run (fun _ _ => decidedVote_sound) (.init rfl) hpass)
    (reach_run (fun _ _ => decidedVote_sound) (.init rfl) hpass') ?_ ?_⟩
  · rw [hheight]
    decide
  · rw [hheight, hheight']

/-- Five votes and five votes: no voter signs twice, and the nodes disagree. -/
theorem split_vote_disagrees :
    ∃ s s' : VoteState, SignsOnce (fun username cp => splitVote username cp = true) ∧
      (voteSystem signNet).Reach
        (Truthful signNet fun username cp => splitVote username cp = true) s ∧
      (voteSystem signNet).Reach
        (Truthful signNet fun username cp => splitVote username cp = true) s' ∧
      s.soft.lastSoftCP = (55452, 1) ∧ s'.soft.lastSoftCP = (55452, 2) := by
  let signs (_ : VoteState) : VoteLabel → Bool
    | .vote vote => splitVote vote.username vote.cp
    | _ => true
  have hsigns : ∀ s a, signs s a = true →
      Truthful signNet (fun username cp => splitVote username cp = true) s a := by
    intro s a h
    cases a with
    | chain nBestHeight registered => trivial
    | clear => trivial
    | vote vote => exact fun _ => h
  obtain ⟨hpass, hpass', hset, hset'⟩ :
      VoteState.passes signNet signs {} (polled (55452, 1) fiveVoters) = true ∧
      VoteState.passes signNet signs {} (polled (55452, 2) otherVoters) = true ∧
      (VoteState.run signNet {} (polled (55452, 1) fiveVoters)).soft.lastSoftCP = (55452, 1) ∧
      (VoteState.run signNet {} (polled (55452, 2) otherVoters)).soft.lastSoftCP = (55452, 2) := by
    decide +kernel
  exact ⟨_, _, splitVote_signsOnce, reach_run hsigns (.init rfl) hpass,
    reach_run hsigns (.init rfl) hpass', hset, hset'⟩

end CoMoNet
