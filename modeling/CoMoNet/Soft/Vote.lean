import CoMoNet.Post.Userpost
import Mathlib.Data.List.AList

/-!
# Votes for soft checkpoints

A vote for the height of the last checkpoint is kept with it, any other goes to its
candidate, and a candidate with enough votes becomes the last checkpoint. Votes for
negative heights do not get past the hard checkpoints.
-/

namespace CoMoNet

/-! ## The tables of the source -/

/-- `SOFT_CHECKPOINT_PERIOD`. -/
def softCheckpointPeriod : Nat := 6

/-- `uniqueUsersList`. -/
def uniqueUsersList : List Bytes :=
  ["mf1", "mf1a", "mf2", "mf2a", "mf3", "wn41", "omgasm", "rantizdani", "rantisluni"].map ascii

/-- `upcomingUsersList`. -/
def upcomingUsersList : List Bytes := ["nobody"].map ascii

/-- The users whose votes are taken. -/
def isAllowedVoter (username : Bytes) : Bool :=
  uniqueUsersList.contains username || upcomingUsersList.contains username

/-- The hard checkpoints. -/
def mapCheckpoints : List (Nat × Uint256) :=
  [(12001, 0xb7cf622125960c16dbc702e99c0d6e17ae7a080d572334ef03c8a1c58a7f45fb),
    (13081, 0x5125dc1f6a3b8f1c463baf3e078d8af9f1b35aa4b34fb441e3a7ee391f8727c6),
    (18000, 0xa3cab01c0e3e9b17b2a63b3cc93d258112f5ad753df1df7bd45e37a5c60814a9),
    (18050, 0xef0d4c9e318a952dd45fcb1c867996df309a0fb586811479c08cf18a176a8864),
    (18973, 0x5f3f60fec53ac03434907ca980b5349875822794a4a0b50b78bcf0411d0c95fe),
    (20200, 0x31f84d32e843baa1fd73b0013466c206ad8a783aaaeab61219bcea2475e1d05d),
    (20988, 0x8e022eb85240176a82bac5e9ba5ad7bd05cb43f2073e08c462b1ba1ac012ba42),
    (24500, 0x04a001c98e63b2c1bf3c24d6459f7de2cdfeb37d6cb960e95d9e2b1792748490),
    (55450, 0x5af4c59d0b14183375dc003df956f666e0b20c73e5879f918f5e8fff179e2563)]

/-- Those of the test network. -/
def mapCheckpointsTestnet : List (Nat × Uint256) :=
  [(546, 0x000000002a936ca763904c3c35fce2f3556c559c0214345d31b1bcebf76acb70)]

/-- Those in use. -/
def checkpointData (env : Env) : List (Nat × Uint256) :=
  if env.testNet then mapCheckpointsTestnet else mapCheckpoints

/-- `GetHighestCheckpoint`, whether or not checkpoints are enabled. -/
def getHighestCheckpoint (env : Env) : Nat :=
  match (checkpointData env).getLast? with
  | none => 0
  | some (height, _) => height

theorem getHighestCheckpoint_eq (env : Env) :
    getHighestCheckpoint env = if env.testNet then 546 else 55450 := by
  rw [getHighestCheckpoint, checkpointData]
  cases env.testNet <;> rfl

/-! ## What is signed -/

/-- A height and a hash. -/
abbrev Checkpoint := Nat × Uint256

namespace CScript

/-- `CBigNum(n).getvch()` for `n ≥ 0`: the bytes, least first, and a zero byte if the top bit
would be a sign. -/
def bigNumBytes (n : Nat) : Bytes :=
  if n = 0 then []
  else sizeField (n.log2 / 8 + 1) n ++ if n.log2 % 8 = 7 then [0] else []

/-- `push_int64` of a number that is not negative. -/
def pushInt (n : Nat) : CScript :=
  if 1 ≤ n ∧ n ≤ 16 then [UInt8.ofNat (n + 0x50)] else push (bigNumBytes n)

end CScript

/-- `CPtoString`. -/
def cpToString (cp : Checkpoint) : Bytes :=
  CScript.pushInt cp.1 ++ 32 :: CScript.sizeField 32 cp.2

/-- `verifySignature`, from the transaction that is found for the user. -/
def verifiesWith (env : Env) (found : Option CTransaction) (strMessage strSign : Bytes) : Bool :=
  match found with
  | none => false
  | some txOut =>
    match CScript.extractPushData txOut.pubKey with
    | none | some [] => false
    | some (vch :: _) =>
      if cPubKey vch = [] then false
      else
        match env.recoverCompact (env.messageHash strMessage) strSign with
        | none => false
        | some pubkeyRec => env.hash160 pubkeyRec == env.hash160 (cPubKey vch)

/-! ## The state of the votes -/

/-- Signatures by user. -/
abbrev CPSigMap := AList fun _ : Bytes => Bytes

/-- The globals of the votes. -/
structure SoftState where
  /-- `lastSoftCP`; height 0 when there is none. -/
  lastSoftCP : Checkpoint := (0, 0)
  lastSoftCPSigs : CPSigMap := ∅
  nextCandidates : AList fun _ : Checkpoint => CPSigMap := ∅
  uncheckedCandidates : AList fun _ : Checkpoint => CPSigMap := ∅
deriving DecidableEq

/-- `nextCandidates[cp]`: the votes a candidate has so far. -/
def SoftState.votesFor (soft : SoftState) (cp : Checkpoint) : CPSigMap :=
  (soft.nextCandidates.lookup cp).getD ∅

/-- The result of a vote. -/
structure Cast where
  relay : Bool
  soft : SoftState
  /-- `LastSoftCPUpdated` is called. -/
  updated : Bool
deriving DecidableEq

/-- A vote that is ignored. -/
def SoftState.ignore (soft : SoftState) : Cast := ⟨false, soft, false⟩

/-- `CastVerifiedVote`. -/
def castVerifiedVote (soft : SoftState) (cp : Checkpoint) (username sign : Bytes) : Cast :=
  if cp.1 = soft.lastSoftCP.1 then
    if username ∈ soft.lastSoftCPSigs then soft.ignore
    else if cp ≠ soft.lastSoftCP then soft.ignore
    else ⟨true, { soft with lastSoftCPSigs := soft.lastSoftCPSigs.insert username sign }, false⟩
  else if username ∈ soft.votesFor cp then soft.ignore
  else
    let sigs := (soft.votesFor cp).insert username sign
    if sigs.keys.length > uniqueUsersList.length / 2 then
      ⟨true, { soft with lastSoftCP := cp, lastSoftCPSigs := sigs, nextCandidates := ∅ }, true⟩
    else ⟨true, { soft with nextCandidates := soft.nextCandidates.insert cp sigs }, false⟩

/-- A vote. -/
structure Vote where
  /-- The height, an `int`. -/
  height : Int
  hash : Uint256
  username : Bytes
  sign : Bytes
deriving DecidableEq

/-- Its checkpoint. -/
def Vote.cp (vote : Vote) : Checkpoint := (vote.height.toNat, vote.hash)

/-- The signature of a vote is one of its user, whose transaction is `found`. -/
def Vote.verifies (env : Env) (found : Option CTransaction) (vote : Vote) : Bool :=
  verifiesWith env found (cpToString vote.cp) vote.sign

/-- `CastVoteSoftCheckpoint`, with the transaction that is found for the user. -/
def castVoteSoftCheckpoint (env : Env) (nBestHeight : Int) (found : Option CTransaction)
    (soft : SoftState) (vote : Vote) : Cast :=
  if vote.height % softCheckpointPeriod ≠ 0 then soft.ignore
  else if vote.height < getHighestCheckpoint env then soft.ignore
  else if vote.height < soft.lastSoftCP.1 then soft.ignore
  else if !isAllowedVoter vote.username then soft.ignore
  else if nBestHeight < getHighestCheckpoint env then
    let sigs := (soft.uncheckedCandidates.lookup vote.cp).getD ∅
    { soft with
        uncheckedCandidates := soft.uncheckedCandidates.insert vote.cp
          (sigs.insert vote.username vote.sign) }.ignore
  else if !vote.verifies env found then soft.ignore
  else castVerifiedVote soft vote.cp vote.username vote.sign

/-! ## What a vote can do -/

/-- A vote of an allowed user with a good signature, not below the hard checkpoints. -/
structure Vote.Valid (env : Env) (found : Option CTransaction) (vote : Vote) : Prop where
  period : vote.height % softCheckpointPeriod = 0
  /-- The height is not below the highest hard checkpoint. -/
  height : (getHighestCheckpoint env : Int) ≤ vote.height
  allowed : isAllowedVoter vote.username = true
  verified : vote.verifies env found = true

/-- The effects of a vote on the checkpoint and the candidates. -/
inductive CastOutcome (env : Env) (found : Option CTransaction) (soft : SoftState) (vote : Vote) :
    SoftState → Bool → Prop where
  | ignored {soft' : SoftState} : soft'.lastSoftCP = soft.lastSoftCP →
      soft'.lastSoftCPSigs = soft.lastSoftCPSigs →
      soft'.nextCandidates = soft.nextCandidates → CastOutcome env found soft vote soft' false
  /-- The vote is one more for the last checkpoint. -/
  | late : vote.Valid env found → vote.cp = soft.lastSoftCP →
      vote.username ∉ soft.lastSoftCPSigs →
      CastOutcome env found soft vote
        { soft with lastSoftCPSigs := soft.lastSoftCPSigs.insert vote.username vote.sign } false
  | counted : vote.Valid env found → soft.lastSoftCP.1 < vote.cp.1 →
      vote.username ∉ soft.votesFor vote.cp →
      CastOutcome env found soft vote
        { soft with
            nextCandidates := soft.nextCandidates.insert vote.cp
              ((soft.votesFor vote.cp).insert vote.username vote.sign) } false
  | wins : vote.Valid env found → soft.lastSoftCP.1 < vote.cp.1 →
      vote.username ∉ soft.votesFor vote.cp →
      uniqueUsersList.length / 2 < (soft.votesFor vote.cp).keys.length + 1 →
      CastOutcome env found soft vote
        { soft with
            lastSoftCP := vote.cp
            lastSoftCPSigs := (soft.votesFor vote.cp).insert vote.username vote.sign
            nextCandidates := ∅ } true

theorem keys_length_insert {sigs : CPSigMap} {username sign : Bytes} (h : username ∉ sigs) :
    (sigs.insert username sign).keys.length = sigs.keys.length + 1 := by
  rw [AList.insert_of_notMem h]
  rfl

theorem castVoteSoftCheckpoint_cases (env : Env) (nBestHeight : Int)
    (found : Option CTransaction) (soft : SoftState) (vote : Vote) :
    CastOutcome env found soft vote
      (castVoteSoftCheckpoint env nBestHeight found soft vote).soft
      (castVoteSoftCheckpoint env nBestHeight found soft vote).updated := by
  have hignored : CastOutcome env found soft vote soft false := .ignored rfl rfl rfl
  rw [castVoteSoftCheckpoint]
  split
  · exact hignored
  rename_i hperiod
  split
  · exact hignored
  rename_i hhard
  split
  · exact hignored
  rename_i hsoft
  split
  · exact hignored
  rename_i hallowed
  split
  · exact .ignored rfl rfl rfl
  split
  · exact hignored
  rename_i hverified
  have hvalid : vote.Valid env found :=
    ⟨by simpa using hperiod, by omega, by simpa using hallowed, by simpa using hverified⟩
  rw [castVerifiedVote]
  split
  · split
    · exact hignored
    rename_i hnew
    split
    · exact hignored
    · rename_i hcp
      exact .late hvalid (not_not.mp hcp) hnew
  rename_i hheight
  have hlt : soft.lastSoftCP.1 < vote.cp.1 := by
    have hcp : vote.cp.1 = vote.height.toNat := rfl
    omega
  split
  · exact hignored
  rename_i hnew
  simp only
  split
  · rename_i hsize
    rw [keys_length_insert hnew] at hsize
    exact .wins hvalid hlt hnew hsize
  · exact .counted hvalid hlt hnew

end CoMoNet
