import CoMoNet.Mining.Template
import CoMoNet.Chain.Disk
import Mathlib.Logic.Equiv.List

/-!
# Templates that pass

A miner gets a block that stays one with the extra nonce exactly if the spam message
fits in bytes, the spam user is nobody or the wallet signs with the key on the chain,
the median time is not far ahead and the coin view is at the best block
(`createNewBlock_iff`).
-/

namespace CoMoNet

open GuardedRun (System)
open CScript (bigNumBytes extractPushData extractPushDataString extractSmallString isSmallString
  pushAll push_small)

/-! ## The newest transaction of a user -/

/-- The first round of `getTransaction`: the newest entry, if it is in the main chain. -/
def newestTx (env : Env) (s : ChainState) (u : Bytes) : Option (CTransaction × Uint256) :=
  match s.txIndex ⟨u, -1⟩ with
  | none => none
  | some postx =>
    match s.readTxAt postx with
    | none => none
    | some (header, txOut) =>
      if txOut.getUsername ≠ u then none
      else
        match s.findBlockIndex env (env.headerHash header) with
        | none => none
        | some pindex =>
          if !s.isInMainChain pindex then none else some (txOut, env.headerHash header)

section Newest

variable {env : Env} {fuel : Nat} {s : ChainState} {u : Bytes} {tx : CTransaction}
variable {hash : Uint256} {maxHeight : Int}

theorem readTxAt_some {postx : CDiskTxPos} {header : CBlockHeader}
    (h : s.readTxAt postx = some (header, tx)) :
    ∃ p ∈ s.mapBlockIndex, header = p.block.toCBlockHeader ∧ tx ∈ p.block.vtx := by
  rw [ChainState.readTxAt] at h
  split at h
  · cases h
  next p hfind =>
    obtain ⟨tx', hread, heq⟩ := Option.map_eq_some_iff.mp h
    obtain ⟨front, back, hvtx, -⟩ := CBlock.readTx_split hread
    cases heq
    exact ⟨p, List.mem_of_find?_eq_some hfind, rfl, by simp [hvtx]⟩

/-- In a chain state that is in order one round is enough for the newest
transaction. -/
theorem ChainInv.getTransaction_newest (inv : ChainInv env s) (u : Bytes)
    (hmax : maxHeight < 0 ∨ s.nBestHeight ≤ maxHeight) :
    getTransaction env (fuel + 1) s u maxHeight = .ok (newestTx env s u) := by
  have hbest : s.nBestHeight ≤ if maxHeight < 0 then s.nBestHeight else maxHeight := by
    split
    · exact Int.le_refl _
    · next hneg => exact hmax.resolve_left hneg
  rw [getTransaction, getTransactionFrom, newestTx]
  cases hindex : s.txIndex ⟨u, -1⟩ with
  | none => rfl
  | some postx =>
    cases hread : s.readTxAt postx with
    | none => simp only [hread]
    | some found =>
      obtain ⟨header, txOut⟩ := found
      obtain ⟨p, hp, rfl, -⟩ := readTxAt_some hread
      have hfind : s.findBlockIndex env (env.headerHash p.block.toCBlockHeader) = some p :=
        inv.tree.find_hash hp
      simp only [hread, hfind]
      split
      · rfl
      rw [if_neg (by simp [inv.tree.nHeight_eq hp])]
      cases hmain : s.isInMainChain p with
      | false => rfl
      | true =>
        have hle := inv.best p (inv.isInMainChain_iff.mp hmain)
        rw [← inv.tree.nHeight_eq hp] at hle
        simp [Int.not_lt.mpr (Int.le_trans hle hbest)]

theorem newestTx_mem (h : newestTx env s u = some (tx, hash)) :
    tx.getUsername = u ∧ ∃ p ∈ s.mapBlockIndex, tx ∈ p.block.vtx := by
  rw [newestTx] at h
  split at h
  · cases h
  split at h
  · cases h
  next header txOut hread =>
    obtain ⟨p, hp, -, htx⟩ := readTxAt_some hread
    split at h
    · cases h
    next hname =>
      split at h
      · cases h
      split at h
      · cases h
      · cases h
        exact ⟨not_not.mp hname, p, hp, htx⟩

theorem extractPushData_of_isSmallString {script : CScript}
    (h : isSmallString script = true) :
    extractPushData script = some [extractSmallString script] := by
  rw [extractSmallString, if_pos h]
  cases script with
  | nil => cases h
  | cons opSize rest =>
    rw [isSmallString, Bool.and_eq_true, decide_eq_true_eq, beq_iff_eq] at h
    obtain ⟨hop, hlen⟩ := h
    have hshort : rest.length < 76 := by
      rw [hlen]
      exact UInt8.lt_iff_toNat_lt.mp hop
    obtain ⟨opcode, hpush, -, hnat⟩ := push_small hshort
    have hopcode : opcode = opSize := UInt8.toNat_inj.mp (hnat.trans hlen)
    have hscript : opSize :: rest = pushAll [rest] := by
      rw [pushAll, List.flatMap_cons, List.flatMap_nil, List.append_nil, hpush, hopcode]
    rw [hscript, CScript.extractPushData_pushAll]
    · rw [← hscript, List.tail_cons]
    · intro b hb
      rw [List.mem_singleton.mp hb]
      exact Nat.lt_trans hshort (by decide)

/-- The name in a valid transaction is not too long. -/
theorem length_getUsername_le (h : checkTransaction env tx = .valid) :
    tx.getUsername.length ≤ maxUsernameSize := by
  rw [CTransaction.getUsername]
  split
  · next hsmall =>
      have hchecked := (checkTransaction_iff.mp h).1
      split at hchecked
      · have hname : extractPushDataString tx.userName 0 =
            extractSmallString tx.userName := by
          rw [extractPushDataString, extractPushData_of_isSmallString hsmall]
          rfl
        exact hname ▸ (checkSpamMessage_iff.mp hchecked).2.2.2
      · exact (checkUsername_iff.mp (checkRegistration_iff.mp hchecked).2.2.2.2).2.1
  · exact Nat.zero_le _

theorem ChainInv.length_of_newestTx (inv : ChainInv env s)
    (h : newestTx env s u = some (tx, hash)) : u.length ≤ maxUsernameSize := by
  obtain ⟨rfl, p, hp, htx⟩ := newestTx_mem h
  cases hprev : p.pprev with
  | none =>
    rw [inv.tree.root p hp hprev, Env.genesisBlock, List.mem_singleton] at htx
    rw [htx]
    decide
  | some q =>
    obtain ⟨now, hchecked⟩ := inv.tree.checked p hp q hprev
    exact length_getUsername_le ((checkBlock_iff.mp hchecked).checked tx htx)

end Newest

/-! ## The spam message -/

section Spam

variable {env : Env} {strMsg strUsername vchSig salt pubKey : Bytes} {n : Nat}

theorem length_le_push (b : Bytes) : b.length ≤ (CScript.push b).length := by
  rw [CScript.push, List.length_append]
  exact Nat.le_add_left _ _

theorem isSpamMessage_spamMsgTx :
    (spamMsgTx strMsg strUsername vchSig salt pubKey).isSpamMessage = true := by
  rw [CTransaction.isSpamMessage, Bool.not_eq_true', List.isEmpty_eq_false_iff]
  exact CScript.push_ne_nil _

/-- The name, signature and salt. -/
theorem extractPushData_spamMsgTx (huser : strUsername.length < 256 ^ 4)
    (hsig : vchSig.length < 256 ^ 4) (hsalt : salt.length < 256 ^ 4) :
    extractPushData (spamMsgTx strMsg strUsername vchSig salt pubKey).userName =
      some [strUsername, vchSig, salt] := by
  have hpushes : (spamMsgTx strMsg strUsername vchSig salt pubKey).userName =
      pushAll [strUsername, vchSig, salt] := by
    simp [spamMsgTx, pushAll]
  rw [hpushes]
  refine CScript.extractPushData_pushAll fun b hb => ?_
  simp only [List.mem_cons, List.not_mem_nil, or_false] at hb
  rcases hb with rfl | rfl | rfl
  · exact huser
  · exact hsig
  · exact hsalt

theorem extractPushDataString_push (h : strMsg.length < 256 ^ 4) :
    extractPushDataString (CScript.push strMsg) 0 = strMsg := by
  have hpushes : CScript.push strMsg = pushAll [strMsg] := by simp [pushAll]
  rw [extractPushDataString, hpushes, CScript.extractPushData_pushAll]
  · rfl
  · intro b hb
    rw [List.mem_singleton.mp hb]
    exact h

/-- A spam message with text and user in order passes exactly if it is small enough. -/
theorem checkTransaction_spamMsgTx (hmsg : numCharacters strMsg = some n) (hpos : n ≠ 0)
    (hmax : n ≤ maxSpamMsgSize) (huser : strUsername ≠ [])
    (hshort : strUsername.length ≤ maxUsernameSize) (hsig : vchSig.length < 256 ^ 4)
    (hsalt : salt.length < 256 ^ 4) :
    checkTransaction env (spamMsgTx strMsg strUsername vchSig salt pubKey) = .valid ↔
      (spamMsgTx strMsg strUsername vchSig salt pubKey).serializeSize ≤ 512 := by
  have hspam : (spamMsgTx strMsg strUsername vchSig salt pubKey).isSpamMessage = true :=
    isSpamMessage_spamMsgTx
  constructor
  · exact fun h => (checkTransaction_iff.mp h).2.1
  · intro hsize
    have hlen : strMsg.length < 256 ^ 4 := by
      have hle := length_le_push strMsg
      simp only [CTransaction.serializeSize, spamMsgTx] at hsize
      omega
    have hne : strMsg ≠ [] := by
      rintro rfl
      exact hpos (Option.some.inj hmsg).symm
    have hname : extractPushDataString
        (spamMsgTx strMsg strUsername vchSig salt pubKey).userName 0 = strUsername := by
      rw [extractPushDataString, extractPushData_spamMsgTx
        (Nat.lt_of_le_of_lt hshort (by decide)) hsig hsalt]
      rfl
    have htext : extractPushDataString
        (spamMsgTx strMsg strUsername vchSig salt pubKey).message 0 = strMsg :=
      extractPushDataString_push hlen
    rw [checkTransaction_iff, hspam, if_pos rfl, checkSpamMessage_iff, hname, htext]
    exact ⟨⟨hne, ⟨n, hmsg, hmax⟩, huser, hshort⟩, hsize, by simp⟩

end Spam

/-! ## The memory pool -/

/-- What `CTxMemPool::accept` makes sure of, whatever becomes of the chain. -/
structure PoolSound (env : Env) (pool : List CTransaction) : Prop where
  checked : ∀ tx ∈ pool, poolChecks env tx = true
  ids : (pool.map env.txHash).Nodup

section Pool

variable {env : Env} {fuel : Nat} {s s' : ChainState} {tx : CTransaction}

namespace PoolSound

variable {pool : List CTransaction}

theorem append (h : PoolSound env pool) (hchecks : poolChecks env tx = true)
    (hnew : (pool.any fun tx' => env.txHash tx' == env.txHash tx) = false) :
    PoolSound env (pool ++ [tx]) := by
  refine ⟨?_, ?_⟩
  · intro tx' htx
    rcases List.mem_append.mp htx with htx | htx
    · exact h.checked tx' htx
    · rw [List.mem_singleton.mp htx]
      exact hchecks
  · rw [List.map_append, List.map_singleton, ← List.concat_eq_append, List.nodup_concat]
    refine ⟨?_, h.ids⟩
    intro hmem
    obtain ⟨tx', htx', hhash⟩ := List.mem_map.mp hmem
    have hany := List.any_eq_false.mp hnew tx' htx'
    simp [hhash] at hany

theorem filter (h : PoolSound env pool) (keep : CTransaction → Bool) :
    PoolSound env (pool.filter keep) :=
  ⟨fun tx htx => h.checked tx (List.mem_filter.mp htx).1, h.ids.sublist (List.filter_sublist.map _)⟩

theorem readmitted {fit : CTransaction → Bool} {txs : List CTransaction}
    (h : PoolSound env pool) : PoolSound env (readmitted env fit pool txs) := by
  induction txs generalizing pool with
  | nil => exact h
  | cons tx txs ih =>
    rw [CoMoNet.readmitted]
    split
    · next hchecks =>
      rw [Bool.and_eq_true, Bool.and_eq_true, Bool.not_eq_true'] at hchecks
      exact ih (h.append hchecks.1.1 hchecks.1.2)
    · exact ih h

theorem mempoolAccept {limit limited b : Bool} (h : PoolSound env s.mapTx)
    (haccept : mempoolAccept env fuel s tx limit limited = .ok (b, s')) :
    PoolSound env s'.mapTx := by
  rw [mempoolAccept_eq] at haccept
  split at haccept
  · next hchecks =>
    obtain ⟨fit, -, heq⟩ := Except.map_eq_ok_iff.mp haccept
    rw [Bool.and_eq_true, Bool.not_eq_true'] at hchecks
    split at heq
    · cases heq
      exact h.append hchecks.1 hchecks.2
    · cases heq
      exact h
  · cases haccept
    exact h

end PoolSound

/-- The pool is sound in every run. -/
theorem synced_poolSound (h : (poolSystem env).Reach (fun _ _ => True) s) :
    Synced env s ∧ PoolSound env s.mapTx := by
  refine h.invariant (I := fun s => Synced env s ∧ PoolSound env s.mapTx) ?_ ?_
  · rintro s rfl
    exact ⟨⟨chainInv_init env, inStep_init⟩, by simp, List.nodup_nil⟩
  · rintro s a s' ⟨synced, hpool⟩ - hstep
    cases a with
    | arrive block pos =>
      refine ⟨synced_step (a := .accept block pos) synced trivial hstep, ?_⟩
      obtain ⟨-, rfl⟩ := hstep
      exact hpool
    | setBestChain fuel rounds pindexNew =>
      obtain ⟨plan, -, synced', -, hafter⟩ := setBestChain_pool synced hstep.1 hstep.2
      exact ⟨synced', hafter ▸ hpool.readmitted.filter _⟩
    | accept fuel tx fLimitFree rateLimited =>
      obtain ⟨b, hcall⟩ := hstep
      exact ⟨synced.mark (onlyPool_mempoolAccept hcall).sameIndex, hpool.mempoolAccept hcall⟩
    | clock now =>
      obtain rfl := hstep
      exact ⟨synced.setClock now, hpool⟩

/-- Whatever switches of the chain come between, in conflict with the pool or not. -/
theorem poolSound_of_reach (h : (poolSystem env).Reach (fun _ _ => True) s) :
    PoolSound env s.mapTx :=
  (synced_poolSound h).2

theorem poolSound_aliceBlock : (poolState aliceBlock).mapTx ≠ [] ∧
    PoolSound smallNet (poolState aliceBlock).mapTx :=
  ⟨by decide +kernel,
    poolSound_of_reach ((reach_poolState (by decide +kernel)).mono fun _ _ _ => trivial)⟩

theorem poolChecks_spec (h : poolChecks env tx = true) :
    checkTransaction env tx = .valid ∧ tx.isSpamMessage = false := by
  rw [poolChecks, Bool.and_eq_true, Bool.and_eq_true, Bool.not_eq_true'] at h
  obtain ⟨⟨hvalid, hspam⟩, -⟩ := h
  refine ⟨?_, hspam⟩
  cases hcheck : checkTransaction env tx with
  | valid => rfl
  | invalid nDoS errors => simp [hcheck, Verdict.isValid] at hvalid

theorem ChainInv.chainTest_ok (inv : ChainInv env s) (tx : CTransaction) :
    ∃ fit, chainTest env (fuel + 1) s tx = .ok fit := by
  rw [chainTest_eq, inv.getTransaction_newest tx.getUsername (.inl (by decide))]
  exact ⟨_, rfl⟩

/-- What the loop collects. -/
structure Collected (env : Env) (fuel : Nat) (s : ChainState) (nBlockMaxSize : Nat)
    (pool : List CTransaction) (uniqueUsers : List Uint256) (nBlockSize : Nat)
    (vtx : List CTransaction) : Prop where
  sublist : vtx.Sublist pool
  /-- Every transaction passes the test against the chain. -/
  fits : ∀ tx ∈ vtx, chainTest env fuel s tx = .ok true
  users : (vtx.map (getUsernameHash env)).Nodup
  fresh : ∀ tx ∈ vtx, getUsernameHash env tx ∉ uniqueUsers
  size : nBlockSize + (vtx.map CTransaction.serializeSize).sum ≤ max nBlockSize nBlockMaxSize

theorem Collected.skip {nBlockMaxSize nBlockSize : Nat} {pool vtx : List CTransaction}
    {uniqueUsers uniqueUsers' : List Uint256}
    (h : Collected env fuel s nBlockMaxSize pool uniqueUsers' nBlockSize vtx)
    (husers : uniqueUsers ⊆ uniqueUsers') :
    Collected env fuel s nBlockMaxSize (tx :: pool) uniqueUsers nBlockSize vtx :=
  ⟨h.sublist.cons tx, h.fits, h.users, fun t ht hmem => h.fresh t ht (husers hmem), h.size⟩

theorem ChainInv.collectTransactions (inv : ChainInv env s) (fuel nBlockMaxSize : Nat) :
    ∀ (pool : List CTransaction) (uniqueUsers : List Uint256) (nBlockSize : Nat),
      ∃ vtx, collectTransactions env (fuel + 1) s nBlockMaxSize pool uniqueUsers nBlockSize =
          .ok vtx ∧
        Collected env (fuel + 1) s nBlockMaxSize pool uniqueUsers nBlockSize vtx
  | [], uniqueUsers, nBlockSize =>
    ⟨[], rfl, List.Sublist.refl [], nofun, List.nodup_nil, nofun, by simp⟩
  | tx :: rest, uniqueUsers, nBlockSize => by
    have hskip := inv.collectTransactions fuel nBlockMaxSize rest uniqueUsers nBlockSize
    obtain ⟨fit, hfit⟩ : ∃ fit, chainTest env (fuel + 1) s tx = .ok fit := inv.chainTest_ok tx
    rw [CoMoNet.collectTransactions, hfit]
    split
    · obtain ⟨vtx, hvtx, hcollected⟩ := hskip
      exact ⟨vtx, hvtx, hcollected.skip (List.Subset.refl _)⟩
    cases fit with
    | false =>
      obtain ⟨vtx, hvtx, hcollected⟩ := hskip
      exact ⟨vtx, hvtx, hcollected.skip (List.Subset.refl _)⟩
    | true =>
      simp only
      split
      · obtain ⟨vtx, hvtx, hcollected⟩ := hskip
        exact ⟨vtx, hvtx, hcollected.skip (List.Subset.refl _)⟩
      next huser =>
      split
      · obtain ⟨vtx, hvtx, hcollected⟩ := inv.collectTransactions fuel nBlockMaxSize rest
          (getUsernameHash env tx :: uniqueUsers) nBlockSize
        exact ⟨vtx, hvtx, hcollected.skip (List.subset_cons_self _ _)⟩
      next hsize =>
        obtain ⟨vtx, hvtx, hcollected⟩ := inv.collectTransactions fuel nBlockMaxSize rest
          (getUsernameHash env tx :: uniqueUsers) (nBlockSize + tx.serializeSize)
        refine ⟨tx :: vtx, by rw [hvtx]; rfl, hcollected.sublist.cons_cons tx, ?_, ?_, ?_, ?_⟩
        · intro t ht
          rcases List.mem_cons.mp ht with rfl | ht
          · exact hfit
          · exact hcollected.fits t ht
        · rw [List.map_cons, List.nodup_cons]
          refine ⟨?_, hcollected.users⟩
          intro hmem
          obtain ⟨t, ht, heq⟩ := List.mem_map.mp hmem
          exact hcollected.fresh t ht (heq ▸ List.mem_cons_self)
        · intro t ht
          rcases List.mem_cons.mp ht with rfl | ht
          · exact huser
          · exact fun hmem => hcollected.fresh t ht (List.mem_cons_of_mem _ hmem)
        · have hle := hcollected.size
          rw [List.map_cons, List.sum_cons]
          omega

end Pool

/-! ## The block -/

section Block

variable {env : Env} {fuel : Nat} {s : ChainState} {now : Int} {block : CBlock}
variable {spam : CTransaction} {vtx pool : List CTransaction} {fCheckMerkleRoot : Bool}

theorem sizeOfCompactSize_le (n : Nat) : sizeOfCompactSize n ≤ 9 := by
  rw [sizeOfCompactSize]
  split_ifs <;> decide

/-- A valid spam message with what was collected is a valid block. -/
theorem blockValid_of_collected (hpool : PoolSound env pool)
    (hhash : Function.Injective env.txHash) (hsub : vtx.Sublist (poolInOrder env pool))
    (husers : (vtx.map (getUsernameHash env)).Nodup)
    (hsum : (vtx.map CTransaction.serializeSize).sum ≤ maxBlockSize - 2000)
    (hvtx : block.vtx = spam :: vtx) (hspam : spam.isSpamMessage = true)
    (hchecked : checkTransaction env spam = .valid)
    (htime : (block.nTime : Int) ≤ now + 2 * 60 * 60)
    (hmerkle : fCheckMerkleRoot = true → block.hashMerkleRoot = buildMerkleTree env block.vtx) :
    BlockValid env now block false fCheckMerkleRoot := by
  have hperm : (poolInOrder env pool).Perm pool := List.perm_insertionSort _ pool
  have hmem : ∀ tx ∈ vtx, checkTransaction env tx = .valid ∧ tx.isSpamMessage = false := by
    intro tx htx
    exact poolChecks_spec (hpool.checked tx (hperm.mem_iff.mp (hsub.subset htx)))
  have hids : (vtx.map env.txHash).Nodup :=
    ((hperm.map env.txHash).nodup_iff.mpr hpool.ids).sublist (hsub.map env.txHash)
  refine ⟨by simp [hvtx], ?_, nofun, htime, by simp [hvtx, hspam], ?_, ?_, ?_, ?_, hmerkle⟩
  · have hspamSize := (checkTransaction_iff.mp hchecked).2.1
    have hcount := sizeOfCompactSize_le block.vtx.length
    have hsize : block.serializeSize = 84 + sizeOfCompactSize block.vtx.length +
        (spam.serializeSize + (vtx.map CTransaction.serializeSize).sum) := by
      rw [CBlock.serializeSize, hvtx, List.map_cons, List.sum_cons]
    simp only [maxBlockSize] at hsum ⊢
    omega
  · rw [hvtx, List.tail_cons]
    exact fun tx htx => (hmem tx htx).2
  · intro tx htx
    rw [hvtx] at htx
    rcases List.mem_cons.mp htx with rfl | htx
    · exact hchecked
    · exact (hmem tx htx).1
  · rw [hvtx, List.map_cons, List.nodup_cons]
    refine ⟨?_, hids⟩
    intro hin
    obtain ⟨tx, htx, heq⟩ := List.mem_map.mp hin
    have hnot := (hmem tx htx).2
    rw [hhash heq, hspam] at hnot
    cases hnot
  · rw [hvtx, List.tail_cons]
    exact husers

/-- What fits the chain passes the overwrite check of the next block. -/
theorem ChainInv.checkOverwrites_fits (inv : ChainInv env s)
    (hheight : s.nBestHeight ≤ block.nHeight)
    (hfits : ∀ tx ∈ vtx, chainTest env (fuel + 1) s tx = .ok true) :
    checkOverwrites env (fuel + 1) block s vtx = .ok (.valid, s) := by
  induction vtx with
  | nil => rfl
  | cons tx vtx ih =>
    have hone : checkOverwrite env (fuel + 1) block s tx = .ok (.valid, s) := by
      have hfit := hfits tx List.mem_cons_self
      rw [chainTest_eq, inv.getTransaction_newest _ (.inl (by decide))] at hfit
      rw [checkOverwrite, verifyDuplicateOrReplacementTx,
        inv.getTransaction_newest _ (.inl (by decide)), inv.getTransaction_newest _ (.inr hheight)]
      cases hnewest : newestTx env s tx.getUsername with
      | none => rfl
      | some old =>
        rw [hnewest] at hfit
        have hreplaces : isKeyReplacement env old.1 tx = true := by
          simpa [Except.map] using hfit
        simp [hreplaces]
    rw [checkOverwrites, hone]
    exact ih fun t ht => hfits t (List.mem_cons_of_mem tx ht)

end Block

/-! ## The signature -/

section Signature

variable {env : Env} {sign : Bytes → Uint256 → Option Bytes} {fuel keyID : Nat} {s : ChainState}
variable {w : KeyWallet} {block : CBlock} {strMsg strUsername vchSig salt pubKey : Bytes}

/-- A signature by `keyID` is the user's exactly if that key is on the chain. -/
theorem verifySpamSignature_iff {tx : CTransaction} {key : Bytes} (fuel : Nat)
    (inv : ChainInv env s)
    (hkey : env.recoverCompact (env.messageHash tx.message) vchSig = some key)
    (hid : env.hash160 key = keyID) :
    verifySpamSignature env tx vchSig ((newestTx env s strUsername).map Prod.fst) = .valid ↔
      registeredID env (fuel + 1) s strUsername = some keyID := by
  rw [registeredID, inv.getTransaction_newest _ (.inl (by decide))]
  cases hnewest : newestTx env s strUsername with
  | none => simp [verifySpamSignature]
  | some old =>
    obtain ⟨old, hash⟩ := old
    simp only [Option.map_some, verifySpamSignature, registeredKey]
    cases hpushes : extractPushData old.pubKey with
    | none => simp
    | some pushes =>
      cases pushes with
      | nil => simp
      | cons pubkey more =>
        simp only [hkey, hid, Option.map_some, Option.some.injEq]
        constructor
        · intro h
          split at h
          · cases h
          next heq => exact (not_not.mp heq).symm
        · intro heq
          rw [if_neg (by simp [heq])]

theorem ChainInv.checkSpamSigner_iff (inv : ChainInv env s) (hsound : w.Sound env sign)
    (hheight : s.nBestHeight ≤ block.nHeight)
    (hsign : spamSignature env sign w strMsg keyID = some vchSig)
    (huser : strUsername.length < 256 ^ 4) (hsig : vchSig.length < 256 ^ 4)
    (hsalt : salt.length < 256 ^ 4) :
    ∃ v, checkSpamSigner env (fuel + 1) s block
        (spamMsgTx strMsg strUsername vchSig salt pubKey) = .ok v ∧
      (v = .valid ↔ strUsername = ascii "nobody" ∨
        keyID ≠ 0 ∧ registeredID env (fuel + 1) s strUsername = some keyID) := by
  have hname : extractPushDataString
      (spamMsgTx strMsg strUsername vchSig salt pubKey).userName 0 = strUsername := by
    rw [extractPushDataString, extractPushData_spamMsgTx huser hsig hsalt]
    rfl
  have hpush : extractPushDataString
      (spamMsgTx strMsg strUsername vchSig salt pubKey).userName 1 = vchSig := by
    rw [extractPushDataString, extractPushData_spamMsgTx huser hsig hsalt]
    rfl
  rw [checkSpamSigner, hname, hpush]
  by_cases hnobody : strUsername = ascii "nobody"
  · exact ⟨.valid, if_pos hnobody, by simp [hnobody]⟩
  rw [if_neg hnobody]
  rw [spamSignature] at hsign
  by_cases hzero : keyID = 0
  · rw [if_neg (by simpa using hzero)] at hsign
    cases hsign
    exact ⟨_, if_pos rfl, by simp [hnobody, hzero]⟩
  · rw [if_pos hzero] at hsign
    obtain ⟨key, hget, hsigned⟩ := Option.bind_eq_some_iff.mp hsign
    have hlookup : w.keys.lookup keyID = some key := by
      rw [WalletKeys.getKey] at hget
      split at hget
      · cases hget
      · exact hget
    obtain ⟨sig, pubkey, hsig', hne, -, hrecover, hid⟩ :=
      hsound.keys keyID key hlookup (env.messageHash (CScript.push strMsg))
    obtain rfl := Option.some.inj (hsigned.symm.trans hsig')
    refine ⟨_, by rw [if_neg hne, inv.getTransaction_newest _ (.inr hheight)], ?_⟩
    rw [verifySpamSignature_iff fuel inv hrecover hid]
    simp [hnobody, hzero]

end Signature

/-! ## The template -/

/-- The spam message has room for the largest nonce and, if signed, 65 bytes. -/
def spamFits (strMsg strUsername salt : Bytes) (signed : Bool) : Bool :=
  let vchSig := List.replicate (if signed then 65 else 0) 0
  (spamMsgTx strMsg strUsername vchSig salt (List.replicate 13 0)).serializeSize ≤ 512

/-- A miner with these settings gets a block on top of `tip`. -/
structure CanMine (env : Env) (fuel : Nat) (s : ChainState) (w : KeyWallet) (tip : CBlockIndex)
    (spam : SpamSettings) (salt strUsername : Bytes) (keyID : Nat) : Prop where
  signer : spamSigner env fuel s w spam.strSpamUser = .ok (strUsername, keyID)
  named : strUsername ≠ []
  /-- The wallet can sign with the key that the user has on the chain. -/
  signs : strUsername = ascii "nobody" ∨
    keyID ≠ 0 ∧ (w.getKey keyID).isSome = true ∧ registeredID env fuel s strUsername = some keyID
  fits : spamFits spam.strSpamMessage strUsername salt (decide (keyID ≠ 0)) = true
  time : (tip.getMedianTimePast + 1 : Int) ≤ s.adjustedTime env + 2 * 60 * 60
  /-- The coin view is at the best block. -/
  coins : s.coinsTip = some tip

/-- With the extra nonce in, the spam message passes, and the block when its time has come. -/
def Workable (env : Env) (tip : CBlockIndex) (block : CBlock) (nExtraNonce : Nat) : Prop :=
  ∃ block' spam vtx, incrementExtraNonce env tip block nExtraNonce = .ok block' ∧
    block'.vtx = spam :: vtx ∧ checkTransaction env spam = .valid ∧
    ∀ now : Int, (block'.nTime : Int) ≤ now + 2 * 60 * 60 →
      checkBlock env now block' false true = .valid

section CreateNewBlock

variable {env : Env} {sign : Bytes → Uint256 → Option Bytes} {fuel keyID : Nat} {s : ChainState}
variable {w : KeyWallet} {tip : CBlockIndex} {spam : SpamSettings}
variable {strMsg strUsername vchSig salt : Bytes}

theorem length_push_congr {a b : Bytes} (h : a.length = b.length) :
    (CScript.push a).length = (CScript.push b).length := by
  simp only [CScript.push, h, List.length_append]

/-- The room for a spam message, when its public key has few bytes. -/
theorem serializeSize_spamMsgTx {pubKey : Bytes} {signed : Bool}
    (hsig : vchSig.length = if signed then 65 else 0) (hlen : pubKey.length ≤ 13) :
    spamFits strMsg strUsername salt signed =
      decide ((spamMsgTx strMsg strUsername vchSig salt pubKey).serializeSize +
        (13 - pubKey.length) ≤ 512) := by
  have hcompact : sizeOfCompactSize pubKey.length = 1 := if_pos (by omega)
  have hmax : sizeOfCompactSize 13 = 1 := rfl
  have hpush : (CScript.push vchSig).length =
      (CScript.push (List.replicate (if signed then 65 else 0) 0)).length :=
    length_push_congr (by rw [hsig, List.length_replicate])
  simp only [spamFits, CTransaction.serializeSize, spamMsgTx, List.length_append, hpush, hcompact,
    List.length_replicate, hmax]
  congr 1
  apply propext
  omega

theorem length_bigNumBytes {n : Nat} (h : n < 2 ^ 32) : (bigNumBytes n).length ≤ 5 := by
  rw [bigNumBytes]
  split
  · exact Nat.zero_le _
  next hpos =>
    have hlog : n.log2 < 32 := (Nat.log2_lt hpos).mpr h
    rw [List.length_append, CScript.length_sizeField]
    split <;> simp <;> omega

theorem length_extraNonce {n : Nat} (h : n < 2 ^ 32) :
    (CScript.push (bigNumBytes n) ++ coinbaseFlags).length ≤ 13 := by
  have hbytes := length_bigNumBytes h
  obtain ⟨opcode, hpush, -, -⟩ := push_small (Nat.lt_of_le_of_lt hbytes (by decide))
  have hflags : coinbaseFlags.length = 7 := by decide +kernel
  rw [List.length_append, hpush, List.length_cons, hflags]
  omega

theorem incrementExtraNonce_eq {block : CBlock} {tx : CTransaction} {vtx : List CTransaction}
    {nExtraNonce : Nat} (hvtx : block.vtx = tx :: vtx) (h : nExtraNonce < 2 ^ 32) :
    incrementExtraNonce env tip block nExtraNonce =
      let pubKey := CScript.push (bigNumBytes nExtraNonce) ++ coinbaseFlags
      .ok { block with
        nHeight := tip.nHeight + 1
        vtx := { tx with pubKey := pubKey } :: vtx
        hashMerkleRoot := buildMerkleTree env ({ tx with pubKey := pubKey } :: vtx) } := by
  have hlen : ¬ 100 < (CScript.push (bigNumBytes nExtraNonce) ++ coinbaseFlags).length :=
    Nat.not_lt.mpr (Nat.le_trans (length_extraNonce h) (by decide))
  simp only [incrementExtraNonce, hvtx, if_neg hlen]

/-- The ancestor that `GetNextWorkRequired` asks for is there. -/
theorem stepsDown_isSome : ∀ {n : Nat} {p : CBlockIndex}, n ≤ p.nHeight →
    ∃ q, CBlockIndex.stepsDown n p = some q
  | 0, p, _ => ⟨p, rfl⟩
  | n + 1, .root .., h => absurd h (by simp [CBlockIndex.nHeight])
  | n + 1, .next pprev block pos, h => by
    obtain ⟨q, hq⟩ := stepsDown_isSome (p := pprev) (Nat.le_of_succ_le_succ h)
    exact ⟨q, hq⟩

theorem getNextWorkRequired_ok (env : Env) (p : CBlockIndex) (block : CBlock) :
    ∃ nBits, getNextWorkRequired env p block = .ok nBits := by
  rw [getNextWorkRequired]
  by_cases hmod : (p.nHeight + 1) % nInterval ≠ 0
  · rw [if_pos hmod]
    split_ifs <;> exact ⟨_, rfl⟩
  · have hheight : nInterval - 1 ≤ p.nHeight := by
      have hdvd := Nat.le_of_dvd (Nat.succ_pos p.nHeight) (Nat.dvd_of_mod_eq_zero (not_not.mp hmod))
      exact Nat.sub_le_iff_le_add.mpr hdvd
    obtain ⟨q, hq⟩ := stepsDown_isSome hheight
    rw [if_neg hmod, hq]
    exact ⟨_, rfl⟩

theorem ChainInv.spamSigner_ok (inv : ChainInv env s) (fuel : Nat) (w : KeyWallet)
    (strSpamUser : Bytes) :
    ∃ strUsername keyID, spamSigner env (fuel + 1) s w strSpamUser = .ok (strUsername, keyID) ∧
      strUsername.length ≤ maxUsernameSize := by
  have hnobody : (ascii "nobody").length ≤ maxUsernameSize := by decide
  rw [spamSigner]
  split
  · next huser => exact ⟨_, _, rfl, huser ▸ hnobody⟩
  rw [inv.getTransaction_newest _ (.inl (by decide))]
  cases hnewest : newestTx env s strSpamUser with
  | none => exact ⟨_, _, rfl, hnobody⟩
  | some old =>
    cases w.getKeyIdFromUsername strSpamUser with
    | none => exact ⟨_, _, rfl, hnobody⟩
    | some keyID => exact ⟨_, _, rfl, inv.length_of_newestTx hnewest⟩

/-- `ConnectBlock` on a template: its tests and the signature of the spam message. -/
theorem ChainInv.connectBlock_template {vtx : List CTransaction} (inv : ChainInv env s)
    (nBits : Nat) (hsound : w.Sound env sign) (hheader : Function.Injective env.headerHash)
    (htip : s.pindexBest = some tip) (hcoins : s.coinsTip = some tip)
    (hsign : spamSignature env sign w strMsg keyID = some vchSig)
    (huser : strUsername.length ≤ maxUsernameSize) (hsig : vchSig.length < 256 ^ 4)
    (hsalt : salt.length = 4) (hfits : ∀ tx ∈ vtx, chainTest env (fuel + 1) s tx = .ok true) :
    let block := templateBlock env s tip (spamMsgTx strMsg strUsername vchSig salt [] :: vtx) nBits
    ∃ v, connectBlock env (fuel + 1) s s.coinsTip block (.next tip block ⟨0, 0⟩) true =
        .ok (v, s, some tip) ∧
      (v = .valid ↔ checkBlock env (s.adjustedTime env) block false false = .valid ∧
        (strUsername = ascii "nobody" ∨
          keyID ≠ 0 ∧ registeredID env (fuel + 1) s strUsername = some keyID)) := by
  intro block
  have hheight : s.nBestHeight ≤ block.nHeight := by
    rw [ChainState.nBestHeight, htip]
    exact Int.le_add_one (Int.le_refl _)
  have hgenesis : env.blockHash block ≠ env.hashGenesisBlock := by
    intro heq
    have hsame := congrArg CBlockHeader.nHeight (hheader heq)
    have hzero : (tip.nHeight : Int) + 1 = 0 := hsame
    omega
  obtain ⟨v, hsigner, hv⟩ : ∃ v, checkSpamSigner env (fuel + 1) s block
        (spamMsgTx strMsg strUsername vchSig salt []) = .ok v ∧
      (v = .valid ↔ strUsername = ascii "nobody" ∨
        keyID ≠ 0 ∧ registeredID env (fuel + 1) s strUsername = some keyID) :=
    inv.checkSpamSigner_iff hsound hheight hsign (Nat.lt_of_le_of_lt huser (by decide)) hsig
      (by rw [hsalt]; decide)
  have hchecks : connectChecks env (fuel + 1) s block = .ok (v, s) := by
    rw [connectChecks]
    simp only [block, templateBlock] at hsigner ⊢
    rw [hsigner]
    cases v with
    | invalid nDoS errors => rfl
    | valid => exact inv.checkOverwrites_fits hheight hfits
  rw [connectBlock, hcoins]
  simp only [Bool.not_true]
  cases hcheck : checkBlock env (s.adjustedTime env) block false false with
  | invalid nDoS errors => exact ⟨_, rfl, by simp⟩
  | valid =>
    have hprev : ¬ (CBlockIndex.next tip block ⟨0, 0⟩).pprev ≠ some tip := by
      simp [CBlockIndex.pprev]
    simp only [if_neg hprev, if_neg hgenesis, hchecks]
    cases v with
    | invalid nDoS errors => exact ⟨_, rfl, by simpa using hv⟩
    | valid => exact ⟨_, rfl, by simpa using hv⟩

theorem length_spamSignature
    (hlen : ∀ key hash sig, sign key hash = some sig → sig.length = 65)
    (h : spamSignature env sign w strMsg keyID = some vchSig) :
    vchSig.length = if decide (keyID ≠ 0) then 65 else 0 := by
  rw [spamSignature] at h
  split at h
  · next hne =>
      obtain ⟨key, -, hsign⟩ := Option.bind_eq_some_iff.mp h
      simp [hne, hlen key _ vchSig hsign]
  · next hzero =>
      cases h
      simp [not_not.mp hzero]

theorem exists_spamSignature (strMsg : Bytes) (hsound : w.Sound env sign)
    (h : strUsername = ascii "nobody" ∧ keyID = 0 ∨ (w.getKey keyID).isSome = true) :
    ∃ vchSig, spamSignature env sign w strMsg keyID = some vchSig := by
  rw [spamSignature]
  split
  · next hne =>
      obtain ⟨key, hkey⟩ :=
        Option.isSome_iff_exists.mp (h.resolve_left fun hnobody => hne hnobody.2)
      have hlookup : w.keys.lookup keyID = some key := by
        rw [WalletKeys.getKey] at hkey
        split at hkey
        · cases hkey
        · exact hkey
      obtain ⟨sig, -, hsig, -⟩ :=
        hsound.keys keyID key hlookup (env.messageHash (CScript.push strMsg))
      exact ⟨sig, by rw [hkey]; exact hsig⟩
  · exact ⟨[], rfl⟩

theorem keyID_of_nobody {strSpamUser : Bytes}
    (h : spamSigner env fuel s w strSpamUser = .ok (ascii "nobody", keyID)) : keyID = 0 := by
  rw [spamSigner] at h
  split at h
  · cases h
    rfl
  next hne =>
  split at h
  · cases h
  · cases h
    rfl
  · split at h
    · cases h
      rfl
    · cases h
      exact absurd rfl hne

theorem setspammsg_ok {strSpamUser : Bytes} (h : setspammsg strSpamUser strMsg = .ok spam) :
    spam.strSpamMessage = strMsg ∧
      ∃ n, numCharacters strMsg = some n ∧ n ≠ 0 ∧ n ≤ maxSpamMsgSize := by
  rw [setspammsg] at h
  split at h
  · cases h
  next n hn =>
    split at h
    · cases h
    next hpos =>
      split at h
      · cases h
      next hmax =>
        cases h
        exact ⟨rfl, n, hn, hpos, Nat.not_lt.mp hmax⟩

theorem named_of_checkTransaction {pubKey : Bytes}
    (h : checkTransaction env (spamMsgTx strMsg strUsername vchSig salt pubKey) = .valid)
    (hshort : strUsername.length ≤ maxUsernameSize) (hsig : vchSig.length < 256 ^ 4)
    (hsalt : salt.length < 256 ^ 4) : strUsername ≠ [] := by
  rintro rfl
  have hname : extractPushDataString (spamMsgTx strMsg [] vchSig salt pubKey).userName 0 =
      [] := by
    rw [extractPushDataString, extractPushData_spamMsgTx (by decide) hsig hsalt]
    rfl
  have hchecked := (checkTransaction_iff.mp h).1
  rw [if_pos isSpamMessage_spamMsgTx, checkSpamMessage_iff, hname] at hchecked
  exact hchecked.2.2.1 rfl

/-- The block that `CreateNewBlock` builds, and whether it passes. -/
theorem ChainInv.createNewBlock_eq (inv : ChainInv env s) (hsound : w.Sound env sign)
    (hheader : Function.Injective env.headerHash) (htip : s.pindexBest = some tip)
    (hcoins : s.coinsTip = some tip)
    (hsigner : spamSigner env (fuel + 1) s w spam.strSpamUser = .ok (strUsername, keyID))
    (hshort : strUsername.length ≤ maxUsernameSize)
    (hsign : spamSignature env sign w spam.strSpamMessage keyID = some vchSig)
    (hsig : vchSig.length < 256 ^ 4) (hsalt : salt.length = 4) (blockmaxsize : Nat) :
    ∃ vtx nBits, let tx := spamMsgTx spam.strSpamMessage strUsername vchSig salt []
      let block := templateBlock env s tip (tx :: vtx) nBits
      Collected env (fuel + 1) s (clampBlockSize blockmaxsize) (poolInOrder env s.mapTx) [] 1000
          vtx ∧
        ∃ v, createNewBlock env sign (fuel + 1) s w blockmaxsize spam salt =
            (if v = .valid then .ok (some block, s)
             else .error (.runtime "CreateNewBlock() : ConnectBlock failed")) ∧
          (v = Verdict.valid ↔ checkBlock env (s.adjustedTime env) block false false = .valid ∧
            (strUsername = ascii "nobody" ∨
              keyID ≠ 0 ∧ registeredID env (fuel + 1) s strUsername = some keyID)) := by
  obtain ⟨vtx, hcollect, hcollected⟩ := inv.collectTransactions fuel
    (clampBlockSize blockmaxsize) (poolInOrder env s.mapTx) [] 1000
  obtain ⟨nBits, hbits⟩ := getNextWorkRequired_ok env tip (templateBlock env s tip [] 0)
  obtain ⟨v, hconnect, hv⟩ := inv.connectBlock_template nBits hsound hheader htip hcoins
    hsign hshort hsig hsalt hcollected.fits
  refine ⟨vtx, nBits, hcollected, v, ?_, hv⟩
  rw [createNewBlock, createSpamMsgTx, hsigner, htip]
  simp only [Except.map, hsign, Option.map_some, hcollect, hbits, hconnect]
  cases v with
  | valid => rfl
  | invalid nDoS errors => rfl

/-- With the coin view at another block the test of the template ends in an
assertion. -/
theorem createNewBlock_coins {block : CBlock} {s' : ChainState} {blockmaxsize : Nat}
    (htip : s.pindexBest = some tip)
    (h : createNewBlock env sign fuel s w blockmaxsize spam salt = .ok (some block, s')) :
    s.coinsTip = some tip := by
  rw [createNewBlock, htip] at h
  split at h
  · cases h
  · cases h
  · rename_i hnone
    cases hnone
  rename_i txNew pindexPrev _ hbest
  obtain rfl := Option.some.inj hbest
  split at h
  · cases h
  split at h
  · cases h
  simp only at h
  split at h
  · cases h
  · cases h
  · rename_i hconnect
    rw [connectBlock] at hconnect
    split at hconnect
    · cases hconnect
    split at hconnect
    · cases hconnect
    · rename_i hview
      exact (not_not.mp hview).symm

theorem sum_of_collected {vtx : List CTransaction} {pool : List CTransaction} {blockmaxsize : Nat}
    (h : Collected env fuel s (clampBlockSize blockmaxsize) pool [] 1000 vtx) :
    (vtx.map CTransaction.serializeSize).sum ≤ maxBlockSize - 2000 := by
  have hsize := h.size
  simp only [clampBlockSize, maxBlockSize] at hsize ⊢
  omega

/-- If the spam message passes with every extra nonce, so does the block. -/
theorem workable_template {vtx : List CTransaction} {nBits nExtraNonce blockmaxsize : Nat}
    (hpool : PoolSound env s.mapTx) (hhash : Function.Injective env.txHash)
    (hcollected : Collected env fuel s (clampBlockSize blockmaxsize) (poolInOrder env s.mapTx) []
      1000 vtx)
    (hchecked : ∀ pubKey : Bytes, pubKey.length ≤ 13 →
      checkTransaction env (spamMsgTx strMsg strUsername vchSig salt pubKey) = .valid)
    (hn : nExtraNonce < 2 ^ 32) :
    Workable env tip
      (templateBlock env s tip (spamMsgTx strMsg strUsername vchSig salt [] :: vtx) nBits)
      nExtraNonce := by
  have hspam := hchecked _ (length_extraNonce hn)
  refine ⟨_, spamMsgTx strMsg strUsername vchSig salt
    (CScript.push (bigNumBytes nExtraNonce) ++ coinbaseFlags), vtx,
    incrementExtraNonce_eq rfl hn, rfl, hspam, fun now htime => ?_⟩
  exact checkBlock_iff.mpr (blockValid_of_collected ⟨hpool.checked, hpool.ids⟩ hhash
    hcollected.sublist hcollected.users (sum_of_collected hcollected) rfl isSpamMessage_spamMsgTx
    hspam htime fun _ => rfl)

/-- A miner's wallet makes the signature. -/
theorem CanMine.exists_signature (h : CanMine env fuel s w tip spam salt strUsername keyID)
    (hsound : w.Sound env sign) :
    ∃ vchSig, spamSignature env sign w spam.strSpamMessage keyID = some vchSig := by
  have hkey : strUsername = ascii "nobody" ∧ keyID = 0 ∨ (w.getKey keyID).isSome = true := by
    rcases h.signs with rfl | ⟨-, hkey, -⟩
    · exact .inl ⟨rfl, keyID_of_nobody h.signer⟩
    · exact .inr hkey
  exact exists_spamSignature spam.strSpamMessage hsound hkey

/-- A template is too far ahead of the clock only if the tip is. -/
theorem nTime_templateBlock {vtx : List CTransaction} {nBits : Nat} :
    ((templateBlock env s tip vtx nBits).nTime : Int) ≤ s.adjustedTime env + 2 * 60 * 60 ↔
      (tip.getMedianTimePast + 1 : Int) ≤ s.adjustedTime env + 2 * 60 * 60 := by
  have hnTime : ((max (tip.getMedianTimePast + 1 : Int) (s.adjustedTime env)).toNat : Int) =
      max (tip.getMedianTimePast + 1 : Int) (s.adjustedTime env) :=
    Int.toNat_of_nonneg (Int.le_trans (by omega) (Int.le_max_left _ _))
  simp only [templateBlock, hnTime]
  omega

/-- For every chain, pool, wallet and settings `setspammsg` takes, `CreateNewBlock` returns a
block that stays one with every extra nonce exactly under `CanMine`. Hashes are distinct and
signatures have 65 bytes. -/
theorem createNewBlock_iff {strSpamUser strMsg : Bytes} {blockmaxsize : Nat}
    (inv : ChainInv env s) (hpool : PoolSound env s.mapTx) (hsound : w.Sound env sign)
    (hlen : ∀ key hash sig, sign key hash = some sig → sig.length = 65)
    (hhash : Function.Injective env.txHash) (hheader : Function.Injective env.headerHash)
    (htip : s.pindexBest = some tip)
    (hset : setspammsg strSpamUser strMsg = .ok spam) (hsalt : salt.length = 4) :
    (∃ block s', createNewBlock env sign (fuel + 1) s w blockmaxsize spam salt =
        .ok (some block, s') ∧ ∀ nExtraNonce < 2 ^ 32, Workable env tip block nExtraNonce) ↔
      ∃ strUsername keyID, CanMine env (fuel + 1) s w tip spam salt strUsername keyID := by
  by_cases hcoins : s.coinsTip = some tip
  case neg =>
    constructor
    · rintro ⟨block, s', hcreate, -⟩
      exact absurd (createNewBlock_coins htip hcreate) hcoins
    · rintro ⟨u, k, h⟩
      exact absurd h.coins hcoins
  obtain ⟨rfl, n, hn, hpos, hmax⟩ := setspammsg_ok hset
  obtain ⟨strUsername, keyID, hsigner, hshort⟩ := inv.spamSigner_ok fuel w spam.strSpamUser
  have hsalt' : salt.length < 256 ^ 4 := by
    rw [hsalt]
    decide
  cases hsign : spamSignature env sign w spam.strSpamMessage keyID with
  | none =>
    constructor
    · rintro ⟨block, s', hcreate, -⟩
      rw [createNewBlock, createSpamMsgTx, hsigner] at hcreate
      simp [Except.map, hsign] at hcreate
    · rintro ⟨u, k, h⟩
      cases hsigner.symm.trans h.signer
      obtain ⟨vchSig, hsome⟩ := h.exists_signature hsound
      rw [hsign] at hsome
      cases hsome
  | some vchSig =>
  have hsigLen := length_spamSignature hlen hsign
  have hsig : vchSig.length < 256 ^ 4 := by
    rw [hsigLen]
    split <;> decide
  obtain ⟨vtx, nBits, hcollected, v, hcreate, hv⟩ :=
    inv.createNewBlock_eq hsound hheader htip hcoins hsigner hshort hsign hsig hsalt blockmaxsize
  have hpubKey : ∀ {pubKey : Bytes}, strUsername ≠ [] →
      (checkTransaction env (spamMsgTx spam.strSpamMessage strUsername vchSig salt pubKey) =
        .valid ↔
        (spamMsgTx spam.strSpamMessage strUsername vchSig salt pubKey).serializeSize ≤ 512) :=
    fun hne => checkTransaction_spamMsgTx hn hpos hmax hne hshort hsig hsalt'
  constructor
  · rintro ⟨block, s', hresult, hwork⟩
    rw [hcreate] at hresult
    split at hresult
    · next hvalid =>
        cases hresult
        obtain ⟨hcheck, huser⟩ := hv.mp hvalid
        obtain ⟨block', spamTx, vtx', hblock', hvtx', hspamTx, -⟩ := hwork (2 ^ 31) (by decide)
        rw [incrementExtraNonce_eq rfl (by decide)] at hblock'
        cases hblock'
        cases hvtx'
        have hne := named_of_checkTransaction hspamTx hshort hsig hsalt'
        have htime := nTime_templateBlock.mp (checkBlock_iff.mp hcheck).time
        refine ⟨strUsername, keyID, hsigner, hne, ?_, ?_, htime, hcoins⟩
        · refine huser.imp_right fun ⟨hzero, hreg⟩ => ⟨hzero, ?_, hreg⟩
          rw [spamSignature, if_pos hzero] at hsign
          obtain ⟨key, hkey, -⟩ := Option.bind_eq_some_iff.mp hsign
          rw [hkey]
          rfl
        · rw [serializeSize_spamMsgTx hsigLen (length_extraNonce (n := 2 ^ 31) (by decide)),
            decide_eq_true_eq]
          have hbytes : (CScript.push (bigNumBytes (2 ^ 31)) ++ coinbaseFlags).length =
              13 := by
            decide +kernel
          have hsize := (hpubKey hne).mp hspamTx
          rw [hbytes]
          exact hsize
    · cases hresult
  · rintro ⟨u, k, h⟩
    cases hsigner.symm.trans h.signer
    have hchecked : ∀ pubKey : Bytes, pubKey.length ≤ 13 →
        checkTransaction env (spamMsgTx spam.strSpamMessage strUsername vchSig salt pubKey) =
          .valid := by
      intro pubKey hbytes
      have hfits := h.fits
      rw [serializeSize_spamMsgTx hsigLen hbytes, decide_eq_true_eq] at hfits
      exact (hpubKey h.named).mpr (Nat.le_trans (Nat.le_add_right _ _) hfits)
    have hvalid : v = .valid := by
      refine hv.mpr ⟨?_, h.signs.imp_right fun ⟨hzero, _, hreg⟩ => ⟨hzero, hreg⟩⟩
      exact checkBlock_iff.mpr (blockValid_of_collected hpool hhash hcollected.sublist
        hcollected.users (sum_of_collected hcollected) rfl isSpamMessage_spamMsgTx
        (hchecked [] (by decide)) (nTime_templateBlock.mpr h.time) nofun)
    rw [if_pos hvalid] at hcreate
    exact ⟨_, s, hcreate, fun nExtraNonce hn =>
      workable_template hpool hhash hcollected hchecked hn⟩

end CreateNewBlock

/-! ### A miner with a name -/

/-- Bytes as a number. -/
def byteCode (b : Bytes) : Nat := littleEndian (b ++ [1])

theorem byteCode_injective : Function.Injective byteCode := by
  have hpos : ∀ b : Bytes, 0 < byteCode b := by
    intro b
    induction b with
    | nil => decide
    | cons x xs ih =>
      have hcons : byteCode (x :: xs) = x.toNat + 256 * byteCode xs := rfl
      omega
  intro a
  induction a with
  | nil =>
    intro b h
    cases b with
    | nil => rfl
    | cons y ys =>
      have hcons : byteCode (y :: ys) = y.toNat + 256 * byteCode ys := rfl
      have hone : byteCode [] = 1 := rfl
      have := hpos ys
      omega
  | cons x xs ih =>
    intro b h
    have hx : byteCode (x :: xs) = x.toNat + 256 * byteCode xs := rfl
    have hxs := hpos xs
    cases b with
    | nil =>
      have hone : byteCode [] = 1 := rfl
      omega
    | cons y ys =>
      have hy : byteCode (y :: ys) = y.toNat + 256 * byteCode ys := rfl
      have hlt := x.toNat_lt
      have hlt' := y.toNat_lt
      have hhead : x = y := UInt8.toNat_inj.mp (by omega)
      have htail : xs = ys := ih (by omega)
      rw [hhead, htail]

/-- A transaction as a number. -/
def txCode (tx : CTransaction) : Nat :=
  Encodable.encode (byteCode tx.pubKey, byteCode tx.userName, byteCode tx.message,
    byteCode tx.accumulator, tx.nVersion, tx.nNonce)

theorem txCode_injective : Function.Injective txCode := by
  intro a b h
  simp only [txCode, Encodable.encode_inj, Prod.mk.injEq] at h
  obtain ⟨hkey, huser, hmessage, hacc, hversion, hnonce⟩ := h
  cases a
  cases b
  simp only [CTransaction.mk.injEq]
  exact ⟨hversion, byteCode_injective hmessage, byteCode_injective huser,
    byteCode_injective hkey, byteCode_injective hacc, hnonce⟩

/-- A header as a number. -/
def headerCode (header : CBlockHeader) : Nat :=
  Encodable.encode (header.hashPrevBlock, header.hashMerkleRoot, header.nVersion, header.nHeight,
    header.nTime, header.nBits, header.nNonce)

theorem headerCode_injective : Function.Injective headerCode := by
  intro a b h
  simp only [headerCode, Encodable.encode_inj, Prod.mk.injEq] at h
  obtain ⟨hprev, hroot, hversion, hheight, htime, hbits, hnonce⟩ := h
  cases a
  cases b
  simp only [CBlockHeader.mk.injEq]
  exact ⟨hversion, hheight, hprev, hroot, htime, hbits, hnonce⟩

/-- A network with distinct hashes and signatures of 65 bytes: key, checksum and zeros. -/
def codeNet : Env :=
  { smallNet with
      txHash := txCode
      headerHash := headerCode
      recoverCompact := fun hash vchSig =>
        match vchSig with
        | k :: c :: _ => if c.toNat = hash % 251 then some (numberedKey k) else none
        | _ => none
      txBits := 0xff7fffff
      proofOfWorkLimit := 2 ^ 2048 }

/-- Its signatures. -/
def codeSign : Bytes → Uint256 → Option Bytes
  | [k], hash => some (k :: UInt8.ofNat (hash % 251) :: List.replicate 63 0)
  | _, _ => none

theorem codeSign_length {key sig : Bytes} {hash : Uint256} (h : codeSign key hash = some sig) :
    sig.length = 65 := by
  unfold codeSign at h
  split at h
  · cases h
    rfl
  · cases h

/-- Its genesis block. -/
def codeGenesis : CBlockIndex := .root codeNet.genesisBlock (smallPos codeNet.genesisBlock)

/-- The block in which alice is registered. -/
def codeTip : CBlockIndex :=
  let block := smallBlock codeNet.genesisBlock 1 [keyRegistration "alice" 1 11]
  smallIndex codeGenesis
    { block with
      hashPrevBlock := codeNet.hashGenesisBlock
      hashMerkleRoot := buildMerkleTree codeNet block.vtx }

/-- Alice is on the chain, and bob waits in the memory pool. -/
def minerRun : List PoolLabel :=
  [.arrive codeGenesis.block codeGenesis.pos, .setBestChain 8 8 codeGenesis,
    .arrive codeTip.block codeTip.pos, .setBestChain 8 8 codeTip,
    .accept 8 (keyRegistration "bob" 2 21) false false]

/-- Alice is registered, and a transaction is in the pool. -/
def minerState : ChainState :=
  (System.run (nextPool codeNet) (fun _ _ => true) {} minerRun).getD {}

/-- The wallet of alice. -/
def minerWallet : KeyWallet :=
  { mapKeyMetadata := [(smallID 1, ⟨ascii "alice", []⟩)]
    keys := [(smallID 1, [1])]
    pubKeys := [(smallID 1, numberedKey 1)] }

theorem minerWallet_sound : minerWallet.Sound codeNet codeSign where
  sorted := List.pairwise_singleton _ _
  notes := List.Pairwise.nil
  pubkeys keyID data h := by
    obtain ⟨rfl, -⟩ : keyID = smallID 1 ∧ _ := by simpa [minerWallet] using mem_of_lookup h
    exact ⟨numberedKey 1, by simp [minerWallet], rfl, List.cons_ne_nil _ _⟩
  keys keyID key h := by
    obtain ⟨rfl, rfl⟩ : keyID = smallID 1 ∧ key = [1] := by
      simpa [minerWallet] using mem_of_lookup h
    intro hash
    have hbyte : (UInt8.ofNat (hash % 251)).toNat = hash % 251 :=
      UInt8.toNat_ofNat_of_lt' (Nat.lt_trans (Nat.mod_lt hash (by decide)) (by decide))
    exact ⟨_, numberedKey 1, rfl, List.cons_ne_nil _ _, by simp, if_pos hbyte, rfl⟩

theorem createNewBlock_iff_alice :
    (minerState.mapTx = [keyRegistration "bob" 2 21] ∧ (poolSystem codeNet).Reach (fun _ _ => True)
      minerState) ∧
    ∃ block s', createNewBlock codeNet codeSign 8 minerState minerWallet 25000
        ⟨ascii "alice", ascii "hello"⟩ [1, 2, 3, 4] = .ok (some block, s') ∧
      ∀ nExtraNonce < 2 ^ 32, Workable codeNet codeTip block nExtraNonce := by
  obtain ⟨hrun, hpool, htip, hcoins, hsigner, hreg, htime⟩ :
      (System.run (nextPool codeNet) (fun _ _ => true) {} minerRun).isSome = true ∧
      minerState.mapTx = [keyRegistration "bob" 2 21] ∧
      minerState.pindexBest = some codeTip ∧ minerState.coinsTip = some codeTip ∧
      spamSigner codeNet 8 minerState minerWallet (ascii "alice") =
        .ok (ascii "alice", smallID 1) ∧
      registeredID codeNet 8 minerState (ascii "alice") = some (smallID 1) ∧
      (codeTip.getMedianTimePast + 1 : Int) ≤ minerState.adjustedTime codeNet + 2 * 60 * 60 := by
    decide +kernel
  have hreach : (poolSystem codeNet).Reach (fun _ _ => True) minerState := by
    obtain ⟨s, hs⟩ := Option.isSome_iff_exists.mp hrun
    rw [minerState, hs, Option.getD_some]
    exact .of_run (fun _ _ _ => nextPool_step) (fun _ _ _ => trivial) (.init rfl) hs
  obtain ⟨synced, hsound⟩ := synced_poolSound hreach
  have hset : setspammsg (ascii "alice") (ascii "hello") =
      .ok ⟨ascii "alice", ascii "hello"⟩ := by
    rfl
  refine ⟨⟨hpool, hreach⟩, (createNewBlock_iff synced.inv hsound minerWallet_sound
    (fun _ _ _ => codeSign_length) txCode_injective headerCode_injective htip hset rfl).mpr ?_⟩
  exact ⟨ascii "alice", smallID 1, hsigner, by decide, .inr ⟨by decide, rfl, hreg⟩,
    by decide +kernel, htime, hcoins⟩

/-- A message of wide characters. -/
def wideMessage (n : Nat) : Bytes := (List.replicate n [0xf0, 0x9f, 0x98, 0x80]).flatten

/-- A message of 140 wide characters throws; one of 118 does not pass with the nonce in; and a
user whose key is being replaced throws, signed with the new key. -/
theorem createNewBlock_breaks :
    (∃ strMsg, (setspammsg (ascii "nobody") strMsg).toOption.map
        (fun spam => (createNewBlock signNet smallSign 8 (keyState 2) {} 25000 spam
          [1, 2, 3, 4]).map Prod.fst) =
      some (.error (.runtime "CreateNewBlock() : ConnectBlock failed"))) ∧
    (∃ strMsg, ((setspammsg (ascii "nobody") strMsg).toOption.bind fun spam =>
        (createNewBlock signNet smallSign 8 (keyState 2) {} 25000 spam
          [1, 2, 3, 4]).toOption.bind fun template =>
        template.1.bind fun block => (keyState 2).pindexBest.bind fun tip =>
        (incrementExtraNonce signNet tip block (2 ^ 31)).toOption.bind fun block' =>
        block'.vtx.head?.map (checkTransaction signNet)) =
      some (.invalid 100 ["CTransaction::CheckTransaction() : size limits failed"])) ∧
    ∃ w : KeyWallet, (setspammsg (ascii "alice") (ascii "hello")).toOption.map
        (fun spam => (createNewBlock signNet smallSign 8 (keyState 2) w 25000 spam
          [1, 2, 3, 4]).map Prod.fst) =
      some (.error (.runtime "CreateNewBlock() : ConnectBlock failed")) := by
  refine ⟨⟨wideMessage 140, ?_⟩, ⟨wideMessage 118, ?_⟩,
    (aliceStart.next signNet smallSign 8 (ascii "alice") (aliceRequest 2)).wallet, ?_⟩
  · decide +kernel
  · decide +kernel
  · decide +kernel

end CoMoNet
