import CoMoNet.Chain.UserIndex

/-!
# What the checks of ConnectBlock decide

The overwrite checks of different users do not interfere. Connecting a block may forget
the head of a user's log, if the lookup at the best height finds something and the one
at the block's height does not (`Erasable`), and then pushes the block
(`connectBlock_user`).
-/

namespace CoMoNet

open UndoStack (Log)
open ChainState (eraseTxIndex findBlockIndex readTxAt)

/-- Two states that agree on the chain and on the entries of one user. -/
structure SameUser (u : Bytes) (s s' : ChainState) : Prop extends SameChain s s' where
  index : ∀ h, s'.txIndex ⟨u, h⟩ = s.txIndex ⟨u, h⟩

namespace SameUser

variable {u : Bytes} {s s' s'' : ChainState}

theorem refl (u : Bytes) (s : ChainState) : SameUser u s s := ⟨SameChain.refl s, fun _ => rfl⟩

theorem trans (h : SameUser u s s') (h' : SameUser u s' s'') : SameUser u s s'' :=
  ⟨h.toSameChain.trans h'.toSameChain, fun k => (h'.index k).trans (h.index k)⟩

theorem rep {l : Log CBlockIndex} (h : SameUser u s s') (rep : IndexRep s u l) :
    IndexRep s' u l :=
  rep.congr h.map h.index

theorem getTransactionFrom (h : SameUser u s s') (env : Env) (maxHeight : Int) :
    ∀ (fuel : Nat) (height : Int), getTransactionFrom env s' u maxHeight fuel height =
      getTransactionFrom env s u maxHeight fuel height
  | 0, _ => rfl
  | fuel + 1, height => by
    have hread : s'.readTxAt = s.readTxAt := by
      funext postx
      rw [readTxAt, readTxAt, h.map]
    have hfind : s'.findBlockIndex env = s.findBlockIndex env := by
      funext hash
      rw [findBlockIndex, findBlockIndex, h.map]
    simp only [CoMoNet.getTransactionFrom, h.index, hread, hfind, h.isInMainChain,
      SameUser.getTransactionFrom h env maxHeight fuel]

theorem getTransaction (h : SameUser u s s') (env : Env) (fuel : Nat) (maxHeight : Int) :
    getTransaction env fuel s' u maxHeight = getTransaction env fuel s u maxHeight := by
  rw [CoMoNet.getTransaction, CoMoNet.getTransaction, h.nBestHeight, h.getTransactionFrom]

end SameUser

/-! ## One user -/

/-- The same transaction, or a key replacement signed with the old key. -/
def mayOverwrite (env : Env) (old tx : CTransaction) : Bool :=
  env.txHash old == env.txHash tx || isKeyReplacement env old tx

/-- The check of `tx` erases the newest entry of its user. -/
def Erasable (env : Env) (fuel : Nat) (block : CBlock) (s : ChainState) (tx : CTransaction) :
    Prop :=
  (∃ r, getTransaction env fuel s tx.getUsername (-1) = .ok (some r)) ∧
    getTransaction env fuel s tx.getUsername block.nHeight = .ok none

section Checks

variable {env : Env} {fuel : Nat} {block : CBlock} {s s' : ChainState} {u : Bytes}
variable {tx : CTransaction} {vtx : List CTransaction} {v : Verdict}

theorem isSome_of_getTransaction {maxHeight : Int} {r : CTransaction × Uint256}
    (h : getTransaction env fuel s u maxHeight = .ok (some r)) :
    (s.txIndex ⟨u, -1⟩).isSome = true := by
  cases fuel with
  | zero => cases h
  | succ fuel =>
    rw [getTransaction, getTransactionFrom] at h
    cases hidx : s.txIndex ⟨u, -1⟩ with
    | none => simp [hidx] at h
    | some postx => rfl

/-- What the check of one transaction does. -/
theorem checkOverwrite_cases (h : checkOverwrite env fuel block s tx = .ok (v, s')) :
    (getTransaction env fuel s tx.getUsername (-1) = .ok none ∧ v = .valid ∧ s' = s) ∨
    (∃ old hash, getTransaction env fuel s tx.getUsername block.nHeight = .ok (some (old, hash)) ∧
      (∃ r, getTransaction env fuel s tx.getUsername (-1) = .ok (some r)) ∧ s' = s ∧
      v = if mayOverwrite env old tx then .valid
        else .invalid 100 ["ConnectBlock() : tried to overwrite transaction"]) ∨
    (Erasable env fuel block s tx ∧ v = .valid ∧ s' = s.eraseTxIndex ⟨tx.getUsername, -1⟩) := by
  rw [checkOverwrite] at h
  cases hbest : getTransaction env fuel s tx.getUsername (-1) with
  | error e => simp [hbest] at h
  | ok found =>
    cases found with
    | none =>
      simp only [hbest, Except.ok.injEq, Prod.mk.injEq] at h
      exact .inl ⟨rfl, h.1.symm, h.2.symm⟩
    | some r =>
      simp only [hbest, verifyDuplicateOrReplacementTx] at h
      cases hblock : getTransaction env fuel s tx.getUsername block.nHeight with
      | error e => simp [hblock] at h
      | ok old =>
        cases old with
        | none =>
          have hsome := isSome_of_getTransaction hbest
          simp only [hblock, hsome, Bool.and_self, if_true, Except.ok.injEq,
            Prod.mk.injEq] at h
          exact .inr (.inr ⟨⟨⟨r, hbest⟩, hblock⟩, h.1.symm, h.2.symm⟩)
        | some old =>
          obtain ⟨old, hash⟩ := old
          refine .inr (.inl ⟨old, hash, rfl, ⟨r, rfl⟩, ?_⟩)
          simp only [hblock, Bool.true_and] at h
          rw [show (env.txHash old == env.txHash tx || isKeyReplacement env old tx) =
            mayOverwrite env old tx from rfl] at h
          cases hmay : mayOverwrite env old tx <;> simp [hmay] at h <;>
            exact ⟨h.2.symm, h.1.symm⟩

theorem checkOverwrite_other (hu : tx.getUsername ≠ u)
    (h : checkOverwrite env fuel block s tx = .ok (v, s')) : SameUser u s s' := by
  rcases checkOverwrite_cases h with ⟨-, -, rfl⟩ | ⟨_, _, -, -, rfl, -⟩ | ⟨-, -, rfl⟩
  · exact SameUser.refl u _
  · exact SameUser.refl u _
  · refine ⟨⟨rfl, rfl, rfl, rfl, List.Subset.refl _, rfl⟩, fun k => ?_⟩
    simp [eraseTxIndex, Ne.symm hu]

/-- The check of one user changes nothing, or erases its newest entry. -/
theorem checkOverwrite_user (h : checkOverwrite env fuel block s tx = .ok (v, s')) :
    s' = s ∨ Erasable env fuel block s tx ∧ s' = s.eraseTxIndex ⟨tx.getUsername, -1⟩ := by
  rcases checkOverwrite_cases h with ⟨-, -, hs⟩ | ⟨_, _, -, -, hs, -⟩ | ⟨hE, -, hs⟩
  · exact .inl hs
  · exact .inl hs
  · exact .inr ⟨hE, hs⟩

theorem onlyIndex_checkOverwrite (h : checkOverwrite env fuel block s tx = .ok (v, s')) :
    OnlyIndex s s' := by
  rcases checkOverwrite_user h with rfl | ⟨-, rfl⟩
  · exact .refl _
  · exact ⟨_, rfl⟩

/-- The verdict on one user only depends on the chain and on its entries. -/
theorem checkOverwrite_congr (hs : SameUser tx.getUsername s s') :
    (checkOverwrite env fuel block s' tx).map Prod.fst =
      (checkOverwrite env fuel block s tx).map Prod.fst := by
  have hidx := hs.index (-1)
  simp only [checkOverwrite, verifyDuplicateOrReplacementTx, hs.getTransaction, hidx]
  cases getTransaction env fuel s tx.getUsername (-1) with
  | error e => rfl
  | ok found =>
    cases found with
    | none => rfl
    | some r =>
      cases getTransaction env fuel s tx.getUsername block.nHeight with
      | error e => rfl
      | ok old =>
        cases old with
        | none => cases (s.txIndex ⟨tx.getUsername, -1⟩).isSome <;> rfl
        | some old =>
          simp only [Bool.true_and]
          cases env.txHash old.1 == env.txHash tx || isKeyReplacement env old.1 tx <;> rfl

/-! ## All users of a block -/

/-- The first round of the loop, and what it leaves for the rest. -/
theorem checkOverwrites_cons
    (h : checkOverwrites env fuel block s (tx :: vtx) = .ok (v, s')) :
    (∃ nDoS errors, v = .invalid nDoS errors ∧ checkOverwrite env fuel block s tx = .ok (v, s')) ∨
    ∃ s₁, checkOverwrite env fuel block s tx = .ok (.valid, s₁) ∧
      checkOverwrites env fuel block s₁ vtx = .ok (v, s') := by
  rw [checkOverwrites] at h
  cases hone : checkOverwrite env fuel block s tx with
  | error e => simp [hone] at h
  | ok r =>
    obtain ⟨w, s₁⟩ := r
    cases w with
    | invalid nDoS errors =>
      simp only [hone, Except.ok.injEq, Prod.mk.injEq] at h
      obtain ⟨rfl, rfl⟩ := h
      exact .inl ⟨nDoS, errors, rfl, rfl⟩
    | valid =>
      simp only [hone] at h
      exact .inr ⟨s₁, rfl, h⟩

theorem onlyIndex_checkOverwrites (h : checkOverwrites env fuel block s vtx = .ok (v, s')) :
    OnlyIndex s s' := by
  induction vtx generalizing s with
  | nil =>
    cases h
    exact .refl _
  | cons tx vtx ih =>
    rcases checkOverwrites_cons h with ⟨_, _, -, hone⟩ | ⟨s₁, hone, hrest⟩
    · exact onlyIndex_checkOverwrite hone
    · exact (onlyIndex_checkOverwrite hone).trans (ih hrest)

theorem onlyIndex_connectChecks (h : connectChecks env fuel s block = .ok (v, s')) :
    OnlyIndex s s' := by
  rw [connectChecks] at h
  split at h
  · cases h
  split at h
  · cases h
  · cases h
    exact .refl s
  · exact onlyIndex_checkOverwrites h

theorem checkOverwrites_other (hu : ∀ tx ∈ vtx, tx.getUsername ≠ u)
    (h : checkOverwrites env fuel block s vtx = .ok (v, s')) : SameUser u s s' := by
  induction vtx generalizing s with
  | nil =>
    cases h
    exact SameUser.refl u _
  | cons tx vtx ih =>
    have htx := hu tx List.mem_cons_self
    rcases checkOverwrites_cons h with ⟨_, _, -, hone⟩ | ⟨s₁, hone, hrest⟩
    · exact checkOverwrite_other htx hone
    · exact (checkOverwrite_other htx hone).trans
        (ih (fun t ht => hu t (List.mem_cons_of_mem _ ht)) hrest)

/-- A check that succeeds in a state that agrees on its user succeeds here. -/
theorem checkOverwrite_transport {s₁ s₂ : ChainState} (hs : SameUser tx.getUsername s s₁)
    (h : checkOverwrite env fuel block s₁ tx = .ok (v, s₂)) :
    ∃ s₃, checkOverwrite env fuel block s tx = .ok (v, s₃) := by
  have hcongr : (checkOverwrite env fuel block s₁ tx).map Prod.fst = _ := checkOverwrite_congr hs
  rw [h] at hcongr
  obtain ⟨⟨v', s₃⟩, hone, hv⟩ := Except.map_eq_ok_iff.mp hcongr.symm
  cases hv
  exact ⟨s₃, hone⟩

/-- Each verdict is that of the state before the block. -/
theorem checkOverwrites_valid (hnodup : (vtx.map CTransaction.getUsername).Nodup)
    (h : checkOverwrites env fuel block s vtx = .ok (.valid, s')) :
    ∀ tx ∈ vtx, ∃ s₁, checkOverwrite env fuel block s tx = .ok (.valid, s₁) := by
  induction vtx generalizing s with
  | nil => simp
  | cons t vtx ih =>
    rw [List.map_cons, List.nodup_cons] at hnodup
    rcases checkOverwrites_cons h with ⟨_, _, hv, -⟩ | ⟨s₁, hone, hrest⟩
    · cases hv
    intro tx htx
    rcases List.mem_cons.mp htx with rfl | htx
    · exact ⟨s₁, hone⟩
    · obtain ⟨s₂, htx'⟩ := ih hnodup.2 hrest tx htx
      have hne : t.getUsername ≠ tx.getUsername := fun heq =>
        hnodup.1 (List.mem_map.mpr ⟨tx, htx, heq.symm⟩)
      exact checkOverwrite_transport (checkOverwrite_other hne hone) htx'

theorem checkOverwrites_invalid {nDoS : Nat} {errors : List String}
    (hnodup : (vtx.map CTransaction.getUsername).Nodup)
    (h : checkOverwrites env fuel block s vtx = .ok (.invalid nDoS errors, s')) :
    ∃ tx ∈ vtx, ∃ s₁, checkOverwrite env fuel block s tx = .ok (.invalid nDoS errors, s₁) := by
  induction vtx generalizing s with
  | nil => simp [checkOverwrites] at h
  | cons t vtx ih =>
    rw [List.map_cons, List.nodup_cons] at hnodup
    rcases checkOverwrites_cons h with ⟨_, _, -, hone⟩ | ⟨s₁, hone, hrest⟩
    · exact ⟨t, List.mem_cons_self, s', hone⟩
    · obtain ⟨tx, htx, s₂, htx'⟩ := ih hnodup.2 hrest
      have hne : t.getUsername ≠ tx.getUsername := fun heq =>
        hnodup.1 (List.mem_map.mpr ⟨tx, htx, heq.symm⟩)
      obtain ⟨s₃, h₃⟩ := checkOverwrite_transport (checkOverwrite_other hne hone) htx'
      exact ⟨tx, List.mem_cons_of_mem _ htx, s₃, h₃⟩

theorem Erasable.congr {s₁ : ChainState} (hs : SameUser tx.getUsername s s₁)
    (h : Erasable env fuel block s₁ tx) : Erasable env fuel block s tx := by
  rw [Erasable, hs.getTransaction, hs.getTransaction] at h
  exact h

/-- The entries of a user change only by the erasure its own check makes. -/
theorem checkOverwrites_user (hnodup : (vtx.map CTransaction.getUsername).Nodup)
    (h : checkOverwrites env fuel block s vtx = .ok (v, s')) (htx : tx ∈ vtx) :
    SameUser tx.getUsername s s' ∨
      Erasable env fuel block s tx ∧
        SameUser tx.getUsername (s.eraseTxIndex ⟨tx.getUsername, -1⟩) s' := by
  induction vtx generalizing s with
  | nil => cases htx
  | cons t vtx ih =>
    rw [List.map_cons, List.nodup_cons] at hnodup
    rcases List.mem_cons.mp htx with rfl | htx
    · have hrest_ne : ∀ t ∈ vtx, t.getUsername ≠ tx.getUsername := fun t ht heq =>
        hnodup.1 (List.mem_map.mpr ⟨t, ht, heq⟩)
      rcases checkOverwrites_cons h with ⟨_, _, -, hone⟩ | ⟨s₁, hone, hrest⟩
      · rcases checkOverwrite_user hone with rfl | ⟨hE, rfl⟩
        · exact .inl (SameUser.refl _ _)
        · exact .inr ⟨hE, SameUser.refl _ _⟩
      · have hsame := checkOverwrites_other hrest_ne hrest
        rcases checkOverwrite_user hone with rfl | ⟨hE, rfl⟩
        · exact .inl hsame
        · exact .inr ⟨hE, hsame⟩
    · have hne : t.getUsername ≠ tx.getUsername := fun heq =>
        hnodup.1 (List.mem_map.mpr ⟨tx, htx, heq.symm⟩)
      rcases checkOverwrites_cons h with ⟨_, _, -, hone⟩ | ⟨s₁, hone, hrest⟩
      · exact .inl (checkOverwrite_other hne hone)
      · have hsame := checkOverwrite_other hne hone
        rcases ih hnodup.2 hrest htx with hsame' | ⟨hE, hsame'⟩
        · exact .inl (hsame.trans hsame')
        · have herase : SameChain s₁ (s₁.eraseTxIndex ⟨tx.getUsername, -1⟩) :=
            ⟨rfl, rfl, rfl, rfl, List.Subset.refl _, rfl⟩
          have hchain := (hsame.toSameChain.trans herase).trans hsame'.toSameChain
          refine .inr ⟨hE.congr hsame, ⟨hchain.map, hchain.chain, hchain.tip, hchain.best,
            hchain.cands, hchain.clock⟩,
            fun k => ?_⟩
          rw [hsame'.index k]
          by_cases hk : k = -1
          · simp [eraseTxIndex, hk]
          · simp [eraseTxIndex, hk, hsame.index k]

end Checks

/-! ## Connecting a block -/

section Connect

variable {env : Env} {fuel : Nat} {s s' : ChainState} {u : Bytes} {l : Log CBlockIndex}
variable {p : CBlockIndex} {view view' : Option CBlockIndex} {v : Verdict}
variable {spam : CTransaction} {vtx : List CTransaction}

/-- The log of a user after the checks of a block: unchanged, or without its
head. -/
def CheckedLog (env : Env) (fuel : Nat) (s : ChainState) (u : Bytes) (p : CBlockIndex)
    (l l' : Log CBlockIndex) : Prop :=
  l' = l ∨ l' = l.forget ∧ ∃ tx, p.block.txFor u = some tx ∧ Erasable env fuel p.block s tx

theorem IndexRep.of_eraseTxIndex (rep : IndexRep s u l) :
    IndexRep (s.eraseTxIndex ⟨u, -1⟩) u l.forget where
  newest := by simp [eraseTxIndex, Log.forget]
  saved h hh := by
    have hne : (h : Int) - 1 ≠ -1 := by omega
    simpa [eraseTxIndex, Log.forget, hne] using rep.saved h hh
  entries e he := rep.entries e he.of_forget

/-- The checks, as one user sees them. -/
theorem connectChecks_user (shape : BlockShape env p.block spam vtx) (rep : IndexRep s u l)
    (h : connectChecks env fuel s p.block = .ok (v, s')) :
    SameChain s s' ∧ ∃ l', CheckedLog env fuel s u p l l' ∧ IndexRep s' u l' := by
  refine ⟨(onlyIndex_connectChecks h).sameChain, ?_⟩
  simp only [connectChecks, shape.vtx_eq] at h
  cases hspam : checkSpamSigner env fuel s p.block spam with
  | error e => simp [hspam] at h
  | ok w =>
    cases w with
    | invalid nDoS errors =>
      simp only [hspam, Except.ok.injEq, Prod.mk.injEq] at h
      rw [← h.2]
      exact ⟨l, .inl rfl, rep⟩
    | valid =>
      simp only [hspam] at h
      cases htx : p.block.txFor u with
      | none =>
        have hother : ∀ tx ∈ vtx, tx.getUsername ≠ u := by
          intro tx hmem heq
          rw [← heq, shape.txFor_of_mem hmem] at htx
          cases htx
        exact ⟨l, .inl rfl, (checkOverwrites_other hother h).rep rep⟩
      | some tx =>
        obtain ⟨hmem, hreg⟩ := shape.mem_of_txFor htx
        have hname := (CTransaction.registers_iff.mp hreg).2
        have huser := checkOverwrites_user shape.nodup h hmem
        rw [hname] at huser
        rcases huser with hsame | ⟨hE, hsame⟩
        · exact ⟨l, .inl rfl, hsame.rep rep⟩
        · exact ⟨l.forget, .inr ⟨rfl, tx, htx, hE⟩, hsame.rep rep.of_eraseTxIndex⟩

/-- `connectBlock` rejects, connects the genesis block, or connects another one. -/
theorem connectBlock_cases
    (h : connectBlock env fuel s view p.block p false = .ok (v, s', view')) :
    (∃ nDoS errors, checkBlock env (s.adjustedTime env) p.block true true = .invalid nDoS errors ∧
      v = .invalid nDoS errors ∧ s' = s ∧ view' = view) ∨
    (p.pprev = view ∧ checkBlock env (s.adjustedTime env) p.block true true = .valid ∧
      env.blockHash p.block = env.hashGenesisBlock ∧ v = .valid ∧ s' = s ∧ view' = some p) ∨
    (p.pprev = view ∧ checkBlock env (s.adjustedTime env) p.block true true = .valid ∧
      env.blockHash p.block ≠ env.hashGenesisBlock ∧
      ∃ w s₁, connectChecks env fuel s p.block = .ok (w, s₁) ∧ v = w ∧
        (v = .valid → s' = connectWrites s₁ p.block p ∧ view' = some p) ∧
        (v ≠ .valid → s' = s₁ ∧ view' = view)) := by
  rw [connectBlock] at h
  cases hcheck : checkBlock env (s.adjustedTime env) p.block true true with
  | invalid nDoS errors =>
    simp only [Bool.not_false, hcheck, Except.ok.injEq, Prod.mk.injEq] at h
    exact .inl ⟨nDoS, errors, rfl, h.1.symm, h.2.1.symm, h.2.2.symm⟩
  | valid =>
    simp only [Bool.not_false, hcheck] at h
    split at h
    · cases h
    rename_i hview
    split at h
    · rename_i hgen
      simp only [Except.ok.injEq, Prod.mk.injEq] at h
      exact .inr (.inl ⟨not_not.mp hview, rfl, hgen, h.1.symm, h.2.1.symm, h.2.2.symm⟩)
    · rename_i hgen
      refine .inr (.inr ⟨not_not.mp hview, rfl, hgen, ?_⟩)
      cases hchecks : connectChecks env fuel s p.block with
      | error e => simp [hchecks] at h
      | ok r =>
        obtain ⟨w, s₁⟩ := r
        refine ⟨w, s₁, rfl, ?_⟩
        cases w with
        | invalid nDoS errors =>
          simp only [hchecks, Except.ok.injEq, Prod.mk.injEq] at h
          obtain ⟨rfl, rfl, rfl⟩ := h
          exact ⟨rfl, nofun, fun _ => ⟨rfl, rfl⟩⟩
        | valid =>
          simp only [hchecks, Bool.false_eq_true, if_false, Except.ok.injEq,
            Prod.mk.injEq] at h
          obtain ⟨rfl, rfl, rfl⟩ := h
          exact ⟨rfl, fun _ => ⟨rfl, rfl⟩, fun hv => absurd rfl hv⟩

/-- For one user: the checks may forget the head of the log, and a valid block is pushed. -/
theorem connectBlock_user (tree : TreeOK env s.mapBlockIndex) (hp : p ∈ s.mapBlockIndex)
    (rep : IndexRep s u l)
    (h : connectBlock env fuel s view p.block p false = .ok (v, s', view')) :
    SameChain s s' ∧ ∃ l', CheckedLog env fuel s u p l l' ∧
      (v ≠ .valid → IndexRep s' u l') ∧
      (v = .valid → p.pprev = view ∧ view' = some p ∧
        IndexRep s' u (if p.registers u then l'.push CBlockIndex.nHeight p else l')) := by
  rcases connectBlock_cases h with ⟨_, _, -, rfl, rfl, -⟩ | ⟨hview, -, hgen, rfl, rfl, rfl⟩ |
    ⟨hview, hcheck, hgen, w, s₁, hchecks, rfl, hvalid, hinvalid⟩
  · exact ⟨SameChain.refl _, l, .inl rfl, fun _ => rep, nofun⟩
  · have hroot : p.pprev = none := by
      cases hq : p.pprev with
      | none => rfl
      | some q => exact absurd hgen (tree.not_genesis p hp q hq)
    have hreg : p.registers u = false := by
      rw [CBlockIndex.registers, tree.root p hp hroot, txFor_genesisBlock]
      rfl
    refine ⟨SameChain.refl _, l, .inl rfl, fun hv => absurd rfl hv, fun _ => ?_⟩
    simpa [hreg, hview] using rep
  · obtain ⟨spam, vtx, shape⟩ := checkBlock_shape hcheck
    obtain ⟨hsame, l', hl', hrep⟩ := connectChecks_user shape rep hchecks
    by_cases hv : v = .valid
    · obtain ⟨rfl, rfl⟩ := hvalid hv
      refine ⟨hsame.trans (sameChain_connectWrites _ _ _), l', hl', fun hne => absurd hv hne,
        fun _ => ⟨hview, rfl, ?_⟩⟩
      exact hrep.of_connectWrites (hsame.map ▸ tree) (hsame.map ▸ hp) shape
    · obtain ⟨rfl, rfl⟩ := hinvalid hv
      exact ⟨hsame, l', hl', fun _ => hrep, fun hv' => absurd hv' hv⟩

end Connect

end CoMoNet
