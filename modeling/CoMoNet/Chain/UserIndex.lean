import CoMoNet.Chain.Accept
import CoMoNet.Lib.UndoStack

/-!
# The user name index as undo stacks

For each user the index is an undo log of blocks (`IndexRep`): lookups walk it,
`connectBlock` pushes, `disconnectBlock` pops, and orphan removal forgets the head. All
of it is about one user at a time.
-/

namespace CoMoNet

open UndoStack (Log)

/-! ## Well-formed block trees -/

/-- What `acceptBlock` makes sure of in the block index. -/
structure TreeOK (env : Env) (map : List CBlockIndex) : Prop where
  parent : ∀ p ∈ map, ∀ q, p.pprev = some q → q ∈ map
  hash_inj : ∀ p ∈ map, ∀ q ∈ map, env.blockHash p.block = env.blockHash q.block → p = q
  pos_inj : ∀ p ∈ map, ∀ q ∈ map, p.pos = q.pos → p = q
  /-- The only block without a parent is the genesis block. -/
  root : ∀ p ∈ map, p.pprev = none → p.block = env.genesisBlock
  /-- The other blocks have passed `checkBlock`. -/
  checked : ∀ p ∈ map, ∀ q, p.pprev = some q →
    ∃ now, checkBlock env now p.block true true = .valid
  not_genesis : ∀ p ∈ map, ∀ q, p.pprev = some q →
    env.blockHash p.block ≠ env.hashGenesisBlock
  linked : ∀ p ∈ map, ∀ q, p.pprev = some q → p.block.hashPrevBlock = env.blockHash q.block
  height : ∀ p ∈ map, ∀ q, p.pprev = some q → p.block.nHeight = p.nHeight

namespace CBlockIndex

/-- The block has a transaction for `u`. -/
def registers (u : Bytes) (p : CBlockIndex) : Bool := (p.block.txFor u).isSome

end CBlockIndex

theorem genesisTx_isSpamMessage : genesisTx.isSpamMessage = true := by
  rw [CTransaction.isSpamMessage, Bool.not_eq_true', List.isEmpty_eq_false_iff]
  exact CScript.push_ne_nil _

theorem txFor_genesisBlock (env : Env) (u : Bytes) : env.genesisBlock.txFor u = none := by
  simp [CBlock.txFor, Env.genesisBlock, CTransaction.registers, genesisTx_isSpamMessage]

namespace TreeOK

variable {env : Env} {map : List CBlockIndex} {p q : CBlockIndex} {u : Bytes}

/-- Blocks claim their height. -/
theorem nHeight_eq (tree : TreeOK env map) (hp : p ∈ map) : p.block.nHeight = p.nHeight := by
  cases hq : p.pprev with
  | none =>
    rw [tree.root p hp hq]
    cases p with
    | root block pos => rfl
    | next pprev block pos => cases hq
  | some q => exact tree.height p hp q hq

theorem exists_pprev (tree : TreeOK env map) (hp : p ∈ map) (hu : p.registers u = true) :
    ∃ q, p.pprev = some q := by
  cases hq : p.pprev with
  | none =>
    rw [CBlockIndex.registers, tree.root p hp hq, txFor_genesisBlock] at hu
    cases hu
  | some q => exact ⟨q, rfl⟩

/-- Registrations are above the genesis block. -/
theorem nHeight_pos (tree : TreeOK env map) (hp : p ∈ map) (hu : p.registers u = true) :
    1 ≤ p.nHeight := by
  obtain ⟨q, hq⟩ := tree.exists_pprev hp hu
  rw [CBlockIndex.nHeight_of_pprev hq]
  exact Nat.le_add_left 1 _

theorem ancestors_mem (tree : TreeOK env map) (hp : p ∈ map) :
    ∀ q ∈ p.ancestors, q ∈ map :=
  CBlockIndex.ancestors_subset tree.parent hp

/-- Blocks are found by position. -/
theorem find_pos (tree : TreeOK env map) (hp : p ∈ map) :
    (map.find? fun q => q.pos == p.pos) = some p := by
  cases hf : map.find? fun q => q.pos == p.pos with
  | none =>
    have := List.find?_eq_none.mp hf p hp
    simp at this
  | some q =>
    have hpos : q.pos = p.pos := by simpa using List.find?_some hf
    rw [tree.pos_inj q (List.mem_of_find?_eq_some hf) p hp hpos]

/-- Blocks are found by hash. -/
theorem find_hash (tree : TreeOK env map) (hp : p ∈ map) :
    (map.find? fun q => env.blockHash q.block == env.blockHash p.block) = some p := by
  cases hf : map.find? fun q => env.blockHash q.block == env.blockHash p.block with
  | none =>
    have := List.find?_eq_none.mp hf p hp
    simp at this
  | some q =>
    have hhash : env.blockHash q.block = env.blockHash p.block := by
      simpa using List.find?_some hf
    rw [tree.hash_inj q (List.mem_of_find?_eq_some hf) p hp hhash]

end TreeOK

/-! ## Where a transaction is stored -/

/-- The offset of the transaction for `u` among transactions stored from an
offset on. -/
def CBlock.txOffset (u : Bytes) : List CTransaction → Nat → Nat
  | [], at_ => at_
  | tx :: vtx, at_ => if tx.registers u then at_ else txOffset u vtx (at_ + tx.serializeSize)

/-- The disk position of the transaction for `u` in a block. -/
def CBlockIndex.txPos (u : Bytes) (p : CBlockIndex) : CDiskTxPos :=
  { p.pos with
      nTxOffset := CBlock.txOffset u p.block.vtx (sizeOfCompactSize p.block.vtx.length) }

theorem CTransaction.serializeSize_pos (tx : CTransaction) : 0 < tx.serializeSize := by
  rw [serializeSize]
  omega

theorem CBlock.le_txOffset (u : Bytes) :
    ∀ (vtx : List CTransaction) (at_ : Nat), at_ ≤ txOffset u vtx at_
  | [], _ => Nat.le_refl _
  | tx :: vtx, at_ => by
    rw [txOffset]
    split
    · exact Nat.le_refl _
    · exact (Nat.le_add_right _ _).trans (le_txOffset u vtx _)

/-- Reading at the offset of a transaction gives that transaction. -/
theorem CBlock.readTx_txOffset {u : Bytes} {tx : CTransaction} :
    ∀ {vtx : List CTransaction} (at_ : Nat), vtx.find? (CTransaction.registers u) = some tx →
      readTx vtx at_ (txOffset u vtx at_) = some tx
  | [], _, h => by cases h
  | t :: vtx, at_, h => by
    rw [txOffset]
    by_cases ht : t.registers u = true
    · rw [List.find?_cons_of_pos ht] at h
      rw [if_pos ht, readTx, if_pos rfl, h]
    · rw [List.find?_cons_of_neg ht] at h
      have hlt : at_ ≠ txOffset u vtx (at_ + t.serializeSize) := by
        have := le_txOffset u vtx (at_ + t.serializeSize)
        have := t.serializeSize_pos
        omega
      rw [if_neg ht, readTx, if_neg hlt]
      exact readTx_txOffset _ h

theorem CTransaction.getUsername_of_registers {u : Bytes} {tx : CTransaction}
    (h : tx.registers u = true) : tx.getUsername = u := by
  simp only [registers, Bool.and_eq_true, beq_iff_eq] at h
  exact h.2

/-! ## The log of a user -/

/-- The index entries of user `u` stand for the log `l`. -/
structure IndexRep (s : ChainState) (u : Bytes) (l : Log CBlockIndex) : Prop where
  /-- `(u, -1)` is the head. -/
  newest : s.txIndex ⟨u, -1⟩ = l.head.map (CBlockIndex.txPos u)
  /-- `(u, h - 1)` is what the block at height `h` covered. -/
  saved : ∀ h : Nat, 1 ≤ h → s.txIndex ⟨u, h - 1⟩ = (l.saved h).map (CBlockIndex.txPos u)
  /-- Entries are indexed blocks with a transaction for `u`. -/
  entries : ∀ e, l.Has e → e ∈ s.mapBlockIndex ∧ e.registers u = true

/-- The result of `getTransaction` for the outcome of a walk. -/
def lookupResult (env : Env) (u : Bytes) :
    Option (Option CBlockIndex) → Except Halt (Option (CTransaction × Uint256))
  | none => .error .fuel
  | some none => .ok none
  | some (some e) => .ok ((e.block.txFor u).map fun tx => (tx, env.blockHash e.block))

/-- The walk that `getTransaction` makes over the log of a user. -/
def lookup (s : ChainState) (l : Log CBlockIndex) (maxHeight : Int) (fuel : Nat) :
    Option CBlockIndex → Option (Option CBlockIndex) :=
  l.walk CBlockIndex.nHeight s.isInMainChain maxHeight fuel

section Lookup

variable {env : Env} {s : ChainState} {u : Bytes} {l : Log CBlockIndex} {maxHeight : Int}

/-- What the code reads from disk at the position of a transaction. -/
theorem readTxAt_txPos {e : CBlockIndex} (tree : TreeOK env s.mapBlockIndex)
    (he : e ∈ s.mapBlockIndex) {tx : CTransaction} (htx : e.block.txFor u = some tx) :
    s.readTxAt (e.txPos u) = some (e.block.toCBlockHeader, tx) := by
  have hpos : (s.mapBlockIndex.find? fun p => p.pos == (e.txPos u).toCDiskBlockPos) = some e :=
    tree.find_pos he
  rw [ChainState.readTxAt, hpos]
  simp only [CBlockIndex.txPos]
  rw [CBlock.readTx_txOffset _ htx, Option.map_some]

/-- One round of the loop, at an entry of the log. -/
theorem getTransactionFrom_succ {e : CBlockIndex} {height : Int} {fuel : Nat}
    (tree : TreeOK env s.mapBlockIndex) (he : e ∈ s.mapBlockIndex) (hu : e.registers u = true)
    (hkey : s.txIndex ⟨u, height⟩ = some (e.txPos u)) :
    getTransactionFrom env s u maxHeight (fuel + 1) height =
      if !s.isInMainChain e then .ok none
      else if e.nHeight > maxHeight then
        if e.nHeight > 1 then getTransactionFrom env s u maxHeight fuel (e.nHeight - 1)
        else .ok none
      else .ok ((e.block.txFor u).map fun tx => (tx, env.blockHash e.block)) := by
  obtain ⟨tx, htx⟩ := Option.isSome_iff_exists.mp hu
  have hname : tx.getUsername = u :=
    CTransaction.getUsername_of_registers (List.find?_some htx)
  have hfind : s.findBlockIndex env (env.headerHash e.block.toCBlockHeader) = some e :=
    tree.find_hash he
  have hheight : e.block.nHeight = e.nHeight := tree.nHeight_eq he
  rw [getTransactionFrom, hkey]
  simp only [readTxAt_txPos tree he htx, hname, ne_eq, not_true_eq_false, if_false, hfind,
    hheight, htx, Option.map_some]
  congr 1
  by_cases hgt : (e.nHeight : Int) > maxHeight
  · rw [if_pos hgt, if_pos hgt]
    by_cases hone : e.nHeight > 1
    · rw [if_pos hone, if_pos ⟨by omega, by omega⟩]
    · rw [if_neg hone, if_neg (by omega)]
  · rw [if_neg hgt, if_neg hgt]
    rfl

/-- The loop is a walk. -/
theorem getTransactionFrom_eq (tree : TreeOK env s.mapBlockIndex) (rep : IndexRep s u l) :
    ∀ {fuel : Nat} {height : Int} {cur : Option CBlockIndex},
      s.txIndex ⟨u, height⟩ = cur.map (CBlockIndex.txPos u) → (∀ x, cur = some x → l.Has x) →
      getTransactionFrom env s u maxHeight fuel height =
        lookupResult env u (lookup s l maxHeight fuel cur)
  | 0, _, _, _, _ => rfl
  | fuel + 1, height, none, hkey, _ => by
    rw [getTransactionFrom, hkey]
    rfl
  | fuel + 1, height, some e, hkey, hcur => by
    obtain ⟨he, hu⟩ := rep.entries e (hcur e rfl)
    rw [getTransactionFrom_succ tree he hu hkey, lookup, Log.walk]
    by_cases hlive : s.isInMainChain e = true
    · by_cases hgt : (e.nHeight : Int) > maxHeight
      · by_cases hone : e.nHeight > 1
        · simp only [hlive, hgt, hone, Bool.not_true, Bool.false_eq_true, if_false, if_true]
          exact getTransactionFrom_eq tree rep (rep.saved e.nHeight (by omega))
            (fun x hx => .inr ⟨_, hx⟩)
        · simp [hlive, hgt, hone, lookupResult]
      · simp [hlive, hgt, lookupResult]
    · simp [hlive, lookupResult]

/-- A lookup is a walk over the log. -/
theorem getTransaction_eq_walk (tree : TreeOK env s.mapBlockIndex) (rep : IndexRep s u l)
    (fuel : Nat) (maxHeight : Int) :
    getTransaction env fuel s u maxHeight = lookupResult env u
      (lookup s l (if maxHeight < 0 then s.nBestHeight else maxHeight) fuel l.head) :=
  getTransactionFrom_eq tree rep rep.newest fun _ hx => .inl hx

end Lookup

/-! ## Writes to the index -/

/-- The index after writes. -/
def applyWrites (idx : TxKey → Option CDiskTxPos) (vPos : List (TxKey × CDiskTxPos)) :
    TxKey → Option CDiskTxPos :=
  vPos.foldl (fun idx w k => if k = w.1 then some w.2 else idx k) idx

theorem applyWrites_of_ne {k : TxKey} : ∀ {vPos : List (TxKey × CDiskTxPos)}
    {idx : TxKey → Option CDiskTxPos}, (∀ w ∈ vPos, k ≠ w.1) → applyWrites idx vPos k = idx k
  | [], _, _ => rfl
  | w :: vPos, idx, h => by
    have htail : applyWrites (fun k => if k = w.1 then some w.2 else idx k) vPos k =
        if k = w.1 then some w.2 else idx k :=
      applyWrites_of_ne fun w' hw' => h w' (List.mem_cons_of_mem _ hw')
    exact htail.trans (if_neg (h w List.mem_cons_self))

theorem applyWrites_append (idx : TxKey → Option CDiskTxPos)
    (vPos vPos' : List (TxKey × CDiskTxPos)) :
    applyWrites idx (vPos ++ vPos') = applyWrites (applyWrites idx vPos) vPos' :=
  List.foldl_append

section Writes

variable {s : ChainState} {block : CBlock} {u : Bytes} {vtx : List CTransaction}

theorem username_of_mem_indexWrites {pos : CDiskTxPos} {tx : CTransaction}
    {w : TxKey × CDiskTxPos} (h : w ∈ indexWrites s block pos tx) :
    w.1.username = tx.getUsername := by
  rw [indexWrites, List.mem_cons] at h
  rcases h with h | h
  · rw [h]
  · split at h
    · cases h
    · split at h
      · rw [List.mem_singleton] at h
        rw [h]
      · cases h

/-- Other users are left alone. -/
theorem collectWrites_other (s : ChainState) (block : CBlock)
    (h : ∀ tx ∈ vtx, tx.registers u = false) (pos : CDiskTxPos) :
    ∀ w ∈ collectWrites s block pos vtx, w.1.username ≠ u := by
  induction vtx generalizing pos with
  | nil => simp [collectWrites]
  | cons tx vtx ih =>
    intro w hw
    rw [collectWrites, List.mem_append] at hw
    rcases hw with hw | hw
    · split at hw
      · cases hw
      · rename_i hspam
        have htx := h tx List.mem_cons_self
        rw [username_of_mem_indexWrites hw]
        intro hu
        simp [CTransaction.registers, hspam, hu] at htx
    · exact ih (fun t ht => h t (List.mem_cons_of_mem _ ht)) _ w hw

/-- With one transaction for `u`, its writes are the only ones for `u`. -/
theorem collectWrites_split {tx : CTransaction}
    (huniq : vtx.Pairwise fun a b => ¬(a.registers u = true ∧ b.registers u = true))
    (h : vtx.find? (CTransaction.registers u) = some tx) (pos : CDiskTxPos) :
    ∃ before after, collectWrites s block pos vtx = before ++
        indexWrites s block { pos with nTxOffset := CBlock.txOffset u vtx pos.nTxOffset } tx ++
        after ∧
      (∀ w ∈ before, w.1.username ≠ u) ∧ ∀ w ∈ after, w.1.username ≠ u := by
  induction vtx generalizing pos with
  | nil => cases h
  | cons t vtx ih =>
    obtain ⟨hfirst, hrest⟩ := List.pairwise_cons.mp huniq
    by_cases ht : t.registers u = true
    · rw [List.find?_cons_of_pos ht, Option.some.injEq] at h
      subst h
      have hspam : t.isSpamMessage = false := by
        simp only [CTransaction.registers, Bool.and_eq_true, Bool.not_eq_true'] at ht
        exact ht.1
      have hother : ∀ t' ∈ vtx, t'.registers u = false := by
        intro t' ht'
        simpa [ht] using hfirst t' ht'
      refine ⟨[], collectWrites s block
        { pos with nTxOffset := pos.nTxOffset + t.serializeSize } vtx, ?_, by simp,
        collectWrites_other s block hother _⟩
      rw [collectWrites, hspam, CBlock.txOffset, if_pos ht]
      rfl
    · rw [List.find?_cons_of_neg ht] at h
      obtain ⟨before, after, heq, hbefore, hafter⟩ := ih hrest h
        { pos with nTxOffset := pos.nTxOffset + t.serializeSize }
      refine ⟨(if t.isSpamMessage then [] else indexWrites s block pos t) ++ before, after,
        ?_, ?_, hafter⟩
      · rw [collectWrites, heq, CBlock.txOffset, if_neg ht]
        simp only [List.append_assoc]
      · intro w hw
        rcases List.mem_append.mp hw with hw | hw
        · have hone : ∀ t' ∈ [t], t'.registers u = false := by simpa using ht
          exact collectWrites_other s block hone pos w (by simpa [collectWrites] using hw)
        · exact hbefore w hw

end Writes

/-! ## Connecting pushes, disconnecting pops -/

/-- What only a whole `setBestChain` call changes. -/
structure SameChain (s s' : ChainState) : Prop where
  map : s'.mapBlockIndex = s.mapBlockIndex
  chain : s'.vBlockIndexByHeight = s.vBlockIndexByHeight
  tip : s'.coinsTip = s.coinsTip
  best : s'.pindexBest = s.pindexBest
  cands : s'.setBlockIndexValid ⊆ s.setBlockIndexValid
  clock : s'.clock = s.clock

namespace SameChain

variable {s s' s'' : ChainState}

theorem refl (s : ChainState) : SameChain s s :=
  ⟨rfl, rfl, rfl, rfl, List.Subset.refl _, rfl⟩

theorem trans (h : SameChain s s') (h' : SameChain s' s'') : SameChain s s'' :=
  ⟨h'.map.trans h.map, h'.chain.trans h.chain, h'.tip.trans h.tip, h'.best.trans h.best,
    List.Subset.trans h'.cands h.cands, h'.clock.trans h.clock⟩

theorem isInMainChain (h : SameChain s s') : s'.isInMainChain = s.isInMainChain := by
  funext p
  rw [ChainState.isInMainChain, ChainState.isInMainChain, h.chain]

theorem nBestHeight (h : SameChain s s') : s'.nBestHeight = s.nBestHeight := by
  rw [ChainState.nBestHeight, ChainState.nBestHeight, h.best]

theorem adjustedTime (h : SameChain s s') (env : Env) :
    s'.adjustedTime env = s.adjustedTime env := by
  rw [ChainState.adjustedTime, ChainState.adjustedTime, h.clock]

theorem lookup (h : SameChain s s') (l : Log CBlockIndex) : lookup s' l = lookup s l := by
  funext maxHeight fuel cur
  rw [CoMoNet.lookup, CoMoNet.lookup, h.isInMainChain]

end SameChain

/-- Only the index changes. -/
def OnlyIndex (s s' : ChainState) : Prop := ∃ idx, s' = { s with txIndex := idx }

namespace OnlyIndex

variable {s s' s'' : ChainState}

theorem refl (s : ChainState) : OnlyIndex s s := ⟨s.txIndex, rfl⟩

theorem trans (h : OnlyIndex s s') (h' : OnlyIndex s' s'') : OnlyIndex s s'' := by
  obtain ⟨_, rfl⟩ := h
  obtain ⟨idx, rfl⟩ := h'
  exact ⟨idx, rfl⟩

theorem sameChain (h : OnlyIndex s s') : SameChain s s' := by
  obtain ⟨idx, rfl⟩ := h
  exact ⟨rfl, rfl, rfl, rfl, List.Subset.refl _, rfl⟩

end OnlyIndex

/-- The log depends on the user's entries only. -/
theorem IndexRep.congr {s s' : ChainState} {u : Bytes} {l : Log CBlockIndex}
    (rep : IndexRep s u l) (hmap : s'.mapBlockIndex = s.mapBlockIndex)
    (hidx : ∀ h, s'.txIndex ⟨u, h⟩ = s.txIndex ⟨u, h⟩) : IndexRep s' u l where
  newest := (hidx _).trans rep.newest
  saved h hh := (hidx _).trans (rep.saved h hh)
  entries e he := hmap ▸ rep.entries e he

theorem writeUndo_txIndex (s : ChainState) (p : CBlockIndex) (block : CBlock) :
    (writeUndo s p block).txIndex = s.txIndex := by
  rw [writeUndo]
  split <;> rfl

theorem sameChain_writeUndo (s : ChainState) (p : CBlockIndex) (block : CBlock) :
    SameChain s (writeUndo s p block) := by
  rw [writeUndo]
  split <;> exact ⟨rfl, rfl, rfl, rfl, List.Subset.refl _, rfl⟩

theorem sameChain_connectWrites (s : ChainState) (block : CBlock) (p : CBlockIndex) :
    SameChain s (connectWrites s block p) :=
  (sameChain_writeUndo s p block).trans ⟨rfl, rfl, rfl, rfl, List.Subset.refl _, rfl⟩

theorem connectWrites_txIndex (s : ChainState) (block : CBlock) (p : CBlockIndex) :
    (connectWrites s block p).txIndex = applyWrites s.txIndex (collectWrites s block
      { p.pos with nTxOffset := sizeOfCompactSize block.vtx.length } block.vtx) := by
  rw [connectWrites, ChainState.writeTxIndex, writeUndo_txIndex]
  rfl

section Push

variable {env : Env} {s : ChainState} {u : Bytes} {l : Log CBlockIndex} {p : CBlockIndex}

/-- One transaction pushes the block. -/
theorem applyWrites_indexWrites {tx : CTransaction} {idx : TxKey → Option CDiskTxPos}
    (tree : TreeOK env s.mapBlockIndex) (hp : p ∈ s.mapBlockIndex) (rep : IndexRep s u l)
    (hname : tx.getUsername = u) (hpos : 1 ≤ p.nHeight)
    (hidx : ∀ h, idx ⟨u, h⟩ = s.txIndex ⟨u, h⟩) :
    applyWrites idx (indexWrites s p.block (p.txPos u) tx) ⟨u, -1⟩ = some (p.txPos u) ∧
      ∀ h : Nat, 1 ≤ h → applyWrites idx (indexWrites s p.block (p.txPos u) tx) ⟨u, h - 1⟩ =
        ((l.push CBlockIndex.nHeight p).saved h).map (CBlockIndex.txPos u) := by
  have hheight := tree.nHeight_eq hp
  have hone : ∀ h : Nat, 1 ≤ h → (h : Int) - 1 ≠ -1 := fun h hh => by omega
  rw [indexWrites, hname, rep.newest]
  cases hhead : l.head with
  | none =>
    refine ⟨by simp [applyWrites], fun h hh => ?_⟩
    have hsaved := (hidx _).trans (rep.saved h hh)
    simp [applyWrites, Log.push, hhead, hone h hh, hsaved]
  | some f =>
    have hf := (rep.entries f (.inl hhead)).1
    by_cases hfp : f = p
    · refine ⟨by simp [applyWrites, CBlockIndex.txPos, hfp], fun h hh => ?_⟩
      have hsaved := (hidx _).trans (rep.saved h hh)
      simp [applyWrites, Log.push, hhead, hone h hh, hsaved, hfp, CBlockIndex.txPos]
    · have hne : (p.txPos u).toCDiskBlockPos ≠ (f.txPos u).toCDiskBlockPos :=
        fun heq => hfp (tree.pos_inj p hp f hf heq).symm
      rw [Option.map_some]
      simp only [ne_eq, hne, not_false_eq_true, if_true, hheight]
      refine ⟨?_, fun h hh => ?_⟩
      · have := hone p.nHeight hpos
        simp [applyWrites, this.symm]
      · have hsaved := (hidx _).trans (rep.saved h hh)
        by_cases hk : h = p.nHeight
        · simp [applyWrites, Log.push, hhead, hfp, hk]
        · have hkInt : (h : Int) - 1 ≠ p.nHeight - 1 := by omega
          simp [applyWrites, Log.push, hhead, hfp, hk, hkInt, hone h hh, hsaved]

/-- The writes of `connectBlock` push the block on its users' logs and leave the others. -/
theorem IndexRep.of_connectWrites (tree : TreeOK env s.mapBlockIndex) (hp : p ∈ s.mapBlockIndex)
    {spam : CTransaction} {vtx : List CTransaction} (shape : BlockShape env p.block spam vtx)
    (rep : IndexRep s u l) :
    IndexRep (connectWrites s p.block p) u
      (if p.registers u then l.push CBlockIndex.nHeight p else l) := by
  have hsame := sameChain_connectWrites s p.block p
  by_cases hu : p.registers u = true
  · obtain ⟨tx, htx⟩ := Option.isSome_iff_exists.mp hu
    have hname := (CTransaction.registers_iff.mp (List.find?_some htx)).2
    obtain ⟨before, after, heq, hbefore, hafter⟩ := collectWrites_split (s := s)
      (shape.unique u) htx
      { p.pos with nTxOffset := sizeOfCompactSize p.block.vtx.length }
    have hkeys : ∀ h, (connectWrites s p.block p).txIndex ⟨u, h⟩ =
        applyWrites (applyWrites s.txIndex before)
          (indexWrites s p.block (p.txPos u) tx) ⟨u, h⟩ := by
      intro h
      rw [connectWrites_txIndex, heq, applyWrites_append, applyWrites_append]
      exact applyWrites_of_ne fun w hw hk => hafter w hw (by rw [← hk])
    obtain ⟨hnewest, hsaved⟩ := applyWrites_indexWrites tree hp rep hname
      (tree.nHeight_pos hp hu)
      fun h => applyWrites_of_ne fun w hw hk => hbefore w hw (by rw [← hk])
    rw [if_pos hu]
    refine ⟨(hkeys _).trans hnewest, fun h hh => (hkeys _).trans (hsaved h hh), ?_⟩
    intro e he
    rw [hsame.map]
    rcases he.of_push with rfl | he
    · exact ⟨hp, hu⟩
    · exact rep.entries e he
  · rw [if_neg hu]
    refine rep.congr hsame.map fun h => ?_
    have hother : ∀ tx ∈ p.block.vtx, tx.registers u = false := by
      simpa [CBlockIndex.registers, CBlock.txFor] using hu
    rw [connectWrites_txIndex]
    exact applyWrites_of_ne fun w hw hk => collectWrites_other s p.block hother _ w hw
      (by rw [← hk])

end Push

section Pop

variable {env : Env} {s s' : ChainState} {u : Bytes} {l : Log CBlockIndex} {p : CBlockIndex}
variable {view view' : Option CBlockIndex}

/-- Restoring one transaction pops the block from the log of its user. -/
theorem IndexRep.of_restoreEntry (tree : TreeOK env s.mapBlockIndex) (hp : p ∈ s.mapBlockIndex)
    (hpos : 1 ≤ p.nHeight) (rep : IndexRep s u l) (tx : CTransaction) :
    IndexRep (restoreEntry p.block s tx) u
      (if tx.getUsername = u then l.pop CBlockIndex.nHeight p else l) := by
  have hheight := tree.nHeight_eq hp
  by_cases hu : tx.getUsername = u
  · have hkey := rep.saved p.nHeight hpos
    rw [if_pos hu, restoreEntry, hu, hheight, hkey, Log.pop]
    cases hs : l.saved p.nHeight with
    | none => exact rep
    | some f =>
      refine ⟨by simp [ChainState.writeTxIndex], fun h hh => ?_, fun e he => ?_⟩
      · have hne : (h : Int) - 1 ≠ -1 := by omega
        simpa [ChainState.writeTxIndex, hne] using rep.saved h hh
      · refine rep.entries e ?_
        rcases he with he | he
        · exact .inr ⟨p.nHeight, hs.trans he⟩
        · exact .inr he
  · rw [if_neg hu, restoreEntry]
    split
    · exact rep
    · refine rep.congr rfl fun h => ?_
      simp [ChainState.writeTxIndex, Ne.symm hu]

theorem onlyIndex_restoreEntry (block : CBlock) (s : ChainState) (tx : CTransaction) :
    OnlyIndex s (restoreEntry block s tx) := by
  rw [restoreEntry]
  split
  · exact .refl s
  · exact ⟨_, rfl⟩

/-- Restoring changes the index only. -/
theorem onlyIndex_restoreEntries (block : CBlock) :
    ∀ (vtx : List CTransaction) (s : ChainState), OnlyIndex s (vtx.foldl (restoreEntry block) s)
  | [], s => .refl s
  | tx :: vtx, s =>
    (onlyIndex_restoreEntry block s tx).trans (onlyIndex_restoreEntries block vtx _)

theorem pop_pop (l : Log CBlockIndex) (p : CBlockIndex) :
    (l.pop CBlockIndex.nHeight p).pop CBlockIndex.nHeight p = l.pop CBlockIndex.nHeight p := by
  cases hs : l.saved p.nHeight <;> simp [Log.pop, hs]

/-- Restoring pops the block. -/
theorem IndexRep.of_restoreEntries (hpos : 1 ≤ p.nHeight) :
    ∀ (vtx : List CTransaction) {s : ChainState} {l : Log CBlockIndex},
      TreeOK env s.mapBlockIndex → p ∈ s.mapBlockIndex → IndexRep s u l →
      IndexRep (vtx.foldl (restoreEntry p.block) s) u
        (if ∃ tx ∈ vtx, tx.getUsername = u then l.pop CBlockIndex.nHeight p else l)
  | [], _, _, _, _, rep => by simpa using rep
  | tx :: vtx, s, l, tree, hp, rep => by
    have hsame := (onlyIndex_restoreEntry p.block s tx).sameChain
    have htail := IndexRep.of_restoreEntries hpos vtx (hsame.map ▸ tree)
      (hsame.map ▸ hp) (rep.of_restoreEntry tree hp hpos tx)
    rw [List.foldl_cons]
    by_cases hu : tx.getUsername = u
    · simpa [hu, pop_pop] using htail
    · simpa [hu] using htail

/-- `disconnectBlock` does nothing, or restores entries and moves the view to the parent. -/
theorem disconnectBlock_cases {b : Bool}
    (h : disconnectBlock s view p.block p false = .ok (b, s', view')) :
    view = some p ∧ (b = false ∧ s' = s ∨ b = true ∧ view' = p.pprev ∧
      ∃ q, p.pprev = some q ∧ s' = p.block.vtx.tail.reverse.foldl (restoreEntry p.block) s) := by
  rw [disconnectBlock] at h
  split at h
  · cases h
  rename_i hview
  refine ⟨not_not.mp hview, ?_⟩
  split at h
  · cases h
    exact .inl ⟨rfl, rfl⟩
  · cases h
  rename_i q _ hq
  split at h
  · cases h
    exact .inl ⟨rfl, rfl⟩
  · cases h
    exact .inr ⟨rfl, rfl, q, hq, rfl⟩

/-- `disconnectBlock` pops the block from the logs of its users. -/
theorem IndexRep.of_disconnectBlock (tree : TreeOK env s.mapBlockIndex) (hp : p ∈ s.mapBlockIndex)
    (rep : IndexRep s u l)
    (h : disconnectBlock s view p.block p false = .ok (true, s', view')) :
    IndexRep s' u (if p.registers u then l.pop CBlockIndex.nHeight p else l) := by
  obtain ⟨-, ⟨hb, -⟩ | ⟨-, -, q, hq, rfl⟩⟩ := disconnectBlock_cases h
  · cases hb
  obtain ⟨now, hcheck⟩ := tree.checked p hp q hq
  obtain ⟨spam, vtx, shape⟩ := checkBlock_shape hcheck
  have hpos : 1 ≤ p.nHeight := by
    rw [CBlockIndex.nHeight_of_pprev hq]
    exact Nat.le_add_left 1 _
  have hiff : (∃ tx ∈ p.block.vtx.tail.reverse, tx.getUsername = u) ↔ p.registers u = true := by
    rw [shape.vtx_eq]
    constructor
    · rintro ⟨tx, htx, rfl⟩
      rw [CBlockIndex.registers, shape.txFor_of_mem (by simpa using htx)]
      rfl
    · intro hu
      obtain ⟨tx, htx⟩ := Option.isSome_iff_exists.mp hu
      obtain ⟨hmem, hreg⟩ := shape.mem_of_txFor htx
      exact ⟨tx, by simpa using hmem, (CTransaction.registers_iff.mp hreg).2⟩
  have hrep := IndexRep.of_restoreEntries hpos p.block.vtx.tail.reverse tree hp rep
  simpa only [hiff] using hrep

theorem onlyIndex_disconnectBlock {b : Bool}
    (h : disconnectBlock s view p.block p false = .ok (b, s', view')) : OnlyIndex s s' := by
  obtain ⟨-, ⟨-, rfl⟩ | ⟨-, -, q, -, rfl⟩⟩ := disconnectBlock_cases h
  · exact .refl _
  · exact onlyIndex_restoreEntries _ _ s

end Pop

end CoMoNet
