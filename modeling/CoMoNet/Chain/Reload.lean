import CoMoNet.Chain.Settled
import CoMoNet.Lib.Fill

/-!
# Loading the block index

`LoadBlockIndexDB` makes entries from the stored records, links them by hash, computes
sums in order of height and registers the best chain. A pointer is a hash here; the
order of records and addresses is arbitrary. What is loaded is what was written
(`loadBlockIndexDB_eq`).
-/

namespace CoMoNet

/-- `CDiskBlockIndex`. -/
structure CDiskBlockIndex where
  /-- The header fields, the height of the entry and `hashPrev`. -/
  header : CBlockHeader
  nStatus : BlockStatus
  nTx : Nat
  pos : CDiskBlockPos
deriving DecidableEq, Repr

/-- `CDiskBlockIndex(pindex)`, with the hash of the parent, 0 without one. -/
def CDiskBlockIndex.ofIndex (env : Env) (p : CBlockIndex) (nStatus : BlockStatus) :
    CDiskBlockIndex where
  header := { p.block.toCBlockHeader with
    nHeight := p.nHeight
    hashPrevBlock := (p.pprev.map fun q => env.blockHash q.block).getD 0 }
  nStatus := nStatus
  nTx := p.block.vtx.length
  pos := p.pos

/-- `GetBlockHash`. -/
def CDiskBlockIndex.getBlockHash (env : Env) (r : CDiskBlockIndex) : Uint256 :=
  env.headerHash r.header

/-- The records on disk. -/
def blockRecords (env : Env) (s : ChainState) : List CDiskBlockIndex :=
  s.mapBlockIndex.filterMap fun p => (s.diskStatus p).map (CDiskBlockIndex.ofIndex env p)

/-- An entry of the index while it is loaded; `pprev` points to an entry by its
hash. -/
structure LoadedEntry where
  pprev : Option Uint256 := none
  nHeight : Int := 0
  nStatus : BlockStatus := {}
  nTx : Nat := 0
  pos : CDiskBlockPos := ⟨0, 0⟩
  nVersion : Int := 0
  hashMerkleRoot : Uint256 := 0
  nTime : Nat := 0
  nBits : Nat := 0
  nNonce : Nat := 0
deriving DecidableEq, Repr

/-- The entries while loading. -/
structure LoadedMap where
  keys : List Uint256 := []
  entry : Uint256 → LoadedEntry := fun _ => {}

namespace LoadedMap

/-- `InsertBlockIndex`: makes the entry of a hash if there is none; none for the hash 0. -/
def insertBlockIndex (m : LoadedMap) (hash : Uint256) : Option Uint256 × LoadedMap :=
  if hash = 0 then (none, m)
  else if hash ∈ m.keys then (some hash, m)
  else (some hash, ⟨hash :: m.keys, Function.update m.entry hash {}⟩)

/-- The entry of a record. -/
def entryOf (r : CDiskBlockIndex) (pprev : Option Uint256) : LoadedEntry where
  pprev := pprev
  nHeight := r.header.nHeight
  nStatus := r.nStatus
  nTx := r.nTx
  pos := r.pos
  nVersion := r.header.nVersion
  hashMerkleRoot := r.header.hashMerkleRoot
  nTime := r.header.nTime
  nBits := r.header.nBits
  nNonce := r.header.nNonce

/-- One round of the loop. -/
def loadRecord (env : Env) (m : LoadedMap) (r : CDiskBlockIndex) : Except Halt LoadedMap :=
  match m.insertBlockIndex (r.getBlockHash env) with
  | (none, _) => .error .nullPointer
  | (some pindexNew, m) =>
    let (pprev, m) := m.insertBlockIndex r.header.hashPrevBlock
    .ok { m with entry := Function.update m.entry pindexNew (entryOf r pprev) }

/-- `LoadBlockIndexGuts`. -/
def loadBlockIndexGuts (env : Env) : LoadedMap → List CDiskBlockIndex → Except Halt LoadedMap
  | m, [] => .ok m
  | m, r :: rs =>
    match m.loadRecord env r with
    | .error e => .error e
    | .ok m => loadBlockIndexGuts env m rs

/-- The sorted entries. -/
def sortedByHeight (m : LoadedMap) (addr : Uint256 → Nat) : List Uint256 :=
  m.keys.mergeSort fun a b => (m.entry a).nHeight < (m.entry b).nHeight ||
    ((m.entry a).nHeight == (m.entry b).nHeight && decide (addr a ≤ addr b))

/-- `GetBlockWork`. -/
def getBlockWork (nBits : Nat) : Nat :=
  let bnTarget := setCompact nBits
  if bnTarget ≤ 0 then 0 else 2 ^ 256 / (bnTarget.toNat + 1)

/-- `nChainWork` and `nChainTx` of an entry, from those of its parent. -/
def chainSums (m : LoadedMap) (hash : Uint256) (pprev : Option (Nat × Nat)) : Nat × Nat :=
  let (nChainWork, nChainTx) := pprev.getD (0, 0)
  ((nChainWork + getBlockWork (m.entry hash).nBits) % 2 ^ 256,
    (nChainTx + (m.entry hash).nTx) % 2 ^ 32)

/-- The entry is a candidate. -/
def isCandidate (e : LoadedEntry) : Bool := e.nStatus.valid ≥ 3 && !e.nStatus.failed

/-- The loop that registers the best chain. -/
def registerChain (m : LoadedMap) : Nat → Option Uint256 → List (Option Uint256) →
    Except Halt (List (Option Uint256))
  | _, none, v => .ok v
  | 0, some _, _ => .error .fuel
  | fuel + 1, some hash, v =>
    m.registerChain fuel (m.entry hash).pprev (v.set (m.entry hash).nHeight.toNat (some hash))

end LoadedMap

/-- What is loaded. -/
structure LoadedIndex extends LoadedMap where
  /-- `nChainWork` and `nChainTx` of an entry. -/
  sums : Uint256 → Nat × Nat
  setBlockIndexValid : List Uint256
  vBlockIndexByHeight : List (Option Uint256)

/-- `LoadBlockIndexDB`, from the records by key and the stored best block. -/
def loadBlockIndexDB (env : Env) (addr : Uint256 → Nat) (records : List CDiskBlockIndex)
    (best : Option Uint256) : Except Halt LoadedIndex :=
  match LoadedMap.loadBlockIndexGuts env {} records with
  | .error e => .error e
  | .ok m =>
    let vSortedByHeight := m.sortedByHeight addr
    let sums := Fill.fill (fun h => (m.entry h).pprev) m.chainSums (fun _ => (0, 0))
      vSortedByHeight
    let v := (best.map fun hash =>
      List.replicate ((m.entry hash).nHeight.toNat + 1) none).getD []
    match m.registerChain (m.keys.length + 1) best v with
    | .error e => .error e
    | .ok v => .ok { m with
        sums := sums
        setBlockIndexValid := vSortedByHeight.filter fun h => LoadedMap.isCandidate (m.entry h)
        vBlockIndexByHeight := v }

/-- The number of transactions of the chain up to an entry, 32 bits. -/
def CBlockIndex.nChainTx : CBlockIndex → Nat
  | .root block _ => block.vtx.length % 2 ^ 32
  | .next pprev block _ => (pprev.nChainTx + block.vtx.length) % 2 ^ 32

section Loading

variable {env : Env} {map ps : List CBlockIndex} {p q : CBlockIndex} {m : LoadedMap}
variable {st : CBlockIndex → BlockStatus}
variable {done : CBlockIndex → Prop} {records : List CDiskBlockIndex} {s : ChainState}

/-- The hash of an entry. -/
def CBlockIndex.hash (env : Env) (p : CBlockIndex) : Uint256 := env.blockHash p.block

/-- The entry of a block after loading, when it has the status `st`. -/
def loadedEntry (env : Env) (st : CBlockIndex → BlockStatus) (p : CBlockIndex) : LoadedEntry :=
  LoadedMap.entryOf (.ofIndex env p (st p)) (p.pprev.map (CBlockIndex.hash env))

theorem loadedEntry_pprev : (loadedEntry env st p).pprev = p.pprev.map (CBlockIndex.hash env) := rfl

theorem loadedEntry_nHeight : (loadedEntry env st p).nHeight = p.nHeight := rfl

theorem loadedEntry_nStatus : (loadedEntry env st p).nStatus = st p := rfl

theorem Linked.getBlockHash (h : Linked env map) (hp : p ∈ map) :
    (CDiskBlockIndex.ofIndex env p (st p)).getBlockHash env = p.hash env := by
  rw [CDiskBlockIndex.getBlockHash, CBlockIndex.hash, Env.blockHash]
  congr 1
  cases hq : p.pprev with
  | none =>
    have hheight : p.nHeight = 0 := by
      cases p with
      | root block pos => rfl
      | next pprev block pos => cases hq
    simp only [CDiskBlockIndex.ofIndex, hq, h.root p hp hq, hheight]
    rfl
  | some q =>
    have hprev := h.linked p hp q hq
    have hheight := h.height p hp q hq
    simp only [CDiskBlockIndex.ofIndex, hq, Option.map_some, Option.getD_some, ← hprev, ← hheight]

/-! ### The entries -/

/-- The hash is there afterwards, and what was there is unchanged. -/
theorem insertBlockIndex_spec {hash : Uint256} (hne : hash ≠ 0) (hnodup : m.keys.Nodup) :
    (m.insertBlockIndex hash).1 = some hash ∧ (m.insertBlockIndex hash).2.keys.Nodup ∧
      (∀ h, h ∈ (m.insertBlockIndex hash).2.keys ↔ h = hash ∨ h ∈ m.keys) ∧
      ∀ h ∈ m.keys, (m.insertBlockIndex hash).2.entry h = m.entry h := by
  rw [LoadedMap.insertBlockIndex, if_neg hne]
  split
  · rename_i hmem
    refine ⟨rfl, hnodup, fun h => ⟨.inr, ?_⟩, fun _ _ => rfl⟩
    rintro (rfl | hh)
    · exact hmem
    · exact hh
  · rename_i hnew
    refine ⟨rfl, List.nodup_cons.mpr ⟨hnew, hnodup⟩, fun h => List.mem_cons, fun h hh => ?_⟩
    refine Function.update_of_ne ?_ _ _
    rintro rfl
    exact hnew hh

/-- The index while its records are loaded: the entries of `done` are there. -/
structure Loads (env : Env) (st : CBlockIndex → BlockStatus) (map : List CBlockIndex)
    (m : LoadedMap) (done : CBlockIndex → Prop) : Prop where
  nodup : m.keys.Nodup
  keys : ∀ h ∈ m.keys, ∃ p ∈ map, p.hash env = h
  loaded : ∀ p ∈ map, done p → p.hash env ∈ m.keys ∧ m.entry (p.hash env) = loadedEntry env st p

theorem Linked.insertParent (h : Linked env map) (st : CBlockIndex → BlockStatus)
    (hne : ∀ p ∈ map, p.hash env ≠ 0) (hp : p ∈ map) (hnodup : m.keys.Nodup)
    (hkeys : ∀ h ∈ m.keys, ∃ p ∈ map, p.hash env = h) :
    ∃ m', m.insertBlockIndex (CDiskBlockIndex.ofIndex env p (st p)).header.hashPrevBlock =
        (p.pprev.map (CBlockIndex.hash env), m') ∧ m'.keys.Nodup ∧
      (∀ h ∈ m'.keys, ∃ p ∈ map, p.hash env = h) ∧
      ∀ h ∈ m.keys, h ∈ m'.keys ∧ m'.entry h = m.entry h := by
  have hhash : (CDiskBlockIndex.ofIndex env p (st p)).header.hashPrevBlock =
      (p.pprev.map (CBlockIndex.hash env)).getD 0 := rfl
  rw [hhash]
  cases hq : p.pprev with
  | none => exact ⟨m, if_pos rfl, hnodup, hkeys, fun h hh => ⟨hh, rfl⟩⟩
  | some q =>
    have hqmem := h.parent p hp q hq
    obtain ⟨hptr, hnodup', hmem, hentry⟩ := insertBlockIndex_spec (hne q hqmem) hnodup
    refine ⟨_, Prod.ext hptr rfl, hnodup', fun h hh => ?_, fun h hh => ?_⟩
    · rcases (hmem h).mp hh with rfl | hh
      · exact ⟨q, hqmem, rfl⟩
      · exact hkeys h hh
    · exact ⟨(hmem h).mpr (.inr hh), hentry h hh⟩

theorem Loads.loadRecord (h : Linked env map)
    (hne : ∀ p ∈ map, p.hash env ≠ 0) (hp : p ∈ map) (inv : Loads env st map m done) :
    ∃ m', m.loadRecord env (.ofIndex env p (st p)) = .ok m' ∧
      Loads env st map m' fun q => done q ∨ q = p := by
  obtain ⟨hptr, hnodup, hmem, hentry⟩ := insertBlockIndex_spec (hne p hp) inv.nodup
  generalize hm₁ : (m.insertBlockIndex (p.hash env)).2 = m₁ at hnodup hmem hentry
  have hkeys : ∀ h ∈ m₁.keys, ∃ p ∈ map, p.hash env = h := by
    intro k hk
    rcases (hmem k).mp hk with rfl | hk
    · exact ⟨p, hp, rfl⟩
    · exact inv.keys k hk
  obtain ⟨m₂, hparent, hnodup₂, hkeys₂, hkeep⟩ := h.insertParent st hne hp hnodup hkeys
  have hpair : m.insertBlockIndex ((CDiskBlockIndex.ofIndex env p (st p)).getBlockHash env) =
      (some (p.hash env), m₁) := by
    rw [h.getBlockHash hp]
    exact Prod.ext hptr hm₁
  refine ⟨{ m₂ with entry := Function.update m₂.entry (p.hash env) (loadedEntry env st p) }, ?_,
    hnodup₂, hkeys₂, fun q hq hdone => ?_⟩
  · rw [LoadedMap.loadRecord, hpair]
    simp only [hparent]
    rfl
  · by_cases hqp : q = p
    · subst hqp
      exact ⟨(hkeep _ ((hmem _).mpr (.inl rfl))).1, Function.update_self _ _ _⟩
    · obtain ⟨hqkey, hqentry⟩ := inv.loaded q hq (hdone.resolve_right hqp)
      have hother : q.hash env ≠ p.hash env := fun heq => hqp (h.hash_inj q hq p hp heq)
      obtain ⟨hqkey₂, hqentry₂⟩ := hkeep _ ((hmem _).mpr (.inr hqkey))
      refine ⟨hqkey₂, ?_⟩
      rw [← hqentry, ← hentry _ hqkey, ← hqentry₂]
      exact Function.update_of_ne hother _ _

theorem Loads.loadBlockIndexGuts
    (h : Linked env map) (hne : ∀ p ∈ map, p.hash env ≠ 0)
    (hrecords : ∀ r ∈ records, ∃ p ∈ map, r = .ofIndex env p (st p))
    (inv : Loads env st map m done) :
    ∃ m', LoadedMap.loadBlockIndexGuts env m records = .ok m' ∧
      Loads env st map m' fun q => done q ∨ .ofIndex env q (st q) ∈ records := by
  induction records generalizing m done with
  | nil =>
    refine ⟨m, rfl, inv.nodup, inv.keys, fun q hq hdone => inv.loaded q hq ?_⟩
    exact hdone.resolve_right List.not_mem_nil
  | cons r records ih =>
    obtain ⟨p, hp, rfl⟩ := hrecords r List.mem_cons_self
    obtain ⟨m₁, hone, inv₁⟩ := inv.loadRecord h hne hp
    obtain ⟨m₂, hrest, inv₂⟩ := ih (fun r hr => hrecords r (List.mem_cons_of_mem _ hr)) inv₁
    refine ⟨m₂, ?_, inv₂.nodup, inv₂.keys, fun q hq hdone => inv₂.loaded q hq ?_⟩
    · rw [LoadedMap.loadBlockIndexGuts, hone]
      exact hrest
    · rcases hdone with hdone | hmem
      · exact .inl (.inl hdone)
      rcases List.mem_cons.mp hmem with heq | hmem
      · refine .inl (.inr (h.hash_inj q hq p hp ?_))
        have hhash := congrArg (CDiskBlockIndex.getBlockHash env) heq
        rwa [h.getBlockHash hq, h.getBlockHash hp] at hhash
      · exact .inr hmem

/-! ### The sums -/

/-- All entries are there. -/
structure Loaded (env : Env) (st : CBlockIndex → BlockStatus) (map : List CBlockIndex)
    (m : LoadedMap) : Prop where
  nodup : m.keys.Nodup
  keys : ∀ h, h ∈ m.keys ↔ ∃ p ∈ map, p.hash env = h
  entry : ∀ p ∈ map, m.entry (p.hash env) = loadedEntry env st p

theorem Loads.toLoaded (inv : Loads env st map m done)
    (hdone : ∀ p ∈ map, done p) : Loaded env st map m where
  nodup := inv.nodup
  keys h := by
    refine ⟨inv.keys h, ?_⟩
    rintro ⟨p, hp, rfl⟩
    exact (inv.loaded p hp (hdone p hp)).1
  entry p hp := (inv.loaded p hp (hdone p hp)).2

namespace Loaded

theorem mem_sortedByHeight (h : Loaded env st map m) (addr : Uint256 → Nat) {k : Uint256} :
    k ∈ m.sortedByHeight addr ↔ ∃ p ∈ map, p.hash env = k := by
  rw [LoadedMap.sortedByHeight, List.mem_mergeSort, h.keys]

theorem sorted (m : LoadedMap) (addr : Uint256 → Nat) :
    (m.sortedByHeight addr).Pairwise fun a b => (m.entry a).nHeight ≤ (m.entry b).nHeight := by
  refine (List.pairwise_mergeSort ?_ ?_ _).imp ?_
  · intro a b c hab hbc
    simp only [Bool.or_eq_true, decide_eq_true_eq, Bool.and_eq_true, beq_iff_eq] at *
    omega
  · intro a b
    simp only [Bool.or_eq_true, decide_eq_true_eq, Bool.and_eq_true, beq_iff_eq]
    omega
  · intro a b hab
    simp only [Bool.or_eq_true, decide_eq_true_eq, Bool.and_eq_true, beq_iff_eq] at hab
    omega

/-- The value that a hash names, by its block. -/
theorem find?_hash (h : Linked env map) (hp : p ∈ map) :
    map.find? (fun q => q.hash env == p.hash env) = some p := by
  cases hfind : map.find? fun q => q.hash env == p.hash env with
  | none =>
    have hnone := List.find?_eq_none.mp hfind p hp
    simp at hnone
  | some q =>
    have hhash : q.hash env = p.hash env := by simpa using List.find?_some hfind
    rw [h.hash_inj q (List.mem_of_find?_eq_some hfind) p hp hhash]

/-- Work and number of transactions. -/
theorem sums (h : Loaded env st map m) (hlinked : Linked env map) (addr : Uint256 → Nat)
    (table : Uint256 → Nat × Nat) (hp : p ∈ map) :
    Fill.fill (fun k => (m.entry k).pprev) m.chainSums table (m.sortedByHeight addr)
      (p.hash env) = (p.nChainWork, p.nChainTx) := by
  let v : Uint256 → Nat × Nat := fun k =>
    ((map.find? fun q => q.hash env == k).map fun q => (q.nChainWork, q.nChainTx)).getD (0, 0)
  have hv : ∀ q ∈ map, v (q.hash env) = (q.nChainWork, q.nChainTx) := by
    intro q hq
    simp only [v, find?_hash hlinked hq, Option.map_some, Option.getD_some]
  rw [← hv p hp]
  refine Fill.fill_eq (fun k => (m.entry k).nHeight.toNat) ?_ ?_ ?_ _
    ((h.mem_sortedByHeight addr).mpr ⟨p, hp, rfl⟩)
  · intro k hk
    obtain ⟨q, hq, rfl⟩ := (h.mem_sortedByHeight addr).mp hk
    rw [hv q hq, LoadedMap.chainSums, h.entry q hq, loadedEntry_pprev]
    cases q with
    | root block pos =>
      rw [CBlockIndex.nChainWork, CBlockIndex.nChainTx]
      simp only [CBlockIndex.pprev, Option.map_none, Option.getD_none, Nat.zero_add]
      rfl
    | next pprev block pos =>
      rw [CBlockIndex.nChainWork, CBlockIndex.nChainTx]
      simp only [CBlockIndex.pprev, Option.map_some, Option.getD_some,
        hv pprev (hlinked.parent _ hq pprev rfl)]
      rfl
  · exact (sorted m addr).imp fun hle => Int.toNat_le_toNat hle
  · intro k hk k' hk'
    obtain ⟨q, hq, rfl⟩ := (h.mem_sortedByHeight addr).mp hk
    rw [h.entry q hq, loadedEntry_pprev, Option.map_eq_some_iff] at hk'
    obtain ⟨q', hpprev, rfl⟩ := hk'
    have hq' := hlinked.parent q hq q' hpprev
    refine ⟨(h.mem_sortedByHeight addr).mpr ⟨q', hq', rfl⟩, ?_⟩
    rw [h.entry q hq, h.entry q' hq', loadedEntry_nHeight, loadedEntry_nHeight,
      CBlockIndex.nHeight_of_pprev hpprev]
    omega

/-! ### The best chain -/

theorem registerChain_succ (h : Loaded env st map m) (hp : p ∈ map) (fuel : Nat)
    (v : List (Option Uint256)) : m.registerChain (fuel + 1) (some (p.hash env)) v =
      m.registerChain fuel (p.pprev.map (CBlockIndex.hash env))
        (v.set p.nHeight (some (p.hash env))) := by
  rw [LoadedMap.registerChain, h.entry p hp, loadedEntry_pprev, loadedEntry_nHeight,
    Int.toNat_natCast]

/-- The loop that registers the chain of a block. -/
theorem registerChain (h : Loaded env st map m) (hlinked : Linked env map) (fuel : Nat)
    (v : List (Option Uint256)) (hp : p ∈ map) (hfuel : p.nHeight < fuel)
    (hlen : p.nHeight < v.length) :
    ∃ v', m.registerChain fuel (some (p.hash env)) v = .ok v' ∧ v'.length = v.length ∧
      (∀ a ∈ p.ancestors, v'[a.nHeight]? = some (some (a.hash env))) ∧
      ∀ i, p.nHeight < i → v'[i]? = v[i]? := by
  induction p generalizing fuel v with
  | root block pos =>
    obtain ⟨fuel, rfl⟩ := Nat.exists_eq_succ_of_ne_zero (Nat.ne_zero_of_lt hfuel)
    rw [h.registerChain_succ hp]
    refine ⟨_, by cases fuel <;> rfl, List.length_set, fun a ha => ?_,
      fun i hi => List.getElem?_set_ne hi.ne⟩
    rw [List.mem_singleton.mp ha]
    exact List.getElem?_set_self hlen
  | next pprev block pos ih =>
    obtain ⟨fuel, rfl⟩ := Nat.exists_eq_succ_of_ne_zero (Nat.ne_zero_of_lt hfuel)
    rw [CBlockIndex.nHeight] at hfuel hlen
    obtain ⟨v', hrun, hlen', hslots, habove⟩ := ih fuel
      (v.set (pprev.nHeight + 1) (some (CBlockIndex.hash env (.next pprev block pos))))
      (hlinked.parent _ hp pprev rfl) (Nat.lt_of_succ_lt_succ hfuel)
        (by rw [List.length_set]; omega)
    refine ⟨v', (h.registerChain_succ hp fuel v).trans hrun, hlen'.trans List.length_set,
      fun a ha => ?_, fun i hi => ?_⟩
    · rcases List.mem_cons.mp ha with rfl | ha
      · rw [CBlockIndex.nHeight, habove _ (Nat.lt_succ_self _)]
        exact List.getElem?_set_self hlen
      · exact hslots a ha
    · rw [CBlockIndex.nHeight] at hi
      rw [habove i (by omega)]
      exact List.getElem?_set_ne hi.ne

/-- There are more entries than blocks below one. -/
theorem nHeight_lt (h : Loaded env st map m) (hlinked : Linked env map) (hp : p ∈ map) :
    p.nHeight < m.keys.length := by
  have hnodup : (p.ancestors.map (CBlockIndex.hash env)).Nodup := by
    refine List.Nodup.map_on (fun a ha b hb heq => ?_)
      ((CBlockIndex.ancestors_sorted p).imp fun hlt heq => by rw [heq] at hlt; omega)
    exact hlinked.hash_inj a (hlinked.ancestors_mem hp a ha) b (hlinked.ancestors_mem hp b hb) heq
  have hsub : p.ancestors.map (CBlockIndex.hash env) ⊆ m.keys := by
    intro k hk
    obtain ⟨a, ha, rfl⟩ := List.mem_map.mp hk
    exact (h.keys _).mpr ⟨a, hlinked.ancestors_mem hp a ha, rfl⟩
  have hle := (hnodup.subperm hsub).length_le
  rw [List.length_map, CBlockIndex.length_ancestors] at hle
  omega

end Loaded

/-! ## Restart -/

/-- The same entries, sums, marks and candidates. -/
structure Reloads (env : Env) (s : ChainState) (r : LoadedIndex) : Prop where
  keys : ∀ h, h ∈ r.keys ↔ ∃ p ∈ s.mapBlockIndex, p.hash env = h
  pprev : ∀ p ∈ s.mapBlockIndex,
    (r.entry (p.hash env)).pprev = p.pprev.map (CBlockIndex.hash env)
  nHeight : ∀ p ∈ s.mapBlockIndex, (r.entry (p.hash env)).nHeight = p.nHeight
  nStatus : ∀ p ∈ s.mapBlockIndex, (r.entry (p.hash env)).nStatus = s.nStatus p
  sums : ∀ p ∈ s.mapBlockIndex, r.sums (p.hash env) = (p.nChainWork, p.nChainTx)
  candidates : ∀ h, h ∈ r.setBlockIndexValid ↔ ∃ p ∈ s.setBlockIndexValid, p.hash env = h

theorem blockRecords_eq (h : IndexOK s) :
    blockRecords env s = s.mapBlockIndex.map fun p => .ofIndex env p (s.nStatus p) := by
  rw [blockRecords, ← List.filterMap_eq_map]
  refine List.filterMap_congr fun p hp => ?_
  rw [h.stored p hp]
  rfl

theorem Loaded.reloads {r : LoadedIndex} (hindex : IndexOK s)
    (hlinked : Linked env s.mapBlockIndex) (h : Loaded env s.nStatus s.mapBlockIndex r.toLoadedMap)
    (addr : Uint256 → Nat) (table : Uint256 → Nat × Nat)
    (hsums : r.sums = Fill.fill (fun k => (r.entry k).pprev) r.chainSums table
      (r.sortedByHeight addr))
    (hcands : r.setBlockIndexValid = (r.sortedByHeight addr).filter fun k =>
      LoadedMap.isCandidate (r.entry k)) : Reloads env s r where
  keys := h.keys
  pprev p hp := by rw [h.entry p hp, loadedEntry_pprev]
  nHeight p hp := by rw [h.entry p hp, loadedEntry_nHeight]
  nStatus p hp := by rw [h.entry p hp, loadedEntry_nStatus]
  sums p hp := by rw [hsums, h.sums hlinked addr table hp]
  candidates k := by
    have hcand : ∀ p ∈ s.mapBlockIndex,
        (LoadedMap.isCandidate (r.entry (p.hash env)) = true ↔ p ∈ s.setBlockIndexValid) := by
      intro p hp
      have hlevel := hindex.level p hp
      rw [h.entry p hp, LoadedMap.isCandidate, loadedEntry_nStatus, hindex.cands]
      simp [hlevel, hp]
    rw [hcands, List.mem_filter, h.mem_sortedByHeight]
    constructor
    · rintro ⟨⟨p, hp, rfl⟩, hfilter⟩
      exact ⟨p, (hcand p hp).mp hfilter, rfl⟩
    · rintro ⟨p, hp, rfl⟩
      have hmem := ((hindex.cands p).mp hp).1
      exact ⟨⟨p, hmem, rfl⟩, (hcand p hmem).mpr hp⟩

theorem Loaded.bestChain (h : Loaded env st map m) (hlinked : Linked env map)
    {best : Option CBlockIndex} (hbest : ∀ p, best = some p → p ∈ map) :
    m.registerChain (m.keys.length + 1) (best.map (CBlockIndex.hash env))
        (((best.map (CBlockIndex.hash env)).map fun hash =>
          List.replicate ((m.entry hash).nHeight.toNat + 1) none).getD []) =
      .ok ((CBlockIndex.ancestorsOf best).reverse.map fun a => some (a.hash env)) := by
  cases best with
  | none => rfl
  | some p =>
    have hp := hbest p rfl
    have hheight := h.nHeight_lt hlinked hp
    simp only [Option.map_some, Option.getD_some]
    rw [h.entry p hp, loadedEntry_nHeight, Int.toNat_natCast]
    obtain ⟨v, hrun, hlen, hslots, -⟩ := h.registerChain hlinked (m.keys.length + 1)
      (List.replicate (p.nHeight + 1) none) hp (by omega) (by simp)
    rw [hrun, CBlockIndex.eq_reverse_ancestors (by simpa using hlen) hslots]
    rfl

/-- Loading gives back the index and registers the chain of the stored best block. -/
theorem loadBlockIndexDB_reloads (hindex : IndexOK s)
    (hlinked : Linked env s.mapBlockIndex) (hne : ∀ p ∈ s.mapBlockIndex, p.hash env ≠ 0)
    (addr : Uint256 → Nat)
    (hrecords : records.Perm (blockRecords env s)) {best : Option CBlockIndex}
    (hbest : ∀ p, best = some p → p ∈ s.mapBlockIndex) :
    ∃ r, loadBlockIndexDB env addr records (best.map (CBlockIndex.hash env)) = .ok r ∧
      Reloads env s r ∧ r.vBlockIndexByHeight =
        (CBlockIndex.ancestorsOf best).reverse.map fun a => some (a.hash env) := by
  rw [blockRecords_eq hindex] at hrecords
  have hmem : ∀ r, r ∈ records ↔ ∃ p ∈ s.mapBlockIndex, .ofIndex env p (s.nStatus p) = r :=
    fun r => hrecords.mem_iff.trans List.mem_map
  have hstart : Loads env s.nStatus s.mapBlockIndex {} fun _ => False :=
    ⟨List.nodup_nil, nofun, fun _ _ hdone => hdone.elim⟩
  obtain ⟨m, hguts, hloads⟩ := hstart.loadBlockIndexGuts hlinked hne fun r hr => by
    obtain ⟨p, hp, heq⟩ := (hmem r).mp hr
    exact ⟨p, hp, heq.symm⟩
  have hloaded := hloads.toLoaded fun p hp => .inr ((hmem _).mpr ⟨p, hp, rfl⟩)
  refine ⟨{ m with
      sums := Fill.fill (fun k => (m.entry k).pprev) m.chainSums (fun _ => (0, 0))
        (m.sortedByHeight addr)
      setBlockIndexValid := (m.sortedByHeight addr).filter fun k =>
        LoadedMap.isCandidate (m.entry k)
      vBlockIndexByHeight := (CBlockIndex.ancestorsOf best).reverse.map fun a =>
        some (a.hash env) },
    ?_, hloaded.reloads hindex hlinked addr _ rfl rfl, rfl⟩
  simp only [loadBlockIndexDB, hguts, hloaded.bestChain hlinked hbest]

/-- Loading after a run gives back the index, and the main chain when the stored best block is the
tip. -/
theorem loadBlockIndexDB_eq {s : ChainState} {ok : ChainState → CBlock × CDiskBlockPos → Prop}
    (h : (entrySystem env).Reach ok s) (hne : ∀ p ∈ s.mapBlockIndex, p.hash env ≠ 0)
    (addr : Uint256 → Nat) {records : List CDiskBlockIndex}
    (hrecords : records.Perm (blockRecords env s)) (best : Option CBlockIndex)
    (hbest : ∀ p, best = some p → p ∈ s.mapBlockIndex) :
    ∃ r, loadBlockIndexDB env addr records (best.map (CBlockIndex.hash env)) = .ok r ∧
      Reloads env s r ∧ (best = s.pindexBest → r.vBlockIndexByHeight =
        s.vBlockIndexByHeight.map (Option.map (CBlockIndex.hash env))) := by
  obtain ⟨hindex, inv⟩ := settled_of_reach h
  obtain ⟨r, hload, hreloads, hchain⟩ :=
    loadBlockIndexDB_reloads hindex inv.linked hne addr hrecords hbest
  refine ⟨r, hload, hreloads, fun htip => ?_⟩
  rw [hchain, inv.chain, inv.tip, ← htip, List.map_map]
  rfl

end Loading

/-- A chain of three blocks and a block beside it. -/
theorem loadBlockIndexDB_branch :
    ∃ s r, s.mapBlockIndex.length = 4 ∧
      loadBlockIndexDB smallTestNet (fun _ => 0) (blockRecords smallTestNet s)
        (s.pindexBest.map (CBlockIndex.hash smallTestNet)) = .ok r ∧
      Reloads smallTestNet s r ∧ r.vBlockIndexByHeight =
        s.vBlockIndexByHeight.map (Option.map (CBlockIndex.hash smallTestNet)) := by
  have hfacts : ((addState smallTestNet (fun s a => decide (Placed smallTestNet s a.1))
      (easyBranch ++ [hardBlock])).any fun s => s.mapBlockIndex.length == 4 &&
        s.mapBlockIndex.all (fun p => p.hash smallTestNet != 0) &&
        s.pindexBest.all fun p => s.mapBlockIndex.contains p) = true := by
    decide +kernel
  rw [Option.any_eq_true] at hfacts
  obtain ⟨s, hs, hfacts⟩ := hfacts
  simp only [Bool.and_eq_true, beq_iff_eq, List.all_eq_true, bne_iff_ne, ne_eq,
    Option.all_eq_true, List.contains_iff_mem] at hfacts
  obtain ⟨⟨hlen, hne⟩, hbest⟩ := hfacts
  have hreach := reach_entry (reach_addState (fun _ _ => of_decide_eq_true) hs)
  obtain ⟨r, hload, hreloads, hchain⟩ := loadBlockIndexDB_eq hreach hne (fun _ => 0)
    (List.Perm.refl _) s.pindexBest fun p hp => hbest p hp
  exact ⟨s, r, hlen, hload, hreloads, hchain rfl⟩

end CoMoNet
