import CoMoNet.Chain.Arrival

/-!
# Block locators

A locator has the first 12 blocks from the tip down, then steps that double, and the
genesis block. So the block found is at most twice as far down as the last common one.
-/

namespace CoMoNet

/-- `CBlockLocator`. -/
structure CBlockLocator where
  /-- The hashes, the highest block first. -/
  vHave : List Uint256
deriving DecidableEq, Repr

/-- The inner loop of `Set`: `nStep` times to the parent. -/
def CBlockIndex.stepBack : Nat → Option CBlockIndex → Option CBlockIndex
  | 0, pindex => pindex
  | _ + 1, none => none
  | nStep + 1, some pindex => stepBack nStep pindex.pprev

namespace CBlockLocator

/-- The loop of `Set`; `none` without fuel. The step is not used again beyond the range of
heights. -/
def setLoop (env : Env) : Nat → Option CBlockIndex → Nat → List Uint256 → Option (List Uint256)
  | _, none, _, vHave => some vHave
  | 0, some _, _, _ => none
  | fuel + 1, some pindex, nStep, vHave =>
    let vHave := vHave ++ [env.blockHash pindex.block]
    setLoop env fuel (CBlockIndex.stepBack nStep (some pindex))
      (if vHave.length > 10 then nStep * 2 else nStep) vHave

/-- `Set`. -/
def set (env : Env) (fuel : Nat) (pindex : Option CBlockIndex) : Option CBlockLocator :=
  (setLoop env fuel pindex 1 []).map fun vHave => ⟨vHave ++ [env.hashGenesisBlock]⟩

/-- The body of the loop of `GetBlockIndex`: the block of a hash in the main chain. -/
def mainBlock (env : Env) (s : ChainState) (hash : Uint256) : Option CBlockIndex :=
  (s.findBlockIndex env hash).filter s.isInMainChain

/-- `GetBlockIndex`. -/
def getBlockIndex (env : Env) (s : ChainState) (pindexGenesisBlock : Option CBlockIndex)
    (locator : CBlockLocator) : Option CBlockIndex :=
  (locator.vHave.findSome? (mainBlock env s)).or pindexGenesisBlock

/-! ## The distances -/

/-- How far below the tip an entry is, by the number of entries before it. -/
def distance : Nat → Nat
  | 0 => 0
  | k + 1 => distance k + 2 ^ (k - 10)

theorem distance_of_le {k : Nat} (h : k ≤ 11) : distance k = k := by
  revert h k
  decide

theorem distance_add (j : Nat) : distance (10 + j) = 9 + 2 ^ j := by
  induction j with
  | zero => rfl
  | succ j ih =>
    rw [← Nat.add_assoc, distance, ih, Nat.add_sub_cancel_left, Nat.pow_succ]
    omega

theorem distance_lt_succ (k : Nat) : distance k < distance (k + 1) :=
  Nat.lt_add_of_pos_right (Nat.pow_pos (by omega))

theorem distance_strictMono : StrictMono distance := strictMono_nat_of_lt_succ distance_lt_succ

/-- The first distance that is not below `d`. -/
theorem distance_first {k d : Nat} (hbelow : ∀ j < k, distance j < d) (hk : d ≤ distance k) :
    (d ≤ 11 → distance k = d) ∧ distance k ≤ 2 * d := by
  by_cases hd : d ≤ 11
  · have hkd : k ≤ d := Nat.le_of_not_lt fun hlt => by
      have := hbelow d hlt
      rw [distance_of_le hd] at this
      exact Nat.lt_irrefl d this
    rw [distance_of_le (hkd.trans hd)] at hk ⊢
    omega
  · refine ⟨fun h => absurd h hd, ?_⟩
    have hk11 : 11 < k := Nat.lt_of_not_le fun hle => by
      rw [distance_of_le hle] at hk
      omega
    obtain ⟨j, rfl⟩ := Nat.exists_eq_add_of_lt hk11
    have hlast := hbelow (10 + (j + 1)) (by omega)
    have hpow : 2 ^ (j + 2) = 2 * 2 ^ (j + 1) := Nat.pow_succ'
    rw [distance_add] at hlast
    rw [show 11 + j + 1 = 10 + (j + 2) by omega, distance_add, hpow]
    omega

end CBlockLocator

/-! ## The entries -/

namespace CBlockIndex

theorem nHeight_rootOf : ∀ p : CBlockIndex, p.rootOf.nHeight = 0
  | .root .. => rfl
  | .next pprev .. => nHeight_rootOf pprev

theorem getElem?_ancestors_nHeight {p a : CBlockIndex} {i : Nat} (h : p.ancestors[i]? = some a) :
    a.nHeight + i = p.nHeight := by
  induction p generalizing i with
  | root block pos =>
    cases i with
    | zero => cases h; rfl
    | succ i => simp [ancestors] at h
  | next pprev block pos ih =>
    cases i with
    | zero => cases h; rfl
    | succ i =>
      have := ih (by simpa [ancestors] using h)
      rw [nHeight]
      omega

theorem getElem?_ancestors_succ (p : CBlockIndex) (i : Nat) :
    p.ancestors[i + 1]? = (p.ancestors[i]?).bind pprev := by
  induction p generalizing i with
  | root block pos => cases i <;> rfl
  | next parent block pos ih =>
    cases i with
    | zero =>
      rw [ancestors, List.getElem?_cons_succ, ancestors_eq parent]
      rfl
    | succ i =>
      rw [ancestors, List.getElem?_cons_succ, List.getElem?_cons_succ]
      exact ih i

theorem stepBack_ancestors (p : CBlockIndex) (n i : Nat) :
    stepBack n p.ancestors[i]? = p.ancestors[i + n]? := by
  induction n generalizing i with
  | zero => rfl
  | succ n ih =>
    have hsucc := getElem?_ancestors_succ p i
    rw [show i + (n + 1) = i + 1 + n by omega, ← ih (i + 1), hsucc]
    cases p.ancestors[i]? with
    | none => cases n <;> rfl
    | some a => rfl

end CBlockIndex

namespace CBlockLocator

theorem setLoop_end (env : Env) (p : CBlockIndex) {fuel nStep : Nat} {vHave : List Uint256}
    (hget : p.ancestors[distance vHave.length]? = none) :
    setLoop env fuel p.ancestors[distance vHave.length]? nStep vHave = some vHave ∧
      ∀ j, p.ancestors[distance (vHave.length + j)]? = none := by
  refine ⟨by rw [hget, setLoop], fun j => ?_⟩
  have hle := distance_strictMono.monotone (Nat.le_add_right vHave.length j)
  exact List.getElem?_eq_none ((List.getElem?_eq_none_iff.mp hget).trans hle)

theorem setLoop_spec (env : Env) (p : CBlockIndex) (fuel : Nat) (vHave : List Uint256)
    (hfuel : p.nHeight < distance vHave.length + fuel) :
    ∃ blocks : List CBlockIndex,
      setLoop env fuel p.ancestors[distance vHave.length]? (2 ^ (vHave.length - 10)) vHave =
        some (vHave ++ blocks.map fun a => env.blockHash a.block) ∧
      ∀ j, blocks[j]? = p.ancestors[distance (vHave.length + j)]? := by
  induction fuel generalizing vHave with
  | zero =>
    have hget : p.ancestors[distance vHave.length]? = none := by
      rw [List.getElem?_eq_none_iff, CBlockIndex.length_ancestors]
      omega
    obtain ⟨hloop, hnone⟩ := setLoop_end env p hget
    exact ⟨[], by rw [hloop, List.map_nil, List.append_nil], fun j => (hnone j).symm⟩
  | succ fuel ih =>
    cases hget : p.ancestors[distance vHave.length]? with
    | none =>
      obtain ⟨hloop, hnone⟩ := setLoop_end env p hget
      rw [hget] at hloop
      exact ⟨[], by rw [hloop, List.map_nil, List.append_nil], fun j => (hnone j).symm⟩
    | some a =>
      have hlen : (vHave ++ [env.blockHash a.block]).length = vHave.length + 1 := by simp
      have hstep : (if (vHave ++ [env.blockHash a.block]).length > 10
          then 2 ^ (vHave.length - 10) * 2 else 2 ^ (vHave.length - 10)) =
          2 ^ ((vHave ++ [env.blockHash a.block]).length - 10) := by
        rw [hlen]
        split
        · rw [show vHave.length + 1 - 10 = vHave.length - 10 + 1 by omega, Nat.pow_succ]
        · rw [show vHave.length + 1 - 10 = vHave.length - 10 by omega]
      obtain ⟨blocks, hloop, hblocks⟩ := ih (vHave ++ [env.blockHash a.block]) (by
        have := distance_lt_succ vHave.length
        rw [hlen]
        omega)
      refine ⟨a :: blocks, ?_, fun j => ?_⟩
      · rw [setLoop, hstep, ← hget, CBlockIndex.stepBack_ancestors]
        rw [hlen, distance] at hloop
        rw [hlen, hloop, List.map_cons, List.append_assoc, List.singleton_append]
      · cases j with
        | zero => exact hget.symm
        | succ j =>
          rw [List.getElem?_cons_succ, hblocks, hlen, Nat.add_right_comm, Nat.add_assoc]

theorem set_spec (env : Env) (p : CBlockIndex) :
    ∃ blocks : List CBlockIndex, (∀ j, blocks[j]? = p.ancestors[distance j]?) ∧
      ∀ fuel, p.nHeight < fuel → set env fuel (some p) =
        some ⟨(blocks.map fun a => env.blockHash a.block) ++ [env.hashGenesisBlock]⟩ := by
  obtain ⟨blocks, -, hblocks⟩ := setLoop_spec env p (p.nHeight + 1) [] (by simp [distance])
  simp only [List.length_nil, Nat.zero_add] at hblocks
  refine ⟨blocks, hblocks, fun fuel hfuel => ?_⟩
  obtain ⟨blocks', hloop, hblocks'⟩ := setLoop_spec env p fuel [] (by simpa [distance])
  have hsame : blocks' = blocks := List.ext_getElem? fun j => by
    rw [hblocks', hblocks, List.length_nil, Nat.zero_add]
  have hfirst : p.ancestors[distance 0]? = some p := by
    rw [CBlockIndex.ancestors_eq]
    rfl
  rw [hsame, List.length_nil, hfirst, Nat.zero_sub, Nat.pow_zero] at hloop
  rw [set, hloop]
  rfl

/-! ## Looking the entries up -/

/-- The main chain has exactly the blocks of the chain of `p` up to height `h`, by hash. -/
structure SharesUpTo (env : Env) (s : ChainState) (p : CBlockIndex) (h : Nat) : Prop where
  /-- The last common block is in the chain of `p`. -/
  le : h ≤ p.nHeight
  common : ∀ a ∈ p.ancestors, (∃ q ∈ CBlockIndex.ancestorsOf s.coinsTip,
    env.blockHash q.block = env.blockHash a.block) ↔ a.nHeight ≤ h

variable {env : Env} {s : ChainState}

theorem mainBlock_eq_some_iff (inv : ChainInv env s) {hash : Uint256} {q : CBlockIndex} :
    mainBlock env s hash = some q ↔
      q ∈ CBlockIndex.ancestorsOf s.coinsTip ∧ env.blockHash q.block = hash := by
  rw [mainBlock, Option.filter_eq_some_iff, inv.isInMainChain_iff]
  constructor
  · rintro ⟨hfind, hmain⟩
    exact ⟨hmain, (findBlockIndex_some hfind).2⟩
  · rintro ⟨hmain, rfl⟩
    exact ⟨inv.tree.find_hash (inv.ancestorsOf_mem q hmain), hmain⟩

theorem SharesUpTo.mainBlock_isSome_iff {p a : CBlockIndex} {h : Nat} (inv : ChainInv env s)
    (shares : SharesUpTo env s p h) (ha : a ∈ p.ancestors) :
    (mainBlock env s (env.blockHash a.block)).isSome = true ↔ a.nHeight ≤ h := by
  rw [← shares.common a ha, Option.isSome_iff_exists]
  simp only [mainBlock_eq_some_iff inv]

/-- Entries not found are above the last common block; the next is the first that is not. -/
theorem SharesUpTo.distance_first {p : CBlockIndex} {h k : Nat} {blocks : List CBlockIndex}
    (inv : ChainInv env s) (shares : SharesUpTo env s p h)
    (hblocks : ∀ j, blocks[j]? = p.ancestors[distance j]?) (hk : k ≤ blocks.length)
    (hmiss : ∀ j < k, ∀ a, blocks[j]? = some a → mainBlock env s (env.blockHash a.block) = none)
    (hreach : p.nHeight - h ≤ distance k) :
    (p.nHeight - h ≤ 11 → distance k = p.nHeight - h) ∧ distance k ≤ 2 * (p.nHeight - h) := by
  refine CBlockLocator.distance_first (fun j hj => ?_) hreach
  obtain ⟨a, hget⟩ : ∃ a, blocks[j]? = some a :=
    ⟨_, List.getElem?_eq_getElem (Nat.lt_of_lt_of_le hj hk)⟩
  have hnone := hmiss j hj a hget
  rw [hblocks] at hget
  have habove : ¬a.nHeight ≤ h := fun hle => by
    have := (shares.mainBlock_isSome_iff inv (List.mem_of_getElem? hget)).mpr hle
    rw [hnone] at this
    cases this
  have := CBlockIndex.getElem?_ancestors_nHeight hget
  omega

/-- A common block is found, beyond 11 blocks at most twice as far down as the last. -/
theorem SharesUpTo.getBlockIndex {p : CBlockIndex} {h : Nat} {blocks : List CBlockIndex}
    (inv : ChainInv env s) (shares : SharesUpTo env s p h)
    (hroot : p.rootOf.block = env.genesisBlock)
    (hblocks : ∀ j, blocks[j]? = p.ancestors[distance j]?)
    (pindexGenesisBlock : Option CBlockIndex) :
    ∃ q ∈ CBlockIndex.ancestorsOf s.coinsTip, ∃ a ∈ p.ancestors,
      getBlockIndex env s pindexGenesisBlock
        ⟨(blocks.map fun a => env.blockHash a.block) ++ [env.hashGenesisBlock]⟩ = some q ∧
      env.blockHash q.block = env.blockHash a.block ∧
      (p.nHeight - h ≤ 11 → p.nHeight - a.nHeight = p.nHeight - h) ∧
      p.nHeight - a.nHeight ≤ 2 * (p.nHeight - h) := by
  rw [CBlockLocator.getBlockIndex, List.findSome?_append, List.findSome?_map]
  cases hfind : blocks.findSome? (mainBlock env s ∘ fun a => env.blockHash a.block) with
  | some q =>
    obtain ⟨before, a, after, rfl, hq, hbefore⟩ := List.findSome?_eq_some_iff.mp hfind
    obtain ⟨hmain, hhash⟩ := (mainBlock_eq_some_iff inv).mp hq
    have hget : p.ancestors[distance before.length]? = some a := by
      rw [← hblocks]
      simp
    have ha := List.mem_of_getElem? hget
    have hlow := (shares.common a ha).mp ⟨q, hmain, hhash⟩
    have hheight := CBlockIndex.getElem?_ancestors_nHeight hget
    have hk : before.length ≤ (before ++ a :: after).length := by simp
    obtain ⟨hnear, hfar⟩ := shares.distance_first inv hblocks hk (fun j hj x hx =>
      hbefore x (List.mem_of_getElem? (by rwa [List.getElem?_append_left hj] at hx))) (by omega)
    refine ⟨q, hmain, a, ha, by simp, hhash, fun hd => ?_, ?_⟩
    · have := hnear hd
      omega
    · omega
  | none =>
    have hmiss := List.findSome?_eq_none_iff.mp hfind
    have hend : p.ancestors[distance blocks.length]? = none := by
      rw [← hblocks, List.getElem?_eq_none_iff]
    rw [List.getElem?_eq_none_iff, CBlockIndex.length_ancestors] at hend
    obtain ⟨hnear, hfar⟩ := shares.distance_first inv hblocks (Nat.le_refl _) (fun j _ x hx =>
      hmiss x (List.mem_of_getElem? hx)) (by omega)
    have hzero := p.nHeight_rootOf
    obtain ⟨q, hmain, hhash⟩ := (shares.common _ p.rootOf_mem_ancestors).mpr (by omega)
    have hgenesis : mainBlock env s env.hashGenesisBlock = some q :=
      (mainBlock_eq_some_iff inv).mpr ⟨hmain, by rw [hhash, hroot, Env.hashGenesisBlock]⟩
    refine ⟨q, hmain, p.rootOf, p.rootOf_mem_ancestors, by simp [hgenesis], hhash, fun hd => ?_, ?_⟩
    · have := hnear hd
      omega
    · omega

end CBlockLocator

/-- `Set` ends with ancestors of decreasing height and the genesis hash. A node sharing the chain
up to some height finds the last common block within 11 blocks, or one at most twice as far
down. -/
theorem locator_finds_common {env : Env} {p : CBlockIndex}
    (hroot : p.rootOf.block = env.genesisBlock) :
    ∃ blocks : List CBlockIndex, (∀ a ∈ blocks, a ∈ p.ancestors) ∧
      (blocks.Pairwise fun a b => b.nHeight < a.nHeight) ∧
      ∀ fuel, p.nHeight < fuel → ∃ locator, CBlockLocator.set env fuel (some p) = some locator ∧
        locator.vHave = (blocks.map fun a => env.blockHash a.block) ++ [env.hashGenesisBlock] ∧
        ∀ s pindexGenesisBlock h, Reachable env s → CBlockLocator.SharesUpTo env s p h →
          ∃ q ∈ CBlockIndex.ancestorsOf s.coinsTip, ∃ a ∈ p.ancestors,
            locator.getBlockIndex env s pindexGenesisBlock = some q ∧
            env.blockHash q.block = env.blockHash a.block ∧
            (p.nHeight - h ≤ 11 → p.nHeight - a.nHeight = p.nHeight - h) ∧
            p.nHeight - a.nHeight ≤ 2 * (p.nHeight - h) := by
  obtain ⟨blocks, hblocks, hset⟩ := CBlockLocator.set_spec env p
  refine ⟨blocks, fun a ha => ?_, ?_, fun fuel hfuel => ⟨_, hset fuel hfuel, rfl, ?_⟩⟩
  · obtain ⟨j, hj⟩ := List.mem_iff_getElem?.mp ha
    rw [hblocks] at hj
    exact List.mem_of_getElem? hj
  · rw [List.pairwise_iff_getElem]
    intro i j hi hj hij
    have hdist := CBlockLocator.distance_strictMono hij
    have hgeti := CBlockIndex.getElem?_ancestors_nHeight ((hblocks i).symm.trans
      (List.getElem?_eq_getElem hi))
    have hgetj := CBlockIndex.getElem?_ancestors_nHeight ((hblocks j).symm.trans
      (List.getElem?_eq_getElem hj))
    omega
  · intro s pindexGenesisBlock h hreach shares
    exact shares.getBlockIndex hreach.inv hroot hblocks pindexGenesisBlock

/-- A chain of small blocks. -/
def tallIndex : Nat → CBlockIndex
  | 0 => smallGenesis
  | k + 1 => smallIndex (tallIndex k) (smallBlock (tallIndex k).block (k + 1) [])

/-- A node with the genesis block. -/
def genesisOnly : ChainState := stateAfter smallNet (fun _ _ => true) (arrive smallGenesis)

/-- A chain of 14 blocks, of which the other node has none. -/
theorem locator_finds_genesis :
    ∃ locator q a, CBlockLocator.set smallNet 15 (some (tallIndex 14)) = some locator ∧
      a ∈ (tallIndex 14).ancestors ∧ locator.getBlockIndex smallNet genesisOnly none = some q ∧
      smallNet.blockHash q.block = smallNet.blockHash a.block ∧
      (tallIndex 14).nHeight - a.nHeight ≤ 2 * 14 := by
  obtain ⟨hrun, hshares⟩ :
      (runLabels smallNet (fun _ _ => true) {} (arrive smallGenesis)).isSome = true ∧
      ∀ a ∈ (tallIndex 14).ancestors, (∃ q ∈ CBlockIndex.ancestorsOf genesisOnly.coinsTip,
        smallNet.blockHash q.block = smallNet.blockHash a.block) ↔ a.nHeight ≤ 0 := by
    decide +kernel
  obtain ⟨blocks, -, -, hlocator⟩ := @locator_finds_common smallNet (tallIndex 14) rfl
  obtain ⟨locator, hset, -, hfind⟩ := hlocator 15 (by decide)
  obtain ⟨q, -, a, ha, hget, hhash, -, hfar⟩ := hfind genesisOnly none 0
    (reach_stateAfter (fun _ _ _ => trivial) hrun) ⟨Nat.zero_le _, hshares⟩
  exact ⟨locator, q, a, hset, ha, hget, hhash, hfar⟩

end CoMoNet
