import CoMoNet.Lib.Merkle
import CoMoNet.Mining.Valid

/-!
# The Merkle tree of a block

`BuildMerkleTree` keeps the rows of the tree in one array (`merkleRows_eq`). A branch
read from it always verifies, and a root has one list of transactions.
-/

namespace CoMoNet

open Merkle (level row rows width IsHeight)

/-! ## BuildMerkleTree -/

/-- The nodes the inner loop appends for the row of size `nSize` at offset `j`. -/
def merkleRow (env : Env) (vMerkleTree : List Uint256) (j nSize : Nat) : List Uint256 :=
  (List.range ((nSize + 1) / 2)).map fun k =>
    let i := 2 * k
    let i2 := min (i + 1) (nSize - 1)
    env.pairHash (vMerkleTree.getD (j + i) 0) (vMerkleTree.getD (j + i2) 0)

/-- The outer loop, with a bound on its rounds. -/
def merkleRows (env : Env) : Nat → List Uint256 → Nat → Nat → List Uint256
  | 0, vMerkleTree, _, _ => vMerkleTree
  | rounds + 1, vMerkleTree, j, nSize =>
    if nSize > 1 then
      merkleRows env rounds (vMerkleTree ++ merkleRow env vMerkleTree j nSize) (j + nSize)
        ((nSize + 1) / 2)
    else vMerkleTree

/-- The array `BuildMerkleTree` leaves; there are no more rows than transactions. -/
def vMerkleTree (env : Env) (vtx : List CTransaction) : List Uint256 :=
  merkleRows env vtx.length (vtx.map env.txHash) 0 vtx.length

/-! ## Branches -/

/-- The loop of `GetMerkleBranch`. -/
def merkleBranch (vMerkleTree : List Uint256) : Nat → Nat → Nat → Nat → List Uint256
  | 0, _, _, _ => []
  | rounds + 1, j, nSize, nIndex =>
    if nSize > 1 then
      let i := min (nIndex ^^^ 1) (nSize - 1)
      vMerkleTree.getD (j + i) 0 ::
        merkleBranch vMerkleTree rounds (j + nSize) ((nSize + 1) / 2) (nIndex / 2)
    else []

/-- The loop of `CheckMerkleBranch`. -/
def climbBranch (env : Env) : Uint256 → List Uint256 → Int → Uint256
  | hash, [], _ => hash
  | hash, otherside :: vMerkleBranch, nIndex =>
    climbBranch env
      (if nIndex % 2 = 1 then env.pairHash otherside hash else env.pairHash hash otherside)
      vMerkleBranch (nIndex / 2)

/-- `CheckMerkleBranch`. -/
def checkMerkleBranch (env : Env) (hash : Uint256) (vMerkleBranch : List Uint256) (nIndex : Int) :
    Uint256 :=
  if nIndex = -1 then 0 else climbBranch env hash vMerkleBranch nIndex

/-- The transactions of a `CBlock` and the array kept in memory. -/
structure MerkleMemo where
  vtx : List CTransaction
  vMerkleTree : List Uint256 := []

namespace MerkleMemo

/-- `BuildMerkleTree`: the last element of the array, which it leaves behind. -/
def buildMerkleTree (env : Env) (block : MerkleMemo) : Uint256 × MerkleMemo :=
  let tree := CoMoNet.vMerkleTree env block.vtx
  (tree.getLast?.getD 0, { block with vMerkleTree := tree })

/-- `GetMerkleBranch`: an array that is there already is used as it is. -/
def getMerkleBranch (env : Env) (block : MerkleMemo) (nIndex : Nat) : List Uint256 × MerkleMemo :=
  let block := if block.vMerkleTree = [] then (block.buildMerkleTree env).2 else block
  (merkleBranch block.vMerkleTree block.vtx.length 0 block.vtx.length nIndex, block)

end MerkleMemo

/-! ## The array holds the rows -/

section Rows

variable {env : Env}

theorem merkleLevel_eq (env : Env) : ∀ l : List Uint256, merkleLevel env l = level env.pairHash l
  | [] => by simp [merkleLevel, level]
  | [a] => by simp [merkleLevel, level]
  | a :: b :: rest => by rw [merkleLevel, level, merkleLevel_eq env rest]

theorem getD_row {below r : List Uint256} {i : Nat} (h : i < r.length) :
    (below ++ r).getD (below.length + i) 0 = r[i] := by
  rw [List.getD_eq_getElem?_getD, List.getElem?_append_right (by omega), Nat.add_sub_cancel_left,
    List.getElem?_eq_getElem h, Option.getD_some]

theorem merkleRow_eq (env : Env) (below r : List Uint256) :
    merkleRow env (below ++ r) below.length r.length = level env.pairHash r := by
  apply List.ext_getElem?
  intro k
  rw [Merkle.level_getElem?, merkleRow, List.getElem?_map]
  rcases Nat.lt_or_ge (2 * k) r.length with hlt | hge
  · rw [List.getElem?_range (by omega), List.getElem?_eq_getElem hlt]
    simp only [Option.map_some, Option.some.injEq]
    rw [getD_row hlt]
    rcases Nat.lt_or_ge (2 * k + 1) r.length with hright | hlast
    · rw [show min (2 * k + 1) (r.length - 1) = 2 * k + 1 by omega, getD_row hright,
        List.getElem?_eq_getElem hright, Option.getD_some]
    · rw [show min (2 * k + 1) (r.length - 1) = 2 * k by omega, getD_row hlt,
        List.getElem?_eq_none hlast, Option.getD_none]
  · rw [List.getElem?_eq_none (by simp; omega), List.getElem?_eq_none hge]
    rfl

/-- The array is the rows of the tree. -/
theorem merkleRows_eq (env : Env) (rounds : Nat) (below r : List Uint256) :
    merkleRows env rounds (below ++ r) below.length r.length =
      below ++ rows env.pairHash rounds r := by
  induction rounds generalizing below r with
  | zero => rw [merkleRows, rows]
  | succ rounds ih =>
    rw [merkleRows, rows]
    split
    · have hlength := Merkle.length_level env.pairHash r
      have := ih (below ++ r) (level env.pairHash r)
      rw [List.length_append, hlength] at this
      rw [merkleRow_eq, this, List.append_assoc]
    · rfl

theorem vMerkleTree_eq (env : Env) (vtx : List CTransaction) :
    vMerkleTree env vtx = rows env.pairHash vtx.length (vtx.map env.txHash) := by
  have := merkleRows_eq env vtx.length [] (vtx.map env.txHash)
  rwa [List.nil_append, List.nil_append, List.length_nil, List.length_map] at this

theorem getLast?_rows {rounds : Nat} {r : List Uint256} (h : r.length ≤ rounds + 1) :
    (rows env.pairHash rounds r).getLast?.getD 0 = merkleRootFrom env rounds r := by
  induction rounds generalizing r with
  | zero =>
    match r with
    | [] => rfl
    | [a] => rfl
    | _ :: _ :: _ => simp at h
  | succ rounds ih =>
    match r with
    | [] => rfl
    | [a] => rfl
    | a :: b :: rest =>
      have hlength := Merkle.length_level env.pairHash (a :: b :: rest)
      simp only [List.length_cons] at h hlength
      rw [rows, if_pos (by simp), merkleRootFrom, merkleLevel_eq, ← ih (by omega),
        List.getLast?_append_of_ne_nil _ (Merkle.rows_ne_nil (Merkle.level_ne_nil (by simp)) _)]

/-- The last element of the array is the root of `CheckBlock`. -/
theorem back_vMerkleTree (env : Env) (vtx : List CTransaction) :
    (vMerkleTree env vtx).getLast?.getD 0 = buildMerkleTree env vtx := by
  rw [vMerkleTree_eq, getLast?_rows (by simp), buildMerkleTree]

end Rows

/-! ## Branches verify -/

section Branches

variable {env : Env}

theorem climbBranch_natCast (env : Env) (hash otherside : Uint256) (vMerkleBranch : List Uint256)
    (nIndex : Nat) : climbBranch env hash (otherside :: vMerkleBranch) nIndex =
      climbBranch env
        (if nIndex % 2 = 1 then env.pairHash otherside hash else env.pairHash hash otherside)
        vMerkleBranch ((nIndex / 2 : Nat) : Int) := by
  rw [climbBranch]
  congr 1
  by_cases hodd : nIndex % 2 = 1
  · rw [if_pos hodd, if_pos (by omega)]
  · rw [if_neg hodd, if_neg (by omega)]

/-- The branch read from the array leads from a node to the root. -/
theorem climbBranch_merkleBranch {rounds : Nat} {below r : List Uint256} {i : Nat} {hash : Uint256}
    (hrounds : r.length ≤ rounds + 1) (hi : r[i]? = some hash) :
    climbBranch env hash
        (merkleBranch (below ++ rows env.pairHash rounds r) rounds below.length r.length i) i =
      merkleRootFrom env rounds r := by
  induction rounds generalizing below r i hash with
  | zero =>
    obtain ⟨hlow, rfl⟩ := List.getElem?_eq_some_iff.mp hi
    obtain ⟨a, rfl⟩ := List.length_eq_one_iff.mp (by omega : r.length = 1)
    simp [merkleBranch, climbBranch, merkleRootFrom]
  | succ rounds ih =>
    rcases r with _ | ⟨a, _ | ⟨b, rest⟩⟩
    · simp at hi
    · obtain ⟨-, rfl⟩ := List.getElem?_eq_some_iff.mp hi
      simp [merkleBranch, climbBranch, merkleRootFrom]
    · generalize hr : a :: b :: rest = r at *
      have hlong : 1 < r.length := by
        rw [← hr]
        simp
      have hlength := Merkle.length_level env.pairHash r
      have hsibling : min (i ^^^ 1) (r.length - 1) < r.length := by omega
      have hread : (below ++ (r ++ rows env.pairHash rounds (level env.pairHash r))).getD
          (below.length + min (i ^^^ 1) (r.length - 1)) 0 = r[min (i ^^^ 1) (r.length - 1)] := by
        rw [getD_row (by rw [List.length_append]; omega), List.getElem_append_left hsibling]
      have hup : (level env.pairHash r)[i / 2]? = some _ :=
        Merkle.level_sibling hi (List.getElem?_eq_getElem hsibling)
      have hclimb := @ih (below ++ r) _ _ _ (by omega) hup
      rw [List.length_append, hlength, List.append_assoc] at hclimb
      rw [rows, if_pos hlong, merkleBranch, if_pos hlong]
      dsimp only
      rw [hread, climbBranch_natCast, hclimb, ← hr, merkleRootFrom, merkleLevel_eq]

/-- One hash leads to a root along a branch. -/
theorem climbBranch_injective (hinj : Function.Injective2 env.pairHash)
    {vMerkleBranch : List Uint256} {nIndex : Int} {hash hash' : Uint256}
    (h : climbBranch env hash vMerkleBranch nIndex = climbBranch env hash' vMerkleBranch nIndex) :
    hash = hash' := by
  induction vMerkleBranch generalizing nIndex hash hash' with
  | nil => exact h
  | cons otherside vMerkleBranch ih =>
    rw [climbBranch, climbBranch] at h
    have hstep := ih h
    split at hstep
    · exact (hinj hstep).2
    · exact (hinj hstep).1

namespace MerkleMemo

/-- The array is that of the transactions, if it is there. -/
def Current (env : Env) (block : MerkleMemo) : Prop :=
  block.vMerkleTree = [] ∨ block.vMerkleTree = CoMoNet.vMerkleTree env block.vtx

/-- A call on a block. -/
inductive Call where
  | buildMerkleTree
  | getMerkleBranch (nIndex : Nat)

/-- What it does to the block. -/
def call (env : Env) (block : MerkleMemo) : Call → MerkleMemo
  | .buildMerkleTree => (block.buildMerkleTree env).2
  | .getMerkleBranch nIndex => (block.getMerkleBranch env nIndex).2

variable {block : MerkleMemo}

/-- Calls keep the array current. -/
theorem Current.call (h : block.Current env) (c : Call) :
    (block.call env c).Current env ∧ (block.call env c).vtx = block.vtx := by
  cases c with
  | buildMerkleTree => exact ⟨.inr rfl, rfl⟩
  | getMerkleBranch nIndex =>
    rw [MerkleMemo.call, getMerkleBranch]
    dsimp only
    split
    · exact ⟨.inr rfl, rfl⟩
    · exact ⟨h, rfl⟩

theorem Current.calls (h : block.Current env) (calls : List Call) :
    (calls.foldl (MerkleMemo.call env) block).Current env ∧
      (calls.foldl (MerkleMemo.call env) block).vtx = block.vtx := by
  induction calls generalizing block with
  | nil => exact ⟨h, rfl⟩
  | cons c calls ih =>
    obtain ⟨hcurrent, hvtx⟩ := h.call c
    obtain ⟨hlast, hsame⟩ := ih hcurrent
    exact ⟨hlast, hsame.trans hvtx⟩

theorem Current.branch (h : block.Current env) (nIndex : Nat) :
    (block.getMerkleBranch env nIndex).1 = merkleBranch (CoMoNet.vMerkleTree env block.vtx)
      block.vtx.length 0 block.vtx.length nIndex := by
  rw [getMerkleBranch]
  dsimp only
  split
  · rfl
  · next hbuilt => rw [h.resolve_left hbuilt]

end MerkleMemo

/-- **Branches verify.** Whatever calls came before, a branch leads from its hash to the root, and
with an injective pair hash no other hash does. -/
theorem merkleBranch_verifies (env : Env) (vtx : List CTransaction) (calls : List MerkleMemo.Call)
    (i : Nat) (tx : CTransaction) (htx : vtx[i]? = some tx) :
    let block := calls.foldl (MerkleMemo.call env) ⟨vtx, []⟩
    checkMerkleBranch env (env.txHash tx) (block.getMerkleBranch env i).1 i =
        (block.buildMerkleTree env).1 ∧
      (Function.Injective2 env.pairHash → ∀ (vMerkleBranch : List Uint256) (nIndex : Nat)
        (hash hash' : Uint256), checkMerkleBranch env hash vMerkleBranch nIndex =
          checkMerkleBranch env hash' vMerkleBranch nIndex → hash = hash') := by
  have hempty : MerkleMemo.Current env ⟨vtx, []⟩ := .inl rfl
  obtain ⟨hcurrent, hvtx⟩ := hempty.calls calls
  intro block
  have hhash : (vtx.map env.txHash)[i]? = some (env.txHash tx) := by
    rw [List.getElem?_map, htx, Option.map_some]
  constructor
  · have hroot : (block.buildMerkleTree env).1 = buildMerkleTree env vtx := by
      rw [MerkleMemo.buildMerkleTree, hvtx]
      exact back_vMerkleTree env vtx
    have hclimb : climbBranch env (env.txHash tx)
        (merkleBranch ([] ++ rows env.pairHash vtx.length (vtx.map env.txHash)) vtx.length
          [].length (vtx.map env.txHash).length i) i = _ :=
      climbBranch_merkleBranch (by simp) hhash
    rw [List.length_map, List.length_nil, List.nil_append, ← vMerkleTree_eq] at hclimb
    rw [checkMerkleBranch, if_neg (by omega), hcurrent.branch, hvtx, hclimb, hroot, buildMerkleTree]
  · intro hinj vMerkleBranch nIndex hash hash' h
    rw [checkMerkleBranch, checkMerkleBranch, if_neg (by omega), if_neg (by omega)] at h
    exact climbBranch_injective hinj h

/-- The third of three transactions, whose leaf has no sibling, after two calls. -/
theorem merkleBranch_verifies_last :
    let vtx := [registration "alice" "a" 1, registration "bob" "b" 2, registration "carol" "c" 3]
    let block := [.getMerkleBranch 0, .buildMerkleTree].foldl (MerkleMemo.call smallNet) ⟨vtx, []⟩
    checkMerkleBranch smallNet 3 (block.getMerkleBranch smallNet 2).1 2 =
      (block.buildMerkleTree smallNet).1 :=
  (merkleBranch_verifies smallNet _ _ 2 (registration "carol" "c" 3) rfl).1

end Branches

/-! ## A root has one list of transactions -/

section Unique

variable {env : Env}

/-- The root is the only node of the row at the height of the tree. -/
theorem row_merkleRootFrom (env : Env) {rounds : Nat} {r : List Uint256} (hne : r ≠ [])
    (hrounds : r.length ≤ rounds + 1) :
    ∃ height, IsHeight r.length height ∧
      row env.pairHash r height = [merkleRootFrom env rounds r] := by
  induction rounds generalizing r with
  | zero =>
    match r with
    | [a] => exact ⟨0, Merkle.isHeight_one, rfl⟩
    | _ :: _ :: _ => simp at hrounds
  | succ rounds ih =>
    match r with
    | [a] => exact ⟨0, Merkle.isHeight_one, rfl⟩
    | a :: b :: rest =>
      have hlength := Merkle.length_level env.pairHash (a :: b :: rest)
      have hlevel : level env.pairHash (a :: b :: rest) ≠ [] := Merkle.level_ne_nil hne
      simp only [List.length_cons] at hrounds hlength
      obtain ⟨height, hheight, hrow⟩ := ih hlevel (by omega)
      rw [hlength] at hheight
      refine ⟨height + 1, hheight.succ (by simp), ?_⟩
      rw [Merkle.row_succ, hrow, merkleRootFrom, merkleLevel_eq]

theorem row_buildMerkleTree (env : Env) {vtx : List CTransaction} (hne : vtx ≠ []) :
    ∃ height, IsHeight vtx.length height ∧
      row env.pairHash (vtx.map env.txHash) height = [buildMerkleTree env vtx] := by
  have hmap : vtx.map env.txHash ≠ [] := by simpa using hne
  have hrounds : (vtx.map env.txHash).length ≤ vtx.length + 1 := by simp
  obtain ⟨height, hheight, hrow⟩ := row_merkleRootFrom env hmap hrounds
  rw [List.length_map] at hheight
  exact ⟨height, hheight, hrow⟩

/-- **A root has one list of transactions.** If hashes are injective and no transaction hashes to
the hash of a pair, two lists without equal hashes and with one root are equal. -/
theorem merkleRoot_unique (htx : Function.Injective env.txHash)
    (hpair : Function.Injective2 env.pairHash) (hrange : ∀ tx a b, env.txHash tx ≠ env.pairHash a b)
    (vtx vtx' : List CTransaction) (hne : vtx ≠ []) (hne' : vtx' ≠ [])
    (hids : (vtx.map env.txHash).dedup.length = vtx.length)
    (hids' : (vtx'.map env.txHash).dedup.length = vtx'.length)
    (hroot : buildMerkleTree env vtx = buildMerkleTree env vtx') : vtx = vtx' := by
  have hleaf : ∀ vtx : List CTransaction, ∀ hash ∈ vtx.map env.txHash, ∀ a b,
      hash ≠ env.pairHash a b := by
    intro vtx hash hmem
    obtain ⟨tx, -, rfl⟩ := List.mem_map.mp hmem
    exact hrange tx
  obtain ⟨height, -, hrow⟩ := row_buildMerkleTree env hne
  obtain ⟨height', -, hrow'⟩ := row_buildMerkleTree env hne'
  rw [← List.length_map env.txHash] at hids hids'
  rw [← hroot] at hrow'
  have hhashes := Merkle.eq_of_root hpair (nodup_iff_dedup_length.mp hids)
    (nodup_iff_dedup_length.mp hids') (hleaf vtx) (hleaf vtx') hrow hrow'
  exact List.map_injective_iff.mpr htx hhashes

/-- The small network with injective hashes: even for transactions, odd for pairs. -/
def treeNet : Env :=
  { smallNet with txHash := fun tx => 2 * txCode tx, pairHash := fun a b => 2 * Nat.pair a b + 1 }

theorem treeNet_txHash : Function.Injective treeNet.txHash := by
  intro tx tx' h
  have hcode : 2 * txCode tx = 2 * txCode tx' := h
  exact txCode_injective (by omega)

theorem treeNet_pairHash : Function.Injective2 treeNet.pairHash := by
  intro a a' b b' h
  have hpair : 2 * Nat.pair a b + 1 = 2 * Nat.pair a' b' + 1 := h
  exact Nat.pair_eq_pair.mp (by omega)

theorem treeNet_range (tx : CTransaction) (a b : Uint256) :
    treeNet.txHash tx ≠ treeNet.pairHash a b := by
  intro h
  have hcode : 2 * txCode tx = 2 * Nat.pair a b + 1 := h
  omega

/-- Three transactions, and those of a pool that got them in another order. -/
theorem merkleRoot_unique_three :
    let vtx := [registration "bob" "b" 2, registration "alice" "a" 1, registration "carol" "c" 3]
    buildMerkleTree treeNet vtx = buildMerkleTree treeNet (poolInOrder treeNet vtx.reverse) ∧
      vtx = poolInOrder treeNet vtx.reverse := by
  intro vtx
  obtain ⟨hne, hids, hids', hroot⟩ : poolInOrder treeNet vtx.reverse ≠ [] ∧
      (vtx.map treeNet.txHash).dedup.length = vtx.length ∧
      ((poolInOrder treeNet vtx.reverse).map treeNet.txHash).dedup.length =
        (poolInOrder treeNet vtx.reverse).length ∧
      buildMerkleTree treeNet vtx = buildMerkleTree treeNet (poolInOrder treeNet vtx.reverse) := by
    decide +kernel
  exact ⟨hroot, merkleRoot_unique treeNet_txHash treeNet_pairHash treeNet_range vtx _
    (List.cons_ne_nil _ _) hne hids hids' hroot⟩

end Unique

end CoMoNet
