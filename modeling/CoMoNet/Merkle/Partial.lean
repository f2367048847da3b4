import CoMoNet.Merkle.Tree
import CoMoNet.Chain.Disk

/-!
# Partial Merkle trees

A `CPartialMerkleTree` has a bit for every node visited in depth-first order and a hash
for every node not descended into. What is built and sent is what is extracted, and from
a true root only true leaves are.
-/

namespace CoMoNet

open Decode (Reader Reads)
open Merkle (level row width leaves IsHeight)

/-! ## The class -/

/-- `CPartialMerkleTree`. -/
structure CPartialMerkleTree where
  nTransactions : Nat
  vBits : List Bool := []
  vHash : List Uint256 := []
  fBad : Bool := false
deriving DecidableEq, Repr

/-- `CalcHash`.  `n` is the number of transactions. -/
def calcHash (env : Env) (n : Nat) (vTxid : List Uint256) : Nat → Nat → Uint256
  | 0, pos => vTxid.getD pos 0
  | height + 1, pos =>
    let left := calcHash env n vTxid height (2 * pos)
    let right :=
      if 2 * pos + 1 < width n height then calcHash env n vTxid height (2 * pos + 1) else left
    env.pairHash left right

/-- The counters and results of `TraverseAndExtract`. -/
structure Extraction where
  nBitsUsed : Nat := 0
  nHashUsed : Nat := 0
  vMatch : List Uint256 := []
  fBad : Bool

namespace CPartialMerkleTree

/-- `CalcTreeWidth`. -/
def calcTreeWidth (t : CPartialMerkleTree) (height : Nat) : Nat := width t.nTransactions height

/-- The loop that computes the height of the tree. -/
def heightFrom (t : CPartialMerkleTree) : Nat → Nat → Nat
  | 0, nHeight => nHeight
  | rounds + 1, nHeight =>
    if t.calcTreeWidth nHeight > 1 then heightFrom t rounds (nHeight + 1) else nHeight

/-- The height of the tree, which is at most the number of transactions. -/
def nHeight (t : CPartialMerkleTree) : Nat := t.heightFrom t.nTransactions 0

/-- `TraverseAndBuild`. -/
def traverseAndBuild (env : Env) (vTxid : List Uint256) (vMatch : List Bool) :
    Nat → Nat → CPartialMerkleTree → CPartialMerkleTree
  | 0, pos, t =>
    let fParentOfMatch := (leaves (vMatch.take t.nTransactions) 0 pos).any id
    { t with
        vBits := t.vBits ++ [fParentOfMatch]
        vHash := t.vHash ++ [calcHash env t.nTransactions vTxid 0 pos] }
  | height + 1, pos, t =>
    let fParentOfMatch := (leaves (vMatch.take t.nTransactions) (height + 1) pos).any id
    let t := { t with vBits := t.vBits ++ [fParentOfMatch] }
    if !fParentOfMatch then
      { t with vHash := t.vHash ++ [calcHash env t.nTransactions vTxid (height + 1) pos] }
    else
      let t := traverseAndBuild env vTxid vMatch height (2 * pos) t
      if 2 * pos + 1 < t.calcTreeWidth height then
        traverseAndBuild env vTxid vMatch height (2 * pos + 1) t
      else t

/-- The constructor from ids and a mask. -/
def build (env : Env) (vTxid : List Uint256) (vMatch : List Bool) : CPartialMerkleTree :=
  let t : CPartialMerkleTree := { nTransactions := vTxid.length }
  traverseAndBuild env vTxid vMatch t.nHeight 0 t

/-- A hash is taken from the list, and is a match if `matched`. -/
def useHash (t : CPartialMerkleTree) (matched : Bool) (x : Extraction) : Uint256 × Extraction :=
  match t.vHash[x.nHashUsed]? with
  | none => (0, { x with fBad := true })
  | some hash =>
    (hash, { x with
      nHashUsed := x.nHashUsed + 1
      vMatch := if matched then x.vMatch ++ [hash] else x.vMatch })

/-- `TraverseAndExtract`. -/
def traverseAndExtract (env : Env) (t : CPartialMerkleTree) :
    Nat → Nat → Extraction → Uint256 × Extraction
  | 0, _, x =>
    match t.vBits[x.nBitsUsed]? with
    | none => (0, { x with fBad := true })
    | some fParentOfMatch => t.useHash fParentOfMatch { x with nBitsUsed := x.nBitsUsed + 1 }
  | height + 1, pos, x =>
    match t.vBits[x.nBitsUsed]? with
    | none => (0, { x with fBad := true })
    | some false => t.useHash false { x with nBitsUsed := x.nBitsUsed + 1 }
    | some true =>
      let left :=
        traverseAndExtract env t height (2 * pos) { x with nBitsUsed := x.nBitsUsed + 1 }
      if 2 * pos + 1 < t.calcTreeWidth height then
        let right := traverseAndExtract env t height (2 * pos + 1) left.2
        (env.pairHash left.1 right.1, right.2)
      else (env.pairHash left.1 left.1, left.2)

/-- `ExtractMatches`: the root, 0 on failure, and the matches found up to then. -/
def extractMatches (env : Env) (t : CPartialMerkleTree) : Uint256 × List Uint256 :=
  if t.nTransactions = 0 then (0, [])
  else if t.nTransactions > maxBlockSize / 60 then (0, [])
  else if t.vHash.length > t.nTransactions then (0, [])
  else if t.vBits.length < t.vHash.length then (0, [])
  else
    let (hashMerkleRoot, x) := t.traverseAndExtract env t.nHeight 0 { fBad := t.fBad }
    if x.fBad then (0, x.vMatch)
    else if (x.nBitsUsed + 7) / 8 ≠ (t.vBits.length + 7) / 8 then (0, x.vMatch)
    else if x.nHashUsed ≠ t.vHash.length then (0, x.vMatch)
    else (hashMerkleRoot, x.vMatch)

end CPartialMerkleTree

/-! ## On the wire -/

/-- The flag bits, eight to a byte and low bit first. -/
def packBits (vBits : List Bool) : Bytes :=
  (List.range ((vBits.length + 7) / 8)).map fun k =>
    (List.range 8).foldl
      (fun byte p => byte ||| (vBits.getD (8 * k + p) false).toUInt8 <<< UInt8.ofNat p) 0

/-- The bits read from bytes. -/
def unpackBits (vBytes : Bytes) : List Bool :=
  (List.range (vBytes.length * 8)).map fun p =>
    vBytes.getD (p / 8) 0 &&& (1 <<< UInt8.ofNat (p % 8)) != 0

namespace CPartialMerkleTree

/-- The bytes on the wire. -/
def serialize (t : CPartialMerkleTree) : Bytes :=
  writeLE 4 t.nTransactions ++ (writeCompactSize t.vHash.length ++ (t.vHash.flatMap (writeLE 32) ++
    serializeScript (packBits t.vBits)))

/-- `Unserialize`.  A vector of bytes is read as a script is. -/
def unserialize : Reader UInt8 CPartialMerkleTree := do
  let nTransactions ← readLE 4
  let nSize ← readCompactSize
  let vHash ← Decode.times (readLE 32) nSize
  let vBytes ← unserializeScript
  return { nTransactions, vBits := unpackBits vBytes, vHash, fBad := false }

end CPartialMerkleTree

theorem foldl_or_bit {α : Type} (g : α → UInt8) (mask start : UInt8) (l : List α) :
    (l.foldl (fun byte p => byte ||| g p) start &&& mask != 0) =
      ((start &&& mask != 0) || l.any fun p => g p &&& mask != 0) := by
  induction l generalizing start with
  | nil => simp
  | cons p l ih =>
    have hdistrib : (start ||| g p) &&& mask = start &&& mask ||| g p &&& mask := by
      rw [← UInt8.toBitVec_inj]
      simp only [UInt8.toBitVec_and, UInt8.toBitVec_or, BitVec.and_or_distrib_right]
    have hor : ((start ||| g p) &&& mask != 0) =
        ((start &&& mask != 0) || (g p &&& mask != 0)) := by
      rw [hdistrib, Bool.eq_iff_iff]
      simp only [bne_iff_ne, ne_eq, UInt8.or_eq_zero_iff, Bool.or_eq_true]
      tauto
    rw [List.foldl_cons, ih, hor, List.any_cons, Bool.or_assoc]

theorem packed_bit (f : Nat → Bool) {q : Nat} (hq : q < 8) :
    ((List.range 8).foldl (fun byte p => byte ||| (f p).toUInt8 <<< UInt8.ofNat p) (0 : UInt8) &&&
      (1 <<< UInt8.ofNat q) != 0) = f q := by
  have hplace : ∀ b : Bool, ∀ p < 8, ∀ q < 8,
      (b.toUInt8 <<< UInt8.ofNat p &&& (1 <<< UInt8.ofNat q) != 0) = (b && p == q) := by
    decide
  rw [foldl_or_bit, UInt8.zero_and, bne_self_eq_false, Bool.false_or, Bool.eq_iff_iff,
    List.any_eq_true]
  constructor
  · rintro ⟨p, hp, hbit⟩
    rw [hplace (f p) p (List.mem_range.mp hp) q hq, Bool.and_eq_true, beq_iff_eq] at hbit
    rw [← hbit.2]
    exact hbit.1
  · intro hf
    refine ⟨q, List.mem_range.mpr hq, ?_⟩
    rw [hplace (f q) q hq q hq, hf, beq_self_eq_true, Bool.and_true]

theorem length_packBits (vBits : List Bool) : (packBits vBits).length = (vBits.length + 7) / 8 := by
  simp [packBits]

/-- Bits come back, padded to whole bytes. -/
theorem unpackBits_packBits (vBits : List Bool) :
    unpackBits (packBits vBits) =
      vBits ++ List.replicate ((vBits.length + 7) / 8 * 8 - vBits.length) false := by
  apply List.ext_getElem
  · simp [unpackBits, length_packBits]
    omega
  intro p hp _
  have hp : p < (vBits.length + 7) / 8 * 8 := by
    simpa [unpackBits, length_packBits] using hp
  have hbyte : (packBits vBits).getD (p / 8) 0 = (List.range 8).foldl (fun byte q =>
      byte ||| (vBits.getD (8 * (p / 8) + q) false).toUInt8 <<< UInt8.ofNat q) 0 := by
    simp [packBits, List.getD_eq_getElem?_getD,
      List.getElem?_range (by omega : p / 8 < (vBits.length + 7) / 8)]
  have hbit := packed_bit (fun q => vBits.getD (8 * (p / 8) + q) false) (Nat.mod_lt p (by decide))
  simp only [unpackBits, List.getElem_map, List.getElem_range]
  rw [hbyte, hbit, Nat.div_add_mod, List.getElem_append, List.getD_eq_getElem?_getD]
  split
  · next hin => rw [List.getElem?_eq_getElem hin, Option.getD_some]
  · next hpad => rw [List.getElem?_eq_none (by omega), List.getElem_replicate, Option.getD_none]

/-- A tree comes back from the wire with its bits padded. -/
theorem CPartialMerkleTree.reads {t : CPartialMerkleTree} (hn : t.nTransactions < 2 ^ 32)
    (hhash : ∀ hash ∈ t.vHash, hash < 2 ^ 256) (hcount : t.vHash.length ≤ maxSize)
    (hbits : (t.vBits.length + 7) / 8 ≤ maxSize) :
    Reads unserialize t.serialize
      { t with
          vBits := t.vBits ++ List.replicate ((t.vBits.length + 7) / 8 * 8 - t.vBits.length) false
          fBad := false } := by
  rw [← unpackBits_packBits]
  have hcount₄ : t.nTransactions < 256 ^ 4 := hn
  refine (reads_LE hcount₄).bind ((reads_compactSize hcount).bind ?_)
  refine (Reads.times fun hash hmem => reads_LE (hhash hash hmem)).bind ?_
  exact (reads_script (by rwa [length_packBits])).bind_pure fun vBytes =>
    (⟨t.nTransactions, unpackBits vBytes, t.vHash, false⟩ : CPartialMerkleTree)

/-! ## Hashes of nodes -/

section Nodes

variable {env : Env} {vTxid : List Uint256}
variable {t : CPartialMerkleTree}

/-- `CalcHash` is a node of the tree. -/
theorem row_calcHash {height pos : Nat} (h : pos < width vTxid.length height) :
    (row env.pairHash vTxid height)[pos]? = some (calcHash env vTxid.length vTxid height pos) := by
  induction height generalizing pos with
  | zero =>
    rw [Merkle.width_zero] at h
    rw [Merkle.row_zero, calcHash, List.getD_eq_getElem?_getD, List.getElem?_eq_getElem h,
      Option.getD_some]
  | succ height ih =>
    rw [Merkle.width_succ] at h
    have hleft := @ih (2 * pos) (by omega)
    rw [Merkle.row_succ', Merkle.level_getElem?, hleft, Option.map_some, calcHash]
    split
    · next hright => rw [ih hright, Option.getD_some]
    · next hmissing =>
        rw [List.getElem?_eq_none (by rw [Merkle.length_row]; omega), Option.getD_none]

theorem heightFrom_isHeight {rounds nHeight : Nat} (hn : 0 < t.nTransactions)
    (hrounds : t.nTransactions ≤ rounds + nHeight)
    (hbelow : ∀ h < nHeight, 1 < width t.nTransactions h) :
    IsHeight t.nTransactions (t.heightFrom rounds nHeight) := by
  induction rounds generalizing nHeight with
  | zero =>
    have hpow : nHeight < 2 ^ nHeight := Nat.lt_two_pow_self
    rw [CPartialMerkleTree.heightFrom]
    exact ⟨Nat.le_antisymm (Merkle.width_le_one (by omega)) (Merkle.width_pos hn _), hbelow⟩
  | succ rounds ih =>
    rw [CPartialMerkleTree.heightFrom]
    split
    · next hwide =>
        refine ih (by omega) fun h hlt => ?_
        rcases Nat.lt_succ_iff_lt_or_eq.mp hlt with hlt | rfl
        · exact hbelow h hlt
        · exact hwide
    · next hroot =>
        exact ⟨Nat.le_antisymm (Nat.not_lt.mp hroot) (Merkle.width_pos hn _), hbelow⟩

/-- The loop of the constructor and of `ExtractMatches` finds the height. -/
theorem CPartialMerkleTree.isHeight (hn : 0 < t.nTransactions) :
    IsHeight t.nTransactions t.nHeight :=
  heightFrom_isHeight hn (Nat.le_refl _) fun _ h => absurd h (Nat.not_lt_zero _)

end Nodes

/-! ## What is built is what is extracted -/

section RoundTrip

variable {env : Env} {marked : List (Uint256 × Bool)} {height pos : Nat}

/-- The ids of the mask. -/
def matchedIds (marked : List (Uint256 × Bool)) : List Uint256 :=
  (marked.filter Prod.snd).map Prod.fst

theorem matchedIds_append (marked marked' : List (Uint256 × Bool)) :
    matchedIds (marked ++ marked') = matchedIds marked ++ matchedIds marked' := by
  simp [matchedIds]

/-- What `TraverseAndBuild` writes for a node and what `TraverseAndExtract` makes of it anywhere. -/
structure Piece (env : Env) (marked : List (Uint256 × Bool)) (height pos : Nat) (bits : List Bool)
    (hashes : List Uint256) : Prop where
  /-- They are what is written. -/
  built : ∀ t : CPartialMerkleTree, t.nTransactions = marked.length →
    t.traverseAndBuild env (marked.map Prod.fst) (marked.map Prod.snd) height pos =
      { t with vBits := t.vBits ++ bits, vHash := t.vHash ++ hashes }
  /-- They are read as the hash and the matches below the node. -/
  extracted : ∀ (t : CPartialMerkleTree) (bits₁ bits₂ : List Bool) (hashes₁ hashes₂ : List Uint256)
    (vMatch : List Uint256) (fBad : Bool), t.nTransactions = marked.length →
    t.vBits = bits₁ ++ (bits ++ bits₂) → t.vHash = hashes₁ ++ (hashes ++ hashes₂) →
    t.traverseAndExtract env height pos ⟨bits₁.length, hashes₁.length, vMatch, fBad⟩ =
      (calcHash env marked.length (marked.map Prod.fst) height pos,
        ⟨bits₁.length + bits.length, hashes₁.length + hashes.length,
          vMatch ++ matchedIds (leaves marked height pos), fBad⟩)
  hashes_le : hashes.length ≤ (leaves marked height pos).length
  bits_ge : hashes.length ≤ bits.length
  bits_lt : bits.length < 2 ^ (height + 1)
  hashes_mem : ∀ hash ∈ hashes, hash ∈ marked.map Prod.fst ∨ ∃ a b, hash = env.pairHash a b

theorem any_leaves (marked : List (Uint256 × Bool)) (height pos : Nat) :
    (leaves ((marked.map Prod.snd).take marked.length) height pos).any id =
      (leaves marked height pos).any Prod.snd := by
  rw [List.take_of_length_le (by simp), Merkle.leaves_map, List.any_map]
  rfl

theorem getElem?_of_append {α : Type} {l l₁ l₂ : List α} {a : α} (h : l = l₁ ++ (a :: l₂)) :
    l[l₁.length]? = some a := by
  rw [h, List.getElem?_append_right (Nat.le_refl _), Nat.sub_self, List.getElem?_cons_zero]

theorem Piece.leaf {hash : Uint256} {mark : Bool} (h : marked[pos]? = some (hash, mark)) :
    Piece env marked 0 pos [mark] [hash] := by
  have hleaves : leaves marked 0 pos = [(hash, mark)] := by
    rw [Merkle.leaves_zero, h]
    rfl
  have hcalc : ∀ n, calcHash env n (marked.map Prod.fst) 0 pos = hash := by
    intro n
    simp [calcHash, h]
  constructor
  · intro t ht
    rw [CPartialMerkleTree.traverseAndBuild, ht, any_leaves, hleaves, hcalc]
    simp
  · intro t bits₁ bits₂ hashes₁ hashes₂ vMatch fBad ht hbits hhash
    rw [CPartialMerkleTree.traverseAndExtract]
    simp only [getElem?_of_append hbits, CPartialMerkleTree.useHash, getElem?_of_append hhash,
      hcalc,
      hleaves]
    cases mark <;> simp [matchedIds]
  · rw [hleaves]
    simp
  · simp
  · simp
  · intro x hx
    rw [List.mem_singleton.mp hx]
    exact .inl (List.mem_map_of_mem (f := Prod.fst) (List.mem_of_getElem? h))

/-- A node without matches. -/
theorem Piece.closed (h : pos < width marked.length (height + 1))
    (hnone : (leaves marked (height + 1) pos).any Prod.snd = false) :
    Piece env marked (height + 1) pos [false]
      [calcHash env marked.length (marked.map Prod.fst) (height + 1) pos] := by
  have hmatched : matchedIds (leaves marked (height + 1) pos) = [] := by
    rw [matchedIds, List.filter_eq_nil_iff.mpr, List.map_nil]
    intro x hx
    rw [List.any_eq_false] at hnone
    exact hnone x hx
  constructor
  · intro t ht
    rw [CPartialMerkleTree.traverseAndBuild, ht, any_leaves, hnone]
    simp
  · intro t bits₁ bits₂ hashes₁ hashes₂ vMatch fBad ht hbits hhash
    rw [CPartialMerkleTree.traverseAndExtract]
    simp [getElem?_of_append hbits, CPartialMerkleTree.useHash, getElem?_of_append hhash, hmatched]
  · exact Merkle.leaves_length_pos h
  · simp
  · exact Nat.one_lt_two_pow (by omega)
  · intro x hx
    rw [List.mem_singleton.mp hx]
    exact .inr ⟨_, _, rfl⟩

theorem Piece.left {bits : List Bool} {hashes : List Uint256}
    (hsome : (leaves marked (height + 1) pos).any Prod.snd = true)
    (hmissing : width marked.length height ≤ 2 * pos + 1)
    (hleft : Piece env marked height (2 * pos) bits hashes) :
    Piece env marked (height + 1) pos (true :: bits) hashes := by
  have hleaves : leaves marked (height + 1) pos = leaves marked height (2 * pos) := by
    rw [Merkle.leaves_succ, Merkle.leaves_of_width_le hmissing, List.append_nil]
  have hnot : ¬2 * pos + 1 < width marked.length height := Nat.not_lt.mpr hmissing
  constructor
  · intro t ht
    rw [CPartialMerkleTree.traverseAndBuild, ht, any_leaves, hsome]
    simp only [Bool.not_true, Bool.false_eq_true, if_false]
    rw [hleft.built _ rfl]
    simp [CPartialMerkleTree.calcTreeWidth, hnot]
  · intro t bits₁ bits₂ hashes₁ hashes₂ vMatch fBad ht hbits hhash
    have hread := hleft.extracted t (bits₁ ++ [true]) bits₂ hashes₁ hashes₂ vMatch fBad ht
      (by rw [hbits]; simp) hhash
    rw [List.length_append, List.length_singleton] at hread
    rw [CPartialMerkleTree.traverseAndExtract]
    simp only [getElem?_of_append hbits, hread, CPartialMerkleTree.calcTreeWidth, ht, if_neg hnot,
      calcHash, hleaves, List.length_cons, Nat.add_assoc, Nat.add_comm 1]
  · rw [hleaves]
    exact hleft.hashes_le
  · exact hleft.bits_ge.trans (by simp)
  · have := hleft.bits_lt
    rw [List.length_cons, Nat.pow_succ]
    omega
  · exact hleft.hashes_mem

/-- A node of two pieces. -/
theorem Piece.node {bitsL bitsR : List Bool} {hashesL hashesR : List Uint256}
    (hsome : (leaves marked (height + 1) pos).any Prod.snd = true)
    (hright : 2 * pos + 1 < width marked.length height)
    (left : Piece env marked height (2 * pos) bitsL hashesL)
    (right : Piece env marked height (2 * pos + 1) bitsR hashesR) :
    Piece env marked (height + 1) pos (true :: (bitsL ++ bitsR)) (hashesL ++ hashesR) := by
  have hleaves := Merkle.leaves_succ marked height pos
  constructor
  · intro t ht
    rw [CPartialMerkleTree.traverseAndBuild, ht, any_leaves, hsome]
    simp only [Bool.not_true, Bool.false_eq_true, if_false]
    rw [left.built _ rfl]
    refine (if_pos hright).trans ?_
    rw [right.built _ rfl]
    simp
  · intro t bits₁ bits₂ hashes₁ hashes₂ vMatch fBad ht hbits hhash
    have hreadL := left.extracted t (bits₁ ++ [true]) (bitsR ++ bits₂) hashes₁ (hashesR ++ hashes₂)
      vMatch fBad ht (by rw [hbits]; simp) (by rw [hhash]; simp)
    have hreadR := right.extracted t (bits₁ ++ [true] ++ bitsL) bits₂ (hashes₁ ++ hashesL) hashes₂
      (vMatch ++ matchedIds (leaves marked height (2 * pos))) fBad ht (by rw [hbits]; simp)
      (by rw [hhash]; simp)
    simp only [List.length_append, List.length_singleton] at hreadL hreadR
    rw [CPartialMerkleTree.traverseAndExtract]
    simp only [getElem?_of_append hbits, hreadL, CPartialMerkleTree.calcTreeWidth, ht,
      if_pos hright, hreadR, calcHash, hleaves, matchedIds_append]
    simp only [List.append_assoc, List.length_cons, List.length_append, Nat.add_assoc,
      Nat.add_comm 1]
  · have hL := left.hashes_le
    have hR := right.hashes_le
    rw [hleaves, List.length_append, List.length_append]
    omega
  · have hL := left.bits_ge
    have hR := right.bits_ge
    rw [List.length_append, List.length_cons, List.length_append]
    omega
  · have hL := left.bits_lt
    have hR := right.bits_lt
    rw [List.length_cons, List.length_append, Nat.pow_succ]
    omega
  · intro x hx
    rcases List.mem_append.mp hx with hx | hx
    · exact left.hashes_mem x hx
    · exact right.hashes_mem x hx

/-- Every node has a piece. -/
theorem exists_piece (env : Env) (h : pos < width marked.length height) :
    ∃ bits hashes, Piece env marked height pos bits hashes := by
  induction height generalizing pos with
  | zero =>
    rw [Merkle.width_zero] at h
    exact ⟨_, _, .leaf (List.getElem?_eq_getElem h)⟩
  | succ height ih =>
    cases hany : (leaves marked (height + 1) pos).any Prod.snd with
    | false => exact ⟨_, _, .closed h hany⟩
    | true =>
      have hwidth := Merkle.width_succ marked.length height
      obtain ⟨bitsL, hashesL, left⟩ := @ih (2 * pos) (by omega)
      rcases Nat.lt_or_ge (2 * pos + 1) (width marked.length height) with hright | hmissing
      · obtain ⟨bitsR, hashesR, right⟩ := ih hright
        exact ⟨_, _, .node hany hright left right⟩
      · exact ⟨_, _, .left hany hmissing left⟩

theorem CPartialMerkleTree.nHeight_eq {t : CPartialMerkleTree}
    (ht : t.nTransactions = marked.length)
    (hheight : IsHeight marked.length height) (hne : marked ≠ []) : t.nHeight = height := by
  have hpos : 0 < t.nTransactions := ht ▸ List.length_pos_of_ne_nil hne
  have hown := t.isHeight hpos
  rw [ht] at hown
  exact hown.unique hheight

/-- `ExtractMatches` on the lists of the root, with the bits padded to whole bytes. -/
theorem extractMatches_piece {bits : List Bool} {hashes : List Uint256} {pad : Nat}
    (hne : marked ≠ []) (hcount : marked.length ≤ maxBlockSize / 60)
    (hheight : IsHeight marked.length height) (piece : Piece env marked height 0 bits hashes)
    (hpad : (bits.length + pad + 7) / 8 = (bits.length + 7) / 8) :
    CPartialMerkleTree.extractMatches env
        ⟨marked.length, bits ++ List.replicate pad false, hashes, false⟩ =
      (calcHash env marked.length (marked.map Prod.fst) height 0, matchedIds marked) := by
  have hroot : leaves marked height 0 = marked := Merkle.leaves_root hheight.1.le
  have hhashes := piece.hashes_le
  have hbits := piece.bits_ge
  have hpos := List.length_pos_of_ne_nil hne
  have hread := piece.extracted ⟨marked.length, bits ++ List.replicate pad false, hashes, false⟩
    [] (List.replicate pad false) [] [] [] false rfl rfl (by simp)
  rw [hroot] at hhashes hread
  simp only [List.length_nil, Nat.zero_add, List.nil_append] at hread
  have hown : CPartialMerkleTree.nHeight ⟨marked.length, bits ++ List.replicate pad false, hashes,
      false⟩ = height := CPartialMerkleTree.nHeight_eq rfl hheight hne
  rw [CPartialMerkleTree.extractMatches]
  simp only [hown, hread, List.length_append, List.length_replicate, hpad]
  rw [if_neg (by omega), if_neg (by omega), if_neg (by omega), if_neg (by omega)]
  simp

/-- The hash at the top is the root. -/
theorem calcHash_root (env : Env) {vTxid : List Uint256} (hne : vTxid ≠ [])
    (hheight : IsHeight vTxid.length height) :
    calcHash env vTxid.length vTxid height 0 = merkleRootFrom env vTxid.length vTxid := by
  obtain ⟨height', hheight', hrow⟩ := row_merkleRootFrom env hne (Nat.le_succ _)
  obtain rfl := hheight.unique hheight'
  have hnode : (row env.pairHash vTxid height)[0]? =
      some (calcHash env vTxid.length vTxid height 0) :=
    row_calcHash (by rw [hheight.1]; decide)
  rw [hrow] at hnode
  exact (Option.some.inj hnode).symm

/-- The tree that the constructor builds, and what is extracted from it. -/
theorem build_spec (env : Env) {vTxid : List Uint256} {vMatch : List Bool} (hne : vTxid ≠ [])
    (hlength : vMatch.length = vTxid.length) :
    ∃ bits hashes, CPartialMerkleTree.build env vTxid vMatch = ⟨vTxid.length, bits, hashes, false⟩ ∧
      hashes.length ≤ vTxid.length ∧ bits.length < 4 * vTxid.length ∧
      (∀ hash ∈ hashes, hash ∈ vTxid ∨ ∃ a b, hash = env.pairHash a b) ∧
      ∀ pad, (bits.length + pad + 7) / 8 = (bits.length + 7) / 8 →
        vTxid.length ≤ maxBlockSize / 60 →
        CPartialMerkleTree.extractMatches env
            ⟨vTxid.length, bits ++ List.replicate pad false, hashes, false⟩ =
          (merkleRootFrom env vTxid.length vTxid, matchedIds (vTxid.zip vMatch)) := by
  have hfst : (vTxid.zip vMatch).map Prod.fst = vTxid := List.map_fst_zip hlength.ge
  have hsnd : (vTxid.zip vMatch).map Prod.snd = vMatch := List.map_snd_zip hlength.le
  generalize vTxid.zip vMatch = marked at *
  subst hfst hsnd
  rw [List.length_map] at *
  have hmarked : marked ≠ [] := by simpa using hne
  have hpos := List.length_pos_of_ne_nil hmarked
  have hheight := CPartialMerkleTree.isHeight (t := { nTransactions := marked.length }) hpos
  have hroot := calcHash_root env hne (by rw [List.length_map]; exact hheight)
  rw [List.length_map] at hroot
  obtain ⟨bits, hashes, piece⟩ := exists_piece env (by rw [hheight.1]; exact Nat.one_pos)
  have hhashes := piece.hashes_le
  rw [Merkle.leaves_root hheight.1.le] at hhashes
  refine ⟨bits, hashes, ?_, hhashes, ?_, piece.hashes_mem, ?_⟩
  · rw [CPartialMerkleTree.build, List.length_map]
    exact piece.built _ rfl
  · have := piece.bits_lt
    have := hheight.pow_lt hpos
    rw [Nat.pow_succ] at *
    omega
  · intro pad hpad hcount
    rw [extractMatches_piece hmarked hcount hheight piece hpad, hroot]

/-- **What is built and sent is what is extracted**: the root of the list and the matched ids. -/
theorem partialMerkleTree_roundTrip (env : Env) (hpair : ∀ a b, env.pairHash a b < 2 ^ 256)
    (vTxid : List Uint256) (vMatch : List Bool) (hne : vTxid ≠ [])
    (hcount : vTxid.length ≤ maxBlockSize / 60) (hids : ∀ id ∈ vTxid, id < 2 ^ 256)
    (hlength : vMatch.length = vTxid.length) (rest : Bytes) :
    ∃ t, CPartialMerkleTree.unserialize
        ((CPartialMerkleTree.build env vTxid vMatch).serialize ++ rest) = some (t, rest) ∧
      t.extractMatches env =
        (merkleRootFrom env vTxid.length vTxid, matchedIds (vTxid.zip vMatch)) := by
  obtain ⟨bits, hashes, hbuild, hhashes, hbits, hmem, hextract⟩ := build_spec env hne hlength
  have hlimit : maxBlockSize / 60 = 833 := rfl
  have hhash : ∀ hash ∈ hashes, hash < 2 ^ 256 := by
    intro hash hin
    rcases hmem hash hin with hid | ⟨a, b, rfl⟩
    · exact hids hash hid
    · exact hpair a b
  have hwire : vTxid.length < 2 ^ 32 ∧ hashes.length ≤ maxSize ∧
      (bits.length + 7) / 8 ≤ maxSize := by
    rw [maxSize]
    omega
  have hread := CPartialMerkleTree.reads (t := ⟨vTxid.length, bits, hashes, false⟩) hwire.1 hhash
    hwire.2.1 hwire.2.2
  have hpad : (bits.length + ((bits.length + 7) / 8 * 8 - bits.length) + 7) / 8 =
      (bits.length + 7) / 8 := by
    omega
  rw [hbuild]
  exact ⟨_, hread rest, hextract _ hpad hcount⟩

/-- Hashes that fit the wire. -/
def wireNet : Env := { smallNet with pairHash := fun a b => (1000 * a + b) % 2 ^ 256 }

theorem partialMerkleTree_roundTrip_three :
    ∃ t, CPartialMerkleTree.unserialize
        ((CPartialMerkleTree.build wireNet [1, 2, 3] [false, true, true]).serialize ++ [7]) =
          some (t, [7]) ∧
      t.extractMatches wireNet = (1005003, [2, 3]) :=
  partialMerkleTree_roundTrip wireNet (fun _ _ => Nat.mod_lt _ (by decide)) [1, 2, 3]
    [false, true, true] (by decide) (by decide) (by decide) rfl [7]

end RoundTrip

/-! ## A tree from a peer -/

section Soundness

variable {env : Env} {t : CPartialMerkleTree} {vTxid : List Uint256} {height pos : Nat}
variable {x : Extraction}

theorem CPartialMerkleTree.fBad_of_useHash {matched : Bool}
    (h : (t.useHash matched x).2.fBad = false) : x.fBad = false := by
  rw [useHash] at h
  split at h
  · cases h
  · exact h

theorem CPartialMerkleTree.fBad_of_traverseAndExtract
    (h : (t.traverseAndExtract env height pos x).2.fBad = false) : x.fBad = false := by
  induction height generalizing pos x with
  | zero =>
    rw [traverseAndExtract] at h
    split at h
    · cases h
    · have hused := fBad_of_useHash h
      exact hused
  | succ height ih =>
    rw [traverseAndExtract] at h
    split at h
    · cases h
    · have hused := fBad_of_useHash h
      exact hused
    · dsimp only at h
      split at h
      · have hright := ih h
        have hleft := ih hright
        exact hleft
      · have hleft := ih h
        exact hleft

/-- The matches of a leaf or of a hash that is not descended into. -/
theorem CPartialMerkleTree.useHash_sound {matched : Bool} {l : List Uint256}
    (hbad : (t.useHash matched x).2.fBad = false)
    (hmem : matched = true → [(t.useHash matched x).1].Sublist l) :
    ∃ ms, (t.useHash matched x).2.vMatch = x.vMatch ++ ms ∧ ms.Sublist l := by
  rw [useHash] at *
  split at hbad
  · cases hbad
  · next hash hhash =>
      cases matched with
      | false => exact ⟨[], by simp, List.nil_sublist l⟩
      | true => exact ⟨[hash], by simp, by simpa [hhash] using hmem⟩

/-- If the hash of a node is that of the tree over `vTxid`, the matches below are leaves of it, in
order. -/
theorem CPartialMerkleTree.traverseAndExtract_sound (hinj : Function.Injective2 env.pairHash)
    (ht : t.nTransactions = vTxid.length) (hpos : pos < width vTxid.length height)
    (hbad : (t.traverseAndExtract env height pos x).2.fBad = false)
    (hhash : (row env.pairHash vTxid height)[pos]? =
      some (t.traverseAndExtract env height pos x).1) :
    ∃ ms, (t.traverseAndExtract env height pos x).2.vMatch = x.vMatch ++ ms ∧
      ms.Sublist (leaves vTxid height pos) := by
  induction height generalizing pos x with
  | zero =>
    rw [Merkle.row_zero] at hhash
    rw [Merkle.leaves_zero, hhash]
    rw [traverseAndExtract] at *
    split at hbad
    · cases hbad
    · next hbit =>
        simp only [hbit] at *
        exact useHash_sound hbad fun _ => List.Sublist.refl _
  | succ height ih =>
    rw [traverseAndExtract] at *
    split at hbad
    · cases hbad
    · next hbit =>
        simp only [hbit] at *
        exact useHash_sound hbad nofun
    · next hbit =>
        have hwidth := Merkle.width_succ vTxid.length height
        have hleftpos : 2 * pos < width vTxid.length height := by omega
        rw [Merkle.row_succ', Merkle.level_getElem?, row_calcHash hleftpos, Option.map_some,
          Option.some.injEq] at hhash
        rw [Merkle.leaves_succ]
        simp only [hbit, calcTreeWidth, ht] at *
        split at hbad
        · next hrightpos =>
            rw [row_calcHash hrightpos, Option.getD_some] at hhash
            simp only [if_pos hrightpos] at *
            obtain ⟨hleft, hright⟩ := hinj hhash
            obtain ⟨ms, hms, hsub⟩ := ih hleftpos (fBad_of_traverseAndExtract hbad)
              (by rw [row_calcHash hleftpos, hleft])
            obtain ⟨ms', hms', hsub'⟩ := ih hrightpos hbad (by rw [row_calcHash hrightpos, hright])
            exact ⟨ms ++ ms', by rw [hms', hms, List.append_assoc], hsub.append hsub'⟩
        · next hmissing =>
            simp only [if_neg hmissing] at *
            obtain ⟨hleft, -⟩ := hinj hhash
            obtain ⟨ms, hms, hsub⟩ := ih hleftpos hbad (by rw [row_calcHash hleftpos, hleft])
            exact ⟨ms, hms, hsub.trans (List.sublist_append_left _ _)⟩

/-- A result other than 0 is the hash of a traversal without failure. -/
theorem CPartialMerkleTree.extractMatches_cases (h : (t.extractMatches env).1 ≠ 0) :
    0 < t.nTransactions ∧
      t.extractMatches env = ((t.traverseAndExtract env t.nHeight 0 { fBad := t.fBad }).1,
        (t.traverseAndExtract env t.nHeight 0 { fBad := t.fBad }).2.vMatch) ∧
      (t.traverseAndExtract env t.nHeight 0 { fBad := t.fBad }).2.fBad = false := by
  rw [extractMatches] at *
  split at h
  · simp at h
  next hzero =>
  rw [if_neg hzero]
  split at h
  · simp at h
  next hcount =>
  rw [if_neg hcount]
  split at h
  · simp at h
  next hhashes =>
  rw [if_neg hhashes]
  split at h
  · simp at h
  next hbits =>
  rw [if_neg hbits]
  dsimp only at *
  split at h
  · simp at h
  next hbad =>
  rw [if_neg hbad]
  split at h
  · simp at h
  next hused =>
  rw [if_neg hused]
  split at h
  · simp at h
  next hall =>
  rw [if_neg hall]
  exact ⟨Nat.pos_of_ne_zero hzero, rfl, by simpa using hbad⟩

/-- **Only leaves are extracted.** With an injective pair hash, a tree with the root of a list and
its length gives ids of the list, in order. The root must not be 0, the value for a failure. -/
theorem extractMatches_sound (hinj : Function.Injective2 env.pairHash) (vTxid : List Uint256)
    (t : CPartialMerkleTree) (ht : t.nTransactions = vTxid.length)
    (hnonzero : merkleRootFrom env vTxid.length vTxid ≠ 0)
    (hroot : (t.extractMatches env).1 = merkleRootFrom env vTxid.length vTxid) :
    (t.extractMatches env).2.Sublist vTxid := by
  rw [← hroot] at hnonzero
  obtain ⟨hpos, hresult, hbad⟩ := CPartialMerkleTree.extractMatches_cases hnonzero
  have hheight := t.isHeight hpos
  rw [ht] at hheight hpos
  have hnode : (row env.pairHash vTxid t.nHeight)[0]? = some _ :=
    row_calcHash (by rw [hheight.1]; exact Nat.one_pos)
  rw [calcHash_root env (List.ne_nil_of_length_pos hpos) hheight, ← hroot, hresult] at hnode
  obtain ⟨ms, hms, hsub⟩ := CPartialMerkleTree.traverseAndExtract_sound hinj ht
    (by rw [hheight.1]; exact Nat.one_pos) hbad hnode
  rw [Merkle.leaves_root hheight.1.le] at hsub
  rw [hresult]
  dsimp only
  rw [hms, List.nil_append]
  exact hsub

theorem extractMatches_sound_three :
    (CPartialMerkleTree.extractMatches treeNet
      (CPartialMerkleTree.build treeNet [1, 2, 3] [false, true, true])).2.Sublist [1, 2, 3] :=
  extractMatches_sound treeNet_pairHash [1, 2, 3] _ (by decide +kernel) (by decide +kernel)
    (by decide +kernel)

/-- A list whose root is 0: a tree that fails returns 0, with what it has extracted. -/
theorem extractMatches_unsound :
    ∃ (env : Env) (vTxid : List Uint256) (t : CPartialMerkleTree),
      Function.Injective2 env.pairHash ∧ t.nTransactions = vTxid.length ∧
      vTxid.length ≤ maxBlockSize / 60 ∧ vTxid ≠ [] ∧
      (t.extractMatches env).1 = merkleRootFrom env vTxid.length vTxid ∧
      ¬(t.extractMatches env).2.Sublist vTxid :=
  ⟨treeNet, [0], ⟨1, List.replicate 9 true, [5], false⟩, treeNet_pairHash, by decide +kernel⟩

end Soundness

end CoMoNet
