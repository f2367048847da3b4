import CoMoNet.Torrent.Spare
import Mathlib.Order.Bounds.Basic

/-!
# Bitfields between honest nodes

A bitfield has up to nine bits more than the last post. The receiver takes seven off
before it validates the length, so an honest peer may be disconnected
(`bitfield_taken_iff`).
-/

namespace CoMoNet

open GuardedRun

namespace Torrent

/-- `write_bitfield`: `none` if it sends `have_all`, `have_none` or nothing. A seed may leave
pieces out. -/
def writeBitfield (t : Torrent) (supportsFast : Bool) (lazyPieces : List Nat) :
    Option (List Bool) :=
  if supportsFast && t.isSeed then none
  else if t.numHave = 0 then none
  else some ((List.range (8 * ((t.numPieces + 7) / 8))).map fun i =>
    decide (i < t.numPieces) && t.hasPiece i && !(t.isSeed && lazyPieces.contains i))

section Bits

variable {t : Torrent} {supportsFast : Bool} {lazyPieces : List Nat} {bits : List Bool}

theorem length_writeBitfield (h : t.writeBitfield supportsFast lazyPieces = some bits) :
    bits.length = 8 * ((t.numPieces + 7) / 8) := by
  rw [writeBitfield] at h
  split at h
  · cases h
  split at h
  · cases h
  · cases h
    rw [List.length_map, List.length_range]

theorem hasPiece_of_bit (h : t.writeBitfield supportsFast lazyPieces = some bits) {i : Nat}
    (hi : bits[i]? = some true) : t.hasPiece i = true := by
  rw [writeBitfield] at h
  split at h
  · cases h
  split at h
  · cases h
  · cases h
    rw [List.getElem?_map, Option.map_eq_some_iff] at hi
    obtain ⟨j, hj, hbit⟩ := hi
    obtain ⟨hlt, hj⟩ := List.getElem?_eq_some_iff.mp hj
    obtain rfl : i = j := (List.getElem_range hlt).symm.trans hj
    simp only [Bool.and_eq_true] at hbit
    exact hbit.1.2

end Bits

/-! ## The largest post number -/

section Greatest

variable {node : PostNode} {username : Bytes} {m : Int}

/-- The largest valid number is the limit of the chain, so it is even. -/
theorem valid_iff_of_isGreatest
    (hm : IsGreatest {k | validatePostNumberForUser node username k = true} m) :
    m % 2 = 0 ∧ ∀ k, validatePostNumberForUser node username k = true ↔ 0 ≤ k ∧ k ≤ m := by
  obtain ⟨hvalid, hupper⟩ := hm
  obtain ⟨tx, nHeight, hfound, hnonneg, hlimit⟩ := validatePostNumberForUser_iff.mp hvalid
  have hother : ∀ k, 0 ≤ k → (0 < node.bestHeight → k ≤ 2 * (node.bestHeight - nHeight) + 20) →
      k ≤ m := fun k h₀ hk =>
    hupper (validatePostNumberForUser_iff.mpr ⟨tx, nHeight, hfound, h₀, hk⟩)
  have hpos : 0 < node.bestHeight := by
    by_contra hzero
    have := hother (m + 1) (by omega) fun hpos => absurd hpos hzero
    omega
  have hm : m = 2 * (node.bestHeight - nHeight) + 20 :=
    Int.le_antisymm (hlimit hpos) (hother _ ((hlimit hpos).trans' hnonneg) fun _ => Int.le_refl _)
  refine ⟨by omega, fun k => ⟨fun hk => ?_, fun hk => ?_⟩⟩
  · obtain ⟨-, -, -, h₀, -⟩ := validatePostNumberForUser_iff.mp hk
    exact ⟨h₀, hupper hk⟩
  · exact validatePostNumberForUser_iff.mpr ⟨tx, nHeight, hfound, hk.1, fun _ => hm ▸ hk.2⟩

/-- The largest valid post number. -/
theorem isGreatest_limit {tx : CTransaction} {nHeight : Int}
    (hfound : node.getTransactionAt username (-1) = some (tx, nHeight)) (hpos : 0 < node.bestHeight)
    (hlimit : 0 ≤ 2 * (node.bestHeight - nHeight) + 20) :
    IsGreatest {k | validatePostNumberForUser node username k = true}
      (2 * (node.bestHeight - nHeight) + 20) := by
  refine ⟨validatePostNumberForUser_iff.mpr ⟨tx, nHeight, hfound, hlimit, fun _ => Int.le_refl _⟩,
    ?_⟩
  intro k hk
  obtain ⟨tx', nHeight', hfound', -, hle⟩ := validatePostNumberForUser_iff.mp hk
  cases hfound.symm.trans hfound'
  exact hle hpos

end Greatest

/-! ## Honest nodes -/

/-- The node hears of posts up to a number in `have` messages, and has such posts. -/
def Event.UpTo (k : Nat) : Event → Prop
  | .incomingHave _ _ index => index ≤ k
  | .addPiece piece => piece ≤ k
  | .incomingBitfield .. => False
  | _ => True

theorem Event.UpTo.leavesRoom {k : Nat} {username : Bytes} {t : Torrent} {e : Event}
    (h : e.UpTo k) : e.LeavesRoom username t := by
  cases e with
  | incomingBitfield node i bits => exact h.elim
  | connect | leave | incomingHave | request | addPiece | finished => exact trivial

instance (k : Nat) : (e : Event) → Decidable (e.UpTo k)
  | .incomingHave _ _ index => inferInstanceAs (Decidable (index ≤ k))
  | .addPiece piece => inferInstanceAs (Decidable (piece ≤ k))
  | .incomingBitfield .. => .isFalse id
  | .connect | .leave _ | .request .. | .finished .. => .isTrue trivial

/-! ### Posts of alice -/

/-- A node at this height. -/
def bestNode (bestHeight : Int) : PostNode := { quoteNode with bestHeight := bestHeight }

/-- The pieces of a node with post `k`. -/
def ownPiece (bestHeight : Int) (k : Nat) : Option Torrent :=
  System.run (next pieceNet (ascii "alice")) (fun _ e => decide (e.UpTo k)) fresh
    [.addPiece k, .finished (bestNode bestHeight) {} k (Entry.bencode (favPiece k))]

/-- The torrent of alice with that post, its bitfield, and the largest post number. -/
structure OwnBitfield (bestHeight : Int) (k : Nat) (t : Torrent) (bits : List Bool) : Prop where
  reach : (system pieceNet (ascii "alice")).Reach (fun _ e => e.UpTo k) t
  count : t.numPieces = k + 2
  sent : t.writeBitfield true [] = some bits
  greatest : IsGreatest
    {k | validatePostNumberForUser (bestNode bestHeight) (ascii "alice") k = true}
    (2 * (bestHeight - 1) + 20)

/-- The pieces of alice, and the connections of a new node after their bitfield. -/
def answered (bestHeight : Int) (k : Nat) : Option (Nat × Nat) :=
  (ownPiece bestHeight k).bind fun t => (t.writeBitfield true []).map fun bits =>
    (t.numPieces,
      (fresh.connect.incomingBitfield (bestNode bestHeight)
        (ascii "alice") 0 bits).connections.length)

theorem ownBitfield_of_answered {bestHeight : Int} {k n : Nat} (hbest : 0 < bestHeight)
    (h : answered bestHeight k = some (k + 2, n)) :
    ∃ t bits, OwnBitfield bestHeight k t bits ∧
      (fresh.connect.incomingBitfield (bestNode bestHeight) (ascii "alice") 0
        bits).connections.length = n := by
  obtain ⟨t, hrun, hbits⟩ := Option.bind_eq_some_iff.mp h
  obtain ⟨bits, hsent, hpair⟩ := Option.map_eq_some_iff.mp hbits
  obtain ⟨hcount, hlength⟩ := Prod.mk.inj hpair
  refine ⟨t, bits, ⟨?_, hcount, hsent, ?_⟩, hlength⟩
  · exact System.Reach.of_run (fun _ _ _ hnext => hnext) (fun _ _ h => of_decide_eq_true h)
      (.init rfl) hrun
  · exact isGreatest_limit (show (bestNode bestHeight).getTransactionAt (ascii "alice") (-1) =
      some (memberTx "alice" 1, 1) from rfl) hbest (show 0 ≤ 2 * (bestHeight - 1) + 20 by omega)

/-! ### The answer -/

theorem length_recordBitfield {t : Torrent} {i : Nat} {bits : List Bool} {c : Connection}
    (hc : t.connections[i]? = some c) (hupload : c.uploadOnly = false)
    (hcount : bits.count true ≠ c.havePiece.length) :
    (t.recordBitfield i bits).connections.length = t.connections.length := by
  rw [recordBitfield, hc]
  simp only [if_neg hcount, hupload, Bool.and_false, Bool.false_eq_true, if_false]
  exact List.length_set

/-- The connection is kept iff the length is valid. -/
theorem length_incomingBitfield {node : PostNode} {username : Bytes} {t : Torrent}
    {bits : List Bool} (hlong : t.numPieces < bits.length)
    (hcount : bits.count true < bits.length) :
    (t.connect.incomingBitfield node username t.connections.length bits).connections.length =
        t.connect.connections.length ↔
      validatePostNumberForUser node username (bits.length - 7) = true := by
  have hconnect : t.connect.connections.length = t.connections.length + 1 := List.length_append
  rw [incomingBitfield, fitBitfield, if_pos (show bits.length > t.connect.numPieces from hlong)]
  by_cases hvalid : validatePostNumberForUser node username (bits.length - 7) = true
  · have hincrease : t.connect.increaseNumPieces bits.length = { t.connect with
        numPieces := bits.length
        picker := t.connect.picker.map (List.rightpad bits.length none)
        connections := t.connect.connections.map (·.onMetadataImpl bits.length) } :=
      if_neg (Nat.not_lt.mpr (Nat.le_of_lt hlong))
    have hnew : (t.connect.increaseNumPieces bits.length).connections[t.connections.length]? =
        some (Connection.onMetadataImpl { havePiece := List.replicate t.numPieces false }
          bits.length) := by
      rw [hincrease]
      simp [connect]
    have hsize : (Connection.onMetadataImpl { havePiece := List.replicate t.numPieces false }
        bits.length).havePiece.length = bits.length :=
      length_rightpad_of_le (by simpa using Nat.le_of_lt hlong)
    simp only [if_pos hvalid]
    rw [length_recordBitfield hnew rfl (by rw [hsize]; exact Nat.ne_of_lt hcount), hincrease]
    simp [hvalid]
  · simp only [if_neg hvalid, disconnect, hconnect, List.length_eraseIdx]
    simp [hvalid]

/-- Between nodes whose pieces come from `have` messages and own posts up to `k`, a bitfield keeps
the connection unless the largest number `m` is divisible by eight and `k` is `m` or `m - 1`. -/
theorem bitfield_taken_iff {env : PostEnv} {node : PostNode} {username : Bytes} {k : Nat} {m : Int}
    {sender receiver : Torrent} {supportsFast : Bool} {lazyPieces : List Nat} {bits : List Bool}
    (hm : IsGreatest {k | validatePostNumberForUser node username k = true} m) (hk : k ≤ m)
    (hsender : (system env username).Reach (fun _ e => e.UpTo k) sender)
    (hcount : sender.numPieces = k + 2)
    (hbits : sender.writeBitfield supportsFast lazyPieces = some bits)
    (hless : receiver.numPieces < sender.numPieces) :
    (receiver.connect.incomingBitfield node username receiver.connections.length
        bits).connections.length = receiver.connect.connections.length ↔
      ¬(m % 8 = 0 ∧ m ≤ k + 1) := by
  have hroomy : Roomy sender := Roomy.of_reach (hsender.mono fun _ _ h => h.leavesRoom)
  have hlength : bits.length = 8 * ((k + 9) / 8) := by
    rw [length_writeBitfield hbits, hcount]
  have hlong : receiver.numPieces < bits.length := by omega
  have hcountBits : bits.count true < bits.length := by
    refine count_lt_of_room (by omega) fun j hj => ?_
    have := hroomy.hasPiece (hasPiece_of_bit hbits hj)
    omega
  obtain ⟨heven, hvalid⟩ := valid_iff_of_isGreatest hm
  rw [length_incomingBitfield hlong hcountBits, hvalid, hlength]
  omega

/-- Alice may have posts up to 28, and the last one is announced to a new node. -/
theorem bitfield_taken_alice :
    ∃ t bits, OwnBitfield 5 28 t bits ∧
      (fresh.connect.incomingBitfield (bestNode 5) (ascii "alice") 0 bits).connections.length =
        1 := by
  obtain ⟨t, bits, hown, -⟩ := @ownBitfield_of_answered 5 28 1 (by decide) (by decide +kernel)
  have hless : fresh.numPieces < t.numPieces := hown.count ▸ by decide
  exact ⟨t, bits, hown,
    (bitfield_taken_iff hown.greatest (by decide) hown.reach hown.count hown.sent
    hless).mpr (by decide)⟩

/-- Alice may have posts up to 24, and the bitfield with the last one ends a connection. -/
theorem bitfield_dropped :
    ∃ t bits, OwnBitfield 3 24 t bits ∧
      (fresh.connect.incomingBitfield (bestNode 3) (ascii "alice") 0 bits).connections.length = 0 :=
  ownBitfield_of_answered (by decide) (by decide +kernel)

end Torrent
end CoMoNet
