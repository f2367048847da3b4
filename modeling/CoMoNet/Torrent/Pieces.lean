import CoMoNet.Lib.Reach
import CoMoNet.Post.OnChain

/-!
# Torrents of posts

The posts of a user are the pieces of a torrent without end. Peers announce pieces,
within the limit of `validatePostNumberForUser` (`numPieces_bounded`).
-/

namespace CoMoNet

open GuardedRun

/-- A peer connection. -/
structure Connection where
  havePiece : List Bool
  bitfieldReceived : Bool := false
  uploadOnly : Bool := false
  interesting : Bool := false
deriving DecidableEq, Repr

namespace Connection

/-- `on_metadata_impl`: the pieces that are new are not there. -/
def onMetadataImpl (c : Connection) (numPieces : Nat) : Connection :=
  { c with havePiece := c.havePiece.rightpad numPieces false }

/-- `incoming_have_none`, beside the disconnection. -/
def incomingHaveNone (c : Connection) : Connection :=
  { c with
      havePiece := c.havePiece.map fun _ => false
      bitfieldReceived := true
      interesting := false }

/-- A `have` message that comes before a bitfield counts as `have_none` first. -/
def beforeHave (c : Connection) : Connection :=
  if c.bitfieldReceived then c else c.incomingHaveNone

/-- The peer has all pieces. -/
def isSeed (c : Connection) : Bool :=
  c.havePiece.count true == c.havePiece.length && 0 < c.havePiece.length

end Connection

/-- A torrent of posts. -/
structure Torrent where
  numPieces : Nat
  /-- `m_picker`: for each piece its flags, if we have it.  A seed has no picker. -/
  picker : Option (List (Option Nat))
  /-- The pieces `m_picker` has in `m_downloads`. -/
  downloads : List Nat
  connections : List Connection
deriving DecidableEq, Repr

namespace Torrent

/-- The torrent of `startTorrentUser`, without resume data. -/
def fresh : Torrent := ⟨1, some [none], [], []⟩

/-- `have_piece`. -/
def hasPiece (t : Torrent) (index : Nat) : Bool :=
  match t.picker with
  | none => true
  | some pieces => (pieces.getD index none).isSome

/-- `num_have`. -/
def numHave (t : Torrent) : Nat :=
  match t.picker with
  | none => t.numPieces
  | some pieces => pieces.countP Option.isSome

/-- `is_seed`, the state without a picker. No piece is filtered, so `is_finished` is the same. -/
def isSeed (t : Torrent) : Bool :=
  match t.picker with
  | none => true
  | some pieces => pieces.countP Option.isSome == pieces.length

/-- `increase_num_pieces`. -/
def increaseNumPieces (t : Torrent) (n : Nat) : Torrent :=
  if t.numPieces > n then t
  else
    { t with
        numPieces := n
        picker := t.picker.map (List.rightpad n none)
        connections := t.connections.map (·.onMetadataImpl n) }

/-- Replaces a connection. -/
def setConnection (t : Torrent) (i : Nat) (c : Connection) : Torrent :=
  { t with connections := t.connections.set i c }

/-- `disconnect`. -/
def disconnect (t : Torrent) (i : Nat) : Torrent :=
  { t with connections := t.connections.eraseIdx i }

/-- The test of `disconnect_if_redundant`, with `close_redundant_connections`. -/
def isRedundant (t : Torrent) (c : Connection) : Bool :=
  c.uploadOnly && (t.isSeed || (!c.interesting && c.bitfieldReceived))

/-- The end of `incoming_have`, for a number that is valid. -/
def recordHave (t : Torrent) (i index : Nat) : Torrent :=
  match t.connections[i]? with
  | none => t
  | some c =>
    if c.havePiece.getD index false then t
    else
      let c := { c with havePiece := c.havePiece.set index true }
      let c := { c with uploadOnly := c.uploadOnly || c.isSeed }
      if c.isSeed && t.isRedundant c then t.disconnect i
      else t.setConnection i
        { c with interesting := c.interesting || (!t.hasPiece index && !t.isSeed) }

/-- `incoming_have`. -/
def incomingHave (node : PostNode) (username : Bytes) (t : Torrent) (i : Nat) (index : Int) :
    Torrent :=
  match t.connections[i]? with
  | none => t
  | some c =>
    if !c.bitfieldReceived && t.isRedundant c.beforeHave then t.disconnect i
    else if validatePostNumberForUser node username index then
      ((t.setConnection i c.beforeHave).increaseNumPieces (index.toNat + 2)).recordHave i
        index.toNat
    else t.disconnect i

/-- The test of the size in `incoming_bitfield`; `none` is a disconnection. -/
def fitBitfield (node : PostNode) (username : Bytes) (t : Torrent) (bits : List Bool) :
    Option (Torrent × List Bool) :=
  if bits.length > t.numPieces then
    if validatePostNumberForUser node username (bits.length - 7) then
      some (t.increaseNumPieces bits.length, bits)
    else none
  else some (t, bits.rightpad t.numPieces false)

/-- The end of `incoming_bitfield`. -/
def recordBitfield (t : Torrent) (i : Nat) (bits : List Bool) : Torrent :=
  match t.connections[i]? with
  | none => t
  | some c =>
    if bits.count true = c.havePiece.length then
      let c := { c with
        havePiece := c.havePiece.map fun _ => true
        bitfieldReceived := true
        uploadOnly := true
        interesting := c.interesting || !t.isSeed }
      if t.isRedundant c then t.disconnect i else t.setConnection i c
    else
      let interesting := (List.range bits.length).any fun j => bits.getD j false && !t.hasPiece j
      if !interesting && c.uploadOnly then t.disconnect i
      else t.setConnection i
        { c with
            havePiece := bits
            bitfieldReceived := true
            interesting := c.interesting || interesting }

/-- `incoming_bitfield`. -/
def incomingBitfield (node : PostNode) (username : Bytes) (t : Torrent) (i : Nat)
    (bits : List Bool) : Torrent :=
  match t.fitBitfield node username bits with
  | none => t.disconnect i
  | some (t, bits) => t.recordBitfield i bits

/-- `request_a_block`: a piece is picked that the peer has. -/
def requestPiece (t : Torrent) (i index : Nat) : Torrent :=
  match t.connections[i]? with
  | none => t
  | some c =>
    if c.havePiece.getD index false && !t.hasPiece index then
      { t with downloads := index :: t.downloads }
    else t

/-- `add_piece`, up to the verification of the piece. -/
def addPiece (t : Torrent) (piece : Nat) : Torrent :=
  let t := t.increaseNumPieces (piece + 2)
  if t.hasPiece piece then t else { t with downloads := piece :: t.downloads }

/-- `piece_passed`: `we_have`, and `completed` after the last. The picker keeps four flag bits. -/
def piecePassed (t : Torrent) (index postFlags : Nat) : Torrent :=
  let t := { t with
    picker := t.picker.map (List.set · index (some (postFlags % 16)))
    downloads := t.downloads.filter (· ≠ index) }
  if t.isSeed then { t with picker := none, downloads := [] } else t

/-- `piece_finished`. -/
def pieceFinished (t : Torrent) (index : Nat) (passedHashCheck : Bool) (postFlags : Nat) :
    Torrent :=
  if t.isSeed || !t.downloads.contains index then t
  else if passedHashCheck then t.piecePassed index postFlags
  else { t with downloads := t.downloads.filter (· ≠ index) }

/-! ## Runs -/

/-- What happens to a torrent.  The chain of the node is the one of the moment. -/
inductive Event where
  | connect
  | leave (i : Nat)
  /-- A `have` message. -/
  | incomingHave (node : PostNode) (i : Nat) (index : Int)
  /-- A `bitfield` message. -/
  | incomingBitfield (node : PostNode) (i : Nat) (bits : List Bool)
  | request (i index : Nat)
  | addPiece (piece : Nat)
  /-- All of a piece is there; `acceptSignedPost` decides. -/
  | finished (node : PostNode) (s : PostState) (index : Nat) (data : Bytes)

/-- A peer connects: `init`. -/
def connect (t : Torrent) : Torrent :=
  { t with connections := t.connections ++ [{ havePiece := List.replicate t.numPieces false }] }

/-- The torrent after an event; `none` is an exception of `acceptSignedPost`. -/
def next (env : PostEnv) (username : Bytes) (t : Torrent) : Event → Option Torrent
  | .connect => some t.connect
  | .leave i => some (t.disconnect i)
  | .incomingHave node i index => some (t.incomingHave node username i index)
  | .incomingBitfield node i bits => some (t.incomingBitfield node username i bits)
  | .request i index => some (t.requestPiece i index)
  | .addPiece piece => some (t.addPiece piece)
  | .finished node s index data =>
    (PostState.acceptSignedPost env node s data username index true).map fun r =>
      t.pieceFinished index r.1.ret (r.1.flags.getD 0)

/-- The torrent of a user under these events. -/
def system (env : PostEnv) (username : Bytes) : System Torrent Event where
  init t := t = fresh
  step t e t' := next env username t e = some t'

/-! ## The number of pieces -/

/-- An event makes room for pieces, up to a number that is valid. -/
def Event.MakesRoom (username : Bytes) : Event → Nat → Prop
  | .incomingHave node _ index, n =>
    validatePostNumberForUser node username index = true ∧ n = index.toNat + 2
  | .incomingBitfield node _ bits, n =>
    validatePostNumberForUser node username (bits.length - 7) = true ∧ n = bits.length
  | .addPiece piece, n => n = piece + 2
  | _, _ => False

section Steps

variable {env : PostEnv} {username : Bytes} {t t' : Torrent} {e : Event}

theorem numPieces_increaseNumPieces (t : Torrent) (n : Nat) :
    (t.increaseNumPieces n).numPieces = max t.numPieces n := by
  rw [increaseNumPieces]
  split
  · rename_i h
    exact (Nat.max_eq_left (Nat.le_of_lt h)).symm
  · rename_i h
    exact (Nat.max_eq_right (Nat.le_of_not_lt h)).symm

@[simp]
theorem numPieces_setConnection (t : Torrent) (i : Nat) (c : Connection) :
    (t.setConnection i c).numPieces = t.numPieces := rfl

@[simp]
theorem numPieces_disconnect (t : Torrent) (i : Nat) : (t.disconnect i).numPieces = t.numPieces :=
  rfl

@[simp]
theorem numPieces_recordHave (t : Torrent) (i index : Nat) :
    (t.recordHave i index).numPieces = t.numPieces := by
  rw [recordHave]
  split
  · rfl
  · simp only
    split
    · rfl
    · split <;> rfl

@[simp]
theorem numPieces_recordBitfield (t : Torrent) (i : Nat) (bits : List Bool) :
    (t.recordBitfield i bits).numPieces = t.numPieces := by
  rw [recordBitfield]
  split
  · rfl
  · simp only
    split <;> split <;> rfl

@[simp]
theorem numPieces_pieceFinished (t : Torrent) (index postFlags : Nat) (passed : Bool) :
    (t.pieceFinished index passed postFlags).numPieces = t.numPieces := by
  rw [pieceFinished]
  split
  · rfl
  split
  · rw [piecePassed]
    split <;> rfl
  · rfl

theorem incomingHave_cases (node : PostNode) (username : Bytes) (t : Torrent) (i : Nat)
    (index : Int) :
    t.incomingHave node username i index = t ∨
      t.incomingHave node username i index = t.disconnect i ∨
      ∃ c, t.connections[i]? = some c ∧ validatePostNumberForUser node username index = true ∧
        t.incomingHave node username i index =
          ((t.setConnection i c.beforeHave).increaseNumPieces (index.toNat + 2)).recordHave i
            index.toNat := by
  rw [incomingHave]
  split
  · exact .inl rfl
  rename_i c hc
  split
  · exact .inr (.inl rfl)
  split
  · rename_i hvalid
    exact .inr (.inr ⟨c, hc, hvalid, rfl⟩)
  · exact .inr (.inl rfl)

/-- What `incoming_bitfield` does. -/
theorem incomingBitfield_cases (node : PostNode) (username : Bytes) (t : Torrent) (i : Nat)
    (bits : List Bool) :
    t.incomingBitfield node username i bits = t.disconnect i ∨
      (t.numPieces < bits.length ∧
        validatePostNumberForUser node username (bits.length - 7) = true ∧
        t.incomingBitfield node username i bits =
          (t.increaseNumPieces bits.length).recordBitfield i bits) ∨
      (bits.length ≤ t.numPieces ∧ t.incomingBitfield node username i bits =
        t.recordBitfield i (bits.rightpad t.numPieces false)) := by
  rw [incomingBitfield, fitBitfield]
  split
  · exact .inl rfl
  rename_i t' bits' hfit
  split at hfit
  · rename_i hlong
    split at hfit
    · rename_i hvalid
      cases hfit
      exact .inr (.inl ⟨hlong, hvalid, rfl⟩)
    · cases hfit
  · rename_i hshort
    cases hfit
    exact .inr (.inr ⟨Nat.le_of_not_lt hshort, rfl⟩)

/-- A step makes room or leaves the number. -/
theorem numPieces_next (h : next env username t e = some t') :
    t'.numPieces = t.numPieces ∨ ∃ n, e.MakesRoom username n ∧
      t'.numPieces = max t.numPieces n := by
  cases e with
  | connect | leave i =>
    cases h
    exact .inl rfl
  | incomingHave node i index =>
    cases h
    obtain hsame | hgone | ⟨c, -, hvalid, hmade⟩ := incomingHave_cases node username t i index
    · exact .inl (by rw [hsame])
    · exact .inl (by rw [hgone, numPieces_disconnect])
    · refine .inr ⟨index.toNat + 2, ⟨hvalid, rfl⟩, ?_⟩
      rw [hmade, numPieces_recordHave, numPieces_increaseNumPieces, numPieces_setConnection]
  | incomingBitfield node i bits =>
    cases h
    obtain hgone | ⟨-, hvalid, hmade⟩ | ⟨-, hmade⟩ :=
      incomingBitfield_cases node username t i bits
    · exact .inl (by rw [hgone, numPieces_disconnect])
    · refine .inr ⟨bits.length, ⟨hvalid, rfl⟩, ?_⟩
      rw [hmade, numPieces_recordBitfield, numPieces_increaseNumPieces]
    · exact .inl (by rw [hmade, numPieces_recordBitfield])
  | request i index =>
    cases h
    rw [requestPiece]
    split
    · exact .inl rfl
    · split <;> exact .inl rfl
  | addPiece piece =>
    cases h
    refine .inr ⟨piece + 2, rfl, ?_⟩
    rw [addPiece, ← numPieces_increaseNumPieces]
    split <;> rfl
  | finished node s index data =>
    obtain ⟨r, -, rfl⟩ := Option.map_eq_some_iff.mp h
    exact .inl (numPieces_pieceFinished t index _ _)

end Steps

/-! ## What remote peers can do -/

/-- The user is registered at a height, with no key replaced; the best height is within a bound. -/
structure RegisteredAt (node : PostNode) (username : Bytes) (r b : Int) : Prop where
  /-- The newest transaction of the user is the registration. -/
  registered : ∀ tx nHeight, node.getTransactionAt username (-1) = some (tx, nHeight) → nHeight = r
  positive : 0 < node.bestHeight
  bounded : node.bestHeight ≤ b

/-- The node has no post of its own, and the chain is as above. -/
def Event.Remote (username : Bytes) (r b : Int) : Event → Prop
  | .incomingHave node _ _ | .incomingBitfield node _ _ => RegisteredAt node username r b
  | .addPiece _ => False
  | _ => True

/-- Valid post numbers are bounded. -/
theorem RegisteredAt.le_of_valid {node : PostNode} {username : Bytes} {r b k : Int}
    (h : RegisteredAt node username r b)
    (hvalid : validatePostNumberForUser node username k = true) :
    k ≤ 2 * (b - r) + 20 := by
  obtain ⟨tx, nHeight, hfound, -, hlimit⟩ := validatePostNumberForUser_iff.mp hvalid
  have hheight := h.registered tx nHeight hfound
  have hk := hlimit h.positive
  have hb := h.bounded
  omega

theorem Event.Remote.le_of_makesRoom {username : Bytes} {r b : Int} {e : Event} {n : Nat}
    (h : e.Remote username r b) (hroom : e.MakesRoom username n) :
    (n : Int) ≤ 2 * (b - r) + 27 := by
  cases e with
  | incomingHave node i index =>
    obtain ⟨hvalid, rfl⟩ := hroom
    have hle := RegisteredAt.le_of_valid h hvalid
    obtain ⟨-, -, -, hnonneg, -⟩ := validatePostNumberForUser_iff.mp hvalid
    omega
  | incomingBitfield node i bits =>
    obtain ⟨hvalid, rfl⟩ := hroom
    have hle := RegisteredAt.le_of_valid h hvalid
    omega
  | addPiece piece => exact h.elim
  | connect | leave | request | finished => exact hroom.elim

/-- Whatever remote peers announce, the pieces do not exceed their first number and the limit of
the chain, and never get fewer. -/
theorem numPieces_bounded {env : PostEnv} {username : Bytes} {r b : Int} {t t' : Torrent}
    (h : (system env username).Later (fun _ e => e.Remote username r b) t t') :
    (t'.numPieces : Int) ≤ max (t.numPieces : Int) (2 * (b - r) + 27) ∧
      t.numPieces ≤ t'.numPieces := by
  refine (System.Later.rule (I := fun _ => True)
    (R := fun t t' : Torrent => (t'.numPieces : Int) ≤ max (t.numPieces : Int) (2 * (b - r) + 27) ∧
      t.numPieces ≤ t'.numPieces) ?_ ?_ ?_ trivial h).2
  · intro t
    omega
  · rintro t₁ t₂ t₃ ⟨h₁, h₁'⟩ ⟨h₂, h₂'⟩
    omega
  · intro t₁ e t₂ _ hremote hstep
    refine ⟨trivial, ?_⟩
    obtain hsame | ⟨n, hroom, hmax⟩ := numPieces_next hstep
    · omega
    · have hle := hremote.le_of_makesRoom hroom
      omega

/-- A peer that claims 32 posts of alice, who may have 28 at most. -/
theorem numPieces_bounded_alice :
    (((fresh.connect.incomingBitfield quoteNode (ascii "alice") 0
        (List.replicate 32 true)).numPieces : Nat) : Int) ≤ max (1 : Int) (2 * (5 - 1) + 27) ∧
      1 ≤ (fresh.connect.incomingBitfield quoteNode (ascii "alice") 0
        (List.replicate 32 true)).numPieces := by
  have hnode : RegisteredAt quoteNode (ascii "alice") 1 5 := by
    refine ⟨fun tx nHeight hfound => ?_, by decide, by decide⟩
    change (aliceGroup.getTransaction (ascii "alice")).map (fun tx => (tx, 1)) = _ at hfound
    obtain ⟨tx', -, hpair⟩ := Option.map_eq_some_iff.mp hfound
    cases hpair
    rfl
  exact @numPieces_bounded (quoteNet []) _ 1 5 fresh _
    (.tail (.tail .refl ⟨.connect, trivial, rfl⟩)
      ⟨.incomingBitfield quoteNode 0 (List.replicate 32 true), hnode, rfl⟩)

end Torrent
end CoMoNet
