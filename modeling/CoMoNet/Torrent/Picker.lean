import CoMoNet.Lib.Results
import Mathlib.Algebra.Ring.Int.Defs

/-!
# The piece picker

`we_have` raises `m_last_have` and `we_dont_have` lowers it with a scan that reads a
piece before it tests the index. `run_marked_iff` says when calls stay in the vector and
the mark is right.
-/

namespace CoMoNet

/-- `piece_pos`. -/
structure PiecePos where
  peerCount : Nat := 0
  downloading : Bool := false
  piecePriority : Nat := 1
  /-- The place in `m_pieces`. -/
  index : Nat := 0
deriving DecidableEq

namespace PiecePos

/-- `piece_pos::we_have_index`. -/
def weHaveIndex : Nat := 0xffffffff

/-- `have`. -/
def isHave (pos : PiecePos) : Bool := pos.index == weHaveIndex

/-- `filtered`. -/
def filtered (pos : PiecePos) : Bool := pos.piecePriority == 0

/-- `priority`. -/
def priority (pos : PiecePos) (seeds : Nat) : Int :=
  if pos.filtered || pos.isHave || pos.peerCount + seeds == 0 then -1
  else if pos.piecePriority = 7 then 1 - pos.downloading.toNat
  else
    let availability := if 4 ≤ pos.piecePriority then pos.peerCount / 2 else pos.peerCount
    let p := if 4 ≤ pos.piecePriority then pos.piecePriority - 3 else pos.piecePriority
    if pos.downloading then availability * 4 else availability * 4 + 4 - p

end PiecePos

/-- `m_piece_map` is accessed at an index that it does not have. -/
structure OutOfBounds where
  index : Int
deriving DecidableEq

/-- `piece_picker`; its members are called `m_seeds`, `m_pieces` and so on. -/
structure PiecePicker where
  seeds : Nat := 0
  pieces : List Nat := []
  priorityBoundries : List Nat := [0]
  pieceMap : List PiecePos := []
  /-- The pieces of `m_downloads`. -/
  downloads : List Nat := []
  numFiltered : Int := 0
  numHaveFiltered : Int := 0
  numHave : Int := 0
  lastHave : Int := -1
  cursor : Nat := 0
  reverseCursor : Nat := 0
  sparseRegions : Int := 1
  dirty : Bool := false
deriving DecidableEq

/-- What is random in a picker. -/
structure PickerRandom where
  random : PiecePicker → Nat
  /-- `std::random_shuffle`. -/
  shuffle : List Nat → List Nat
  shuffle_perm : ∀ pieces, (shuffle pieces).Perm pieces

/-- `std::vector::resize`. -/
def resizeMap (n : Nat) (map : List PiecePos) : List PiecePos := (map.take n).rightpad n {}

/-- The loop that moves `m_cursor` up. -/
def advance (map : List PiecePos) (cursor : Nat) : Except OutOfBounds Nat :=
  if cursor = map.length then .ok cursor
  else
    match h : map[cursor]? with
    | none => .error ⟨cursor⟩
    | some pos =>
      if pos.isHave || pos.filtered then advance map (cursor + 1) else .ok cursor
termination_by map.length - cursor
decreasing_by
  have := (List.getElem?_eq_some_iff.mp h).1
  omega

/-- The loop that moves `m_reverse_cursor` down. -/
def retreat (map : List PiecePos) : Nat → Except OutOfBounds Nat
  | 0 => .ok 0
  | n + 1 =>
    match map[n]? with
    | none => .error ⟨n⟩
    | some pos => if pos.isHave || pos.filtered then retreat map n else .ok (n + 1)

/-- The loop that lowers `m_last_have`; the piece is read before the index is tested. -/
def lowerMark (map : List PiecePos) : Nat → Except OutOfBounds Int
  | 0 => .error ⟨-1⟩
  | n + 1 =>
    match map[n]? with
    | none => .error ⟨n⟩
    | some pos => if pos.isHave then .ok n else lowerMark map n

namespace PiecePicker

/-- The length of `m_piece_map`. -/
def numPieces (p : PiecePicker) : Nat := p.pieceMap.length

/-- `m_piece_map[i]`. -/
def pieceAt (p : PiecePicker) (i : Nat) : Except OutOfBounds PiecePos :=
  match p.pieceMap[i]? with
  | none => .error ⟨i⟩
  | some pos => .ok pos

/-- `have_piece`. -/
def havePiece (p : PiecePicker) (i : Nat) : Bool := p.pieceMap[i]?.any PiecePos.isHave

/-- `init`. -/
def init (p : PiecePicker) (totalNumPieces : Nat) : Except OutOfBounds PiecePicker := do
  let map := (resizeMap totalNumPieces p.pieceMap).map fun pos =>
    { pos with peerCount := 0, downloading := false, index := 0 }
  let cursor ← advance map 0
  let reverseCursor ← retreat map map.length
  return { p with
    pieceMap := map
    downloads := []
    numFiltered := p.numFiltered + p.numHaveFiltered
    numHaveFiltered := 0
    numHave := 0
    lastHave := -1
    cursor
    reverseCursor
    dirty := true }

/-- A range of `m_pieces`. -/
def bucket (rng : PickerRandom) (p : PiecePicker) (prio : Nat) : List Nat :=
  rng.shuffle ((List.range p.numPieces).filter fun i =>
    p.pieceMap[i]?.any fun pos => pos.priority p.seeds == (prio : Int))

/-- `update_pieces`: the pieces that can be picked, sorted by priority. -/
def updatePieces (rng : PickerRandom) (p : PiecePicker) : PiecePicker :=
  let levels := p.pieceMap.foldl (fun n pos => max n (pos.priority p.seeds + 1).toNat)
    (max 1 p.priorityBoundries.length)
  let pieces := (List.range levels).flatMap (p.bucket rng)
  { p with
    priorityBoundries := (List.range levels).map fun prio =>
      ((List.range (prio + 1)).flatMap (p.bucket rng)).length
    pieces
    pieceMap := pieces.zipIdx.foldl
      (fun map piece => map.modify piece.1 ({ · with index := piece.2 })) p.pieceMap
    dirty := false }

/-- `increase_num_pieces`, which starts behind the end if the vector has become shorter. -/
def increaseNumPieces (rng : PickerRandom) (p : PiecePicker) (totalNumPieces : Nat) :
    Except OutOfBounds PiecePicker := do
  let map := resizeMap totalNumPieces p.pieceMap
  if map.length < p.numPieces then throw ⟨p.numPieces⟩
  let reverseCursor ← retreat map map.length
  return updatePieces rng { p with pieceMap := map, reverseCursor, dirty := true }

/-- Puts a piece at a place of `m_pieces`, and returns the one that was there. -/
def place (p : PiecePicker) (piece newIndex : Nat) :
    Except OutOfBounds (PiecePicker × Option Nat) := do
  let _ ← p.pieceAt piece
  return ({ p with
    pieces := p.pieces.take newIndex ++ piece :: p.pieces.drop (newIndex + 1)
    pieceMap := p.pieceMap.modify piece ({ · with index := newIndex }) }, p.pieces[newIndex]?)

/-- The loop of `add`: a piece that had to leave goes to the end of its range. -/
def addLoop (p : PiecePicker) (index : Option Nat) (newIndex : Nat) :
    List Nat → Except OutOfBounds PiecePicker
  | [] => .ok p
  | priority :: priorities => do
    let temp := p.priorityBoundries.getD priority 0
    let p := { p with priorityBoundries := p.priorityBoundries.set priority (temp + 1) }
    match index with
    | none => addLoop p none newIndex priorities
    | some piece =>
      if temp = newIndex then addLoop p index newIndex priorities
      else
        let (p, index) ← p.place piece temp
        addLoop p index temp priorities

/-- `add`. -/
def add (rng : PickerRandom) (p : PiecePicker) (index : Nat) : Except OutOfBounds PiecePicker := do
  let pos ← p.pieceAt index
  let priority := (pos.priority p.seeds).toNat
  let boundries := p.priorityBoundries.rightpad (priority + 1) p.pieces.length
  let rangeStart := if priority = 0 then 0 else boundries.getD (priority - 1) 0
  let rangeEnd := boundries.getD priority 0
  let newIndex := if rangeEnd = rangeStart then rangeStart
    else rng.random p % (rangeEnd - rangeStart + 1) + rangeStart
  let (p, displaced) ← { p with priorityBoundries := boundries }.place index newIndex
  p.addLoop displaced newIndex (List.range' priority (boundries.length - priority))

/-- The loop of `remove`: the last piece of each range fills the hole before it. -/
def removeLoop (p : PiecePicker) (elemIndex : Nat) : List Nat → Except OutOfBounds PiecePicker
  | [] => .ok { p with pieces := p.pieces.dropLast }
  | priority :: priorities => do
    let temp := p.priorityBoundries.getD priority 0 - 1
    let p := { p with priorityBoundries := p.priorityBoundries.set priority temp }
    if temp = elemIndex then removeLoop p elemIndex priorities
    else
      let (p, _) ← p.place (p.pieces.getD temp 0) elemIndex
      removeLoop p temp priorities

/-- `remove`. -/
def remove (p : PiecePicker) (priority elemIndex : Nat) : Except OutOfBounds PiecePicker :=
  p.removeLoop elemIndex (List.range' priority (p.priorityBoundries.length - priority))

/-- `erase_download_piece`. -/
def eraseDownloadPiece (p : PiecePicker) (index : Nat) : PiecePicker :=
  { p with
    pieceMap := p.pieceMap.modify index ({ · with downloading := false })
    downloads := p.downloads.filter (· ≠ index) }

/-- `m_sparse_regions` when we have one more piece. -/
def sparseRegionsWith (p : PiecePicker) (index : Nat) : Except OutOfBounds Int := do
  if index = 0 then
    if index + 1 = p.numPieces then return p.sparseRegions - 1
    let after ← p.pieceAt (index + 1)
    return if after.isHave then p.sparseRegions - 1 else p.sparseRegions
  else if index + 1 = p.numPieces then
    let before ← p.pieceAt (index - 1)
    return if before.isHave then p.sparseRegions - 1 else p.sparseRegions
  else
    let before ← p.pieceAt (index - 1)
    let after ← p.pieceAt (index + 1)
    return if after.isHave && before.isHave then p.sparseRegions - 1
      else if !after.isHave && !before.isHave then p.sparseRegions + 1 else p.sparseRegions

/-- The cursors after `we_have`. -/
def cursorsWith (p : PiecePicker) (index : Nat) : Except OutOfBounds (Nat × Nat) :=
  if p.cursor + 1 = p.reverseCursor ∧ p.cursor = index then .ok (p.numPieces, 0)
  else if p.cursor = index then (advance p.pieceMap (index + 1)).map (·, p.reverseCursor)
  else if p.reverseCursor = index + 1 then (retreat p.pieceMap index).map (p.cursor, ·)
  else .ok (p.cursor, p.reverseCursor)

/-- The piece is there now; `pos` is as before the call. -/
def setHave (p : PiecePicker) (pos : PiecePos) (sparseRegions : Int) (index : Nat) :
    PiecePicker :=
  { p with
    sparseRegions
    numFiltered := if pos.filtered then p.numFiltered - 1 else p.numFiltered
    numHaveFiltered := if pos.filtered then p.numHaveFiltered + 1 else p.numHaveFiltered
    numHave := p.numHave + 1
    pieceMap := p.pieceMap.modify index ({ · with index := PiecePos.weHaveIndex })
    lastHave := max p.lastHave index }

/-- `we_have`. -/
def weHave (p : PiecePicker) (index : Nat) : Except OutOfBounds PiecePicker := do
  let pos ← p.pieceAt index
  let free := if pos.downloading then p.eraseDownloadPiece index else p
  if pos.isHave then return free
  let sparseRegions ← free.sparseRegionsWith index
  let full := free.setHave pos sparseRegions index
  let cursors ← full.cursorsWith index
  let moved := { full with cursor := cursors.1, reverseCursor := cursors.2 }
  if pos.priority p.seeds = -1 ∨ p.dirty then return moved
  moved.remove (pos.priority p.seeds).toNat pos.index

/-- The cursors after `we_dont_have`. -/
def cursorsWithout (p : PiecePicker) (index : Nat) : Nat × Nat :=
  let cursor := min index p.cursor
  let reverseCursor := max p.reverseCursor (index + 1)
  if reverseCursor = cursor then (p.numPieces, 0) else (cursor, reverseCursor)

/-- The piece is lost; `pos` is as before the call. -/
def setNotHave (p : PiecePicker) (pos : PiecePos) (index : Nat) (lastHave : Int) : PiecePicker :=
  let cursors := if pos.filtered then (p.cursor, p.reverseCursor) else p.cursorsWithout index
  { p with
    numFiltered := if pos.filtered then p.numFiltered + 1 else p.numFiltered
    numHaveFiltered := if pos.filtered then p.numHaveFiltered - 1 else p.numHaveFiltered
    cursor := cursors.1
    reverseCursor := cursors.2
    numHave := p.numHave - 1
    pieceMap := p.pieceMap.modify index ({ · with index := 0 })
    lastHave }

/-- `we_dont_have`. -/
def weDontHave (rng : PickerRandom) (p : PiecePicker) (index : Nat) :
    Except OutOfBounds PiecePicker := do
  let pos ← p.pieceAt index
  if !pos.isHave then return p
  let less := p.setNotHave pos index
  let lastHave ← if p.lastHave = index then lowerMark (less index).pieceMap (index + 1)
    else pure p.lastHave
  if p.dirty ∨ { pos with index := 0 }.priority p.seeds < 0 then return less lastHave
  (less lastHave).add rng index

end PiecePicker

/-! ## Runs -/

/-- The calls that change which pieces there are and which we have. -/
inductive PickerCall where
  | increaseNumPieces (totalNumPieces : Nat)
  | weHave (index : Nat)
  | weDontHave (index : Nat)

namespace PiecePicker

/-- A call. -/
def call (rng : PickerRandom) (p : PiecePicker) : PickerCall → Except OutOfBounds PiecePicker
  | .increaseNumPieces totalNumPieces => p.increaseNumPieces rng totalNumPieces
  | .weHave index => p.weHave index
  | .weDontHave index => p.weDontHave rng index

/-- A sequence of calls. -/
def run (rng : PickerRandom) (p : PiecePicker) : List PickerCall → Except OutOfBounds PiecePicker
  | [] => .ok p
  | c :: calls => (p.call rng c).bind (run rng · calls)

/-- Every call of a sequence passes a test on the picker it is made on. -/
def along (rng : PickerRandom) (test : PiecePicker → PickerCall → Bool) (p : PiecePicker) :
    List PickerCall → Bool
  | [] => true
  | c :: calls => test p c &&
    match p.call rng c with
    | .error _ => true
    | .ok p' => along rng test p' calls

/-- The index is in range. -/
def inRange (p : PiecePicker) : PickerCall → Bool
  | .increaseNumPieces _ => true
  | .weHave index | .weDontHave index => index < p.numPieces

/-- The number of pieces does not fall, and the only piece we have is not lost. -/
def allowed (p : PiecePicker) : PickerCall → Bool
  | .increaseNumPieces totalNumPieces => p.numPieces ≤ totalNumPieces
  | .weHave _ => true
  | .weDontHave index =>
    !p.havePiece index || (List.range p.numPieces).any fun j => j != index && p.havePiece j

/-- `m_last_have` is the last piece we have, or -1 if there is none. -/
structure Marked (p : PiecePicker) : Prop where
  last : ∀ i : Nat, p.havePiece i → (i : Int) ≤ p.lastHave
  have_last : p.lastHave = -1 ∨ ∃ i : Nat, p.lastHave = i ∧ p.havePiece i

/-- The picker was told of no peer and no download, so no piece can be picked. -/
structure Alone (p : PiecePicker) : Prop where
  seeds : p.seeds = 0
  pieces : ∀ pos ∈ p.pieceMap, pos.peerCount = 0 ∧ pos.downloading = false

end PiecePicker

/-! ## The loops -/

section Loops

variable {map : List PiecePos} {n : Nat}

/-- The cursor stays in the vector. -/
theorem advance_ok (map : List PiecePos) (cursor : Nat) (h : cursor ≤ map.length) :
    ∃ n, advance map cursor = .ok n := by
  fun_induction advance map cursor with
  | case1 => exact ⟨_, rfl⟩
  | case2 cursor hne hnone =>
    have := List.getElem?_eq_none_iff.mp hnone
    omega
  | case3 cursor hne pos hpos hskip ih => exact ih (List.getElem?_eq_some_iff.mp hpos).1
  | case4 => exact ⟨_, rfl⟩

theorem retreat_ok (h : n ≤ map.length) : ∃ m, retreat map n = .ok m := by
  induction n with
  | zero => exact ⟨0, rfl⟩
  | succ n ih =>
    rw [retreat, List.getElem?_eq_getElem h]
    dsimp only
    split
    · exact ih (Nat.le_of_lt h)
    · exact ⟨n + 1, rfl⟩

/-- The scan stops at the last piece below, and leaves the vector if there is none. -/
theorem lowerMark_spec (h : n ≤ map.length) :
    (∃ i < n, lowerMark map n = .ok i ∧ map[i]?.any PiecePos.isHave ∧
      ∀ j < n, map[j]?.any PiecePos.isHave → j ≤ i) ∨
    lowerMark map n = .error ⟨-1⟩ ∧ ∀ j < n, ¬ map[j]?.any PiecePos.isHave := by
  induction n with
  | zero => exact .inr ⟨rfl, fun j hj => absurd hj j.not_lt_zero⟩
  | succ n ih =>
    have hn := List.getElem?_eq_getElem h
    rw [lowerMark, hn]
    dsimp only
    split
    · rename_i hhave
      exact .inl ⟨n, n.lt_succ_self, rfl, by rwa [hn], fun j hj _ => Nat.le_of_lt_succ hj⟩
    · rename_i hhave
      have hbelow : ∀ j < n + 1, map[j]?.any PiecePos.isHave → j < n := by
        intro j hj hj'
        refine Nat.lt_of_le_of_ne (Nat.le_of_lt_succ hj) ?_
        rintro rfl
        rw [hn] at hj'
        exact hhave hj'
      rcases ih (Nat.le_of_lt h) with ⟨i, hi, hok, hat, hmax⟩ | ⟨herr, hnone⟩
      · exact .inl ⟨i, Nat.lt_succ_of_lt hi, hok, hat, fun j hj hj' => hmax j (hbelow j hj hj') hj'⟩
      · exact .inr ⟨herr, fun j hj hj' => hnone j (hbelow j hj hj') hj'⟩

end Loops

namespace PiecePicker

variable {rng : PickerRandom} {p p' : PiecePicker} {index : Nat} {pos : PiecePos}

/-! ## What a call does -/

/-- An index in range has a piece. -/
theorem exists_pieceAt (h : index < p.numPieces) :
    ∃ pos ∈ p.pieceMap, p.pieceAt index = .ok pos ∧ p.havePiece index = pos.isHave := by
  have hat := List.getElem?_eq_getElem h
  exact ⟨_, List.getElem_mem h, by rw [pieceAt, hat], by rw [havePiece, hat, Option.any_some]⟩

theorem lt_numPieces (h : p.havePiece index) : index < p.numPieces := by
  by_contra hge
  rw [havePiece, List.getElem?_eq_none (Nat.le_of_not_lt hge)] at h
  cases h

theorem Alone.priority (h : p.Alone) (hpos : pos ∈ p.pieceMap) (index : Nat) :
    { pos with index }.priority p.seeds = -1 := by
  simp [PiecePos.priority, (h.pieces pos hpos).1, h.seeds]

theorem Alone.setIndex (h : p.Alone) (hi : index < p.numPieces) {value : Nat}
    (hmap : p'.pieceMap = p.pieceMap.modify index ({ · with index := value }))
    (hseeds : p'.seeds = p.seeds) :
    p'.Alone ∧ ∀ j, p'.havePiece j ↔
      if j = index then value = PiecePos.weHaveIndex else p.havePiece j := by
  refine ⟨⟨hseeds.trans h.seeds, fun pos hpos => ?_⟩, fun j => ?_⟩
  · rw [hmap] at hpos
    obtain ⟨j, hj⟩ := List.mem_iff_getElem?.mp hpos
    rw [List.getElem?_modify] at hj
    obtain ⟨old, hold, rfl⟩ := Option.map_eq_some_iff.mp hj
    have hzero := h.pieces old (List.mem_of_getElem? hold)
    split <;> exact hzero
  · rw [havePiece, hmap, List.getElem?_modify]
    by_cases hj : j = index
    · rw [hj, List.getElem?_eq_getElem hi]
      simp [PiecePos.isHave]
    · simp [hj, Ne.symm hj, havePiece]

theorem sparseRegionsWith_ok (h : index < p.numPieces) :
    ∃ n, p.sparseRegionsWith index = .ok n := by
  have hread : ∀ i < p.numPieces, ∃ pos ∈ p.pieceMap, p.pieceAt i = .ok pos ∧ _ := fun _ =>
    exists_pieceAt
  obtain ⟨before, -, hbefore, -⟩ := hread (index - 1) (by omega)
  rw [sparseRegionsWith, hbefore]
  by_cases hlast : index + 1 = p.numPieces
  · simp only [hlast, if_true]
    split <;> exact ⟨_, rfl⟩
  · obtain ⟨after, -, hafter, -⟩ := hread (index + 1) (by omega)
    simp only [hlast, if_false, hafter]
    split <;> exact ⟨_, rfl⟩

theorem cursorsWith_ok (h : index < p.numPieces) : ∃ c, p.cursorsWith index = .ok c := by
  obtain ⟨cursor, hcursor⟩ := advance_ok p.pieceMap (index + 1) h
  obtain ⟨reverseCursor, hreverse⟩ := retreat_ok (Nat.le_of_lt h)
  rw [cursorsWith, hcursor, hreverse]
  repeat' split
  all_goals exact ⟨_, rfl⟩

/-- Gaining a piece raises the mark. -/
theorem Alone.gain (h : p.Alone) (hmark : p.Marked) (hi : index < p.numPieces)
    (hseeds : p'.seeds = p.seeds) (hlast : p'.lastHave = max p.lastHave index)
    (hmap : p'.pieceMap =
      p.pieceMap.modify index ({ · with index := PiecePos.weHaveIndex })) :
    p'.Alone ∧ p'.Marked := by
  obtain ⟨halone, hhave⟩ := h.setIndex hi hmap hseeds
  refine ⟨halone, fun j hj => ?_, .inr ?_⟩
  · rw [hhave] at hj
    split at hj
    · omega
    · have := hmark.last j hj
      omega
  · rcases hmark.have_last with hnone | ⟨i, heq, hat⟩
    · exact ⟨index, by omega, (hhave index).mpr (by simp)⟩
    · rcases Nat.le_total index i with hle | hle
      · exact ⟨i, by omega, (hhave i).mpr (by split <;> trivial)⟩
      · exact ⟨index, by omega, (hhave index).mpr (by simp)⟩

/-- `we_have` keeps the mark right. -/
theorem weHave_ok (h : p.Alone) (hmark : p.Marked) (hi : index < p.numPieces) :
    ∃ p', p.weHave index = .ok p' ∧ p'.Alone ∧ p'.Marked := by
  obtain ⟨pos, hmem, hpos, -⟩ := exists_pieceAt hi
  obtain ⟨sparseRegions, hsparse⟩ := sparseRegionsWith_ok hi
  have hfull : index < (p.setHave pos sparseRegions index).numPieces := by
    rwa [numPieces, setHave, List.length_modify]
  obtain ⟨cursors, hcursors⟩ := cursorsWith_ok hfull
  rw [weHave, hpos]
  simp only [bind, Except.bind, pure, Except.pure, (h.pieces pos hmem).2, Bool.false_eq_true,
    if_false, hsparse, hcursors, h.priority hmem pos.index, true_or, if_true]
  split
  · exact ⟨p, rfl, h, hmark⟩
  · exact ⟨_, rfl, h.gain hmark hi rfl rfl rfl⟩

theorem Alone.setNotHave (h : p.Alone) (hi : index < p.numPieces) (pos : PiecePos) (mark : Int) :
    (p.setNotHave pos index mark).Alone ∧
      ∀ j, (p.setNotHave pos index mark).havePiece j ↔ p.havePiece j ∧ j ≠ index := by
  have hmap : (p.setNotHave pos index mark).pieceMap =
    p.pieceMap.modify index ({ · with index := 0 }) := rfl
  obtain ⟨halone, hset⟩ := h.setIndex hi hmap rfl
  refine ⟨halone, fun j => (hset j).trans ?_⟩
  by_cases hj : j = index <;> simp [hj, PiecePos.weHaveIndex]

/-- A call that returns takes away the piece. -/
theorem Alone.havePiece_weDontHave (h : p.Alone) (hi : index < p.numPieces)
    (hok : p.weDontHave rng index = .ok p') (j : Nat) :
    p'.havePiece j ↔ p.havePiece j ∧ j ≠ index := by
  obtain ⟨pos, hmem, hpos, hhave⟩ := exists_pieceAt hi
  rw [weDontHave, hpos] at hok
  simp only [bind, Except.bind, pure, Except.pure, h.priority hmem 0, Int.reduceNeg, Int.reduceLT,
    or_true, if_true] at hok
  cases hat : pos.isHave with
  | false =>
    rw [hat, Bool.not_false, if_pos rfl, Except.ok.injEq] at hok
    rw [← hok]
    refine ⟨fun hj => ⟨hj, ?_⟩, And.left⟩
    rintro rfl
    rw [hhave, hat] at hj
    cases hj
  | true =>
    rw [hat, Bool.not_true, if_neg Bool.false_ne_true] at hok
    split at hok
    · split at hok
      · cases hok
      · cases hok
        exact (h.setNotHave hi pos _).2 j
    · cases hok
      exact (h.setNotHave hi pos _).2 j

/-- `we_dont_have` leaves the vector iff it loses the only piece. -/
theorem weDontHave_spec (h : p.Alone) (hmark : p.Marked) (hi : index < p.numPieces) :
    (∃ p', p.weDontHave rng index = .ok p' ∧ p'.Alone ∧ p'.Marked) ∧
        p.allowed (.weDontHave index) = true ∨
      (∃ e, p.weDontHave rng index = .error e) ∧ p.allowed (.weDontHave index) = false := by
  obtain ⟨pos, hmem, hpos, hhave⟩ := exists_pieceAt hi
  rw [weDontHave, hpos, allowed, hhave]
  simp only [bind, Except.bind, pure, Except.pure, h.priority hmem 0, Int.reduceNeg, Int.reduceLT,
    or_true, if_true]
  cases hat : pos.isHave with
  | false => exact .inl ⟨⟨p, rfl, h, hmark⟩, rfl⟩
  | true =>
    have hless := h.setNotHave hi pos
    obtain ⟨last, hlast, hatlast⟩ := hmark.have_last.resolve_left fun hnone => by
      have := hmark.last index (hhave.trans hat)
      omega
    have hallowed : ∀ j, p.havePiece j → j ≠ index →
        ((List.range p.numPieces).any fun j => j != index && p.havePiece j) = true := by
      intro j hj hne
      exact List.any_eq_true.mpr ⟨j, List.mem_range.mpr (lt_numPieces hj), by simp [hj, hne]⟩
    simp only [Bool.not_true, Bool.false_eq_true, if_false, Bool.false_or]
    split
    · rename_i hmarked
      obtain rfl : last = index := by omega
      have hlen : last + 1 ≤ (p.setNotHave pos last last).pieceMap.length := by
        rwa [setNotHave, List.length_modify]
      rcases lowerMark_spec hlen with ⟨i, -, hok, hati, hmax⟩ | ⟨herr, hnone⟩
      · obtain ⟨hold, hne⟩ := ((hless last).2 i).mp hati
        rw [hok]
        have hkept := ((hless i).2 i).mpr ⟨hold, hne⟩
        refine .inl ⟨⟨_, rfl, (hless i).1, fun j hj => ?_, .inr ⟨i, rfl, hkept⟩⟩,
          hallowed i hold hne⟩
        have hj' := ((hless i).2 j).mp hj
        have hle := hmark.last j hj'.1
        exact Int.ofNat_le.mpr (hmax j (by omega) (((hless last).2 j).mpr hj'))
      · rw [herr]
        refine .inr ⟨⟨_, rfl⟩, List.any_eq_false.mpr fun j _ hj => ?_⟩
        rw [Bool.and_eq_true, bne_iff_ne] at hj
        have hle := hmark.last j hj.2
        exact hnone j (by omega) (((hless last).2 j).mpr ⟨hj.2, hj.1⟩)
    · rename_i hmarked
      have hne : last ≠ index := fun heq => hmarked (heq ▸ hlast)
      exact .inl ⟨⟨_, rfl, (hless _).1, fun j hj => hmark.last j (((hless _).2 j).mp hj).1,
        .inr ⟨last, hlast, ((hless _).2 last).mpr ⟨hatlast, hne⟩⟩⟩,
        hallowed last hatlast hne⟩

/-- Without peers there is nothing to sort. -/
theorem Alone.updatePieces_pieceMap (h : p.Alone) (rng : PickerRandom) :
    (p.updatePieces rng).pieceMap = p.pieceMap := by
  have hempty : ∀ prio, p.bucket rng prio = [] := by
    intro prio
    rw [bucket, List.filter_eq_nil_iff.mpr]
    · exact (rng.shuffle_perm []).eq_nil
    · intro i hi
      obtain ⟨pos, hat⟩ : ∃ pos, p.pieceMap[i]? = some pos :=
        ⟨_, List.getElem?_eq_getElem (List.mem_range.mp hi)⟩
      have hprio := h.priority (List.mem_of_getElem? hat) pos.index
      simp [hat, hprio]
  have hpieces : ∀ levels, (List.range levels).flatMap (p.bucket rng) = [] := fun levels =>
    List.flatMap_eq_nil_iff.mpr fun prio _ => hempty prio
  rw [updatePieces]
  simp only [hpieces, List.zipIdx_nil, List.foldl_nil]

/-- A longer vector keeps the mark right. -/
theorem increaseNumPieces_ok {n : Nat} (h : p.Alone) (hmark : p.Marked) (hle : p.numPieces ≤ n) :
    ∃ p', p.increaseNumPieces rng n = .ok p' ∧ p'.Alone ∧ p'.Marked := by
  let fresh := List.replicate (n - p.pieceMap.length) ({} : PiecePos)
  have hmap : resizeMap n p.pieceMap = p.pieceMap ++ fresh := by
    rw [resizeMap, List.rightpad, List.take_of_length_le hle]
  have hlen : ¬ (resizeMap n p.pieceMap).length < p.numPieces := by
    rw [hmap, List.length_append, numPieces]
    omega
  obtain ⟨reverseCursor, hreverse⟩ := retreat_ok (Nat.le_refl (resizeMap n p.pieceMap).length)
  let grown := { p with pieceMap := resizeMap n p.pieceMap, reverseCursor, dirty := true }
  have hgrown : grown.pieceMap = p.pieceMap ++ fresh := hmap
  have halone : grown.Alone := by
    refine ⟨h.seeds, fun pos hpos => ?_⟩
    rw [hgrown] at hpos
    rcases List.mem_append.mp hpos with hpos | hpos
    · exact h.pieces pos hpos
    · rw [List.eq_of_mem_replicate hpos]
      exact ⟨rfl, rfl⟩
  have hsame := halone.updatePieces_pieceMap rng
  have hhave : ∀ j, (grown.updatePieces rng).havePiece j = p.havePiece j := by
    intro j
    rw [havePiece, hsame, hgrown, havePiece]
    by_cases hj : j < p.numPieces
    · rw [List.getElem?_append_left hj]
    · rw [List.getElem?_append_right (Nat.le_of_not_lt hj), List.getElem?_replicate,
        List.getElem?_eq_none (Nat.le_of_not_lt hj)]
      split <;> rfl
  refine ⟨grown.updatePieces rng, ?_, ⟨h.seeds, hsame ▸ halone.pieces⟩, ?_, ?_⟩
  · simp only [increaseNumPieces, hlen, if_false, hreverse]
    rfl
  · simp only [hhave]
    exact hmark.last
  · simp only [hhave]
    exact hmark.have_last

/-! ## Whole sequences -/

/-- What a call does to a picker without peers whose mark is right. -/
theorem call_spec {c : PickerCall} (rng : PickerRandom) (h : p.Alone) (hmark : p.Marked)
    (hc : p.inRange c) :
    (∃ p', p.call rng c = .ok p' ∧ p'.Alone ∧ p'.Marked) ∧ p.allowed c = true ∨
      (∃ e, p.call rng c = .error e) ∧ p.allowed c = false := by
  cases c with
  | increaseNumPieces n =>
    rcases Nat.lt_or_ge n p.numPieces with hlt | hle
    · refine .inr ⟨⟨⟨p.numPieces⟩, ?_⟩, decide_eq_false (Nat.not_le_of_lt hlt)⟩
      have hlen : (resizeMap n p.pieceMap).length < p.numPieces := by
        rw [numPieces] at hlt ⊢
        simp only [resizeMap, List.rightpad, List.length_append, List.length_take,
          List.length_replicate]
        omega
      simp only [call, increaseNumPieces, hlen, if_true]
      rfl
    · exact .inl ⟨increaseNumPieces_ok h hmark hle, decide_eq_true hle⟩
  | weHave index => exact .inl ⟨weHave_ok h hmark (of_decide_eq_true hc), rfl⟩
  | weDontHave index => exact weDontHave_spec h hmark (of_decide_eq_true hc)

/-- The calls of a run, by induction. -/
theorem run_spec {calls : List PickerCall} (h : p.Alone) (hmark : p.Marked)
    (hrange : p.along rng inRange calls) :
    (∀ pre, pre <+: calls → ∃ q, p.run rng pre = .ok q ∧ q.Marked) ↔
      p.along rng allowed calls := by
  induction calls generalizing p with
  | nil =>
    refine ⟨fun _ => rfl, fun _ pre hpre => ?_⟩
    rw [List.prefix_nil.mp hpre]
    exact ⟨p, rfl, hmark⟩
  | cons c calls ih =>
    rw [along, Bool.and_eq_true] at hrange
    obtain ⟨hin, hrange⟩ := hrange
    rw [along]
    rcases call_spec rng h hmark hin with
      ⟨⟨p', hok, halone', hmark'⟩, hallowed⟩ | ⟨⟨e, herr⟩, hnot⟩
    · rw [hok] at hrange
      have hrun : ∀ pre, p.run rng (c :: pre) = p'.run rng pre := fun pre => by
        rw [run, hok, Except.bind]
      simp only [hallowed, hok, Bool.true_and, ← ih halone' hmark' hrange, ← hrun]
      constructor
      · exact fun hall pre hpre => hall (c :: pre) (List.cons_prefix_cons.mpr ⟨rfl, hpre⟩)
      · intro hall pre hpre
        rcases List.prefix_cons_iff.mp hpre with rfl | ⟨rest, rfl, hrest⟩
        · exact ⟨p, rfl, hmark⟩
        · exact hall rest hrest
    · rw [hnot, Bool.false_and]
      refine ⟨fun hall => ?_, nofun⟩
      obtain ⟨q, hq, -⟩ := hall [c] (List.cons_prefix_cons.mpr ⟨rfl, List.nil_prefix⟩)
      rw [run, herr] at hq
      cases hq

theorem init_ok (total : Nat) :
    ∃ p, ({} : PiecePicker).init total = .ok p ∧ p.Alone ∧ p.Marked := by
  let map := (resizeMap total []).map fun pos =>
    { pos with peerCount := 0, downloading := false, index := 0 }
  have hmem : ∀ pos ∈ map, (pos.peerCount = 0 ∧ pos.downloading = false) ∧ pos.isHave = false := by
    intro pos hpos
    obtain ⟨old, -, rfl⟩ := List.mem_map.mp hpos
    exact ⟨⟨rfl, rfl⟩, rfl⟩
  obtain ⟨cursor, hcursor⟩ := advance_ok map 0 (Nat.zero_le _)
  obtain ⟨reverseCursor, hreverse⟩ := retreat_ok (Nat.le_refl map.length)
  refine ⟨{ pieceMap := map, cursor, reverseCursor, dirty := true }, ?_,
    ⟨rfl, fun pos hpos => (hmem pos hpos).1⟩, fun i hi => ?_, .inl rfl⟩
  · show (advance map 0).bind _ = _
    rw [hcursor, Except.bind]
    show (retreat map map.length).bind _ = _
    rw [hreverse]
    rfl
  · obtain ⟨pos, hpos, hat⟩ := (Option.any_eq_true _ _).mp hi
    rw [(hmem pos (List.mem_of_getElem? hpos)).2] at hat
    cases hat

/-- After `init`, calls with indices in range stay in `m_piece_map` with `m_last_have` right
exactly when none shortens the vector or loses the only piece we have. -/
theorem run_marked_iff (rng : PickerRandom) (total : Nat) (calls : List PickerCall)
    (hinit : ({} : PiecePicker).init total = .ok p) (hrange : p.along rng inRange calls) :
    (∀ pre, pre <+: calls → ∃ q, p.run rng pre = .ok q ∧ q.Marked) ↔
      p.along rng allowed calls := by
  obtain ⟨p', hok, halone, hmark⟩ := init_ok total
  cases hinit.symm.trans hok
  exact run_spec halone hmark hrange

/-- A random source that shuffles nothing. -/
def orderly : PickerRandom where
  random _ := 0
  shuffle pieces := pieces
  shuffle_perm := List.Perm.refl

/-- A picker of one piece. -/
def onePiece : PiecePicker := { pieceMap := [{}], reverseCursor := 1, dirty := true }

/-- The last of two pieces is lost, and the mark goes back to the other. -/
theorem run_marked_lowered : ({} : PiecePicker).init 1 = .ok onePiece ∧
    ∃ q, onePiece.run orderly [.weHave 0, .increaseNumPieces 3, .weHave 2, .weDontHave 2] = .ok q ∧
      q.Marked := by
  have hinit : ({} : PiecePicker).init 1 = .ok onePiece := by decide +kernel
  refine ⟨hinit, (run_marked_iff orderly 1 _ hinit ?_).mpr ?_ _ (List.prefix_refl _)⟩
  · decide +kernel
  · decide +kernel

/-- The only piece is lost: the scan looks at the piece before the first. -/
theorem run_only_piece_lost :
    ({} : PiecePicker).init 1 = .ok onePiece ∧
      onePiece.run orderly [.weHave 0, .weDontHave 0] = .error ⟨-1⟩ := by
  decide +kernel

end PiecePicker

end CoMoNet
