import CoMoNet.Dht.Bdecode
import CoMoNet.Torrent.Pieces

/-!
# Spare pieces

A seed has no picker and loses the flags of its posts. `add_piece` and `incoming_have`
keep two pieces spare, `incoming_bitfield` need not (`becomes_seed`, `spare_pieces`).
-/

namespace CoMoNet

open GuardedRun

namespace Torrent

/-! ## Resume data -/

/-- A byte of the resume data. -/
def resumeByte : Option Nat → UInt8
  | none => 0
  | some postFlags => UInt8.ofNat (1 + 2 * postFlags)

/-- The member `pieces` that `write_resume_data` saves. -/
def resumePieces (t : Torrent) : Bytes :=
  if t.isSeed then List.replicate t.numPieces 1
  else (List.range t.numPieces).map fun i =>
    resumeByte ((t.picker.getD []).getD i none)

/-- What `we_have` is called with for a byte of the resume data. -/
def resumedPiece (b : UInt8) : Option Nat :=
  if b.toNat % 2 = 1 then some (b.toNat / 2 % 16) else none

/-- `read_resume_data` and the loop in `on_resume_data_checked`. -/
def restored (numPieces : Nat) (pieces : Bytes) : Torrent :=
  let t := fresh.increaseNumPieces numPieces
  if pieces.length ≠ t.numPieces then t
  else
    let t := { t with picker := some (pieces.map resumedPiece) }
    if t.isSeed then { t with picker := none } else t

theorem resumedPiece_resumeByte {piece : Option Nat} (h : ∀ flags ∈ piece, flags < 16) :
    resumedPiece (resumeByte piece) = piece := by
  cases piece with
  | none => rfl
  | some flags =>
    have hflags : flags < 16 := h flags rfl
    have hbyte : (UInt8.ofNat (1 + 2 * flags)).toNat = 1 + 2 * flags :=
      UInt8.toNat_ofNat_of_lt' (show 1 + 2 * flags < 256 by omega)
    rw [resumeByte, resumedPiece, hbyte, if_pos (by omega),
      show (1 + 2 * flags) / 2 % 16 = flags by omega]

/-! ## Torrents with room -/

/-- A peer announces no piece among the last two. -/
structure Connection.Fits (c : Connection) (numPieces : Nat) : Prop where
  length : c.havePiece.length = numPieces
  room : ∀ i, c.havePiece[i]? = some true → i + 2 ≤ numPieces

/-- We do not have, download or hear of one of the last two pieces. -/
structure Roomy (t : Torrent) : Prop where
  pos : 0 < t.numPieces
  picker : ∃ pieces, t.picker = some pieces ∧ pieces.length = t.numPieces ∧
    ∀ i flags, pieces[i]? = some (some flags) → i + 2 ≤ t.numPieces ∧ flags < 16
  downloads : ∀ i ∈ t.downloads, i + 2 ≤ t.numPieces
  announced : ∀ c ∈ t.connections, Connection.Fits c t.numPieces

section Roomy

variable {t t' : Torrent} {n i index : Nat} {c : Connection}

theorem roomy_fresh : Roomy fresh where
  pos := Nat.one_pos
  picker := ⟨[none], rfl, rfl, fun i flags h => by cases i <;> simp at h⟩
  downloads := nofun
  announced := nofun

/-- An entry that is not the padding was there before. -/
theorem getElem?_rightpad {α : Type*} {l : List α} {a x : α} (h : (l.rightpad n a)[i]? = some x)
    (hne : x ≠ a) : l[i]? = some x := by
  rw [List.rightpad, List.getElem?_append] at h
  split at h
  · exact h
  · rw [List.getElem?_replicate] at h
    split at h
    · exact absurd (Option.some.inj h).symm hne
    · cases h

theorem length_rightpad_of_le {α : Type*} {l : List α} {a : α} (h : l.length ≤ n) :
    (l.rightpad n a).length = n := by
  rw [List.rightpad, List.length_append, List.length_replicate]
  omega

theorem Connection.Fits.onMetadataImpl {numPieces : Nat} (h : Connection.Fits c numPieces)
    (hle : numPieces ≤ n) : Connection.Fits (c.onMetadataImpl n) n where
  length := length_rightpad_of_le (h.length.trans_le hle)
  room i hi := (h.room i (getElem?_rightpad hi (by decide))).trans hle

theorem Roomy.increaseNumPieces (h : Roomy t) (n : Nat) : Roomy (t.increaseNumPieces n) := by
  rw [Torrent.increaseNumPieces]
  split
  · exact h
  rename_i hle
  rw [Nat.not_lt] at hle
  obtain ⟨pieces, hpicker, hlength, hroom⟩ := h.picker
  constructor
  · exact h.pos.trans_le hle
  · refine ⟨pieces.rightpad n none, congrArg (Option.map _) hpicker,
      length_rightpad_of_le (hlength.trans_le hle), fun i flags hi => ?_⟩
    obtain ⟨h₁, h₂⟩ := hroom i flags (getElem?_rightpad hi (by simp))
    exact ⟨h₁.trans hle, h₂⟩
  · exact fun i hi => (h.downloads i hi).trans hle
  · intro c hc
    obtain ⟨c₀, hc₀, rfl⟩ := List.mem_map.mp hc
    exact (h.announced c₀ hc₀).onMetadataImpl hle

theorem Roomy.disconnect (h : Roomy t) (i : Nat) : Roomy (t.disconnect i) :=
  { h with announced := fun c hc => h.announced c (List.mem_of_mem_eraseIdx hc) }

theorem Roomy.setConnection (h : Roomy t) (hc : Connection.Fits c t.numPieces) (i : Nat) :
    Roomy (t.setConnection i c) := by
  refine { h with announced := fun c' hc' => ?_ }
  obtain hmem | rfl := List.mem_or_eq_of_mem_set hc'
  · exact h.announced c' hmem
  · exact hc

theorem Connection.Fits.beforeHave {numPieces : Nat} (h : Connection.Fits c numPieces) :
    Connection.Fits c.beforeHave numPieces := by
  rw [Connection.beforeHave]
  split
  · exact h
  · refine ⟨(List.length_map _).trans h.length, fun i hi => ?_⟩
    rw [Connection.incomingHaveNone, List.getElem?_map, Option.map_eq_some_iff] at hi
    obtain ⟨_, -, hfalse⟩ := hi
    cases hfalse

/-- A `have` of a piece that is not among the last two. -/
theorem Roomy.recordHave (h : Roomy t) (hindex : index + 2 ≤ t.numPieces) (i : Nat) :
    Roomy (t.recordHave i index) := by
  rw [Torrent.recordHave]
  split
  · exact h
  rename_i c hc
  split
  · exact h
  have hfits := h.announced c (List.mem_of_getElem? hc)
  simp only
  split
  · exact h.disconnect i
  · refine h.setConnection ⟨(List.length_set).trans hfits.length, fun j hj => ?_⟩ i
    rw [List.getElem?_set] at hj
    split at hj
    · omega
    · exact hfits.room j hj

/-- Bits that leave the last one out are not all set. -/
theorem count_lt_of_room {bits : List Bool} (hpos : 0 < bits.length)
    (hroom : ∀ j, bits[j]? = some true → j + 2 ≤ bits.length) : bits.count true < bits.length := by
  refine Nat.lt_of_le_of_ne List.count_le_length fun hall => ?_
  have hlast : bits[bits.length - 1]? = some bits[bits.length - 1] :=
    List.getElem?_eq_getElem (by omega)
  rw [← List.count_eq_length.mp hall _ (List.getElem_mem _)] at hlast
  have := hroom _ hlast
  omega

/-- A bitfield that announces none of the last two pieces. -/
theorem Roomy.recordBitfield (h : Roomy t) {bits : List Bool} (hlength : bits.length = t.numPieces)
    (hroom : ∀ j, bits[j]? = some true → j + 2 ≤ t.numPieces) (i : Nat) :
    Roomy (t.recordBitfield i bits) := by
  rw [Torrent.recordBitfield]
  split
  · exact h
  rename_i c hc
  have hfits := h.announced c (List.mem_of_getElem? hc)
  split
  · rename_i hcount
    have hlt := count_lt_of_room (hlength.symm ▸ h.pos) (hlength.symm ▸ hroom)
    rw [hcount, hfits.length, hlength] at hlt
    exact absurd hlt (Nat.lt_irrefl _)
  · simp only
    split
    · exact h.disconnect i
    · exact h.setConnection ⟨hlength, hroom⟩ i

theorem Roomy.hasPiece (h : Roomy t) (hi : t.hasPiece i = true) : i + 2 ≤ t.numPieces := by
  obtain ⟨pieces, hpicker, -, hroom⟩ := h.picker
  rw [Torrent.hasPiece, hpicker] at hi
  obtain ⟨flags, hflags⟩ := Option.isSome_iff_exists.mp hi
  rw [List.getD_eq_getElem?_getD] at hflags
  cases hget : pieces[i]? with
  | none =>
    rw [hget] at hflags
    cases hflags
  | some piece =>
    rw [hget, Option.getD_some] at hflags
    exact (hroom i flags (hflags ▸ hget)).1

theorem Roomy.count_lt (h : Roomy t) {pieces : List (Option Nat)}
    (hpicker : t.picker = some pieces) :
    pieces.countP Option.isSome < pieces.length := by
  obtain ⟨pieces', hpicker', hlength, hroom⟩ := h.picker
  cases hpicker.symm.trans hpicker'
  refine Nat.lt_of_le_of_ne List.countP_le_length fun hall => ?_
  have hlt : t.numPieces - 1 < pieces.length := by
    have := h.pos
    omega
  obtain ⟨flags, hflags⟩ := Option.isSome_iff_exists.mp
    (List.countP_eq_length.mp hall _ (List.getElem_mem hlt))
  have hlast : pieces[t.numPieces - 1]? = some (some flags) := by
    rw [List.getElem?_eq_getElem hlt, hflags]
  have := (hroom _ _ hlast).1
  omega

theorem Roomy.not_isSeed (h : Roomy t) : t.isSeed = false := by
  obtain ⟨pieces, hpicker, -, -⟩ := h.picker
  rw [isSeed, hpicker]
  exact beq_false_of_ne (Nat.ne_of_lt (h.count_lt hpicker))

theorem Roomy.addDownload (h : Roomy t) (hindex : index + 2 ≤ t.numPieces) :
    Roomy { t with downloads := index :: t.downloads } := by
  refine { h with downloads := fun i hi => ?_ }
  obtain rfl | hmem := List.mem_cons.mp hi
  · exact hindex
  · exact h.downloads i hmem

theorem Roomy.dropDownload (h : Roomy t) (index : Nat) :
    Roomy { t with downloads := t.downloads.filter (· ≠ index) } :=
  { h with downloads := fun i hi => h.downloads i (List.mem_of_mem_filter hi) }

theorem Roomy.requestPiece (h : Roomy t) (i index : Nat) : Roomy (t.requestPiece i index) := by
  rw [Torrent.requestPiece]
  split
  · exact h
  rename_i c hc
  split
  · rename_i hcond
    have hbit : c.havePiece[index]?.getD false = true := by
      rw [← List.getD_eq_getElem?_getD]
      exact (Bool.and_eq_true_iff.mp hcond).1
    refine h.addDownload ((h.announced c (List.mem_of_getElem? hc)).room index ?_)
    cases hget : c.havePiece[index]? with
    | none =>
      rw [hget] at hbit
      cases hbit
    | some bit =>
      rw [hget] at hbit
      exact congrArg some hbit
  · exact h

theorem Roomy.addPiece (h : Roomy t) (piece : Nat) : Roomy (t.addPiece piece) := by
  have hroomy := h.increaseNumPieces (piece + 2)
  rw [Torrent.addPiece]
  split
  · exact hroomy
  · refine hroomy.addDownload ?_
    rw [numPieces_increaseNumPieces]
    exact Nat.le_max_right _ _

/-- A piece that is finished was downloaded, so it is not among the last two. -/
theorem Roomy.pieceFinished (h : Roomy t) (index postFlags : Nat) (passed : Bool) :
    Roomy (t.pieceFinished index passed postFlags) := by
  rw [Torrent.pieceFinished]
  split
  · exact h
  rename_i hdownload
  have hindex : index + 2 ≤ t.numPieces := by
    refine h.downloads index ?_
    simpa [h.not_isSeed] using hdownload
  split
  · obtain ⟨pieces, hpicker, hlength, hroom⟩ := h.picker
    have hhave : Roomy { t with
        picker := t.picker.map (List.set · index (some (postFlags % 16)))
        downloads := t.downloads.filter (· ≠ index) } := by
      refine { h.dropDownload index with picker := ⟨pieces.set index (some (postFlags % 16)),
        congrArg (Option.map _) hpicker, List.length_set.trans hlength, fun i flags hi => ?_⟩ }
      rw [List.getElem?_set] at hi
      split at hi
      · rename_i hsame
        split at hi
        · cases hi
          exact ⟨hsame ▸ hindex, Nat.mod_lt _ (by decide)⟩
        · cases hi
      · exact hroom i flags hi
    rw [piecePassed]
    simp only
    rw [hhave.not_isSeed]
    exact hhave
  · exact h.dropDownload index

theorem Roomy.connect (h : Roomy t) : Roomy t.connect := by
  refine { h with announced := fun c hc => ?_ }
  obtain hmem | hnew := List.mem_append.mp hc
  · exact h.announced c hmem
  · cases List.mem_singleton.mp hnew
    refine ⟨List.length_replicate, fun i hi => ?_⟩
    rw [List.getElem?_replicate] at hi
    split at hi <;> cases hi

/-! ## Runs -/

/-- An accepted bitfield announces none of the last two pieces there are after it. -/
def Event.LeavesRoom (username : Bytes) (t : Torrent) : Event → Prop
  | .incomingBitfield node _ bits =>
    bits.length ≤ t.numPieces ∨ validatePostNumberForUser node username (bits.length - 7) = true →
      ∀ i < bits.length, bits[i]? = some true → i + 2 ≤ max t.numPieces bits.length
  | _ => True

instance (username : Bytes) (t : Torrent) : (e : Event) → Decidable (e.LeavesRoom username t)
  | .incomingBitfield node _ bits => inferInstanceAs (Decidable (bits.length ≤ t.numPieces ∨
      validatePostNumberForUser node username (bits.length - 7) = true → ∀ i < bits.length, _))
  | .connect | .leave _ | .incomingHave .. | .request .. | .addPiece _ | .finished .. =>
    .isTrue trivial

theorem Roomy.next {env : PostEnv} {username : Bytes} {e : Event} (h : Roomy t)
    (hroom : e.LeavesRoom username t) (hstep : Torrent.next env username t e = some t') :
    Roomy t' := by
  cases e with
  | connect =>
    cases hstep
    exact h.connect
  | leave i =>
    cases hstep
    exact h.disconnect i
  | incomingHave node i index =>
    cases hstep
    obtain hsame | hgone | ⟨c, hc, -, hmade⟩ := incomingHave_cases node username t i index
    · rwa [hsame]
    · rw [hgone]
      exact h.disconnect i
    · rw [hmade]
      have hbefore := (h.announced c (List.mem_of_getElem? hc)).beforeHave
      refine ((h.setConnection hbefore i).increaseNumPieces _).recordHave ?_ i
      rw [numPieces_increaseNumPieces]
      exact Nat.le_max_right _ _
  | incomingBitfield node i bits =>
    cases hstep
    obtain hgone | ⟨hlong, hvalid, hmade⟩ | ⟨hshort, hmade⟩ :=
      incomingBitfield_cases node username t i bits
    · rw [hgone]
      exact h.disconnect i
    · have hnum : (t.increaseNumPieces bits.length).numPieces = bits.length := by
        rw [numPieces_increaseNumPieces, Nat.max_eq_right (Nat.le_of_lt hlong)]
      rw [hmade]
      refine (h.increaseNumPieces _).recordBitfield hnum.symm (fun j hj => ?_) i
      rw [numPieces_increaseNumPieces]
      exact hroom (.inr hvalid) j (List.getElem?_eq_some_iff.mp hj).1 hj
    · rw [hmade]
      refine h.recordBitfield (length_rightpad_of_le hshort) (fun j hj => ?_) i
      have hbit : bits[j]? = some true := getElem?_rightpad hj (by decide)
      have hlast := hroom (.inl hshort) j (List.getElem?_eq_some_iff.mp hbit).1 hbit
      rwa [Nat.max_eq_left hshort] at hlast
  | request i index =>
    cases hstep
    exact h.requestPiece i index
  | addPiece piece =>
    cases hstep
    exact h.addPiece piece
  | finished node s index data =>
    obtain ⟨r, -, rfl⟩ := Option.map_eq_some_iff.mp hstep
    exact h.pieceFinished index _ _

theorem Roomy.of_reach {env : PostEnv} {username : Bytes}
    (h : (system env username).Reach (fun t e => e.LeavesRoom username t) t) : Roomy t := by
  refine System.Reach.invariant (I := Roomy) ?_ ?_ h
  · rintro t rfl
    exact roomy_fresh
  · intro t e t' ht hok hstep
    exact ht.next hok hstep

/-- The resume data of a torrent with room has all flags. -/
theorem Roomy.restored_resumePieces (h : Roomy t) :
    (restored t.numPieces t.resumePieces).picker = t.picker := by
  obtain ⟨pieces, hpicker, hlength, hroom⟩ := h.picker
  have hbytes : t.resumePieces = pieces.map resumeByte := by
    rw [resumePieces, h.not_isSeed, hpicker]
    refine List.ext_getElem (by simp [hlength]) fun i h₁ h₂ => ?_
    have hi : i < pieces.length := by simpa using h₂
    simp [List.getD_eq_getElem?_getD, List.getElem?_eq_getElem hi]
  have hback : t.resumePieces.map resumedPiece = pieces := by
    rw [hbytes, List.map_map]
    refine (List.map_congr_left fun piece hpiece => ?_).trans (List.map_id pieces)
    obtain ⟨i, hi⟩ := List.mem_iff_getElem?.mp hpiece
    refine resumedPiece_resumeByte fun flags hflags => (hroom i flags ?_).2
    rw [hi, Option.mem_def.mp hflags]
  have hnum : (fresh.increaseNumPieces t.numPieces).numPieces = t.numPieces := by
    rw [numPieces_increaseNumPieces]
    exact Nat.max_eq_right h.pos
  have hsize : ¬ t.resumePieces.length ≠ (fresh.increaseNumPieces t.numPieces).numPieces := by
    rw [hnum, hbytes, List.length_map, hlength]
    exact not_not.mpr rfl
  have hmissing : (pieces.countP Option.isSome == pieces.length) = false :=
    beq_false_of_ne (Nat.ne_of_lt (h.count_lt hpicker))
  rw [restored, if_neg hsize, hback]
  simp only [isSeed, hmissing, hpicker]
  rfl

end Roomy

/-! ### A torrent of alice -/

/-- A post of alice. -/
def favPiece (k : Nat) : Entry :=
  let userpost := [(ascii "height", Entry.int 4), (ascii "k", .int k),
      (ascii "n", .str (ascii "alice")),
    (ascii "pfav", .dict [])]
  let sig := createSignature signNet quoteNode (Entry.bencode (.dict userpost)) (ascii "alice")
  .dict [(ascii "sig_userpost", .str sig), (ascii "userpost", .dict userpost)]

/-- A network of which `lazy_bdecode` reads whatever was encoded. -/
def pieceNet : PostEnv := { quoteNet [] with lazyBdecode := Entry.bdecode }

/-- The events of a download. -/
def download (bits : List Bool) (pieces : List Nat) : List Event :=
  [.connect, .incomingBitfield quoteNode 0 bits] ++ pieces.flatMap fun piece =>
    [.request 0 piece, .finished quoteNode {} piece (Entry.bencode (favPiece piece))]

/-- The torrent after it. -/
def downloaded (check : Torrent → Event → Bool) (bits : List Bool) (pieces : List Nat) :
    Option Torrent :=
  System.run (next pieceNet (ascii "alice")) check fresh (download bits pieces)

theorem reach_downloaded {check : Torrent → Event → Bool} {ok : Torrent → Event → Prop}
    {bits : List Bool} {pieces : List Nat} {t : Torrent}
    (hcheck : ∀ t e, check t e = true → ok t e) (h : downloaded check bits pieces = some t) :
    (system pieceNet (ascii "alice")).Reach ok t :=
  System.Reach.of_run (fun _ _ _ hnext => hnext) hcheck (.init rfl) h

/-! ## No seeds -/

section Seeds

variable {t : Torrent}

/-- As long as no bitfield announces one of the last two pieces, the torrent is no seed, two
pieces are spare and the resume data has all flags. -/
theorem spare_pieces {env : PostEnv} {username : Bytes}
    (h : (system env username).Reach (fun t e => e.LeavesRoom username t) t) :
    (∀ i, t.hasPiece i = true → i + 2 ≤ t.numPieces) ∧ t.numHave ≠ t.numPieces ∧
      t.isSeed = false ∧ (restored t.numPieces t.resumePieces).picker = t.picker := by
  have hroomy := Roomy.of_reach h
  refine ⟨fun i => hroomy.hasPiece, ?_, hroomy.not_isSeed, hroomy.restored_resumePieces⟩
  obtain ⟨pieces, hpicker, hlength, -⟩ := hroomy.picker
  have hlt := hroomy.count_lt hpicker
  rw [numHave, hpicker]
  exact Nat.ne_of_lt (hlength ▸ hlt)

/-- A peer has two of the eight pieces it announces. -/
theorem spare_pieces_alice :
    ∃ t, (system pieceNet (ascii "alice")).Reach (fun t e => e.LeavesRoom (ascii "alice") t) t ∧
      t.resumePieces = [25, 25, 0, 0, 0, 0, 0, 0] ∧
      (∀ i, t.hasPiece i = true → i + 2 ≤ t.numPieces) ∧ t.numHave ≠ t.numPieces ∧
      t.isSeed = false ∧ (restored t.numPieces t.resumePieces).picker = t.picker := by
  have hdownload : (downloaded (fun t e => decide (e.LeavesRoom (ascii "alice") t))
      ([true, true] ++ List.replicate 6 false) [0, 1]).map resumePieces =
      some [25, 25, 0, 0, 0, 0, 0, 0] := by
    decide +kernel
  obtain ⟨t, hrun, hpieces⟩ := Option.map_eq_some_iff.mp hdownload
  have hreach := reach_downloaded (fun t e h => of_decide_eq_true h) hrun
  exact ⟨t, hreach, hpieces, spare_pieces hreach⟩

/-- Eight pieces from a peer that has them all: the flags of seven posts are lost. -/
theorem becomes_seed :
    ∃ t t', (system pieceNet (ascii "alice")).Reach (fun _ _ => True) t ∧
      (system pieceNet (ascii "alice")).Reach (fun _ _ => True) t' ∧
      t.resumePieces = List.replicate 7 25 ++ [0] ∧
      t'.numPieces = 8 ∧ t'.hasPiece 7 = true ∧ t'.numHave = t'.numPieces ∧ t'.isSeed = true ∧
      t'.resumePieces = List.replicate 8 1 := by
  have hdownload : (downloaded (fun _ _ => true) (List.replicate 8 true) (List.range 7)).map
        resumePieces = some (List.replicate 7 25 ++ [0]) ∧
      (downloaded (fun _ _ => true) (List.replicate 8 true) (List.range 8)).map
        (fun t => (t.numPieces, t.hasPiece 7, t.numHave, t.isSeed, t.resumePieces)) =
        some (8, true, 8, true, List.replicate 8 1) := by
    decide +kernel
  obtain ⟨t, hrun, hpieces⟩ := Option.map_eq_some_iff.mp hdownload.1
  obtain ⟨t', hrun', hfacts⟩ := Option.map_eq_some_iff.mp hdownload.2
  simp only [Prod.mk.injEq] at hfacts
  obtain ⟨hnum, hlast, hhave, hseed, hpieces'⟩ := hfacts
  exact ⟨t, t', reach_downloaded (fun _ _ _ => trivial) hrun,
    reach_downloaded (fun _ _ _ => trivial) hrun', hpieces, hnum, hlast, hhave.trans hnum.symm,
      hseed,
    hpieces'⟩

end Seeds
end Torrent
end CoMoNet
