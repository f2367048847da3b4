import CoMoNet.Chain.BlockFiles
import Mathlib.Data.List.Induction

/-!
# The statistics of a block file

`AddBlock` replaces `nHeightLast` whenever the block is above `nHeightFirst`, so it is
the last height above an earlier one and not the highest (`addBlocks_lastRise`).
-/

namespace CoMoNet
namespace CBlockFileInfo

/-- The calls of `AddBlock` for blocks given by height and time. -/
def addBlocks (info : CBlockFileInfo) (blocks : List (Nat × Nat)) : CBlockFileInfo :=
  blocks.foldl (fun info block => info.addBlock block.1 block.2) info

/-- The statistics are right. -/
structure Describes (info : CBlockFileInfo) (blocks : List (Nat × Nat)) : Prop where
  count : info.nBlocks = blocks.length
  heightFirst : (blocks.map Prod.fst).min? = some info.nHeightFirst
  heightLast : (blocks.map Prod.fst).max? = some info.nHeightLast
  timeFirst : (blocks.map Prod.snd).min? = some info.nTimeFirst
  timeLast : (blocks.map Prod.snd).max? = some info.nTimeLast

theorem addBlocks_concat (info : CBlockFileInfo) (blocks : List (Nat × Nat)) (block : Nat × Nat) :
    info.addBlocks (blocks ++ [block]) = (info.addBlocks blocks).addBlock block.1 block.2 := by
  rw [addBlocks, List.foldl_append]
  rfl

theorem addBlocks_nBlocks (blocks : List (Nat × Nat)) :
    (({} : CBlockFileInfo).addBlocks blocks).nBlocks = blocks.length % 2 ^ 32 := by
  induction blocks using List.reverseRecOn with
  | nil => rfl
  | append_singleton blocks block ih =>
    rw [addBlocks_concat, addBlock, List.length_append]
    simp only [addUint, ih, List.length_singleton]
    exact Nat.mod_add_mod _ _ _

/-! ## The bounds that are right -/

section Bounds

variable {values : List Nat} {n first last x : Nat}

theorem min?_concat (hn : n = values.length) (h : values ≠ [] → values.min? = some first) :
    (values ++ [x]).min? = some (if n = 0 ∨ first > x then x else first) := by
  subst hn
  cases values with
  | nil => rfl
  | cons v values =>
    have hfirst := h (List.cons_ne_nil v values)
    rw [List.min?_cons', Option.some.injEq] at hfirst
    rw [List.cons_append, List.min?_cons', List.foldl_concat, hfirst, List.length_cons,
      Option.some.injEq]
    split <;> omega

theorem max?_concat (h : values.max?.getD 0 = last) :
    (values ++ [x]).max? = some (if x > last then x else last) := by
  cases values with
  | nil =>
    rw [← h]
    show some x = some (if x > 0 then x else 0)
    rw [Option.some.injEq]
    split <;> omega
  | cons v values =>
    rw [List.max?_cons', Option.getD_some] at h
    rw [List.cons_append, List.max?_cons', List.foldl_concat, h, Option.some.injEq]
    split <;> omega

end Bounds

/-- Lowest height and range of times are right as far as `nBlocks` can count. -/
theorem addBlocks_bounds {blocks : List (Nat × Nat)} (hlt : blocks.length < 2 ^ 32) :
    (blocks ≠ [] → (blocks.map Prod.fst).min? =
        some (({} : CBlockFileInfo).addBlocks blocks).nHeightFirst) ∧
      (blocks ≠ [] → (blocks.map Prod.snd).min? =
        some (({} : CBlockFileInfo).addBlocks blocks).nTimeFirst) ∧
      (blocks.map Prod.snd).max?.getD 0 = (({} : CBlockFileInfo).addBlocks blocks).nTimeLast := by
  induction blocks using List.reverseRecOn with
  | nil => exact ⟨fun h => absurd rfl h, fun h => absurd rfl h, rfl⟩
  | append_singleton blocks block ih =>
    rw [List.length_append, List.length_singleton] at hlt
    obtain ⟨hheight, htime, hlast⟩ := ih (by omega)
    have hcount := addBlocks_nBlocks blocks
    rw [Nat.mod_eq_of_lt (by omega)] at hcount
    rw [addBlocks_concat, List.map_append, List.map_append]
    refine ⟨fun _ => ?_, fun _ => ?_, ?_⟩
    · exact min?_concat (by rw [hcount, List.length_map])
        fun hne => hheight fun h => hne (by rw [h, List.map_nil])
    · exact min?_concat (by rw [hcount, List.length_map])
        fun hne => htime fun h => hne (by rw [h, List.map_nil])
    · rw [List.map_singleton, max?_concat hlast]
      rfl

/-! ## The highest height -/

/-- `h` is the last height above an earlier one. -/
def LastRise (heights : List Nat) (h : Nat) : Prop :=
  ∃ before after, heights = before ++ h :: after ∧ (∃ a ∈ before, a < h) ∧
    (h :: after).Pairwise (· ≥ ·) ∧ ∀ a ∈ before, ∀ x ∈ after, x ≤ a

namespace LastRise

variable {heights : List Nat} {h h' x : Nat}

theorem concat_self {a : Nat} (ha : a ∈ heights) (hlt : a < x) : LastRise (heights ++ [x]) x :=
  ⟨heights, [], rfl, ⟨a, ha, hlt⟩, List.pairwise_singleton _ _, by simp⟩

theorem concat (rise : LastRise heights h) (hle : ∀ a ∈ heights, x ≤ a) :
    LastRise (heights ++ [x]) h := by
  obtain ⟨before, after, rfl, hlow, hdown, hbelow⟩ := rise
  refine ⟨before, after ++ [x], by simp, hlow, ?_, fun a ha y hy => ?_⟩
  · rw [← List.cons_append, List.pairwise_append]
    refine ⟨hdown, List.pairwise_singleton _ _, fun a ha y hy => ?_⟩
    rw [List.mem_singleton.mp hy]
    exact hle a (List.mem_append_right _ ha)
  · rcases List.mem_append.mp hy with hy | hy
    · exact hbelow a ha y hy
    · rw [List.mem_singleton.mp hy]
      exact hle a (List.mem_append_left _ ha)

theorem mem (rise : LastRise heights h) : h ∈ heights := by
  obtain ⟨before, after, rfl, -⟩ := rise
  simp

theorem not_later {before mid after after' : List Nat} (hlow : ∃ a ∈ before ++ h :: mid, a < h')
    (hafter : after = mid ++ h' :: after') (hdown : (h :: after).Pairwise (· ≥ ·))
    (hbelow : ∀ a ∈ before, ∀ x ∈ after, x ≤ a) : False := by
  subst hafter
  obtain ⟨a, ha, hlt⟩ := hlow
  have hmem : h' ∈ mid ++ h' :: after' := by simp
  rcases List.mem_append.mp ha with ha | ha
  · have := hbelow a ha h' hmem
    omega
  · rw [← List.cons_append] at hdown
    have := (List.pairwise_append.mp hdown).2.2 a ha h' List.mem_cons_self
    omega

theorem unique (rise : LastRise heights h) (rise' : LastRise heights h') : h = h' := by
  obtain ⟨before, after, rfl, hlow, hdown, hbelow⟩ := rise
  obtain ⟨before', after', heq, hlow', hdown', hbelow'⟩ := rise'
  rcases List.append_eq_append_iff.mp heq with ⟨mid, rfl, hmid⟩ | ⟨mid, rfl, hmid⟩
  · rcases List.cons_eq_append_iff.mp hmid with ⟨-, h⟩ | ⟨mid, rfl, h⟩
    · exact (List.cons.inj h).1.symm
    · exact (not_later hlow' h hdown hbelow).elim
  · rcases List.cons_eq_append_iff.mp hmid with ⟨-, h⟩ | ⟨mid, rfl, h⟩
    · exact (List.cons.inj h).1
    · exact (not_later hlow h hdown' hbelow').elim

end LastRise

/-- `nHeightLast` is the last height above an earlier one, and 0 if there is
none. -/
theorem addBlocks_lastRise {blocks : List (Nat × Nat)} (hlt : blocks.length < 2 ^ 32) :
    (blocks.map Prod.fst).Pairwise (· ≥ ·) ∧
        (({} : CBlockFileInfo).addBlocks blocks).nHeightLast = 0 ∨
      LastRise (blocks.map Prod.fst) (({} : CBlockFileInfo).addBlocks blocks).nHeightLast := by
  induction blocks using List.reverseRecOn with
  | nil => exact .inl ⟨List.Pairwise.nil, rfl⟩
  | append_singleton blocks block ih =>
    have hmin := List.min?_eq_some_iff.mp ((addBlocks_bounds hlt).1 (by simp))
    have hlast : (({} : CBlockFileInfo).addBlocks (blocks ++ [block])).nHeightLast =
        if block.1 > (({} : CBlockFileInfo).addBlocks (blocks ++ [block])).nHeightFirst
        then block.1 else (({} : CBlockFileInfo).addBlocks blocks).nHeightLast := by
      rw [addBlocks_concat]
      rfl
    generalize (({} : CBlockFileInfo).addBlocks (blocks ++ [block])).nHeightFirst = first
      at hmin hlast
    rw [List.map_append, List.map_singleton] at hmin ⊢
    rw [hlast]
    split
    · next hgt =>
      refine .inr (LastRise.concat_self (a := first) ?_ hgt)
      rcases List.mem_append.mp hmin.1 with hmem | hmem
      · exact hmem
      · rw [List.mem_singleton.mp hmem] at hgt
        exact absurd hgt (Nat.lt_irrefl _)
    · next hle =>
      have hbelow : ∀ a ∈ blocks.map Prod.fst, block.1 ≤ a := fun a ha =>
        Nat.le_trans (Nat.le_of_not_lt hle) (hmin.2 a (List.mem_append_left _ ha))
      rw [List.length_append, List.length_singleton] at hlt
      rcases ih (by omega) with ⟨hdown, hzero⟩ | rise
      · refine .inl ⟨List.pairwise_append.mpr ⟨hdown, List.pairwise_singleton _ _, ?_⟩, hzero⟩
        intro a ha x hx
        rw [List.mem_singleton.mp hx]
        exact hbelow a ha
      · exact .inr (rise.concat hbelow)

/-- `nHeightLast` is the highest iff all heights are 0 or the last rise is the highest. -/
theorem addBlocks_heightLast_iff {blocks : List (Nat × Nat)} (hne : blocks ≠ [])
    (hlt : blocks.length < 2 ^ 32) :
    (blocks.map Prod.fst).max? = some (({} : CBlockFileInfo).addBlocks blocks).nHeightLast ↔
      (∀ block ∈ blocks, block.1 = 0) ∨
        ∃ h, LastRise (blocks.map Prod.fst) h ∧ ∀ block ∈ blocks, block.1 ≤ h := by
  have hspec := addBlocks_lastRise hlt
  generalize (({} : CBlockFileInfo).addBlocks blocks).nHeightLast = last at hspec ⊢
  rw [List.max?_eq_some_iff, List.forall_mem_map]
  constructor
  · rintro ⟨-, hmax⟩
    rcases hspec with ⟨-, rfl⟩ | rise
    · exact .inl fun block hblock => Nat.le_zero.mp (hmax block hblock)
    · exact .inr ⟨last, rise, hmax⟩
  · rintro (hzero | ⟨h, rise, hmax⟩)
    · have hheights : ∀ a ∈ blocks.map Prod.fst, a = 0 := List.forall_mem_map.mpr hzero
      rcases hspec with ⟨-, rfl⟩ | ⟨before, after, heq, ⟨a, ha, hlt⟩, -⟩
      · obtain ⟨block, hblock⟩ := List.exists_mem_of_ne_nil blocks hne
        refine ⟨List.mem_map.mpr ⟨block, hblock, hzero block hblock⟩, ?_⟩
        exact fun b hb => Nat.le_of_eq (hzero b hb)
      · rw [hheights last (by rw [heq]; simp)] at hlt
        exact absurd hlt (Nat.not_lt_zero a)
    · rcases hspec with ⟨hdown, -⟩ | rise'
      · obtain ⟨before, after, heq, ⟨a, ha, hlt⟩, -⟩ := rise
        rw [heq] at hdown
        have := (List.pairwise_append.mp hdown).2.2 a ha h List.mem_cons_self
        omega
      · rw [rise'.unique rise]
        exact ⟨rise.mem, hmax⟩

/-- A fresh record is right exactly for sequences `nBlocks` can count whose heights are all 0 or
whose last rise is the highest. -/
theorem addBlocks_describes_iff {blocks : List (Nat × Nat)} (hne : blocks ≠ []) :
    (({} : CBlockFileInfo).addBlocks blocks).Describes blocks ↔
      blocks.length < 2 ^ 32 ∧ ((∀ block ∈ blocks, block.1 = 0) ∨
        ∃ h, LastRise (blocks.map Prod.fst) h ∧ ∀ block ∈ blocks, block.1 ≤ h) := by
  constructor
  · intro hdesc
    have hlt : blocks.length < 2 ^ 32 := by
      rw [← hdesc.count, addBlocks_nBlocks]
      exact Nat.mod_lt _ (by omega)
    exact ⟨hlt, (addBlocks_heightLast_iff hne hlt).mp hdesc.heightLast⟩
  · rintro ⟨hlt, hheights⟩
    obtain ⟨hheight, htime, hlast⟩ := addBlocks_bounds hlt
    refine ⟨?_, hheight hne, (addBlocks_heightLast_iff hne hlt).mpr hheights, htime hne, ?_⟩
    · rw [addBlocks_nBlocks, Nat.mod_eq_of_lt hlt]
    · cases hmax : (blocks.map Prod.snd).max? with
      | none => exact absurd (List.map_eq_nil_iff.mp (List.max?_eq_none_iff.mp hmax)) hne
      | some last =>
        rw [hmax, Option.getD_some] at hlast
        rw [hlast]

/-- A file that grows from height 5 to height 7. -/
theorem addBlocks_describes_growing :
    [(5, 100), (6, 90), (7, 110)] ≠ [] ∧
      (({} : CBlockFileInfo).addBlocks [(5, 100), (6, 90), (7, 110)]).Describes
        [(5, 100), (6, 90), (7, 110)] :=
  ⟨by simp, (addBlocks_describes_iff (by simp)).mpr ⟨by simp, .inr ⟨7,
    ⟨[5, 6], [], rfl, ⟨5, by simp, by omega⟩, by simp, by simp⟩, by simp⟩⟩⟩

/-- A block of a side branch lowers `nHeightLast` from 10 to 7; a single one leaves it 0. -/
theorem addBlocks_side_branch :
    (({} : CBlockFileInfo).addBlocks [(5, 100), (10, 200), (7, 150)]).nHeightLast = 7 ∧
      ¬ (({} : CBlockFileInfo).addBlocks [(5, 100), (10, 200), (7, 150)]).Describes
        [(5, 100), (10, 200), (7, 150)] ∧
      (({} : CBlockFileInfo).addBlocks [(5, 100)]).nHeightLast = 0 ∧
      ¬ (({} : CBlockFileInfo).addBlocks [(5, 100)]).Describes [(5, 100)] := by
  refine ⟨rfl, fun h => ?_, rfl, fun h => ?_⟩
  · exact absurd h.heightLast (by decide)
  · exact absurd h.heightLast (by decide)

end CBlockFileInfo
end CoMoNet
