import Mathlib.Logic.Function.Basic
import Mathlib.Logic.Function.Iterate
import Mathlib.Data.List.Nodup
import Mathlib.Data.Nat.Bitwise
import Mathlib.Tactic.Ring

/-!
# Binary hash trees of any width

Each row pairs the nodes of the one below it, and an odd last node is paired with
itself. `leaves` is the part of a list below a node; `eq_of_row` says when a row
determines the leaves.
-/

namespace Merkle

variable {α : Type*} (pair : α → α → α)

/-- The row above a row. -/
def level : List α → List α
  | [] => []
  | [a] => [pair a a]
  | a :: b :: rest => pair a b :: level rest

/-- The rows of the tree, from the leaves up. -/
def row (l : List α) (height : Nat) : List α := (level pair)^[height] l

/-- A row and the rows above it, in one list. -/
def rows : Nat → List α → List α
  | 0, r => r
  | rounds + 1, r => if 1 < r.length then r ++ rows rounds (level pair r) else r

/-- The number of nodes at a height of the tree over `n` leaves. -/
def width (n height : Nat) : Nat := (n + 2 ^ height - 1) / 2 ^ height

section Rows

variable {pair} {l : List α} {height : Nat}

theorem row_zero (l : List α) : row pair l 0 = l := rfl

theorem row_succ (l : List α) (height : Nat) :
    row pair l (height + 1) = row pair (level pair l) height :=
  Function.iterate_succ_apply _ _ _

/-- A row is the level above the one below. -/
theorem row_succ' (l : List α) (height : Nat) :
    row pair l (height + 1) = level pair (row pair l height) :=
  Function.iterate_succ_apply' _ _ _

theorem row_add (l : List α) (m n : Nat) : row pair l (m + n) = row pair (row pair l n) m :=
  Function.iterate_add_apply _ _ _ _

theorem row_nil (height : Nat) : row pair [] height = [] := by
  induction height with
  | zero => rfl
  | succ height ih => rw [row_succ', ih, level]

theorem length_level (pair : α → α → α) (l : List α) :
    (level pair l).length = (l.length + 1) / 2 := by
  induction l using level.induct with
  | case1 => simp [level]
  | case2 a => simp [level]
  | case3 a b rest ih =>
    rw [level, List.length_cons, ih]
    simp only [List.length_cons]
    omega

/-- A node is the pair of the two below it; a missing right one is the left one. -/
theorem level_getElem? (l : List α) (i : Nat) :
    (level pair l)[i]? = l[2 * i]?.map fun a => pair a (l[2 * i + 1]?.getD a) := by
  induction l using level.induct generalizing i with
  | case1 => simp [level]
  | case2 a => cases i <;> simp [level]
  | case3 a b rest ih =>
    cases i with
    | zero => simp [level]
    | succ i => simp [level, ih, Nat.mul_add]

theorem level_ne_nil (h : l ≠ []) : level pair l ≠ [] := by
  match l with
  | [a] => simp [level]
  | a :: b :: rest => simp [level]

theorem rows_ne_nil (h : l ≠ []) (rounds : Nat) : rows pair rounds l ≠ [] := by
  cases rounds with
  | zero => exact h
  | succ rounds =>
    rw [rows]
    split
    · exact List.append_ne_nil_of_left_ne_nil h _
    · exact h

theorem width_zero (n : Nat) : width n 0 = n := by
  simp [width]

theorem width_pos {n : Nat} (hn : 0 < n) (height : Nat) : 0 < width n height := by
  have hpos : 0 < 2 ^ height := Nat.two_pow_pos height
  rw [width]
  exact Nat.div_pos (by omega) hpos

theorem width_le_one {n height : Nat} (h : n ≤ 2 ^ height) : width n height ≤ 1 := by
  have hpos : 0 < 2 ^ height := Nat.two_pow_pos height
  rw [width]
  exact Nat.lt_succ_iff.mp ((Nat.div_lt_iff_lt_mul hpos).mpr (by omega))

theorem width_succ (n height : Nat) : width n (height + 1) = (width n height + 1) / 2 := by
  have hpos : 0 < 2 ^ height := Nat.two_pow_pos height
  have hround : (n + 2 ^ height - 1) / 2 ^ height + 1 =
      (n + 2 ^ (height + 1) - 1) / 2 ^ height := by
    rw [Nat.pow_succ, ← Nat.add_div_right _ hpos]
    congr 1
    omega
  rw [width, width, hround, Nat.div_div_eq_div_mul, Nat.pow_succ]

theorem length_row (l : List α) (height : Nat) :
    (row pair l height).length = width l.length height := by
  induction height with
  | zero => rw [row_zero, width_zero]
  | succ height ih => rw [row_succ', length_level, ih, width_succ]

/-! ## The height of the tree -/

/-- The row of this height is the first with one node. -/
def IsHeight (n height : Nat) : Prop := width n height = 1 ∧ ∀ h < height, 1 < width n h

/-- A tree has one height. -/
theorem IsHeight.unique {n height' : Nat} (h : IsHeight n height) (h' : IsHeight n height') :
    height = height' := by
  rcases Nat.lt_trichotomy height height' with hlt | heq | hgt
  · have := h'.2 height hlt
    have := h.1
    omega
  · exact heq
  · have := h.2 height' hgt
    have := h'.1
    omega

theorem isHeight_one : IsHeight 1 0 := ⟨width_zero 1, fun _ h => absurd h (Nat.not_lt_zero _)⟩

theorem width_half (n height : Nat) : width ((n + 1) / 2) height = width n (height + 1) := by
  induction height with
  | zero => rw [width_succ, width_zero, width_zero]
  | succ height ih => rw [width_succ, ih, ← width_succ]

theorem IsHeight.pow_lt {n : Nat} (hn : 0 < n) (h : IsHeight n height) : 2 ^ height < 2 * n := by
  cases height with
  | zero =>
    rw [Nat.pow_zero]
    omega
  | succ height =>
    have hwide := h.2 height (Nat.lt_succ_self height)
    have hpow : 2 ^ height < n := by
      by_contra hle
      have := width_le_one (Nat.not_lt.mp hle)
      omega
    rw [Nat.pow_succ]
    omega

/-- A tree is one higher than the one over the row above the leaves. -/
theorem IsHeight.succ {n : Nat} (hn : 1 < n) (h : IsHeight ((n + 1) / 2) height) :
    IsHeight n (height + 1) := by
  refine ⟨by rw [← width_half, h.1], fun k hk => ?_⟩
  cases k with
  | zero => rwa [width_zero]
  | succ k =>
    rw [← width_half]
    exact h.2 k (by omega)

/-- The parent of a node and its sibling; a last left node is its own sibling. -/
theorem level_sibling {i : Nat} {a s : α} (ha : l[i]? = some a)
    (hs : l[min (i ^^^ 1) (l.length - 1)]? = some s) :
    (level pair l)[i / 2]? = some (if i % 2 = 1 then pair s a else pair a s) := by
  obtain ⟨hi, -⟩ := List.getElem?_eq_some_iff.mp ha
  rw [level_getElem?]
  split
  · next hodd =>
      have hxor : min (i ^^^ 1) (l.length - 1) = 2 * (i / 2) := by
        rw [Nat.xor_one_of_odd (Nat.odd_iff.mpr hodd)]
        omega
      rw [← hxor, hs, show min (i ^^^ 1) (l.length - 1) + 1 = i by omega, ha]
      rfl
  · next heven =>
      have hxor : i ^^^ 1 = i + 1 := Nat.xor_one_of_even (Nat.even_iff.mpr (by omega))
      rw [show 2 * (i / 2) = i by omega, ha]
      rw [hxor] at hs
      rcases Nat.lt_or_ge (i + 1) l.length with hlt | hge
      · rw [show min (i + 1) (l.length - 1) = i + 1 by omega] at hs
        rw [hs]
        rfl
      · rw [show min (i + 1) (l.length - 1) = i by omega, ha] at hs
        rw [List.getElem?_eq_none hge, Option.some.inj hs]
        rfl

/-! ## The leaves below a node -/

/-- The part of a list below a node of the tree over it. -/
def leaves {β : Type*} (l : List β) (height pos : Nat) : List β :=
  (l.drop (pos * 2 ^ height)).take (2 ^ height)

variable {β : Type*} {xs : List β}

theorem leaves_zero (xs : List β) (pos : Nat) : leaves xs 0 pos = xs[pos]?.toList := by
  rw [leaves, Nat.pow_zero, Nat.mul_one, List.take_one, List.head?_drop]

theorem leaves_map {γ : Type*} (f : β → γ) (xs : List β) (height pos : Nat) :
    leaves (xs.map f) height pos = (leaves xs height pos).map f := by
  rw [leaves, leaves, List.map_take, List.map_drop]

/-- The leaves below a node are those below its children. -/
theorem leaves_succ (xs : List β) (height pos : Nat) :
    leaves xs (height + 1) pos = leaves xs height (2 * pos) ++ leaves xs height (2 * pos + 1) := by
  have hstart : pos * 2 ^ (height + 1) = 2 * pos * 2 ^ height := by
    rw [Nat.pow_succ]
    ring
  have hmiddle : (2 * pos + 1) * 2 ^ height = 2 * pos * 2 ^ height + 2 ^ height := by
    ring
  rw [leaves, leaves, leaves, hstart, hmiddle, Nat.pow_succ, Nat.mul_two, List.take_add,
    List.drop_drop]

/-- There is nothing below a node that does not exist. -/
theorem leaves_of_width_le {height pos : Nat} (h : width xs.length height ≤ pos) :
    leaves xs height pos = [] := by
  have hlength : xs.length ≤ pos * 2 ^ height := by
    have hpos : 0 < 2 ^ height := Nat.two_pow_pos height
    have := Nat.lt_mul_of_div_lt (Nat.lt_succ_of_le h) hpos
    rw [Nat.succ_mul] at this
    omega
  rw [leaves, List.drop_eq_nil_of_le hlength, List.take_nil]

/-- There is something below a node that exists. -/
theorem leaves_length_pos {height pos : Nat} (h : pos < width xs.length height) :
    0 < (leaves xs height pos).length := by
  have hpos : 0 < 2 ^ height := Nat.two_pow_pos height
  have hstart : pos * 2 ^ height < xs.length := by
    have := (Nat.le_div_iff_mul_le hpos).mp (Nat.succ_le_of_lt h)
    rw [Nat.succ_mul] at this
    omega
  rw [leaves, List.length_take, List.length_drop]
  omega

/-- All leaves are below the root. -/
theorem leaves_root {height : Nat} (h : width xs.length height ≤ 1) : leaves xs height 0 = xs := by
  have hlength : xs.length ≤ 2 ^ height := by
    have hpos : 0 < 2 ^ height := Nat.two_pow_pos height
    have := Nat.lt_mul_of_div_lt (Nat.lt_succ_of_le h) hpos
    omega
  rw [leaves, Nat.zero_mul, List.drop_zero, List.take_of_length_le hlength]

end Rows

/-! ## What a root determines -/

section Unique

variable {pair} (hinj : Function.Injective2 pair) {l l' : List α} {height height' : Nat}

theorem mem_level {x : α} (h : x ∈ level pair l) : ∃ a ∈ l, ∃ b ∈ l, x = pair a b := by
  induction l using level.induct with
  | case1 => simp [level] at h
  | case2 a =>
    rw [level, List.mem_singleton] at h
    exact ⟨a, List.mem_singleton_self a, a, List.mem_singleton_self a, h⟩
  | case3 a b rest ih =>
    rw [level, List.mem_cons] at h
    rcases h with rfl | h
    · exact ⟨a, by simp, b, by simp, rfl⟩
    · obtain ⟨c, hc, d, hd, rfl⟩ := ih h
      exact ⟨c, by simp [hc], d, by simp [hd], rfl⟩

/-- What pairing keeps holds in all rows if it holds of the leaves. -/
theorem row_forall {P : α → Prop} (hpair : ∀ a b, P a → P b → P (pair a b)) (h : ∀ a ∈ l, P a)
    (height : Nat) : ∀ a ∈ row pair l height, P a := by
  induction height with
  | zero => exact h
  | succ height ih =>
    intro x hx
    rw [row_succ'] at hx
    obtain ⟨a, ha, b, hb, rfl⟩ := mem_level hx
    exact hpair a b (ih a ha) (ih b hb)

include hinj in
/-- Without duplicates and collisions the next row has no duplicates. -/
theorem nodup_level (h : l.Nodup) : (level pair l).Nodup := by
  induction l using level.induct with
  | case1 => simp [level]
  | case2 a => simp [level]
  | case3 a b rest ih =>
    simp only [List.nodup_cons, List.mem_cons, not_or] at h
    rw [level, List.nodup_cons]
    refine ⟨fun hmem => ?_, ih h.2.2⟩
    obtain ⟨c, hc, d, -, heq⟩ := mem_level hmem
    exact h.1.2 ((hinj heq).1 ▸ hc)

include hinj in
/-- A row determines the one below it, if that has no two equal nodes. -/
theorem eq_of_level (h : l.Nodup) (h' : l'.Nodup) (heq : level pair l = level pair l') :
    l = l' := by
  induction l using level.induct generalizing l' with
  | case1 =>
    have hlength := congrArg List.length heq
    rw [length_level, length_level, List.length_nil] at hlength
    exact (List.length_eq_zero_iff.mp (by omega)).symm
  | case2 a =>
    match l' with
    | [] => simp [level] at heq
    | [b] =>
      rw [level, level, List.cons.injEq] at heq
      rw [(hinj heq.1).1]
    | b :: c :: rest =>
      rw [level, level, List.cons.injEq] at heq
      obtain ⟨rfl, rfl⟩ := hinj heq.1
      simp at h'
  | case3 a b rest ih =>
    match l' with
    | [] => simp [level] at heq
    | [c] =>
      rw [level, level, List.cons.injEq] at heq
      obtain ⟨rfl, rfl⟩ := hinj heq.1
      simp at h
    | c :: d :: rest' =>
      rw [level, level, List.cons.injEq] at heq
      obtain ⟨rfl, rfl⟩ := hinj heq.1
      simp only [List.nodup_cons] at h h'
      rw [ih h.2.2 h'.2.2 heq.2]

include hinj in
theorem nodup_row (h : l.Nodup) (height : Nat) : (row pair l height).Nodup := by
  induction height with
  | zero => exact h
  | succ height ih =>
    rw [row_succ']
    exact nodup_level hinj ih

include hinj in
/-- Rows of leaves without duplicates determine the leaves. -/
theorem eq_of_row (h : l.Nodup) (h' : l'.Nodup) (heq : row pair l height = row pair l' height) :
    l = l' := by
  induction height generalizing l l' with
  | zero => exact heq
  | succ height ih =>
    rw [row_succ, row_succ] at heq
    exact eq_of_level hinj h h' (ih (nodup_level hinj h) (nodup_level hinj h') heq)

include hinj in
/-- Trees of two heights cannot share a root, if no leaf is a pair. -/
theorem height_le_of_root {root : α} (h : l.Nodup) (h' : l'.Nodup)
    (hleaf : ∀ a ∈ l, ∀ b c, a ≠ pair b c) (hroot : row pair l height = [root])
    (hroot' : row pair l' height' = [root]) : height' ≤ height := by
  by_contra hlt
  obtain ⟨k, rfl⟩ : ∃ k, height' = height + (k + 1) := ⟨height' - height - 1, by omega⟩
  rw [row_add] at hroot'
  have hrow : l = row pair l' (k + 1) :=
    eq_of_row hinj h (nodup_row hinj h' _) (hroot.trans hroot'.symm)
  have hne : l ≠ [] := by
    rintro rfl
    rw [row_nil] at hroot
    cases hroot
  obtain ⟨a, ha⟩ := List.exists_mem_of_ne_nil l hne
  have hmem : a ∈ level pair (row pair l' k) := by
    rw [← row_succ', ← hrow]
    exact ha
  obtain ⟨b, -, c, -, hpair⟩ := mem_level hmem
  exact hleaf a ha b c hpair

include hinj in
/-- A root determines the leaves, if they are different and none of them is a pair. -/
theorem eq_of_root {root : α} (h : l.Nodup) (h' : l'.Nodup)
    (hleaf : ∀ a ∈ l, ∀ b c, a ≠ pair b c) (hleaf' : ∀ a ∈ l', ∀ b c, a ≠ pair b c)
    (hroot : row pair l height = [root]) (hroot' : row pair l' height' = [root]) : l = l' := by
  obtain rfl : height = height' :=
    Nat.le_antisymm (height_le_of_root hinj h' h hleaf' hroot' hroot)
      (height_le_of_root hinj h h' hleaf hroot hroot')
  exact eq_of_row hinj h h' (hroot.trans hroot'.symm)

end Unique

end Merkle
