import Mathlib.Data.List.InsertIdx
import Mathlib.Data.List.TakeWhile

/-!
# Lists ordered by a rank

A list is kept with the highest rank first and, among equal ranks, the newest first.
`slot` finds the place of a new element by a scan from the back and agrees with `insert`
(`insert_slot`).
-/

namespace RankedList

variable {α : Type*} (rank : α → Int)

/-- Put an element before those that do not rank higher. -/
def insert (x : α) (l : List α) : List α :=
  l.takeWhile (fun a => rank x < rank a) ++ x :: l.dropWhile (fun a => rank x < rank a)

/-- The place for an element of rank `r`: `j` elements are passed, `pos` is the place so far. -/
def slot (r : Int) : Nat → Nat → List α → Nat
  | _, pos, [] => pos
  | j, pos, a :: l => slot r (j + 1) (if rank a ≤ r then j + 1 else pos) l

/-- Ranks go down. -/
def Ordered (l : List α) : Prop := l.Pairwise fun a b => rank b ≤ rank a

/-- The elements of a list, inserted in turn. -/
def ofList (l : List α) : List α := l.foldl (fun ranked x => insert rank x ranked) []

section Slot

variable {rank} {r : Int} {l pre post : List α} {x : α} {j pos k n : Nat}

theorem slot_of_lt (h : ∀ a ∈ l, r < rank a) : slot rank r j pos l = pos := by
  induction l generalizing j with
  | nil => rfl
  | cons a l ih =>
    rw [slot, if_neg (Int.not_le.mpr (h a List.mem_cons_self))]
    exact ih fun b hb => h b (List.mem_cons_of_mem _ hb)

/-- In a list that goes up, the elements that do not rank higher come first. -/
theorem slot_append (hpre : ∀ a ∈ pre, rank a ≤ r) (hpost : ∀ a ∈ post, r < rank a) :
    slot rank r j j (pre ++ post) = j + pre.length := by
  induction pre generalizing j with
  | nil => exact slot_of_lt hpost
  | cons a pre ih =>
    rw [List.cons_append, slot, if_pos (hpre a List.mem_cons_self),
      ih fun b hb => hpre b (List.mem_cons_of_mem _ hb), List.length_cons]
    omega

theorem slot_le (h : pos ≤ j) : slot rank r j pos l ≤ j + l.length := by
  induction l generalizing j pos with
  | nil => exact h
  | cons a l ih =>
    have hpos : (if rank a ≤ r then j + 1 else pos) ≤ j + 1 := by
      split <;> omega
    have hle := ih hpos
    rw [slot, List.length_cons]
    omega

/-- Some place but the first is found exactly if an element does not rank
higher. -/
theorem slot_pos_iff : 0 < slot rank r j pos l ↔ 0 < pos ∨ ∃ a ∈ l, rank a ≤ r := by
  induction l generalizing j pos with
  | nil => simp [slot]
  | cons a l ih =>
    rw [slot, ih]
    by_cases ha : rank a ≤ r
    · simp [ha]
    · simp [ha]

theorem insertIdx_append (x : α) (pre post : List α) :
    (pre ++ post).insertIdx pre.length x = pre ++ x :: post := by
  induction pre with
  | nil => rfl
  | cons a pre ih =>
    rw [List.cons_append, List.length_cons, List.insertIdx_succ_cons, ih]
    rfl

/-- The place in a list, counted from the back and from the front. -/
theorem mem_take_insertIdx (hk : k ≤ l.length) (hx : x ∉ l) :
    x ∈ ((l.reverse.insertIdx k x).reverse).take n ↔ l.length - k < n := by
  have hsplit : (l.reverse.insertIdx k x).reverse =
      (l.reverse.drop k).reverse ++ x :: (l.reverse.take k).reverse := by
    have hins := insertIdx_append x (l.reverse.take k) (l.reverse.drop k)
    rw [List.take_append_drop, List.length_take, List.length_reverse, Nat.min_eq_left hk] at hins
    rw [hins]
    simp
  have hlen : (l.reverse.drop k).reverse.length = l.length - k := by simp
  have hnot : x ∉ (l.reverse.drop k).reverse := fun hmem =>
    hx (List.mem_reverse.mp (List.mem_of_mem_drop (List.mem_reverse.mp hmem)))
  rw [hsplit, List.take_append, hlen, List.mem_append]
  constructor
  · rintro (hmem | hmem)
    · exact absurd (List.mem_of_mem_take hmem) hnot
    · by_contra hle
      rw [Nat.sub_eq_zero_of_le (Nat.le_of_not_lt hle), List.take_zero] at hmem
      cases hmem
  · intro hlt
    obtain ⟨i, hi⟩ := Nat.exists_eq_succ_of_ne_zero (Nat.sub_ne_zero_of_lt hlt)
    rw [hi]
    exact .inr List.mem_cons_self

end Slot

section Insert

variable {rank} {R : α → α → Prop} {l : List α} {x y : α}

theorem mem_insert : y ∈ insert rank x l ↔ y = x ∨ y ∈ l := by
  rw [insert, List.mem_append, List.mem_cons, or_left_comm, ← List.mem_append,
    List.takeWhile_append_dropWhile]

/-- After the first element that does not rank higher none does. -/
theorem Ordered.dropWhile_le (h : Ordered rank l) :
    ∀ a ∈ l.dropWhile (fun a => rank x < rank a), rank a ≤ rank x := by
  induction l with
  | nil => exact nofun
  | cons a l ih =>
    obtain ⟨hfirst, hrest⟩ := List.pairwise_cons.mp h
    intro b hb
    by_cases ha : rank x < rank a
    · rw [List.dropWhile_cons_of_pos (by simpa using ha)] at hb
      exact ih hrest b hb
    · rw [List.dropWhile_cons_of_neg (by simpa using ha)] at hb
      rcases List.mem_cons.mp hb with rfl | hb
      · exact Int.not_lt.mp ha
      · exact Int.le_trans (hfirst b hb) (Int.not_lt.mp ha)

/-- On an ordered list the scan from the back finds the place of `insert`. -/
theorem insert_slot (h : Ordered rank l) :
    (l.reverse.insertIdx (slot rank (rank x) 0 0 l.reverse) x).reverse = insert rank x l := by
  have hsplit : l.reverse = (l.dropWhile (fun a => rank x < rank a)).reverse ++
      (l.takeWhile (fun a => rank x < rank a)).reverse := by
    rw [← List.reverse_append, List.takeWhile_append_dropWhile]
  have hslot : slot rank (rank x) 0 0 l.reverse =
      (l.dropWhile (fun a => rank x < rank a)).reverse.length := by
    rw [hsplit, slot_append, Nat.zero_add]
    · intro a ha
      exact h.dropWhile_le a (List.mem_reverse.mp ha)
    · intro a ha
      simpa using List.mem_takeWhile_imp (List.mem_reverse.mp ha)
  rw [hslot, hsplit, insertIdx_append, insert]
  simp

/-- What relates the new element to those ranked higher and to the others relates the whole list. -/
theorem pairwise_insert (hord : Ordered rank l) (hR : l.Pairwise R)
    (hhigh : ∀ a ∈ l, rank x < rank a → R a x) (hlow : ∀ a ∈ l, rank a ≤ rank x → R x a) :
    (insert rank x l).Pairwise R := by
  have hsplit := List.takeWhile_append_dropWhile (p := fun a => decide (rank x < rank a)) (l := l)
  rw [← hsplit, List.pairwise_append] at hR
  obtain ⟨hpre, hpost, hcross⟩ := hR
  have hmem : ∀ a ∈ l.dropWhile (fun a => rank x < rank a), a ∈ l :=
    fun a ha => (List.dropWhile_sublist _).subset ha
  rw [insert, List.pairwise_append, List.pairwise_cons]
  refine ⟨hpre, ⟨fun a ha => hlow a (hmem a ha) (hord.dropWhile_le a ha), hpost⟩, ?_⟩
  intro a ha b hb
  rcases List.mem_cons.mp hb with rfl | hb
  · exact hhigh a ((List.takeWhile_sublist _).subset ha) (by simpa using List.mem_takeWhile_imp ha)
  · exact hcross a ha b hb

/-- Inserting adds the element. -/
theorem insert_perm (x : α) (l : List α) : (insert rank x l).Perm (x :: l) := by
  have hsplit := List.takeWhile_append_dropWhile (p := fun a => decide (rank x < rank a)) (l := l)
  rw [insert]
  conv_rhs => rw [← hsplit]
  exact List.perm_middle

/-- Inserting keeps the order. -/
theorem Ordered.insert (h : Ordered rank l) : Ordered rank (insert rank x l) :=
  pairwise_insert h h (fun _ _ hlt => Int.le_of_lt hlt) fun _ _ hle => hle

end Insert

section OfList

variable {rank} {l m : List α} {x : α} {r bound : Int} {n : Nat}

theorem foldl_insert_perm (l m : List α) :
    (l.foldl (fun ranked x => insert rank x ranked) m).Perm (l ++ m) := by
  induction l generalizing m with
  | nil => exact .refl m
  | cons x l ih =>
    rw [List.foldl_cons]
    exact (ih _).trans (((insert_perm x m).append_left l).trans List.perm_middle)

/-- The list has the elements it is made of. -/
theorem ofList_perm (l : List α) : (ofList rank l).Perm l := by
  simpa [ofList] using foldl_insert_perm l []

theorem ordered_ofList (l : List α) : Ordered rank (ofList rank l) :=
  List.foldlRecOn l _ (motive := Ordered rank) .nil fun _ h _ _ => h.insert

/-- The first elements stay below a bound iff all do, unless there are none. -/
theorem Ordered.forall_take_le_iff (h : Ordered rank l) :
    (∀ a ∈ l.take n, rank a ≤ bound) ↔ n = 0 ∨ ∀ a ∈ l, rank a ≤ bound := by
  cases n with
  | zero => simp
  | succ n =>
    cases l with
    | nil => simp
    | cons a l =>
      have hle := (List.pairwise_cons.mp h).1
      simp only [List.take_succ_cons, List.forall_mem_cons, Nat.add_one_ne_zero, false_or]
      refine ⟨fun ⟨ha, _⟩ => ⟨ha, fun b hb => Int.le_trans (hle b hb) ha⟩,
        fun ⟨ha, hall⟩ => ⟨ha, ?_⟩⟩
      exact fun b hb => hall b (List.mem_of_mem_take hb)

/-- The first elements leave out a rank iff no element has it or enough rank higher. -/
theorem Ordered.forall_take_ne_iff (h : Ordered rank l) :
    (∀ a ∈ l.take n, rank a ≠ r) ↔
      (∀ a ∈ l, rank a ≠ r) ∨ n ≤ l.countP fun a => r < rank a := by
  induction l generalizing n with
  | nil => simp
  | cons a l ih =>
    obtain ⟨hle, hl⟩ := List.pairwise_cons.mp h
    cases n with
    | zero => simp
    | succ n =>
      simp only [List.take_succ_cons, List.forall_mem_cons, List.countP_cons, ih hl]
      rcases Int.lt_trichotomy r (rank a) with hlt | rfl | hgt
      · simp [hlt, Int.ne_of_gt hlt]
      · have hnone : l.countP (fun b => rank a < rank b) = 0 :=
          List.countP_eq_zero.mpr fun b hb => by simpa using hle b hb
        simp [hnone]
      · have hne : ∀ b ∈ l, rank b ≠ r :=
          fun b hb => Int.ne_of_lt (Int.lt_of_le_of_lt (hle b hb) hgt)
        exact ⟨fun _ => .inl ⟨Int.ne_of_lt hgt, hne⟩, fun _ => ⟨Int.ne_of_lt hgt, .inl hne⟩⟩

end OfList

end RankedList
