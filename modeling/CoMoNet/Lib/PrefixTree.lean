import Mathlib.Data.List.Dedup
import Mathlib.Data.List.Perm.Subperm
import Mathlib.Logic.Function.Basic

/-!
# Prefix trees

A prefix tree says for each string which symbols can follow it in a word; `stop` marks
the end of one. Collecting the words below a string in a set of limited size is filling
the set from the list of all of them (`collect_eq_fill`).
-/

namespace PrefixTree

variable {α : Type*} [DecidableEq α]

/-! ## Filling a set -/

/-- Words go into a set as long as it is smaller than a bound. -/
def fill (count : Nat) (words : List (List α)) (names : List (List α)) : List (List α) :=
  words.foldl (fun names w => if names.length < count then names.insert w else names) names

section Fill

variable {count : Nat} {words names : List (List α)} {w : List α}

@[simp]
theorem fill_nil : fill count [] names = names := rfl

theorem fill_cons : fill count (w :: words) names =
    fill count words (if names.length < count then names.insert w else names) := rfl

theorem fill_append (more : List (List α)) :
    fill count (words ++ more) names = fill count more (fill count words names) :=
  List.foldl_append

/-- A full set takes nothing more. -/
theorem fill_full (h : count ≤ names.length) : fill count words names = names := by
  induction words with
  | nil => rfl
  | cons w words ih => rw [fill_cons, if_neg (Nat.not_lt.mpr h), ih]

theorem fill_one : fill 1 (w :: words) [] = [w] := by
  rw [fill_cons, if_pos (show ([] : List (List α)).length < 1 from Nat.one_pos)]
  exact fill_full (by simp)

theorem length_insert_le (names : List (List α)) (w : List α) :
    (names.insert w).length ≤ names.length + 1 := by
  by_cases hw : w ∈ names
  · rw [List.insert_of_mem hw]
    exact Nat.le_succ _
  · rw [List.insert_of_not_mem hw]
    exact Nat.le_refl _

/-- A set is not filled beyond its size. -/
theorem length_fill_le : (fill count words names).length ≤ max count names.length := by
  induction words generalizing names with
  | nil => exact Nat.le_max_right _ _
  | cons w words ih =>
    rw [fill_cons]
    refine Nat.le_trans ih ?_
    split
    · have := length_insert_le names w
      omega
    · exact Nat.le_refl _

theorem length_le_fill : names.length ≤ (fill count words names).length := by
  induction words generalizing names with
  | nil => exact Nat.le_refl _
  | cons w words ih =>
    rw [fill_cons]
    refine Nat.le_trans ?_ ih
    split
    · exact List.length_le_length_insert
    · exact Nat.le_refl _

theorem subset_fill : names ⊆ fill count words names := by
  induction words generalizing names with
  | nil => exact List.Subset.refl names
  | cons w words ih =>
    intro x hx
    rw [fill_cons]
    refine ih ?_
    split
    · exact List.mem_insert_of_mem hx
    · exact hx

/-- What is in the set was there or is one of the words. -/
theorem mem_of_mem_fill (h : w ∈ fill count words names) : w ∈ names ∨ w ∈ words := by
  induction words generalizing names with
  | nil => exact .inl h
  | cons x words ih =>
    rw [fill_cons] at h
    obtain hmem | hmem := ih h
    · split at hmem
      · obtain rfl | hold := List.mem_insert_iff.mp hmem
        · exact .inr List.mem_cons_self
        · exact .inl hold
      · exact .inl hmem
    · exact .inr (List.mem_cons_of_mem x hmem)

theorem nodup_fill (h : names.Nodup) : (fill count words names).Nodup := by
  induction words generalizing names with
  | nil => exact h
  | cons w words ih =>
    rw [fill_cons]
    refine ih ?_
    split
    · exact h.insert
    · exact h

/-- A set that is not full in the end has all words. -/
theorem mem_fill_of_length_lt (hlt : (fill count words names).length < count) (h : w ∈ words) :
    w ∈ fill count words names := by
  induction words generalizing names with
  | nil => cases h
  | cons x words ih =>
    rw [fill_cons] at hlt ⊢
    obtain rfl | hmem := List.mem_cons.mp h
    · refine subset_fill ?_
      split
      · exact List.mem_insert_self
      · rename_i hfull
        rw [if_neg hfull, fill_full (Nat.le_of_not_lt hfull)] at hlt
        exact absurd hlt hfull
    · exact ih hlt hmem

/-- When `w` is the only word in the set. -/
theorem forall_mem_fill_iff :
    (∀ x ∈ fill count words [], x = w) ↔
      (∀ x ∈ words, x = w) ∨ count = 0 ∨ (count = 1 ∧ words.head? = some w) := by
  have hsub : ∀ x ∈ fill count words [], x ∈ words := fun x hx =>
    (mem_of_mem_fill hx).resolve_left List.not_mem_nil
  constructor
  · intro hall
    match count with
    | 0 => exact .inr (.inl rfl)
    | 1 =>
      cases words with
      | nil => exact .inl nofun
      | cons x words =>
        have hx : x ∈ fill 1 (x :: words) [] := by
          rw [fill_one]
          exact List.mem_singleton_self x
        exact .inr (.inr ⟨rfl, congrArg some (hall x hx)⟩)
    | count + 2 =>
      have hone : (fill (count + 2) words []).length ≤ 1 := by
        have hnodup : (fill (count + 2) words []).Nodup := nodup_fill List.nodup_nil
        have hsub : fill (count + 2) words [] ⊆ [w] := fun x hx =>
          List.mem_singleton.mpr (hall x hx)
        exact (List.subperm_of_subset hnodup hsub).length_le
      exact .inl fun x hx => hall x (mem_fill_of_length_lt (by omega) hx)
  · rintro (hall | rfl | ⟨rfl, hhead⟩) x hx
    · exact hall x (hsub x hx)
    · rw [fill_full (Nat.zero_le _)] at hx
      cases hx
    · obtain ⟨rest, rfl⟩ := List.head?_eq_some_iff.mp hhead
      rw [fill_one] at hx
      exact List.mem_singleton.mp hx

end Fill

/-! ## Walks -/

variable (t : List α → List α) (stop : α)

/-- The words from a string down, to some depth. -/
def listing : Nat → List α → List (List α)
  | 0, _ => []
  | d + 1, p => (t p).flatMap fun c => if c = stop then [p] else listing d (p ++ [c])

/-- The walk that collects words in a set, as long as it is smaller than a bound. -/
def collect (count : Nat) : Nat → List α → List (List α) → List (List α)
  | 0, _, names => names
  | d + 1, p, names =>
    (t p).foldl (fun names c =>
      if names.length < count then
        if c = stop then names.insert p else collect count d (p ++ [c]) names
      else names) names

section Walk

variable {t stop} {count d : Nat} {p w : List α} {names : List (List α)}

/-- The walk fills the set with the words it would list. -/
theorem collect_eq_fill : collect t stop count d p names =
    fill count (listing t stop d p) names := by
  induction d generalizing p names with
  | zero => rfl
  | succ d ih =>
    rw [collect, listing]
    induction t p generalizing names with
    | nil => rfl
    | cons c cs ihcs =>
      rw [List.foldl_cons, ihcs, List.flatMap_cons, fill_append]
      congr 1
      by_cases hfull : names.length < count
      · by_cases hstop : c = stop
        · simp only [if_pos hfull, if_pos hstop, fill_cons, fill_nil]
        · simp only [if_pos hfull, if_neg hstop, ih]
      · rw [if_neg hfull, fill_full (Nat.le_of_not_lt hfull)]

/-- More depth than there are strings changes nothing. -/
theorem collect_succ (hdepth : ∀ q, d ≤ q.length → t q = []) {n : Nat} (hn : d ≤ n + p.length) :
    collect t stop count n p names = collect t stop count (n + 1) p names := by
  induction n generalizing p names with
  | zero =>
    rw [collect, collect, hdepth p (by omega)]
    rfl
  | succ n ih =>
    rw [collect, collect]
    congr 1
    funext names c
    rw [ih]
    rw [List.length_append, List.length_singleton]
    omega

/-- With the depth of the tree, the walk is the recursion without a bound. -/
theorem collect_unfold (hdepth : ∀ q, d ≤ q.length → t q = []) :
    collect t stop count d p names =
      (t p).foldl (fun names c =>
        if names.length < count then
          if c = stop then names.insert p else collect t stop count d (p ++ [c]) names
        else names) names := by
  rw [collect_succ hdepth (Nat.le_add_right _ _), collect]

/-- The words below a string start with it. -/
theorem prefix_of_mem_listing (h : w ∈ listing t stop d p) : p <+: w := by
  induction d generalizing p with
  | zero => cases h
  | succ d ih =>
    rw [listing] at h
    obtain ⟨c, -, hc⟩ := List.mem_flatMap.mp h
    split at hc
    · exact List.mem_singleton.mp hc ▸ List.prefix_rfl
    · exact (List.prefix_append p [c]).trans (ih hc)

end Walk

/-! ## Words that were added -/

/-- Adds an edge at the end of those from its string. -/
def addEdge (t : List α → List α) (edge : List α × α) : List α → List α :=
  if edge.2 ∈ t edge.1 then t else Function.update t edge.1 (t edge.1 ++ [edge.2])

/-- The edges of a word. -/
def edges (w : List α) : List (List α × α) :=
  (List.range (w.length - 1)).map (fun i => (w.take (i + 1), w.getD (i + 1) stop)) ++ [(w, stop)]

/-- A tree has some words: a symbol can follow a string if it does in one of them. -/
def Holds (words : List (List α)) : Prop :=
  ∀ p ≠ [], ∀ c, c ∈ t p ↔ (c = stop ∧ p ∈ words) ∨ (c ≠ stop ∧ ∃ w ∈ words, p ++ [c] <+: w)

section Words

variable {t stop} {words : List (List α)} {p q w : List α} {c : α}

theorem mem_addEdge (edge : List α × α) :
    c ∈ addEdge t edge q ↔ c ∈ t q ∨ (q, c) = edge := by
  obtain ⟨p, x⟩ := edge
  rw [addEdge]
  split
  · next hmem =>
      refine ⟨.inl, ?_⟩
      rintro (h | h)
      · exact h
      · cases h
        exact hmem
  · by_cases hq : q = p
    · subst hq
      simp
    · simp [hq]

theorem mem_foldl_addEdge (es : List (List α × α)) :
    c ∈ es.foldl addEdge t q ↔ c ∈ t q ∨ (q, c) ∈ es := by
  induction es generalizing t with
  | nil => simp
  | cons edge es ih => rw [List.foldl_cons, ih, mem_addEdge, List.mem_cons, or_assoc]

omit [DecidableEq α] in
/-- The inner edges of a word are its beginnings with their next symbols. -/
theorem mem_edges_iff (hp : p ≠ []) (hstop : stop ∉ w) :
    (p, c) ∈ edges stop w ↔ (c = stop ∧ p = w) ∨ (c ≠ stop ∧ p ++ [c] <+: w) := by
  have hinner : (p, c) ∈ (List.range (w.length - 1)).map (fun i =>
      (w.take (i + 1), w.getD (i + 1) stop)) ↔
      p ++ [c] <+: w := by
    constructor
    · intro h
      obtain ⟨i, hi, heq⟩ := List.mem_map.mp h
      have hlt : i + 1 < w.length := by
        have := List.mem_range.mp hi
        omega
      cases heq
      rw [List.getD_eq_getElem?_getD, List.getElem?_eq_getElem hlt, Option.getD_some,
        List.take_append_getElem hlt]
      exact List.take_prefix _ _
    · rintro ⟨rest, rfl⟩
      obtain ⟨i, hi⟩ : ∃ i, p.length = i + 1 :=
        Nat.exists_eq_add_one.mpr (List.length_pos_of_ne_nil hp)
      refine List.mem_map.mpr ⟨i, ?_, ?_⟩
      · simp only [List.length_append, List.length_singleton, List.mem_range]
        omega
      · simp [← hi]
  have hne : p ++ [c] <+: w → c ≠ stop := by
    rintro hpre rfl
    exact hstop (hpre.subset (by simp))
  rw [edges, List.mem_append, hinner, List.mem_singleton, Prod.mk.injEq]
  constructor
  · rintro (hpre | ⟨rfl, rfl⟩)
    · exact .inr ⟨hne hpre, hpre⟩
    · exact .inl ⟨rfl, rfl⟩
  · rintro (⟨rfl, rfl⟩ | ⟨-, hpre⟩)
    · exact .inr ⟨rfl, rfl⟩
    · exact .inl hpre

/-- Adding the edges of a word adds the word. -/
theorem Holds.add (h : Holds t stop words) (hstop : stop ∉ w) :
    Holds ((edges stop w).foldl addEdge t) stop (words ++ [w]) := by
  intro p hp c
  rw [mem_foldl_addEdge, h p hp c, mem_edges_iff hp hstop]
  simp only [List.mem_append, List.mem_singleton]
  constructor
  · rintro ((⟨rfl, hw⟩ | ⟨hc, x, hx, hpre⟩) | (⟨rfl, rfl⟩ | ⟨hc, hpre⟩))
    · exact .inl ⟨rfl, .inl hw⟩
    · exact .inr ⟨hc, x, .inl hx, hpre⟩
    · exact .inl ⟨rfl, .inr rfl⟩
    · exact .inr ⟨hc, w, .inr rfl, hpre⟩
  · rintro (⟨rfl, hw | rfl⟩ | ⟨hc, x, hx | rfl, hpre⟩)
    · exact .inl (.inl ⟨rfl, hw⟩)
    · exact .inr (.inl ⟨rfl, rfl⟩)
    · exact .inl (.inr ⟨hc, x, hx, hpre⟩)
    · exact .inr (.inr ⟨hc, hpre⟩)

/-- The words below a string are those that start with it. -/
theorem mem_listing_iff (h : Holds t stop words) (hstop : ∀ w ∈ words, stop ∉ w) {d : Nat}
    (hd : ∀ w ∈ words, w.length ≤ d) (hp : p ≠ []) :
    w ∈ listing t stop d p ↔ w ∈ words ∧ p <+: w := by
  have hsound : ∀ (d : Nat) (p : List α), p ≠ [] → w ∈ listing t stop d p → w ∈ words := by
    intro d
    induction d with
    | zero => exact nofun
    | succ d ih =>
      intro p hp hw
      obtain ⟨c, hc, hw⟩ := List.mem_flatMap.mp hw
      split at hw
      · rw [List.mem_singleton.mp hw]
        next hcstop =>
        obtain ⟨-, hmem⟩ | ⟨hne, -⟩ := (h p hp c).mp hc
        · exact hmem
        · exact absurd hcstop hne
      · exact ih _ (by simp) hw
  have hcomplete : ∀ (d : Nat) (p : List α), p ≠ [] → w ∈ words → p <+: w →
      w.length < d + p.length →
      w ∈ listing t stop d p := by
    intro d
    induction d with
    | zero =>
      intro p hp hw hpre hlt
      have := hpre.length_le
      omega
    | succ d ih =>
      intro p hp hw hpre hlt
      obtain ⟨rest, rfl⟩ := hpre
      cases rest with
      | nil =>
        rw [List.append_nil] at hw ⊢
        exact List.mem_flatMap.mpr ⟨stop, (h p hp stop).mpr (.inl ⟨rfl, hw⟩), by simp⟩
      | cons c rest =>
        have hpre : p ++ [c] <+: p ++ c :: rest := ⟨rest, by simp⟩
        have hc : c ≠ stop := by
          rintro rfl
          exact hstop _ hw (by simp)
        refine List.mem_flatMap.mpr ⟨c, (h p hp c).mpr (.inr ⟨hc, _, hw, hpre⟩), ?_⟩
        rw [if_neg hc]
        refine ih _ (by simp) hw hpre ?_
        simp only [List.length_append, List.length_cons, List.length_nil] at hlt ⊢
        omega
  constructor
  · intro hw
    exact ⟨hsound d p hp hw, prefix_of_mem_listing hw⟩
  · rintro ⟨hw, hpre⟩
    refine hcomplete d p hp hw hpre ?_
    have := hd w hw
    have := List.length_pos_of_ne_nil hp
    omega

end Words
end PrefixTree
