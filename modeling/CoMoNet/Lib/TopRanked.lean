import Mathlib.Data.List.Dedup
import Mathlib.Data.List.Nodup
import Mathlib.Data.List.Perm.Subperm
import Mathlib.Order.Lattice

/-!
# The keys of the highest scores

The first `n` keys of a map from scores to keys are `n` keys of the highest scores if
and only if every tie comes late (`OnePerScore.highest_take_iff`).
-/

namespace TopRanked

variable {κ W : Type*} [LinearOrder W] {score : κ → W} {keys ranked answer l : List κ} {n : Nat}
  {w : W} {a b : κ}

/-- The answer is made of `n` different keys, or of all keys, the highest score first. -/
structure Highest (n : Nat) (score : κ → W) (keys answer : List κ) : Prop where
  length : answer.length = min n keys.length
  nodup : answer.Nodup
  mem : ∀ a ∈ answer, a ∈ keys
  ordered : answer.Pairwise fun a b => score b ≤ score a
  /-- A key that is left out does not have a higher score. -/
  top : ∀ a ∈ keys, a ∉ answer → ∀ b ∈ answer, score a ≤ score b

/-- One key for each score, the highest score first. -/
structure OnePerScore (score : κ → W) (keys ranked : List κ) : Prop where
  strict : ranked.Pairwise fun a b => score b < score a
  mem : ∀ a ∈ ranked, a ∈ keys
  scores : ∀ a ∈ keys, ∃ b ∈ ranked, score b = score a

/-- The number of different scores from `w` on. -/
def scoresFrom (score : κ → W) (keys : List κ) (w : W) : Nat :=
  ((keys.map score).filter (w ≤ ·)).dedup.length

/-- Two keys of one score have at least `n - 1` higher scores before them. -/
def TiesLate (n : Nat) (score : κ → W) (keys : List κ) : Prop :=
  ∀ a ∈ keys, ∀ b ∈ keys, a ≠ b → score a = score b → n ≤ scoresFrom score keys (score a)

/-- The first elements of a falling list have scores from `w` on iff there are that many. -/
theorem forall_take_le_iff (h : l.Pairwise fun a b => score b < score a) :
    (∀ a ∈ l.take n, w ≤ score a) ↔ min n l.length ≤ l.countP fun a => w ≤ score a := by
  induction l generalizing n with
  | nil => simp
  | cons a l ih =>
    obtain ⟨hlt, hl⟩ := List.pairwise_cons.mp h
    cases n with
    | zero => simp
    | succ n =>
      rw [List.take_succ_cons, List.forall_mem_cons, ih hl, List.countP_cons, List.length_cons]
      by_cases ha : w ≤ score a
      · simp only [ha, decide_true, if_true, true_and]
        omega
      · have hnone : l.countP (fun b => w ≤ score b) = 0 :=
          List.countP_eq_zero.mpr fun b hb => by
            simpa using (hlt b hb).trans (not_le.mp ha)
        simp [ha, hnone]

namespace OnePerScore

theorem nodup_scores (h : OnePerScore score keys ranked) : (ranked.map score).Nodup :=
  List.pairwise_map.mpr (h.strict.imp fun hlt => hlt.ne')

theorem eq_of_score (h : OnePerScore score keys ranked) (ha : a ∈ ranked) (hb : b ∈ ranked)
    (heq : score a = score b) : a = b :=
  List.inj_on_of_nodup_map h.nodup_scores ha hb heq

theorem nodup (h : OnePerScore score keys ranked) : ranked.Nodup := .of_map score h.nodup_scores

/-- The scores from `w` on, counted in the list. -/
theorem scoresFrom_eq (h : OnePerScore score keys ranked) :
    scoresFrom score keys w = ranked.countP fun a => w ≤ score a := by
  have hperm : ((keys.map score).filter (w ≤ ·)).dedup.Perm
      ((ranked.map score).filter (w ≤ ·)) := by
    refine (List.perm_ext_iff_of_nodup (List.nodup_dedup _) (h.nodup_scores.filter _)).mpr ?_
    intro v
    simp only [List.mem_dedup, List.mem_filter, List.mem_map]
    refine and_congr_left fun _ => ⟨?_, ?_⟩
    · rintro ⟨a, ha, rfl⟩
      exact h.scores a ha
    · rintro ⟨a, ha, rfl⟩
      exact ⟨a, h.mem a ha, rfl⟩
  rw [scoresFrom, hperm.length_eq, ← List.countP_eq_length_filter, List.countP_map]
  rfl

theorem length_lt (h : OnePerScore score keys ranked) (ha : a ∈ keys) (hmissing : a ∉ ranked) :
    ranked.length < keys.length := by
  have hsub : (a :: ranked).Subperm keys :=
    List.subperm_of_subset (List.nodup_cons.mpr ⟨hmissing, h.nodup⟩)
      (List.cons_subset.mpr ⟨ha, h.mem⟩)
  exact hsub.length_le

/-- A key of a higher score than one taken is taken. -/
theorem mem_take (h : OnePerScore score keys ranked) (ha : a ∈ ranked) (hb : b ∈ ranked.take n)
    (hlt : score b < score a) : a ∈ ranked.take n := by
  have hstrict := h.strict
  rw [← List.take_append_drop n ranked, List.pairwise_append] at hstrict
  rw [← List.take_append_drop n ranked, List.mem_append] at ha
  exact ha.resolve_right fun hdrop => lt_asymm hlt (hstrict.2.2 b hb a hdrop)

theorem tiesLate_of_highest (h : OnePerScore score keys ranked)
    (htop : Highest n score keys (ranked.take n)) : TiesLate n score keys := by
  intro a ha b hb hne heq
  by_contra hearly
  rw [Nat.not_le, h.scoresFrom_eq] at hearly
  obtain ⟨c, hc, hscore, hmissing⟩ : ∃ c ∈ keys, score c = score a ∧ c ∉ ranked := by
    by_cases hra : a ∈ ranked
    · exact ⟨b, hb, heq.symm, fun hrb => hne (h.eq_of_score hra hrb heq)⟩
    · exact ⟨a, ha, rfl, hra⟩
  have hshort := h.length_lt hc hmissing
  have hlength := htop.length
  rw [List.length_take] at hlength
  have hlow : ¬ ∀ d ∈ ranked.take n, score a ≤ score d := by
    rw [forall_take_le_iff h.strict]
    omega
  obtain ⟨d, hd, hlt⟩ : ∃ d ∈ ranked.take n, score d < score a := by simpa using hlow
  have hle := htop.top c hc (fun hin => hmissing (List.mem_of_mem_take hin)) d hd
  exact absurd (hscore ▸ hle) (not_le.mpr hlt)

theorem highest_of_tiesLate (h : OnePerScore score keys ranked) (hkeys : keys.Nodup)
    (hties : TiesLate n score keys) : Highest n score keys (ranked.take n) := by
  have hlate : ∀ a ∈ keys, a ∉ ranked → n ≤ ranked.countP fun b => score a ≤ score b := by
    intro a ha hmissing
    obtain ⟨b, hb, heq⟩ := h.scores a ha
    rw [← h.scoresFrom_eq]
    exact hties a ha b (h.mem b hb) (fun hab => hmissing (hab ▸ hb)) heq.symm
  refine ⟨?_, ?_, ?_, ?_, ?_⟩
  · rw [List.length_take]
    by_cases hall : ∀ a ∈ keys, a ∈ ranked
    · have hle := (List.subperm_of_subset hkeys hall).length_le
      have hge := (List.subperm_of_subset h.nodup h.mem).length_le
      omega
    · obtain ⟨a, ha, hmissing⟩ : ∃ a ∈ keys, a ∉ ranked := by simpa using hall
      have hle := Nat.le_trans (hlate a ha hmissing) List.countP_le_length
      have hshort := h.length_lt ha hmissing
      omega
  · exact h.nodup.sublist (List.take_sublist n ranked)
  · exact fun a ha => h.mem a (List.mem_of_mem_take ha)
  · exact (h.strict.imp fun hlt => hlt.le).sublist (List.take_sublist n ranked)
  · intro a ha hout b hb
    by_contra hle
    have hmissing : a ∉ ranked := fun hin => hout (h.mem_take hin hb (not_le.mp hle))
    have hall := (forall_take_le_iff (n := n) h.strict).mpr
      (Nat.le_trans (Nat.min_le_left _ _) (hlate a ha hmissing))
    exact hle (hall b hb)

/-- With one key for each score, the first `n` are the right ones iff ties come late. -/
theorem highest_take_iff (h : OnePerScore score keys ranked) (hkeys : keys.Nodup) :
    Highest n score keys (ranked.take n) ↔ TiesLate n score keys :=
  ⟨h.tiesLate_of_highest, h.highest_of_tiesLate hkeys⟩

end OnePerScore

end TopRanked
