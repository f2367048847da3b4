import CoMoNet.Check

/-!
# The block tree

An entry of the block index carries its parent, so equal entries are equal pointers.
What changes, status and undo data, is in the chain state. `findFork_spec`: the fork
search returns the highest common ancestor.
-/

namespace CoMoNet

/-- `CDiskBlockPos`: a block file and a position in it. -/
structure CDiskBlockPos where
  nFile : Nat
  /-- The position of the block header in the file. -/
  nPos : Nat
deriving DecidableEq, Repr

/-- `CDiskTxPos`: where a transaction is stored. -/
structure CDiskTxPos extends CDiskBlockPos where
  /-- The offset of the transaction after the block header. -/
  nTxOffset : Nat
deriving DecidableEq, Repr

/-- `CBlockIndex`, with the block it describes and its place on disk. -/
inductive CBlockIndex where
  | root (block : CBlock) (pos : CDiskBlockPos)
  /-- An entry with parent `pprev`. -/
  | next (pprev : CBlockIndex) (block : CBlock) (pos : CDiskBlockPos)
deriving DecidableEq, Repr

namespace CBlockIndex

/-- The block. -/
def block : CBlockIndex → CBlock
  | .root block _ => block
  | .next _ block _ => block

/-- `GetBlockPos`. -/
def pos : CBlockIndex → CDiskBlockPos
  | .root _ pos => pos
  | .next _ _ pos => pos

/-- `pprev`. -/
def pprev : CBlockIndex → Option CBlockIndex
  | .root .. => none
  | .next pprev .. => some pprev

/-- `nHeight`. -/
def nHeight : CBlockIndex → Nat
  | .root .. => 0
  | .next pprev .. => pprev.nHeight + 1

/-- `GetBlockWork`. -/
def getBlockWork (p : CBlockIndex) : Nat :=
  let bnTarget := setCompact p.block.nBits
  if bnTarget ≤ 0 then 0 else 2 ^ 256 / (bnTarget.toNat + 1)

/-- The work of the chain up to an entry, a 256-bit number. -/
def nChainWork : CBlockIndex → Nat
  | p@(.root ..) => p.getBlockWork % 2 ^ 256
  | p@(.next pprev ..) => (pprev.nChainWork + p.getBlockWork) % 2 ^ 256

/-- The entry and its ancestors, from the entry down to the root. -/
def ancestors : CBlockIndex → List CBlockIndex
  | p@(.root ..) => [p]
  | p@(.next pprev ..) => p :: pprev.ancestors

/-- The chain of a tip. -/
def ancestorsOf : Option CBlockIndex → List CBlockIndex
  | none => []
  | some p => p.ancestors

/-! ## Ancestors -/

theorem ancestors_eq (p : CBlockIndex) : p.ancestors = p :: ancestorsOf p.pprev := by
  cases p <;> rfl

theorem self_mem_ancestors (p : CBlockIndex) : p ∈ p.ancestors := by
  rw [ancestors_eq]
  exact List.mem_cons_self

theorem mem_ancestors_iff {a p : CBlockIndex} :
    a ∈ p.ancestors ↔ a = p ∨ a ∈ ancestorsOf p.pprev := by
  rw [ancestors_eq, List.mem_cons]

/-- Ancestors are not higher. -/
theorem nHeight_le_of_mem_ancestors {a : CBlockIndex} :
    ∀ {p : CBlockIndex}, a ∈ p.ancestors → a.nHeight ≤ p.nHeight
  | .root .., h => by
    rw [ancestors, List.mem_singleton] at h
    subst h
    exact Nat.le_refl _
  | .next pprev .., h => by
    rw [ancestors, List.mem_cons] at h
    rcases h with h | h
    · subst h
      exact Nat.le_refl _
    · exact Nat.le_succ_of_le (nHeight_le_of_mem_ancestors h)

theorem nHeight_of_pprev {p q : CBlockIndex} (h : p.pprev = some q) :
    p.nHeight = q.nHeight + 1 := by
  cases p with
  | root block pos => cases h
  | next pprev block pos =>
    cases h
    rfl

theorem ancestors_subset {map : List CBlockIndex}
    (hparent : ∀ p ∈ map, ∀ q, p.pprev = some q → q ∈ map) {p : CBlockIndex} (hp : p ∈ map) :
    ∀ a ∈ p.ancestors, a ∈ map := by
  induction p with
  | root block pos =>
    intro a ha
    rw [List.mem_singleton.mp ha]
    exact hp
  | next pprev block pos ih =>
    intro a ha
    rcases List.mem_cons.mp ha with rfl | ha
    · exact hp
    · exact ih (hparent _ hp pprev rfl) a ha

theorem ancestors_trans {a b : CBlockIndex} :
    ∀ {p : CBlockIndex}, a ∈ b.ancestors → b ∈ p.ancestors → a ∈ p.ancestors
  | .root .., ha, hb => by
    rw [ancestors, List.mem_singleton] at hb
    rwa [hb] at ha
  | .next pprev .., ha, hb => by
    rw [ancestors, List.mem_cons] at hb
    rcases hb with hb | hb
    · rwa [hb] at ha
    · exact List.mem_cons_of_mem _ (ancestors_trans ha hb)

/-- One ancestor for each height. -/
theorem eq_of_mem_ancestors {a b : CBlockIndex} :
    ∀ {p : CBlockIndex}, a ∈ p.ancestors → b ∈ p.ancestors → a.nHeight = b.nHeight → a = b
  | .root .., ha, hb, _ => by
    rw [ancestors, List.mem_singleton] at ha hb
    rw [ha, hb]
  | .next pprev .., ha, hb, h => by
    rw [ancestors, List.mem_cons] at ha hb
    rcases ha with ha | ha <;> rcases hb with hb | hb
    · rw [ha, hb]
    · have := nHeight_le_of_mem_ancestors hb
      rw [ha, nHeight] at h
      omega
    · have := nHeight_le_of_mem_ancestors ha
      rw [hb, nHeight] at h
      omega
    · exact eq_of_mem_ancestors ha hb h

theorem eq_self_of_nHeight_le {a p : CBlockIndex} (ha : a ∈ p.ancestors)
    (h : p.nHeight ≤ a.nHeight) : a = p :=
  eq_of_mem_ancestors ha (self_mem_ancestors p)
    (Nat.le_antisymm (nHeight_le_of_mem_ancestors ha) h)

/-- Heights go down. -/
theorem ancestors_sorted : ∀ p : CBlockIndex,
    p.ancestors.Pairwise fun a b => b.nHeight < a.nHeight
  | .root .. => List.pairwise_singleton _ _
  | .next pprev .. => by
    rw [ancestors, List.pairwise_cons]
    refine ⟨fun b hb => ?_, ancestors_sorted pprev⟩
    exact Nat.lt_succ_of_le (nHeight_le_of_mem_ancestors hb)

theorem ancestorsOf_sorted (tip : Option CBlockIndex) :
    (ancestorsOf tip).Pairwise fun a b => b.nHeight < a.nHeight := by
  cases tip with
  | none => exact List.Pairwise.nil
  | some p => exact ancestors_sorted p

theorem length_ancestors : ∀ p : CBlockIndex, p.ancestors.length = p.nHeight + 1
  | .root .. => rfl
  | .next pprev .. => by rw [ancestors, List.length_cons, length_ancestors pprev, nHeight]

/-- Every lower height has one. -/
theorem exists_ancestor {h : Nat} : ∀ {p : CBlockIndex}, h ≤ p.nHeight →
    ∃ a ∈ p.ancestors, a.nHeight = h
  | .root .., hle => ⟨_, self_mem_ancestors _, (Nat.le_zero.mp hle).symm⟩
  | .next pprev .., hle => by
    rcases Nat.le_succ_iff.mp hle with hle | heq
    · obtain ⟨a, ha, hah⟩ := exists_ancestor hle
      exact ⟨a, List.mem_cons_of_mem _ ha, hah⟩
    · exact ⟨_, self_mem_ancestors _, heq.symm⟩

/-- The ancestors of a block end with those of each of them. -/
theorem ancestors_split {q : CBlockIndex} {above below : List CBlockIndex} :
    ∀ {p : CBlockIndex}, p.ancestors = above ++ q :: below → ancestorsOf q.pprev = below := by
  intro p h
  induction p generalizing above with
  | root block pos =>
    cases above with
    | nil =>
      rw [ancestors, List.nil_append, List.cons.injEq] at h
      obtain ⟨rfl, rfl⟩ := h
      rfl
    | cons a above => simp [ancestors] at h
  | next pprev block pos ih =>
    cases above with
    | nil =>
      rw [ancestors, List.nil_append, List.cons.injEq] at h
      obtain ⟨rfl, rfl⟩ := h
      rfl
    | cons a above =>
      rw [ancestors, List.cons_append, List.cons.injEq] at h
      exact ih h.2

theorem mem_ancestors_of_split {q f x : CBlockIndex} {path below : List CBlockIndex}
    (h : q.ancestors = path ++ f :: below) (hx : x ∈ path) : f ∈ x.ancestors := by
  obtain ⟨pre, post, rfl⟩ := List.append_of_mem hx
  rw [List.append_assoc, List.cons_append] at h
  rw [ancestors_eq, ancestors_split h]
  exact List.mem_cons_of_mem _ (List.mem_append_right _ List.mem_cons_self)

theorem ancestorsOf_trans {a b : CBlockIndex} {tip : Option CBlockIndex} (ha : a ∈ b.ancestors)
    (hb : b ∈ ancestorsOf tip) : a ∈ ancestorsOf tip := by
  cases tip with
  | none => cases hb
  | some tip => exact ancestors_trans ha hb

theorem ancestorsOf_injective {p q : Option CBlockIndex} (h : ancestorsOf p = ancestorsOf q) :
    p = q := by
  cases p with
  | none =>
    cases q with
    | none => rfl
    | some q =>
      rw [ancestorsOf, ancestorsOf, ancestors_eq] at h
      cases h
  | some p =>
    cases q with
    | none =>
      rw [ancestorsOf, ancestorsOf, ancestors_eq] at h
      cases h
    | some q =>
      rw [ancestorsOf, ancestorsOf, ancestors_eq p, ancestors_eq q] at h
      rw [(List.cons.inj h).1]

/-- The lowest ancestor. -/
def rootOf : CBlockIndex → CBlockIndex
  | p@(.root ..) => p
  | .next pprev .. => pprev.rootOf

theorem rootOf_mem_ancestors : ∀ p : CBlockIndex, p.rootOf ∈ p.ancestors
  | .root .. => self_mem_ancestors _
  | .next pprev .. => List.mem_cons_of_mem _ (rootOf_mem_ancestors pprev)

theorem rootOf_pprev : ∀ p : CBlockIndex, p.rootOf.pprev = none
  | .root .. => rfl
  | .next pprev .. => rootOf_pprev pprev

/-! ## The fork search -/

/-- The inner loop of the fork search: walk `plonger` down to height `h`. -/
def lowerTo (h : Nat) : CBlockIndex → CBlockIndex
  | p@(.root ..) => p
  | p@(.next pprev ..) => if p.nHeight > h then pprev.lowerTo h else p

/-- The fork search; `none` is the failed assertion `pfork != NULL`. -/
def findFork : CBlockIndex → CBlockIndex → Option CBlockIndex
  | pfork@(.root ..), plonger =>
    if pfork = plonger then some pfork
    else if pfork = plonger.lowerTo pfork.nHeight then some pfork else none
  | pfork@(.next pprev ..), plonger =>
    if pfork = plonger then some pfork
    else
      let plonger := plonger.lowerTo pfork.nHeight
      if pfork = plonger then some pfork else findFork pprev plonger

/-- The entries from `p` down to `pfork`, without it: `vDisconnect` and `vConnect`. -/
def above (pfork : Option CBlockIndex) : CBlockIndex → List CBlockIndex
  | p@(.root ..) => if some p = pfork then [] else [p]
  | p@(.next pprev ..) => if some p = pfork then [] else p :: pprev.above pfork

theorem lowerTo_mem_ancestors (h : Nat) : ∀ p : CBlockIndex, p.lowerTo h ∈ p.ancestors
  | .root .. => self_mem_ancestors _
  | .next pprev .. => by
    rw [lowerTo]
    split
    · exact List.mem_cons_of_mem _ (lowerTo_mem_ancestors h pprev)
    · exact self_mem_ancestors _

theorem lowerTo_nHeight_le (h : Nat) : ∀ p : CBlockIndex, (p.lowerTo h).nHeight ≤ h
  | .root .. => Nat.zero_le h
  | .next pprev .. => by
    rw [lowerTo]
    split
    · exact lowerTo_nHeight_le h pprev
    · rename_i hle
      exact Nat.le_of_not_lt hle

/-- Walking down to height `h` keeps every ancestor of height at most `h`. -/
theorem mem_ancestors_lowerTo {a : CBlockIndex} {h : Nat} (hle : a.nHeight ≤ h) :
    ∀ {p : CBlockIndex}, a ∈ p.ancestors → a ∈ (p.lowerTo h).ancestors
  | .root .., ha => ha
  | .next pprev .., ha => by
    rw [lowerTo]
    split
    · rename_i hgt
      rw [ancestors, List.mem_cons] at ha
      rcases ha with ha | ha
      · subst ha
        exact absurd hle (Nat.not_le_of_lt hgt)
      · exact mem_ancestors_lowerTo hle ha
    · exact ha

/-- After a round the common ancestors lie below the parent of `pfork`. -/
theorem mem_ancestorsOf_pprev {pfork plonger a : CBlockIndex} (ha : a ∈ pfork.ancestors)
    (ha' : a ∈ plonger.ancestors) (hne : pfork ≠ plonger)
    (hle : plonger.nHeight ≤ pfork.nHeight) : a ∈ ancestorsOf pfork.pprev := by
  rcases mem_ancestors_iff.mp ha with h | h
  · subst h
    exact absurd (eq_self_of_nHeight_le ha' hle) hne
  · exact h

/-- Two blocks with a common ancestor: the search returns the highest. -/
theorem findFork_spec {c pfork plonger : CBlockIndex} (hc : c ∈ pfork.ancestors)
    (hc' : c ∈ plonger.ancestors) :
    ∃ f, findFork pfork plonger = some f ∧ f ∈ pfork.ancestors ∧ f ∈ plonger.ancestors ∧
      ∀ g, g ∈ pfork.ancestors → g ∈ plonger.ancestors → g ∈ f.ancestors := by
  induction pfork generalizing plonger with
  | root block pos =>
    rw [ancestors, List.mem_singleton] at hc
    subst hc
    have hlow := mem_ancestors_lowerTo (Nat.le_refl _) hc'
    have heq := eq_self_of_nHeight_le hlow (lowerTo_nHeight_le _ plonger)
    refine ⟨_, ?_, self_mem_ancestors _, hc', fun g hg _ => hg⟩
    rw [findFork, if_pos heq]
    split <;> rfl
  | next pprev block pos ih =>
    generalize hp : CBlockIndex.next pprev block pos = pfork at hc
    have hpprev : pfork.pprev = some pprev := by rw [← hp]; rfl
    by_cases heq : pfork = plonger
    · refine ⟨pfork, ?_, self_mem_ancestors _, heq ▸ self_mem_ancestors _, fun g hg _ => hg⟩
      rw [← hp, findFork, hp, if_pos heq]
    by_cases hlow : pfork = plonger.lowerTo pfork.nHeight
    · refine ⟨pfork, ?_, self_mem_ancestors _, ?_, fun g hg _ => hg⟩
      · rw [← hp, findFork, hp, if_neg heq]
        exact if_pos hlow
      · have hmem := lowerTo_mem_ancestors pfork.nHeight plonger
        rwa [← hlow] at hmem
    have hdown : ∀ g, g ∈ pfork.ancestors → g ∈ plonger.ancestors →
        g ∈ pprev.ancestors ∧ g ∈ (plonger.lowerTo pfork.nHeight).ancestors := by
      intro g hg hg'
      have hg'' := mem_ancestors_lowerTo (nHeight_le_of_mem_ancestors hg) hg'
      have hparent := mem_ancestorsOf_pprev hg hg'' hlow (lowerTo_nHeight_le _ _)
      rw [hpprev] at hparent
      exact ⟨hparent, hg''⟩
    obtain ⟨f, hf, hf₁, hf₂, hmax⟩ := ih (hdown c hc hc').1 (hdown c hc hc').2
    refine ⟨f, ?_, ?_, ancestors_trans hf₂ (lowerTo_mem_ancestors _ _), ?_⟩
    · rw [← hp, findFork, hp, if_neg heq]
      exact (if_neg hlow).trans hf
    · rw [mem_ancestors_iff, hpprev]
      exact .inr hf₁
    · intro g hg hg'
      exact hmax g (hdown g hg hg').1 (hdown g hg hg').2

/-- The branch above an ancestor. -/
theorem ancestors_eq_above {f p : CBlockIndex} (h : f ∈ p.ancestors) :
    p.ancestors = p.above (some f) ++ f.ancestors := by
  induction p with
  | root block pos =>
    rw [ancestors, List.mem_singleton] at h
    subst h
    rw [above, if_pos rfl, List.nil_append]
  | next pprev block pos ih =>
    by_cases heq : CBlockIndex.next pprev block pos = f
    · subst heq
      rw [above, if_pos rfl, List.nil_append]
    · rw [ancestors, List.mem_cons] at h
      rcases h with h | h
      · exact absurd h.symm heq
      · rw [above, if_neg (fun h => heq (Option.some.inj h)), ancestors, ih h,
          List.cons_append]

/-- The entries above the fork are exactly the ancestors higher than it. -/
theorem mem_above {f p a : CBlockIndex} (h : f ∈ p.ancestors) (ha : a ∈ p.above (some f)) :
    a ∈ p.ancestors ∧ f.nHeight < a.nHeight := by
  have hsorted := ancestors_sorted p
  rw [ancestors_eq_above h] at hsorted ⊢
  refine ⟨List.mem_append_left _ ha, ?_⟩
  exact (List.pairwise_append.mp hsorted).2.2 a ha f (self_mem_ancestors f)

theorem above_none : ∀ p : CBlockIndex, p.above none = p.ancestors
  | .root .. => rfl
  | .next pprev .. => by rw [above, if_neg (by simp), above_none pprev, ancestors]

end CBlockIndex
end CoMoNet
