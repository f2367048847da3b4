import CoMoNet.Check
import CoMoNet.Lib.PrefixTree
import CoMoNet.Post.Sorted
import Mathlib.Data.List.MinMax

/-!
# The tree of user names

For each beginning of a name the tree has the characters that can follow, and a dot
after a whole name. Valid names have no dot, so the names found are those added
(`getNamesFromPartial_added`).
-/

namespace CoMoNet

open PrefixTree (addEdge collect edges listing)

/-- The records of the database with prefix `n`. -/
abbrev PartialNameTree := List (Bytes × Bytes)

/-- The dot. -/
def nameEnd : UInt8 := 0x2e

namespace PartialNameTree

/-- `ReadPartialNameTree`. -/
def readPartialNameTree (tree : PartialNameTree) (partialName : Bytes) : Option Bytes :=
  tree.lookup partialName

/-- `WritePartialNameTree`. -/
def writePartialNameTree (tree : PartialNameTree) (partialName nextChars : Bytes) :
    PartialNameTree :=
  mapSet keyLt partialName nextChars tree

/-- `AddCharToPartialNameTree`. -/
def addCharToPartialNameTree (tree : PartialNameTree) (partialName : Bytes) (ch : UInt8) :
    PartialNameTree :=
  match tree.readPartialNameTree partialName with
  | some nextChars =>
    if ch ∈ nextChars then tree else tree.writePartialNameTree partialName (nextChars ++ [ch])
  | none => tree.writePartialNameTree partialName [ch]

/-- `AddNameToPartialNameTree`; `none` is the exception of `at` for the empty name. -/
def addNameToPartialNameTree (tree : PartialNameTree) (name : Bytes) : Option PartialNameTree :=
  if name = [] then none
  else
    let tree := (List.range (name.length - 1)).foldl (fun tree i =>
      tree.addCharToPartialNameTree (name.take (i + 1)) (name.getD (i + 1) nameEnd)) tree
    some (tree.addCharToPartialNameTree name nameEnd)

/-- The characters that can follow. -/
def nextChars (tree : PartialNameTree) (partialName : Bytes) : Bytes :=
  (tree.readPartialNameTree partialName).getD []

/-- No record is for a longer string, which bounds the recursion. -/
def depth (tree : PartialNameTree) : Nat :=
  (tree.map fun record => record.1.length).foldr max 0 + 1

/-- `GetNamesFromPartial`. -/
def getNamesFromPartial (tree : PartialNameTree) (partialName : Bytes) (names : List Bytes)
    (count : Nat) : List Bytes :=
  collect tree.nextChars nameEnd count tree.depth partialName names

/-! ## The recursion -/

section Recursion

variable {tree : PartialNameTree}

theorem nextChars_of_depth {p : Bytes} (h : tree.depth ≤ p.length) : tree.nextChars p = [] := by
  rw [nextChars, readPartialNameTree]
  cases hread : tree.lookup p with
  | none => rfl
  | some chars =>
    have hmem : p.length ∈ tree.map fun record => record.1.length :=
      List.mem_map.mpr ⟨(p, chars), mem_of_lookup hread, rfl⟩
    have hle : p.length ≤ (tree.map fun record => record.1.length).foldr max 0 :=
      List.le_max_of_le' 0 hmem (Nat.le_refl _)
    rw [depth] at h
    omega

/-- The recursion of the source: next characters in order, while there are less than `count`
names. -/
theorem getNamesFromPartial_eq (partialName : Bytes) (names : List Bytes) (count : Nat) :
    tree.getNamesFromPartial partialName names count =
      (tree.nextChars partialName).foldl (fun names ch =>
        if names.length < count then
          if ch = nameEnd then names.insert partialName
          else tree.getNamesFromPartial (partialName ++ [ch]) names count
        else names) names :=
  PrefixTree.collect_unfold fun _ => nextChars_of_depth

end Recursion

/-! ## Adding names -/

section Adding

variable {tree tree' : PartialNameTree} {name : Bytes}

theorem nextChars_addChar (p : Bytes) (ch : UInt8) :
    (tree.addCharToPartialNameTree p ch).nextChars = addEdge tree.nextChars (p, ch) := by
  have hwrite : ∀ chars q, (tree.writePartialNameTree p chars).nextChars q =
      Function.update tree.nextChars p chars q := by
    intro chars q
    rw [nextChars, readPartialNameTree, writePartialNameTree, lookup_mapSet, Function.update_apply]
    split <;> rfl
  rw [addCharToPartialNameTree, addEdge]
  cases hread : tree.readPartialNameTree p with
  | none =>
    have hnext : tree.nextChars p = [] := by rw [nextChars, hread, Option.getD_none]
    funext q
    simp [hnext, hwrite]
  | some chars =>
    have hnext : tree.nextChars p = chars := by rw [nextChars, hread, Option.getD_some]
    simp only [hnext]
    split
    · rfl
    · funext q
      rw [hwrite]

/-- The edges of a name are added. -/
theorem nextChars_addName (h : tree.addNameToPartialNameTree name = some tree') :
    tree'.nextChars = (edges nameEnd name).foldl addEdge tree.nextChars := by
  have hloop : ∀ (is : List Nat) (tree : PartialNameTree),
      (is.foldl (fun tree i => tree.addCharToPartialNameTree (name.take (i + 1))
        (name.getD (i + 1) nameEnd)) tree).nextChars =
      (is.map fun i => (name.take (i + 1), name.getD (i + 1) nameEnd)).foldl addEdge
        tree.nextChars := by
    intro is
    induction is with
    | nil => exact fun _ => rfl
    | cons i is ih =>
      intro tree
      rw [List.foldl_cons, ih, nextChars_addChar, List.map_cons, List.foldl_cons]
  rw [addNameToPartialNameTree] at h
  split at h
  · cases h
  · cases h
    rw [nextChars_addChar, hloop, edges, List.foldl_append]
    rfl

theorem checkUsername_valid (h : checkUsername name = .valid) : name ≠ [] ∧ nameEnd ∉ name := by
  obtain ⟨hne, -, hchars⟩ := checkUsername_iff.mp h
  exact ⟨hne, fun hmem => absurd (hchars nameEnd hmem) (by decide)⟩

theorem exists_added : ∀ {added : List Bytes} {tree : PartialNameTree} {before : List Bytes},
    (∀ name ∈ added, checkUsername name = .valid) →
    PrefixTree.Holds tree.nextChars nameEnd before →
    ∃ tree', added.foldlM addNameToPartialNameTree tree = some tree' ∧
      PrefixTree.Holds tree'.nextChars nameEnd (before ++ added)
  | [], tree, before, _, h => ⟨tree, rfl, by rwa [List.append_nil]⟩
  | name :: added, tree, before, hvalid, h => by
    obtain ⟨hne, hend⟩ := checkUsername_valid (hvalid name List.mem_cons_self)
    obtain ⟨tree₁, h₁⟩ : ∃ tree₁, tree.addNameToPartialNameTree name = some tree₁ := by
      rw [addNameToPartialNameTree, if_neg hne]
      exact ⟨_, rfl⟩
    have hholds : PrefixTree.Holds tree₁.nextChars nameEnd (before ++ [name]) := by
      rw [nextChars_addName h₁]
      exact h.add hend
    obtain ⟨tree', h', hholds'⟩ :=
      exists_added (fun n hn => hvalid n (List.mem_cons_of_mem name hn)) hholds
    refine ⟨tree', ?_, by rwa [List.append_assoc] at hholds'⟩
    rw [List.foldlM_cons, h₁]
    exact h'

end Adding

/-! ## Finding names -/

/-- After valid names are added, those found for a beginning are such names, at most `count` of
them, and all if there are less. -/
theorem getNamesFromPartial_added {added : List Bytes}
    (hadded : ∀ name ∈ added, checkUsername name = .valid) {beginning : Bytes}
    (hne : beginning ≠ []) (count : Nat) :
    ∃ tree, added.foldlM addNameToPartialNameTree [] = some tree ∧
      (∀ name ∈ getNamesFromPartial tree beginning [] count, name ∈ added ∧ beginning <+: name) ∧
      (getNamesFromPartial tree beginning [] count).Nodup ∧
      (getNamesFromPartial tree beginning [] count).length ≤ count ∧
      ((added.filter (beginning.isPrefixOf ·)).dedup.length < count →
        ∀ name ∈ added, beginning <+: name →
          name ∈ getNamesFromPartial tree beginning [] count) := by
  have hempty : PrefixTree.Holds (nextChars []) nameEnd [] := by
    intro p hp c
    simp [nextChars, readPartialNameTree]
  obtain ⟨tree, htree, hholds⟩ := exists_added hadded hempty
  rw [List.nil_append] at hholds
  have hend : ∀ name ∈ added, nameEnd ∉ name := fun name hname =>
    (checkUsername_valid (hadded name hname)).2
  have hdepth : ∀ name ∈ added, name.length ≤ tree.depth := by
    intro name hname
    by_contra hlong
    have hnext := (hholds name (checkUsername_valid (hadded name hname)).1 nameEnd).mpr
      (.inl ⟨rfl, hname⟩)
    rw [nextChars_of_depth (by omega)] at hnext
    cases hnext
  have hlisted : ∀ name, name ∈ listing tree.nextChars nameEnd tree.depth beginning ↔
      name ∈ added ∧ beginning <+: name := fun name =>
    PrefixTree.mem_listing_iff hholds hend hdepth hne
  refine ⟨tree, htree, ?_⟩
  rw [getNamesFromPartial, PrefixTree.collect_eq_fill]
  generalize listing tree.nextChars nameEnd tree.depth beginning = listed at hlisted
  have hsound : ∀ name ∈ PrefixTree.fill count listed [], name ∈ added ∧ beginning <+: name := by
    intro name hname
    obtain hnil | hmem := PrefixTree.mem_of_mem_fill hname
    · cases hnil
    · exact (hlisted name).mp hmem
  have hnodup : (PrefixTree.fill count listed []).Nodup := PrefixTree.nodup_fill List.nodup_nil
  have hlength : (PrefixTree.fill count listed []).length ≤ max count 0 := PrefixTree.length_fill_le
  refine ⟨hsound, hnodup, by rwa [Nat.max_zero] at hlength, fun hfew name hname hpre => ?_⟩
  refine PrefixTree.mem_fill_of_length_lt (Nat.lt_of_le_of_lt ?_ hfew)
    ((hlisted name).mpr ⟨hname, hpre⟩)
  refine (hnodup.subperm fun name hname => ?_).length_le
  obtain ⟨hmem, hpre⟩ := hsound name hname
  exact List.mem_dedup.mpr (List.mem_filter.mpr ⟨hmem, List.isPrefixOf_iff_prefix.mpr hpre⟩)

/-- Three names, two of which start with `al`. -/
theorem getNamesFromPartial_added_al :
    ∃ tree, [ascii "alice", ascii "bob", ascii "alina"].foldlM addNameToPartialNameTree [] =
        some tree ∧
      ascii "alice" ∈ getNamesFromPartial tree (ascii "al") [] 3 ∧
      ascii "alina" ∈ getNamesFromPartial tree (ascii "al") [] 3 ∧
      ascii "bob" ∉ getNamesFromPartial tree (ascii "al") [] 3 := by
  obtain ⟨tree, htree, hsound, -, -, hall⟩ := @getNamesFromPartial_added
    [ascii "alice", ascii "bob", ascii "alina"] (by decide) (ascii "al") (by decide) 3
  have hfew := hall (by decide)
  refine ⟨tree, htree, hfew _ (by decide) (by decide), hfew _ (by decide) (by decide),
    fun hbob => ?_⟩
  exact absurd (hsound _ hbob).2 (by decide)

end PartialNameTree
end CoMoNet
