import CoMoNet.Chain.NameTree
import CoMoNet.Post.NewPost

/-!
# Names with a beginning

`listusernamespartial` looks among followed users, then in the tree of names. Further
lists of followed users can each add a name, and the tree is not searched for an exact
match (`listusernamespartial_iff`).
-/

namespace CoMoNet

/-- `get_bool`, with the error of `check_type`. -/
def Json.getBool : Json → Except Exn Bool
  | .bool b => .ok b
  | v => .error (.runtime ("value is type " ++ v.typeName ++ ", expected bool"))

/-- The test of the size. -/
def sizeFits (userStartsWith : Bytes) (exactMatch : Bool) (user : Bytes) : Bool :=
  !((exactMatch && decide (userStartsWith.length ≠ user.length)) ||
    decide (userStartsWith.length > user.length))

/-- The loop over a list. -/
def scanFollowing (userStartsWith : Bytes) (count : Nat) (exactMatch : Bool) :
    List Bytes → List Bytes → List Bytes
  | [], retStrings => retStrings
  | user :: rest, retStrings =>
    if !sizeFits userStartsWith exactMatch user then
      scanFollowing userStartsWith count exactMatch rest retStrings
    else
      let retStrings :=
        if userStartsWith.isPrefixOf user then retStrings.insert user else retStrings
      if retStrings.length ≥ count then retStrings
      else scanFollowing userStartsWith count exactMatch rest retStrings

/-- `m_following` of the users that have a key in the wallet. -/
def PostState.followingLists (s : PostState) : List (List Bytes) :=
  s.wallet.mapKeyMetadata.map fun item => ((s.users.lookup item.2.username).getD {}).following

/-- The names found. -/
def usernamesPartial (tree : PartialNameTree) (lists : List (List Bytes)) (userStartsWith : Bytes)
    (count : Nat) (exactMatch : Bool) : List Bytes :=
  let retStrings := lists.foldl (fun retStrings following =>
    scanFollowing userStartsWith count exactMatch following retStrings) []
  tree.getNamesFromPartial userStartsWith retStrings count

/-- The names in the order of a `std::set`. -/
def sortNames (names : List Bytes) : List Bytes := names.insertionSort fun a b => keyLt b a = false

/-- `listusernamespartial`; the number becomes a `size_t`. -/
def listusernamespartial (tree : PartialNameTree) (s : PostState) (params : List Json) :
    Except Exn Json :=
  if params.length < 2 ∨ params.length > 3 then
    .error (.runtime ("listusernamespartial <username_starts_with> <count> [exact_match=false]\n" ++
      "get list of usernames starting with"))
  else do
    let userStartsWith ← (params.getD 0 .null).getStr
    let count ← (params.getD 1 .null).getInt
    let exactMatch ← if params.length > 2 then (params.getD 2 .null).getBool else .ok false
    .ok (.array ((sortNames (usernamesPartial tree s.followingLists userStartsWith
      (count % 2 ^ 64).toNat exactMatch)).map .str))

/-! ## The lists -/

/-- A followed user that the request asks for. -/
def wanted (userStartsWith : Bytes) (exactMatch : Bool) (user : Bytes) : Bool :=
  sizeFits userStartsWith exactMatch user && userStartsWith.isPrefixOf user

/-- The followed users that the request asks for, list after list. -/
def followedNames (userStartsWith : Bytes) (exactMatch : Bool) (lists : List (List Bytes)) :
    List Bytes :=
  lists.flatten.filter (wanted userStartsWith exactMatch)

/-- The lists before have enough names, and the first user of the list that fits is new. -/
def Crowds (userStartsWith : Bytes) (count : Nat) (exactMatch : Bool) (before : List (List Bytes))
    (following : List Bytes) : Prop :=
  let first := PrefixTree.fill count (followedNames userStartsWith exactMatch before) []
  count ≤ first.length ∧ ∃ user, following.find? (sizeFits userStartsWith exactMatch) = some user ∧
    userStartsWith <+: user ∧ user ∉ first

/-- No list adds a name when there are enough. -/
def Uncrowded (userStartsWith : Bytes) (count : Nat) (exactMatch : Bool)
    (lists : List (List Bytes)) : Prop :=
  ∀ before following after, lists = before ++ following :: after →
    ¬Crowds userStartsWith count exactMatch before following

section Lists

variable {beginning : Bytes} {count : Nat} {exactMatch : Bool} {following retStrings : List Bytes}
variable {lists : List (List Bytes)}

/-- As long as there are not enough names, the names asked for are added. -/
theorem scanFollowing_eq_fill (h : retStrings.length < count) :
    scanFollowing beginning count exactMatch following retStrings =
      PrefixTree.fill count (following.filter (wanted beginning exactMatch)) retStrings := by
  induction following generalizing retStrings with
  | nil => rfl
  | cons user rest ih =>
    rw [scanFollowing, List.filter_cons, wanted]
    cases hsize : sizeFits beginning exactMatch user with
    | false => simpa using ih h
    | true =>
      cases hpre : beginning.isPrefixOf user with
      | false => simpa [Nat.not_le.mpr h] using ih h
      | true =>
        simp only [Bool.not_true, Bool.false_eq_true, if_false, Bool.and_true, if_true,
          PrefixTree.fill_cons, if_pos h]
        split
        · next hfull => rw [PrefixTree.fill_full hfull]
        · next hfew => exact ih (Nat.lt_of_not_le hfew)

/-- When there are enough names, the first user whose size fits is added. -/
theorem scanFollowing_full (h : count ≤ retStrings.length) :
    scanFollowing beginning count exactMatch following retStrings =
      match following.find? (sizeFits beginning exactMatch) with
      | none => retStrings
      | some user => if beginning.isPrefixOf user then retStrings.insert user else retStrings := by
  induction following with
  | nil => rfl
  | cons user rest ih =>
    rw [scanFollowing, List.find?_cons]
    cases hsize : sizeFits beginning exactMatch user with
    | false => simpa using ih
    | true =>
      have hmore : count ≤ (if beginning.isPrefixOf user then retStrings.insert user
          else retStrings).length := by
        split
        · exact Nat.le_trans h (List.length_le_length_insert)
        · exact h
      simp only [Bool.not_true, Bool.false_eq_true, if_false]
      rw [if_pos hmore]

theorem length_le_scanFollowing :
    retStrings.length ≤ (scanFollowing beginning count exactMatch following retStrings).length := by
  by_cases hfull : count ≤ retStrings.length
  · rw [scanFollowing_full hfull]
    split
    · exact Nat.le_refl _
    · split
      · exact List.length_le_length_insert
      · exact Nat.le_refl _
  · rw [scanFollowing_eq_fill (Nat.lt_of_not_le hfull)]
    exact PrefixTree.length_le_fill

theorem uncrowded_append :
    Uncrowded beginning count exactMatch (lists ++ [following]) ↔
      Uncrowded beginning count exactMatch lists ∧
        ¬Crowds beginning count exactMatch lists following := by
  constructor
  · intro h
    refine ⟨fun before list after heq => h before list (after ++ [following]) ?_,
      h lists following [] rfl⟩
    rw [heq, List.append_assoc, List.cons_append]
  · rintro ⟨hlists, hlast⟩ before list after heq
    obtain rfl | ⟨after, last, rfl⟩ := List.eq_nil_or_concat after
    · obtain ⟨rfl, hsame⟩ := List.append_inj' heq rfl
      cases hsame
      exact hlast
    · rw [List.concat_eq_append, ← List.cons_append, ← List.append_assoc] at heq
      exact hlists before list after (List.append_inj' heq rfl).1

/-- The first loop returns the first `count` names, unless a list is crowded. -/
theorem foldl_scanFollowing :
    (Uncrowded beginning count exactMatch lists →
      lists.foldl (fun retStrings following =>
        scanFollowing beginning count exactMatch following retStrings) [] =
        PrefixTree.fill count (followedNames beginning exactMatch lists) []) ∧
    (¬Uncrowded beginning count exactMatch lists →
      count < (lists.foldl (fun retStrings following =>
        scanFollowing beginning count exactMatch following retStrings) []).length) := by
  induction lists using List.reverseRecOn with
  | nil => exact ⟨fun _ => rfl, fun h => absurd (fun before _ after heq => by simp at heq) h⟩
  | append_singleton lists following ih =>
    rw [List.foldl_append, uncrowded_append]
    simp only [List.foldl_cons, List.foldl_nil]
    have hnames : followedNames beginning exactMatch (lists ++ [following]) =
        followedNames beginning exactMatch lists ++
          following.filter (wanted beginning exactMatch) := by
      simp [followedNames]
    by_cases hlists : Uncrowded beginning count exactMatch lists
    · rw [ih.1 hlists, hnames, PrefixTree.fill_append]
      generalize hfirst : PrefixTree.fill count (followedNames beginning exactMatch lists) [] =
          first
      by_cases hfull : count ≤ first.length
      · rw [scanFollowing_full hfull, PrefixTree.fill_full hfull]
        have hcrowds : Crowds beginning count exactMatch lists following ↔
            ∃ user, following.find? (sizeFits beginning exactMatch) = some user ∧
              beginning <+: user ∧ user ∉ first := by
          rw [Crowds, hfirst]
          exact and_iff_right hfull
        rw [hcrowds]
        cases hfind : following.find? (sizeFits beginning exactMatch) with
        | none => simp [hlists]
        | some user =>
          by_cases hadd : beginning.isPrefixOf user = true ∧ user ∉ first
          · have hpre := List.isPrefixOf_iff_prefix.mp hadd.1
            refine ⟨fun h => absurd ⟨user, rfl, hpre, hadd.2⟩ h.2, fun _ => ?_⟩
            simp only [hadd.1, if_true, List.insert_of_not_mem hadd.2, List.length_cons]
            omega
          · refine ⟨fun _ => ?_, fun h => absurd ⟨hlists, ?_⟩ h⟩
            · simp only
              split
              · next hpre =>
                  exact List.insert_of_mem (by_contra fun hnew => hadd ⟨hpre, hnew⟩)
              · rfl
            · rintro ⟨user', heq, hpre, hnew⟩
              cases heq
              exact hadd ⟨List.isPrefixOf_iff_prefix.mpr hpre, hnew⟩
      · rw [scanFollowing_eq_fill (Nat.lt_of_not_le hfull)]
        refine ⟨fun _ => rfl, fun h => absurd ⟨hlists, fun hcrowds => hfull ?_⟩ h⟩
        rw [← hfirst]
        exact hcrowds.1
    · refine ⟨fun h => absurd h.1 hlists, fun _ => ?_⟩
      exact Nat.lt_of_lt_of_le (ih.2 hlists) length_le_scanFollowing

theorem prefix_of_mem_scanFollowing {name : Bytes} (hret : ∀ name ∈ retStrings, beginning <+: name)
    (h : name ∈ scanFollowing beginning count exactMatch following retStrings) :
    beginning <+: name := by
  by_cases hfull : count ≤ retStrings.length
  · rw [scanFollowing_full hfull] at h
    split at h
    · exact hret name h
    · split at h
      · next hpre =>
          obtain rfl | hmem := List.mem_insert_iff.mp h
          · exact List.isPrefixOf_iff_prefix.mp hpre
          · exact hret name hmem
      · exact hret name h
  · rw [scanFollowing_eq_fill (Nat.lt_of_not_le hfull)] at h
    obtain hmem | hmem := PrefixTree.mem_of_mem_fill h
    · exact hret name hmem
    · have hwanted := (List.mem_filter.mp hmem).2
      rw [wanted, Bool.and_eq_true] at hwanted
      exact List.isPrefixOf_iff_prefix.mp hwanted.2

theorem prefix_of_mem_foldl {name : Bytes} :
    ∀ {lists : List (List Bytes)} {retStrings : List Bytes},
      (∀ name ∈ retStrings, beginning <+: name) →
      name ∈ lists.foldl (fun retStrings following =>
        scanFollowing beginning count exactMatch following retStrings) retStrings →
      beginning <+: name
  | [], _, hret, h => hret name h
  | _ :: _, _, hret, h => prefix_of_mem_foldl (fun _ => prefix_of_mem_scanFollowing hret) h

end Lists

/-! ## The names -/

/-- The followed users asked for, and the names in the tree. -/
def candidateNames (tree : PartialNameTree) (lists : List (List Bytes)) (userStartsWith : Bytes)
    (exactMatch : Bool) : List Bytes :=
  followedNames userStartsWith exactMatch lists ++
    PrefixTree.listing tree.nextChars nameEnd tree.depth userStartsWith

/-- There is no other name, or no other name fits in. -/
def OnlyExact (tree : PartialNameTree) (lists : List (List Bytes)) (userStartsWith : Bytes)
    (count : Nat) : Prop :=
  (∀ name ∈ candidateNames tree lists userStartsWith true, name = userStartsWith) ∨ count = 0 ∨
    (count = 1 ∧ (candidateNames tree lists userStartsWith true).head? = some userStartsWith)

section Names

variable {tree : PartialNameTree} {lists : List (List Bytes)} {beginning name : Bytes} {count : Nat}
variable {exactMatch : Bool}

theorem prefix_of_mem_usernamesPartial
    (h : name ∈ usernamesPartial tree lists beginning count exactMatch) : beginning <+: name := by
  rw [usernamesPartial, PartialNameTree.getNamesFromPartial, PrefixTree.collect_eq_fill] at h
  obtain hmem | hmem := PrefixTree.mem_of_mem_fill h
  · exact prefix_of_mem_foldl (fun _ hnil => absurd hnil List.not_mem_nil) hmem
  · exact PrefixTree.prefix_of_mem_listing hmem

/-- Without crowding the answer is filled from the candidates. -/
theorem usernamesPartial_of_uncrowded (h : Uncrowded beginning count exactMatch lists) :
    usernamesPartial tree lists beginning count exactMatch =
      PrefixTree.fill count (candidateNames tree lists beginning exactMatch) [] := by
  rw [usernamesPartial, foldl_scanFollowing.1 h, PartialNameTree.getNamesFromPartial,
    PrefixTree.collect_eq_fill, candidateNames, PrefixTree.fill_append]

/-- There are at most `count` names iff no list is crowded. -/
theorem length_usernamesPartial_iff :
    (usernamesPartial tree lists beginning count exactMatch).length ≤ count ↔
      Uncrowded beginning count exactMatch lists := by
  constructor
  · intro hle
    by_contra hcrowded
    refine Nat.not_lt.mpr hle (Nat.lt_of_lt_of_le (foldl_scanFollowing.2 hcrowded) ?_)
    rw [usernamesPartial, PartialNameTree.getNamesFromPartial, PrefixTree.collect_eq_fill]
    exact PrefixTree.length_le_fill
  · intro h
    rw [usernamesPartial_of_uncrowded h]
    refine Nat.le_trans PrefixTree.length_fill_le ?_
    rw [List.length_nil, Nat.max_zero]

/-- Names start as asked for. There are at most `count`, and no other for an exact match, exactly
if no list is crowded and no other name fits in. -/
theorem listusernamespartial_iff {s : PostState} {count : Int} (hcount : 0 ≤ count)
    (hint : count < 2 ^ 31) :
    ∃ names : List Bytes,
      listusernamespartial tree s [.str beginning, .int count, .bool exactMatch] =
        .ok (.array (names.map .str)) ∧
      (∀ name ∈ names, beginning <+: name) ∧
      (((names.length : Int) ≤ count ∧ (exactMatch = true → ∀ name ∈ names, name = beginning)) ↔
        Uncrowded beginning count.toNat exactMatch s.followingLists ∧
          (exactMatch = true → OnlyExact tree s.followingLists beginning count.toNat)) := by
  have hsize : (toInt32 count % 2 ^ 64).toNat = count.toNat := by
    rw [toInt32_of_fits (by omega) hint]
    omega
  have hmem : ∀ name, name ∈ sortNames (usernamesPartial tree s.followingLists beginning
      count.toNat exactMatch) ↔
      name ∈ usernamesPartial tree s.followingLists beginning count.toNat exactMatch :=
    fun name => List.mem_insertionSort _
  refine ⟨sortNames (usernamesPartial tree s.followingLists beginning count.toNat exactMatch), ?_,
    fun name hname => prefix_of_mem_usernamesPartial ((hmem name).mp hname), ?_⟩
  · rw [← hsize]
    rfl
  · have hlength : ((sortNames (usernamesPartial tree s.followingLists beginning count.toNat
        exactMatch)).length : Int) ≤ count ↔
        Uncrowded beginning count.toNat exactMatch s.followingLists := by
      have hlimit := @length_usernamesPartial_iff tree s.followingLists beginning count.toNat
          exactMatch
      rw [← hlimit, sortNames, List.length_insertionSort]
      omega
    simp only [hlength, hmem]
    refine and_congr_right fun h => forall_congr' fun hexact => ?_
    rw [usernamesPartial_of_uncrowded h, hexact]
    exact PrefixTree.forall_mem_fill_iff

end Names

/-- Users that follow. -/
def followingState (users : List (Nat × Bytes × List Bytes)) : PostState where
  users := users.map fun user => (user.2.1, { following := user.2.2 })
  wallet := { mapKeyMetadata := users.map fun user => (user.1, ⟨user.2.1, []⟩) }

/-- The tree of some names. -/
def treeOf (names : List Bytes) : PartialNameTree :=
  (names.foldlM PartialNameTree.addNameToPartialNameTree []).getD []

/-- Bob and eve follow alice, bob also alina and carol; alma and bert are registered. -/
theorem listusernamespartial_al :
    ∃ names : List Bytes, names = [ascii "alice", ascii "alina", ascii "alma"] ∧
      listusernamespartial (treeOf [ascii "bert", ascii "alma"])
        (followingState [(1, ascii "bob", [ascii "alice", ascii "alina", ascii "carol"]),
          (2, ascii "eve", [ascii "alice", ascii "bert"])])
        [.str (ascii "al"), .int 3, .bool false] = .ok (.array (names.map .str)) ∧
      (names.length : Int) ≤ 3 ∧ ∀ name ∈ names, ascii "al" <+: name := by
  obtain ⟨names, hcall, hpre, hiff⟩ := @listusernamespartial_iff
    (treeOf [ascii "bert", ascii "alma"]) (ascii "al") false
    (followingState [(1, ascii "bob", [ascii "alice", ascii "alina", ascii "carol"]),
      (2, ascii "eve", [ascii "alice", ascii "bert"])]) 3 (by decide) (by decide)
  have huncrowded : Uncrowded (ascii "al") 3 false
      [[ascii "alice", ascii "alina", ascii "carol"], [ascii "alice", ascii "bert"]] :=
    (@length_usernamesPartial_iff [] _ _ _ _).mp (by decide)
  have hnames : names.map Json.str = [ascii "alice", ascii "alina", ascii "alma"].map .str :=
    (Json.array.inj (Except.ok.inj hcall)).symm
  have hinj : Function.Injective Json.str := fun _ _ h => Json.str.inj h
  exact ⟨names, hinj.list_map hnames, hcall, (hiff.mpr ⟨huncrowded, nofun⟩).1, hpre⟩

/-- Two names for a request of one, and a longer name for an exact match. -/
theorem listusernamespartial_wrong :
    listusernamespartial []
        (followingState [(1, ascii "bob", [ascii "alice"]), (2, ascii "eve", [ascii "alina"])])
        [.str (ascii "al"), .int 1, .bool false] =
      .ok (.array [.str (ascii "alice"), .str (ascii "alina")]) ∧
    listusernamespartial (treeOf [ascii "alice", ascii "aliceb"])
        (followingState []) [.str (ascii "alice"), .int 5, .bool true] =
      .ok (.array [.str (ascii "alice"), .str (ascii "aliceb")]) :=
  ⟨rfl, rfl⟩

end CoMoNet
