import CoMoNet.Post.Accept
import CoMoNet.Post.Sorted

/-!
# The file of the local users

`saveUserData` writes the data of the users as one dictionary, and `loadUserData` reads
it back. With nothing to save the old file stays, and the reader refuses files above
`loadLimit` (`userData_restored_iff`).
-/

namespace CoMoNet

open CScript (decimal)
open Entry (bencode insert_eq)

/-! ## Saving -/

/-- The order in which a `std::set` is gone through. -/
def inOrder (set : List Bytes) : List Bytes :=
  (set.foldl (fun m key => mapSet keyLt key () m) []).map Prod.fst

/-- A member that is only made if there is something to put in. -/
def addField (members : List (Bytes × Entry)) (name : String) (present : Bool) (value : Entry) :
    List (Bytes × Entry) :=
  if present then Entry.set members name value else members

/-- A message as an entry. -/
def saveDM (stoDm : StoredDirectMsg) : Entry :=
  let dmElem := Entry.set [] "time" (.int stoDm.utcTime)
  let dmElem := Entry.set dmElem "text" (.str stoDm.text)
  let dmElem := Entry.set dmElem "fromMe" (.int (if stoDm.fromMe then 1 else 0))
  let dmElem := Entry.set dmElem "from" (.str stoDm.sender)
  let dmElem := Entry.set dmElem "k" (.int stoDm.k)
  .dict dmElem

/-- `dmDict`, for lists that are not empty. -/
def saveDMs (directmsg : List (Bytes × List StoredDirectMsg)) : List (Bytes × Entry) :=
  directmsg.foldl (fun dmDict j => Entry.insert j.1 (.list (j.2.map saveDM)) dmDict) []

/-- `userData`, without members if the user has no data. -/
def saveFields (udata : UserData) : List (Bytes × Entry) :=
  let userData := addField [] "following" (!udata.following.isEmpty)
    (.list ((inOrder udata.following).map .str))
  let userData := addField userData "mentions" (!udata.mentionsPosts.isEmpty)
    (.list udata.mentionsPosts)
  let userData := addField userData "dm" (!udata.directmsg.isEmpty)
    (.dict (saveDMs udata.directmsg))
  addField userData "ignore_groups" (!udata.ignoreGroups.isEmpty)
    (.list ((inOrder udata.ignoreGroups).map .str))

/-- The loop over the users. -/
def saveUsers (users : List (Bytes × UserData)) : List (Bytes × Entry) :=
  users.foldl (fun userDict i =>
    match saveFields i.2 with
    | [] => userDict
    | userData => Entry.insert i.1 (.dict userData) userDict) []

/-- How a write ends. -/
inductive WriteOutcome where
  | written
  | notOpened
  | cutOff (left : Bytes)

/-- `save_file`: the result and the file. -/
def saveFile (outcome : WriteOutcome) (file : Option Bytes) (v : Bytes) : Int × Option Bytes :=
  match outcome with
  | .written => (0, some v)
  | .notOpened => (-1, file)
  | .cutOff left => (-3, some left)

/-- `saveUserData`: the result and the file. Without a member `userDict` is no dictionary yet. -/
def saveUserData (outcome : WriteOutcome) (file : Option Bytes)
    (users : List (Bytes × UserData)) : Int × Option Bytes :=
  match saveUsers users with
  | [] => (0, file)
  | userDict => saveFile outcome file (bencode (.dict userDict))

/-! ## Loading -/

/-- The default of `limit`. -/
def loadLimit : Nat := 8000000

/-- `load_file`, of a file that can be read. -/
def loadFile (file : Option Bytes) : Except Int Bytes :=
  match file with
  | none => .error (-1)
  | some v => if v.length > loadLimit then .error (-2) else .ok v

/-- The errors of a load. -/
inductive LoadError where
  | data
  /-- A `type_error` is thrown. -/
  | type
deriving DecidableEq, Repr

/-- A list of strings that is read into a `std::set`. -/
def loadSet (userData : LazyEntry) (name : String) : Except LoadError (List Bytes) :=
  match userData.dictFind name with
  | none => .ok []
  | some values =>
    if values.type ≠ .list then .error .data
    else .ok (values.listValues.foldl (fun set v => setInsert v.stringValue set) [])

/-- The key of a mention: the user and the time of the post. -/
def postKey (v : LazyEntry) : Except LoadError Bytes :=
  if v.type ≠ .dict then .error .data
  else
    match v.dictFindDict "userpost" with
    | none => .error .data
    | some post =>
      .ok (post.dictFindStringValue "n" ++ ascii ";" ++
        decimal (post.dictFindIntOr "time" (-1)))

/-- The loop over the mentions, which fills the keys and the posts. -/
def loadMentions : List Bytes → List Entry → List LazyEntry →
    Except LoadError (List Bytes × List Entry)
  | keys, posts, [] => .ok (keys, posts)
  | keys, posts, v :: rest =>
    match postKey v with
    | .error e => .error e
    | .ok key =>
      match Entry.assign none v with
      | none => .error .type
      | some vEntry => loadMentions (setInsert key keys) (posts ++ [vEntry]) rest

/-- A message from an entry. -/
def loadDM (dmElem : LazyEntry) : StoredDirectMsg where
  text := dmElem.dictFindStringValue "text"
  utcTime := dmElem.dictFindIntOr "time" 0
  fromMe := dmElem.dictFindIntOr "fromMe" 0 != 0
  sender := dmElem.dictFindStringValue "from"
  k := toInt32 (dmElem.dictFindIntOr "k" (-1))

/-- The loop over messages. -/
def loadDMList (other : Bytes) : List (Bytes × List StoredDirectMsg) → List LazyEntry →
    Except LoadError (List (Bytes × List StoredDirectMsg))
  | directmsg, [] => .ok directmsg
  | directmsg, dmElem :: rest =>
    if dmElem.type ≠ .dict then .error .data
    else
      loadDMList other (mapSet keyLt other
        ((directmsg.lookup other).getD [] ++ [loadDM dmElem]) directmsg) rest

/-- The loop over conversations. -/
def loadDMs : List (Bytes × List StoredDirectMsg) → List (Bytes × LazyEntry) →
    Except LoadError (List (Bytes × List StoredDirectMsg))
  | directmsg, [] => .ok directmsg
  | directmsg, (other, dmList) :: rest =>
    if dmList.type ≠ .list then .error .data
    else
      match loadDMList other directmsg dmList.listValues with
      | .error e => .error e
      | .ok directmsg => loadDMs directmsg rest

/-- `m_mentionsKeys` and `m_mentionsPosts`. -/
def loadMentionsList (userData : LazyEntry) : Except LoadError (List Bytes × List Entry) :=
  match userData.dictFind "mentions" with
  | none => .ok ([], [])
  | some mentionsList =>
    if mentionsList.type ≠ .list then .error .data
    else loadMentions [] [] mentionsList.listValues

/-- `m_directmsg`. -/
def loadDMDict (userData : LazyEntry) :
    Except LoadError (List (Bytes × List StoredDirectMsg)) :=
  match userData.dictFind "dm" with
  | none => .ok []
  | some dmDict => if dmDict.type ≠ .dict then .error .data else loadDMs [] dmDict.members

/-- One user. -/
def loadUser (userData : LazyEntry) : Except LoadError UserData := do
  if userData.type ≠ .dict then throw .data
  let following ← loadSet userData "following"
  let (mentionsKeys, mentionsPosts) ← loadMentionsList userData
  let directmsg ← loadDMDict userData
  let ignoreGroups ← loadSet userData "ignore_groups"
  return { following, directmsg, mentionsKeys, mentionsPosts, ignoreGroups }

/-- The loop over the users; `none` after an exception. Users before it stay. -/
def loadUsers : List (Bytes × UserData) → List (Bytes × LazyEntry) →
    Option Int × List (Bytes × UserData)
  | users, [] => (some 0, users)
  | users, (name, userData) :: rest =>
    match loadUser userData with
    | .error .data => (some (-2), users)
    | .error .type => (none, users)
    | .ok udata => loadUsers (mapSet keyLt name udata users) rest

/-- `loadUserData`. Of an empty file `lazy_bdecode` reads an entry without a type. -/
def loadUserData (lazyBdecode : Bytes → Option LazyEntry) (file : Option Bytes)
    (users : List (Bytes × UserData)) : Option Int × List (Bytes × UserData) :=
  match loadFile file with
  | .error _ => (some (-1), users)
  | .ok [] => (some (-2), users)
  | .ok data =>
    match lazyBdecode data with
    | none => (some (-1), users)
    | some userDict =>
      if userDict.type ≠ .dict then (some (-2), users) else loadUsers users userDict.members

/-! ## What comes back -/

theorem mem_inOrder {set : List Bytes} {key : Bytes} : key ∈ inOrder set ↔ key ∈ set := by
  have hfold : ∀ (set : List Bytes) (m : List (Bytes × Unit)),
      key ∈ (set.foldl (fun m key => mapSet keyLt key () m) m).map Prod.fst ↔
        key ∈ m.map Prod.fst ∨ key ∈ set := by
    intro set
    induction set with
    | nil => simp
    | cons k set ih =>
      intro m
      rw [List.foldl_cons, ih, mem_keys_mapSet, List.mem_cons]
      tauto
  simpa [inOrder] using hfold set []

theorem Entry.find_set (members : List (Bytes × Entry)) (name name' : String) (value : Entry) :
    Entry.find (Entry.set members name value) name' =
      if ascii name' = ascii name then some value else Entry.find members name' :=
  Entry.lookup_insert _ _ _ _

theorem Entry.lazyList_eq (values : List Entry) :
    Entry.lazyList values = values.map Entry.lazy := by
  induction values with
  | nil => rfl
  | cons value values ih => rw [Entry.lazyList, ih, List.map_cons]

/-- A message comes back. -/
theorem loadDM_saveDM {stoDm : StoredDirectMsg} (hk : toInt32 stoDm.k = stoDm.k) :
    loadDM (Entry.lazy (saveDM stoDm)) = stoDm := by
  rw [saveDM, loadDM]
  simp only [dictFindStringValue_lazy, dictFindIntOr_lazy, Entry.findString, Entry.findInt,
    Entry.find_set]
  cases stoDm with
  | mk utcTime text fromMe sender k =>
    cases fromMe <;> simpa +decide using hk

/-- The messages with one user are read in order, behind those read before. -/
theorem loadDMList_saved {other : Bytes} {directmsg : List (Bytes × List StoredDirectMsg)}
    (hbelow : KeysBelow directmsg other) {dms : List StoredDirectMsg}
    (hfits : ∀ dm ∈ dms, toInt32 dm.k = dm.k) (hne : dms ≠ []) :
    loadDMList other directmsg (Entry.lazyList (dms.map saveDM)) =
      .ok (directmsg ++ [(other, dms)]) := by
  have hmore : ∀ (dms before : List StoredDirectMsg), (∀ dm ∈ dms, toInt32 dm.k = dm.k) →
      loadDMList other (directmsg ++ [(other, before)]) (Entry.lazyList (dms.map saveDM)) =
        .ok (directmsg ++ [(other, before ++ dms)]) := by
    intro dms
    induction dms with
    | nil => simp [Entry.lazyList, loadDMList]
    | cons dm dms ih =>
      intro before hfits
      have hlookup : (directmsg ++ [(other, before)]).lookup other = some before := by
        rw [List.lookup_append, lookup_of_keysBelow hbelow]
        simp
      have htype : (Entry.lazy (saveDM dm)).type = .dict := rfl
      rw [List.map_cons, Entry.lazyList, loadDMList, if_neg (not_not.mpr htype), hlookup,
        Option.getD_some, mapSet_last hbelow, loadDM_saveDM (hfits dm List.mem_cons_self),
        ih _ fun dm' h => hfits dm' (List.mem_cons_of_mem _ h), List.append_assoc]
      rfl
  cases dms with
  | nil => exact absurd rfl hne
  | cons dm dms =>
    have htype : (Entry.lazy (saveDM dm)).type = .dict := rfl
    rw [List.map_cons, Entry.lazyList, loadDMList, if_neg (not_not.mpr htype),
      lookup_of_keysBelow hbelow, Option.getD_none, List.nil_append, mapSet_above hbelow,
      loadDM_saveDM (hfits dm List.mem_cons_self),
      hmore dms [dm] fun dm' h => hfits dm' (List.mem_cons_of_mem _ h)]
    rfl

/-- The conversations as a dictionary. -/
theorem saveDMs_eq {directmsg : List (Bytes × List StoredDirectMsg)}
    (h : KeysSorted directmsg) :
    saveDMs directmsg = directmsg.map fun j => (j.1, .list (j.2.map saveDM)) := by
  have hbelow : ∀ j ∈ directmsg, KeysBelow ([] : List (Bytes × Entry)) j.1 :=
    fun _ _ => List.forall_mem_nil _
  have hfold := foldl_mapSet (p := fun _ => true) (f := fun j => .list (j.2.map saveDM)) h hbelow
  simpa [saveDMs, insert_eq] using hfold

/-- Conversations come back. -/
theorem loadDMs_saved (before : List (Bytes × List StoredDirectMsg))
    {directmsg : List (Bytes × List StoredDirectMsg)}
    (hsorted : KeysSorted (before ++ directmsg)) (hne : ∀ j ∈ directmsg, j.2 ≠ [])
    (hfits : ∀ j ∈ directmsg, ∀ dm ∈ j.2, toInt32 dm.k = dm.k) :
    loadDMs before (Entry.lazyDict (directmsg.map fun j => (j.1, .list (j.2.map saveDM)))) =
      .ok (before ++ directmsg) := by
  induction directmsg generalizing before with
  | nil => simp [Entry.lazyDict, loadDMs]
  | cons j directmsg ih =>
    have hbelow : KeysBelow before j.1 := fun x hx =>
      (List.pairwise_append.mp hsorted).2.2 x hx j List.mem_cons_self
    have hsorted' : KeysSorted ((before ++ [j]) ++ directmsg) := by rwa [List.append_assoc]
    have htype : (Entry.lazy (.list (j.2.map saveDM))).type = .list := rfl
    have hone : loadDMList j.1 before (Entry.lazy (.list (j.2.map saveDM))).listValues =
        .ok (before ++ [j]) :=
      loadDMList_saved hbelow (hfits j List.mem_cons_self) (hne j List.mem_cons_self)
    rw [List.map_cons, Entry.lazyDict, loadDMs, if_neg (not_not.mpr htype), hone]
    simp only
    rw [ih _ hsorted' (fun i hi => hne i (List.mem_cons_of_mem _ hi))
      (fun i hi => hfits i (List.mem_cons_of_mem _ hi)), List.append_assoc]
    rfl

theorem mem_setInsert {key k : Bytes} {set : List Bytes} :
    k ∈ setInsert key set ↔ k = key ∨ k ∈ set := by
  rw [setInsert]
  split
  · next h =>
    constructor
    · exact .inr
    · rintro (rfl | hk)
      · exact h
      · exact hk
  · rw [List.mem_append, List.mem_singleton, Or.comm]

/-- A set comes back. -/
theorem loadSet_saved {members : List (Bytes × Entry)} {name : String} {set : List Bytes}
    (h : Entry.find members name =
      if set.isEmpty then none else some (.list ((inOrder set).map .str))) :
    ∃ set', loadSet (Entry.lazy (.dict members)) name = .ok set' ∧
      ∀ n, n ∈ set' ↔ n ∈ set := by
  have hfold : ∀ (names before : List Bytes) (n : Bytes),
      n ∈ (names.map fun s => Entry.lazy (.str s)).foldl
          (fun set v => setInsert v.stringValue set) before ↔ n ∈ before ∨ n ∈ names := by
    intro names
    induction names with
    | nil => simp
    | cons s names ih =>
      intro before n
      rw [List.map_cons, List.foldl_cons, ih, mem_setInsert, List.mem_cons]
      change (n = s ∨ n ∈ before) ∨ n ∈ names ↔ n ∈ before ∨ n = s ∨ n ∈ names
      tauto
  rw [loadSet, Entry.dictFind_lazy, h]
  by_cases hempty : set.isEmpty = true
  · rw [if_pos hempty]
    rw [List.isEmpty_iff] at hempty
    exact ⟨[], rfl, by simp [hempty]⟩
  · rw [if_neg hempty]
    refine ⟨_, rfl, fun n => ?_⟩
    have hvalues : (Entry.lazy (.list ((inOrder set).map .str))).listValues =
        (inOrder set).map fun s => Entry.lazy (.str s) := by
      rw [Entry.lazy, LazyEntry.listValues, Entry.lazyList_eq, List.map_map]
      rfl
    rw [hvalues, hfold, mem_inOrder]
    simp

/-- Mentions come back. -/
theorem loadMentions_saved {posts : List Entry} (before : List Entry) (keys : List Bytes)
    (hsorted : ∀ e ∈ posts, e.sorted = true)
    (hkey : ∀ e ∈ posts, ∃ key, postKey (Entry.lazy e) = .ok key) :
    ∃ keys', loadMentions keys before (Entry.lazyList posts) = .ok (keys', before ++ posts) ∧
      ∀ key, key ∈ keys' ↔ key ∈ keys ∨ ∃ e ∈ posts, postKey (Entry.lazy e) = .ok key := by
  induction posts generalizing keys before with
  | nil => exact ⟨keys, by simp [Entry.lazyList, loadMentions], by simp⟩
  | cons e posts ih =>
    obtain ⟨key, hk⟩ := hkey e List.mem_cons_self
    obtain ⟨keys', hload, hkeys⟩ := ih (before ++ [e]) (setInsert key keys)
      (fun x hx => hsorted x (List.mem_cons_of_mem _ hx))
      (fun x hx => hkey x (List.mem_cons_of_mem _ hx))
    refine ⟨keys', ?_, fun k => ?_⟩
    · rw [Entry.lazyList, loadMentions, hk]
      simp only [Entry.assign_lazy e (hsorted e List.mem_cons_self)]
      rw [hload, List.append_assoc]
      rfl
    · rw [hkeys, mem_setInsert, List.exists_mem_cons_iff, hk, Except.ok.injEq]
      tauto

/-! ## The round trip of one user -/

/-- Some field is not empty. -/
def UserData.hasData (udata : UserData) : Bool :=
  !udata.following.isEmpty || !udata.mentionsPosts.isEmpty || !udata.directmsg.isEmpty ||
    !udata.ignoreGroups.isEmpty

/-- What the types of the source keep: sorted maps, `m_k` in range. -/
structure UserData.Kept (udata : UserData) : Prop where
  /-- `m_directmsg` is a map. -/
  directmsg_sorted : KeysSorted udata.directmsg
  directmsg_ne : ∀ j ∈ udata.directmsg, j.2 ≠ []
  k_fits : ∀ j ∈ udata.directmsg, ∀ dm ∈ j.2, toInt32 dm.k = dm.k
  posts_sorted : ∀ e ∈ udata.mentionsPosts, e.sorted = true
  posts_key : ∀ e ∈ udata.mentionsPosts, ∃ key, postKey (Entry.lazy e) = .ok key
  /-- `m_mentionsKeys` has the keys of the mentions. -/
  keys : ∀ key, key ∈ udata.mentionsKeys ↔
    ∃ e ∈ udata.mentionsPosts, postKey (Entry.lazy e) = .ok key

/-- The data are the same.  Sets are compared by their elements. -/
structure UserData.Same (udata udata' : UserData) : Prop where
  following : ∀ n, n ∈ udata.following ↔ n ∈ udata'.following
  directmsg : udata.directmsg = udata'.directmsg
  mentionsKeys : ∀ key, key ∈ udata.mentionsKeys ↔ key ∈ udata'.mentionsKeys
  mentionsPosts : udata.mentionsPosts = udata'.mentionsPosts
  ignoreGroups : ∀ n, n ∈ udata.ignoreGroups ↔ n ∈ udata'.ignoreGroups

theorem find_addField (members : List (Bytes × Entry)) (name name' : String) (present : Bool)
    (value : Entry) :
    Entry.find (addField members name present value) name' =
      if ascii name' = ascii name ∧ present = true then some value
      else Entry.find members name' := by
  cases present with
  | false => simp [addField]
  | true => simp [addField, Entry.find_set]

/-- A user without data is not saved. -/
theorem saveFields_eq_nil_iff {udata : UserData} :
    saveFields udata = [] ↔ udata.hasData = false := by
  have hadd : ∀ (members : List (Bytes × Entry)) (name : String) (present : Bool) (value : Entry),
      addField members name present value = [] ↔ members = [] ∧ present = false := by
    intro members name present value
    cases present with
    | false => simp [addField]
    | true =>
      have hne : Entry.set members name value ≠ [] := by
        rw [Entry.set, insert_eq]
        exact mapSet_ne_nil value
      simp [addField, hne]
  simp only [saveFields, hadd, UserData.hasData, Bool.or_eq_false_iff, true_and, and_assoc]

section Find

variable (udata : UserData)

theorem find_following : Entry.find (saveFields udata) "following" =
    if udata.following.isEmpty then none
    else some (.list ((inOrder udata.following).map .str)) := by
  cases h : udata.following.isEmpty <;> simp +decide [saveFields, find_addField, h]

theorem find_mentions : Entry.find (saveFields udata) "mentions" =
    if udata.mentionsPosts.isEmpty then none else some (.list udata.mentionsPosts) := by
  cases h : udata.mentionsPosts.isEmpty <;> simp +decide [saveFields, find_addField, h]

theorem find_dm : Entry.find (saveFields udata) "dm" =
    if udata.directmsg.isEmpty then none else some (.dict (saveDMs udata.directmsg)) := by
  cases h : udata.directmsg.isEmpty <;> simp +decide [saveFields, find_addField, h]

theorem find_ignoreGroups : Entry.find (saveFields udata) "ignore_groups" =
    if udata.ignoreGroups.isEmpty then none
    else some (.list ((inOrder udata.ignoreGroups).map .str)) := by
  cases h : udata.ignoreGroups.isEmpty <;> simp +decide [saveFields, find_addField, h]

end Find

theorem loadMentionsList_saved {udata : UserData} (h : udata.Kept) :
    ∃ keys, loadMentionsList (Entry.lazy (.dict (saveFields udata))) =
        .ok (keys, udata.mentionsPosts) ∧ ∀ key, key ∈ keys ↔ key ∈ udata.mentionsKeys := by
  obtain ⟨keys, hload, hkeys⟩ := loadMentions_saved [] [] h.posts_sorted h.posts_key
  rw [loadMentionsList, Entry.dictFind_lazy, find_mentions]
  by_cases hempty : udata.mentionsPosts.isEmpty = true
  · rw [if_pos hempty]
    rw [List.isEmpty_iff] at hempty
    exact ⟨[], by rw [hempty]; rfl, fun key => by simp [h.keys, hempty]⟩
  · rw [if_neg hempty]
    refine ⟨keys, hload, fun key => ?_⟩
    rw [hkeys, h.keys]
    simp

theorem loadDMDict_saved {udata : UserData} (h : udata.Kept) :
    loadDMDict (Entry.lazy (.dict (saveFields udata))) = .ok udata.directmsg := by
  rw [loadDMDict, Entry.dictFind_lazy, find_dm]
  by_cases hempty : udata.directmsg.isEmpty = true
  · rw [if_pos hempty]
    rw [List.isEmpty_iff] at hempty
    rw [hempty]
    rfl
  · rw [if_neg hempty, saveDMs_eq h.directmsg_sorted]
    exact loadDMs_saved [] h.directmsg_sorted h.directmsg_ne h.k_fits

/-- A user comes back. -/
theorem loadUser_saved {udata : UserData} (h : udata.Kept) :
    ∃ udata', loadUser (Entry.lazy (.dict (saveFields udata))) = .ok udata' ∧
      udata'.Same udata := by
  obtain ⟨following, hfollowing, hsame⟩ := loadSet_saved (find_following udata)
  obtain ⟨keys, hmentions, hkeys⟩ := loadMentionsList_saved h
  obtain ⟨ignoreGroups, hignore, hsame'⟩ := loadSet_saved (find_ignoreGroups udata)
  refine ⟨⟨following, udata.directmsg, keys, udata.mentionsPosts, ignoreGroups⟩, ?_,
    ⟨hsame, rfl, hkeys, rfl, hsame'⟩⟩
  have htype : (Entry.lazy (.dict (saveFields udata))).type = .dict := rfl
  rw [loadUser, if_neg (not_not.mpr htype), hfollowing, hmentions, loadDMDict_saved h, hignore]
  rfl

/-! ## The round trip of the file -/

/-- `m_users`, as the code keeps it. -/
structure UsersKept (users : List (Bytes × UserData)) : Prop where
  sorted : KeysSorted users
  kept : ∀ i ∈ users, i.2.Kept

/-- The users that come back when `users` were saved: those with data. -/
def UsersRestored (loaded users : List (Bytes × UserData)) : Prop :=
  List.Forall₂ (fun i j => i.1 = j.1 ∧ i.2.Same j.2) loaded (users.filter (·.2.hasData))

/-- The users with data are saved. -/
theorem saveUsers_eq {users : List (Bytes × UserData)} (h : KeysSorted users) :
    saveUsers users =
      (users.filter (·.2.hasData)).map fun i => (i.1, .dict (saveFields i.2)) := by
  have hbelow : ∀ i ∈ users, KeysBelow ([] : List (Bytes × Entry)) i.1 :=
    fun _ _ => List.forall_mem_nil _
  have hfold := foldl_mapSet (p := fun i => i.2.hasData)
    (f := fun i => .dict (saveFields i.2)) h hbelow
  rw [List.nil_append] at hfold
  rw [← hfold, saveUsers]
  congr 1
  funext userDict i
  cases hdata : i.2.hasData with
  | false =>
    rw [saveFields_eq_nil_iff.mpr hdata]
    rfl
  | true =>
    cases hfields : saveFields i.2 with
    | nil =>
      rw [saveFields_eq_nil_iff, hdata] at hfields
      cases hfields
    | cons x fields => exact insert_eq _ _ _

/-- The users come back. -/
theorem loadUsers_saved (before : List (Bytes × UserData)) {users : List (Bytes × UserData)}
    (hsorted : KeysSorted (before ++ users)) (hkept : ∀ i ∈ users, i.2.Kept) :
    ∃ loaded, loadUsers before
        (Entry.lazyDict (users.map fun i => (i.1, .dict (saveFields i.2)))) =
          (some 0, before ++ loaded) ∧
      List.Forall₂ (fun i j => i.1 = j.1 ∧ i.2.Same j.2) loaded users := by
  induction users generalizing before with
  | nil => exact ⟨[], by simp [Entry.lazyDict, loadUsers], .nil⟩
  | cons i users ih =>
    obtain ⟨udata, hload, hsame⟩ := loadUser_saved (hkept i List.mem_cons_self)
    have hbelow : KeysBelow before i.1 := fun x hx =>
      (List.pairwise_append.mp hsorted).2.2 x hx i List.mem_cons_self
    have hsorted' : KeysSorted ((before ++ [(i.1, udata)]) ++ users) :=
      hsorted.of_keys (by simp)
    obtain ⟨loaded, hrest, hall⟩ := ih _ hsorted' fun j hj => hkept j (List.mem_cons_of_mem _ hj)
    refine ⟨(i.1, udata) :: loaded, ?_, .cons ⟨rfl, hsame⟩ hall⟩
    rw [List.map_cons, Entry.lazyDict, loadUsers, hload]
    simp only
    rw [mapSet_above hbelow, hrest, List.append_assoc]
    rfl

theorem loadUsers_nonempty {users : List (Bytes × UserData)} {dict : List (Bytes × LazyEntry)}
    (h : loadUsers users dict = (some 0, [])) : users = [] ∧ dict = [] := by
  induction dict generalizing users with
  | nil => exact ⟨congrArg Prod.snd h, rfl⟩
  | cons x dict ih =>
    rw [loadUsers] at h
    split at h
    · cases congrArg Prod.fst h
    · cases congrArg Prod.fst h
    · exact absurd (ih h).1 (mapSet_ne_nil _)

section File

variable {lazyBdecode : Bytes → Option LazyEntry} {file : Option Bytes} {data : Bytes}
  {users : List (Bytes × UserData)}

theorem loadUserData_of_le (hne : data ≠ []) (hle : data.length ≤ loadLimit) :
    loadUserData lazyBdecode (some data) users =
      match lazyBdecode data with
      | none => (some (-1), users)
      | some userDict =>
        if userDict.type ≠ .dict then (some (-2), users)
        else loadUsers users userDict.members := by
  rw [loadUserData, loadFile, if_neg (Nat.not_lt.mpr hle)]
  cases data with
  | nil => exact absurd rfl hne
  | cons b data => rfl

/-- A result of 0 comes from a file of fitting length that holds a dictionary. -/
theorem loadUserData_eq_zero {loaded : List (Bytes × UserData)}
    (h : loadUserData lazyBdecode file users = (some 0, loaded)) :
    ∃ data userDict, file = some data ∧ data ≠ [] ∧ data.length ≤ loadLimit ∧
      lazyBdecode data = some userDict ∧ userDict.type = .dict ∧
      loadUsers users userDict.members = (some 0, loaded) := by
  cases file with
  | none => cases congrArg Prod.fst h
  | some data =>
    by_cases hlong : data.length > loadLimit
    · rw [loadUserData, loadFile, if_pos hlong] at h
      cases congrArg Prod.fst h
    by_cases hempty : data = []
    · rw [hempty] at h
      cases congrArg Prod.fst h
    rw [loadUserData_of_le hempty (Nat.not_lt.mp hlong)] at h
    cases hread : lazyBdecode data with
    | none =>
      rw [hread] at h
      cases congrArg Prod.fst h
    | some userDict =>
      simp only [hread] at h
      split at h
      · cases congrArg Prod.fst h
      · next htype =>
        exact ⟨data, userDict, rfl, hempty, Nat.not_lt.mp hlong, hread, not_not.mp htype, h⟩

/-- The users are read back from the file that was written, unless it is too
long. -/
theorem loadUserData_saved (hkept : UsersKept users)
    (hdecode : lazyBdecode (bencode (.dict (saveUsers users))) =
      some (Entry.lazy (.dict (saveUsers users)))) :
    (∃ loaded, loadUserData lazyBdecode (some (bencode (.dict (saveUsers users)))) [] =
        (some 0, loaded) ∧ UsersRestored loaded users) ↔
      (bencode (.dict (saveUsers users))).length ≤ loadLimit := by
  constructor
  · rintro ⟨loaded, hload, -⟩
    obtain ⟨data, -, hfile, -, hle, -⟩ := loadUserData_eq_zero hload
    rwa [← Option.some.inj hfile] at hle
  · intro hle
    have hne : bencode (.dict (saveUsers users)) ≠ [] := by simp [bencode, ascii]
    obtain ⟨loaded, hload, hall⟩ := loadUsers_saved []
      (hkept.sorted.filter fun i => i.2.hasData) fun i hi =>
        hkept.kept i (List.mem_of_mem_filter hi)
    refine ⟨loaded, ?_, hall⟩
    rw [loadUserData_of_le hne hle, hdecode]
    rw [← saveUsers_eq hkept.sorted] at hload
    exact hload

/-- A file that was left as it was gives no users only if it holds none. -/
theorem loadUserData_left (hdata : users.filter (·.2.hasData) = []) :
    (∃ loaded, loadUserData lazyBdecode file [] = (some 0, loaded) ∧
        UsersRestored loaded users) ↔
      ∃ data userDict, file = some data ∧ data ≠ [] ∧ data.length ≤ loadLimit ∧
        lazyBdecode data = some userDict ∧ userDict.type = .dict ∧ userDict.members = [] := by
  constructor
  · rintro ⟨loaded, hload, hall⟩
    rw [UsersRestored, hdata, List.forall₂_nil_right_iff] at hall
    rw [hall] at hload
    obtain ⟨data, userDict, hfile, hne, hle, hread, htype, hloop⟩ := loadUserData_eq_zero hload
    exact ⟨data, userDict, hfile, hne, hle, hread, htype, (loadUsers_nonempty hloop).2⟩
  · rintro ⟨data, userDict, rfl, hne, hle, hread, htype, hmembers⟩
    refine ⟨[], ?_, ?_⟩
    · rw [loadUserData_of_le hne hle, hread]
      simp only
      rw [if_neg (not_not.mpr htype), hmembers]
      rfl
    · rw [UsersRestored, hdata]
      exact .nil

end File

/-- After a successful save the users with data come back exactly if there is something to save,
not too long, or nothing and the file held no users. -/
theorem userData_restored_iff {lazyBdecode : Bytes → Option LazyEntry} {outcome : WriteOutcome}
    {file file' : Option Bytes} {users : List (Bytes × UserData)} (hkept : UsersKept users)
    (hdecode : lazyBdecode (bencode (.dict (saveUsers users))) =
      some (Entry.lazy (.dict (saveUsers users))))
    (hsave : saveUserData outcome file users = (0, file')) :
    (∃ loaded, loadUserData lazyBdecode file' [] = (some 0, loaded) ∧
        UsersRestored loaded users) ↔
      if users.any (·.2.hasData) then
        (bencode (.dict (saveUsers users))).length ≤ loadLimit
      else
        ∃ data userDict, file = some data ∧ data ≠ [] ∧ data.length ≤ loadLimit ∧
          lazyBdecode data = some userDict ∧ userDict.type = .dict ∧ userDict.members = [] := by
  have hsaved := saveUsers_eq hkept.sorted
  cases hdata : users.filter (·.2.hasData) with
  | nil =>
    rw [hdata, List.map_nil] at hsaved
    rw [saveUserData, hsaved] at hsave
    obtain rfl : file = file' := congrArg Prod.snd hsave
    have hany : ¬users.any (·.2.hasData) = true := by
      simpa [List.filter_eq_nil_iff] using hdata
    rw [if_neg hany]
    exact loadUserData_left hdata
  | cons i rest =>
    have hany : users.any (·.2.hasData) = true := by
      rw [List.any_eq_true]
      exact ⟨i, List.mem_filter.mp (hdata ▸ List.mem_cons_self)⟩
    obtain rfl : file' = some (bencode (.dict (saveUsers users))) := by
      rw [hdata, List.map_cons] at hsaved
      rw [saveUserData, hsaved] at hsave
      rw [hsaved]
      cases outcome with
      | written => exact (congrArg Prod.snd hsave).symm
      | notOpened => cases congrArg Prod.fst hsave
      | cutOff left => cases congrArg Prod.fst hsave
    rw [if_pos hany]
    exact loadUserData_saved hkept hdecode

/-- A post that mentions. -/
def bobMention : Entry :=
  .dict [(ascii "userpost", .dict [(ascii "n", .str (ascii "bob")), (ascii "time", .int 5)])]

/-- Two users with data. -/
def someUsers : List (Bytes × UserData) :=
  [(ascii "alice",
      { following := [ascii "carol", ascii "bob"]
        directmsg := [(ascii "bob", [⟨1, ascii "hi", true, ascii "alice", 3⟩,
          ⟨2, ascii "hello", false, ascii "bob", -1⟩])]
        mentionsKeys := [ascii "bob;5"]
        mentionsPosts := [bobMention]
        ignoreGroups := [ascii "*group"] }),
    (ascii "carol", {})]

/-- The data of alice come back. -/
theorem userData_restored_alice :
    ∃ loaded, loadUserData (fun _ => some (Entry.lazy (.dict (saveUsers someUsers))))
        (saveUserData .written none someUsers).2 [] = (some 0, loaded) ∧
      UsersRestored loaded someUsers := by
  have hkey : postKey (Entry.lazy bobMention) = .ok (ascii "bob;5") := by decide +kernel
  have hkept : UsersKept someUsers := by
    refine ⟨by decide, fun i hi => ?_⟩
    simp only [someUsers, List.mem_cons, List.not_mem_nil, or_false] at hi
    obtain rfl | rfl := hi
    · refine ⟨by decide, by decide, by decide, by decide, ?_, fun key => ?_⟩
      · simp [hkey]
      · simp [hkey, eq_comm]
    · refine ⟨by decide, by decide, by decide, by decide, ?_, fun key => ?_⟩ <;> simp
  have hsave : saveUserData .written none someUsers =
      (0, (saveUserData .written none someUsers).2) := rfl
  refine (userData_restored_iff hkept rfl hsave).mpr ?_
  rw [if_pos (by decide)]
  decide +kernel

/-- Alice follows bob only, and unfollows: at the next start alice follows bob again. -/
theorem saveUserData_stale :
    ∃ before users file, saveUserData .written none before = (0, file) ∧ UsersKept users ∧
      (∀ outcome, saveUserData outcome file users = (0, file)) ∧
      ∀ lazyBdecode : Bytes → Option LazyEntry,
        lazyBdecode (bencode (.dict (saveUsers before))) =
          some (Entry.lazy (.dict (saveUsers before))) →
        loadUserData lazyBdecode file [] = (some 0, before) ∧ ¬UsersRestored before users := by
  let before : List (Bytes × UserData) := [(ascii "alice", { following := [ascii "bob"] })]
  refine ⟨before, [(ascii "alice", {})], some (bencode (.dict (saveUsers before))), rfl,
    ⟨by decide, fun i hi => ?_⟩, fun _ => rfl, fun lazyBdecode hdecode => ⟨?_, ?_⟩⟩
  · rw [List.mem_singleton] at hi
    subst hi
    refine ⟨by decide, by decide, by decide, by decide, ?_, fun key => ?_⟩ <;> simp
  · rw [loadUserData_of_le (by decide +kernel) (by decide +kernel), hdecode]
    rfl
  · simp [UsersRestored, UserData.hasData, before]

end CoMoNet
