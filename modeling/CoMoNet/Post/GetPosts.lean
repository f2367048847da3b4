import CoMoNet.Dht.PutData
import CoMoNet.Lib.RankedList
import CoMoNet.Post.Client
import CoMoNet.Post.Polls
import CoMoNet.Torrent.Picker
import CoMoNet.Torrent.Pieces

/-!
# The posts of the users one follows

`getposts` orders the last posts of each user by time. A post without a time or from the
future is to be ignored, but nothing skips it (`getposts_iff`).
-/

namespace CoMoNet

open Entry (entryToJson hexcapePost)

/-! ## Pieces of a torrent -/

namespace Torrent

/-- `last_have` of the picker. -/
def lastHave (pieces : List (Option Nat)) : Int :=
  pieces.zipIdx.foldl (fun last p => if p.1.isSome then p.2 else last) (-1)

/-- The pieces that `get_pieces` reads, in the order of the requests. -/
def getPieces (t : Torrent) (count maxId sinceId : Int) (allowedFlags requiredFlags : Nat) :
    List Nat :=
  match t.picker with
  | none => []
  | some pieces =>
    let maxId := min maxId (lastHave pieces)
    let wanted (i : Nat) : Bool :=
      match pieces.getD i none with
      | none => false
      | some postFlags =>
        postFlags &&& allowedFlags == postFlags && postFlags &&& requiredFlags == requiredFlags
    ((List.range (maxId + 1).toNat).reverse.filter fun i : Nat => sinceId < i && wanted i).take
      count.toNat

/-- `we_dont_have` of the picker, for a piece that cannot be read. -/
def weDontHave (t : Torrent) (index : Nat) : Torrent :=
  { t with picker := t.picker.map fun pieces => pieces.set index none }

/-- The pieces we have are those of a picker. -/
def PickedBy (pieces : List (Option Nat)) (p : PiecePicker) : Prop :=
  ∀ i : Nat, p.havePiece i ↔ (pieces.getD i none).isSome

/-- The last piece after one more. -/
theorem lastHave_append (pieces : List (Option Nat)) (piece : Option Nat) :
    lastHave (pieces ++ [piece]) =
      if piece.isSome then (pieces.length : Int) else lastHave pieces := by
  rw [lastHave, List.zipIdx_append, List.foldl_append, lastHave]
  simp

theorem isSome_getD_append (pieces : List (Option Nat)) (piece : Option Nat) (i : Nat) :
    ((pieces ++ [piece]).getD i none).isSome ↔
      (pieces.getD i none).isSome ∨ i = pieces.length ∧ piece.isSome := by
  simp only [List.getD_eq_getElem?_getD, List.getElem?_append]
  rcases Nat.lt_trichotomy i pieces.length with hlt | rfl | hgt
  · simp [hlt, Nat.ne_of_lt hlt]
  · simp
  · simp [Nat.not_lt_of_gt hgt, Nat.ne_of_gt hgt, Nat.sub_ne_zero_of_lt hgt]

theorem lastHave_eq_of {pieces : List (Option Nat)} {last : Int}
    (hle : ∀ i : Nat, (pieces.getD i none).isSome → (i : Int) ≤ last)
    (hlast : last = -1 ∨ ∃ i : Nat, last = i ∧ (pieces.getD i none).isSome) :
    lastHave pieces = last := by
  induction pieces using List.reverseRecOn with
  | nil =>
    rcases hlast with rfl | ⟨i, -, hi⟩
    · rfl
    · simp at hi
  | append_singleton pieces piece ih =>
    simp only [isSome_getD_append] at hle hlast
    rw [lastHave_append]
    split
    · rename_i hpiece
      have hlength := hle pieces.length (.inr ⟨rfl, hpiece⟩)
      rcases hlast with rfl | ⟨i, rfl, hi | ⟨rfl, -⟩⟩
      · omega
      · have hi : i < pieces.length := by
          by_contra hge
          simp [List.getD_eq_getElem?_getD, Nat.not_lt.mp hge] at hi
        omega
      · rfl
    · rename_i hpiece
      refine ih (fun i hi => hle i (.inl hi)) (hlast.imp_right fun ⟨i, hi, hat⟩ => ⟨i, hi, ?_⟩)
      exact hat.resolve_right fun h => hpiece h.2

/-- The last piece is the one `PiecePicker` keeps. -/
theorem PickedBy.lastHave_eq {pieces : List (Option Nat)} {p : PiecePicker}
    (picked : PickedBy pieces p) (marked : p.Marked) : lastHave pieces = p.lastHave :=
  lastHave_eq_of (fun i hi => marked.last i ((picked i).mpr hi))
    (marked.have_last.imp_right fun ⟨i, hi, hat⟩ => ⟨i, hi, (picked i).mp hat⟩)

/-- A piece that is lost is lost to both. -/
theorem PickedBy.weDontHave {pieces : List (Option Nat)} {p p' : PiecePicker} {rng : PickerRandom}
    {index : Nat} (picked : PickedBy pieces p) (alone : p.Alone) (hi : index < p.numPieces)
    (h : p.weDontHave rng index = .ok p') : PickedBy (pieces.set index none) p' := by
  intro i
  rw [alone.havePiece_weDontHave hi h, picked i]
  simp only [List.getD_eq_getElem?_getD, List.getElem?_set]
  by_cases heq : index = i
  · subst heq
    by_cases hlt : index < pieces.length
    · simp [hlt]
    · simp [hlt]
  · simp [heq, Ne.symm heq]

end Torrent

/-- The storage of the torrents. -/
structure Disk where
  /-- A piece of the torrent of a user; `none` is a read error. -/
  read : Bytes → Nat → Option Bytes
  /-- The order in which the requests for one user return. -/
  arrange : Nat → List Nat → List Nat
  arrange_perm : ∀ u l, (arrange u l).Perm l

/-! ## getposts -/

/-- How `getposts` can fail. -/
inductive PostsError where
  | exn (e : Exn)
  /-- `type_error`, from the copy of a post. -/
  | typeError
  /-- Not an exception: `post` is read, and there is no dictionary `userpost`. -/
  | nullPointer
deriving DecidableEq, Repr

/-- `USERPOST_FLAG_HOME`: `~n` is `-n - 1`. -/
def userpostFlagHome : Int := -(userpostFlagDm ||| userpostFlagFav ||| userpostFlagPFav : Nat) - 1

/-- The parameters of a call. -/
structure PostsQuery where
  count : Int
  users : List Json
  allowedFlags : Int := userpostFlagHome
  requiredFlags : Int := 0

/-- The help text. -/
def getpostsHelp : String :=
  "getposts <count> '[\x7b\"username\":username,\"max_id\":max_id,\"since_id\":since_id\x7d,...]' [allowed_flags=~2] [required_flags=0]\n" ++
    "get posts from users\n" ++
    "max_id and since_id may be omited\n" ++
    "(optional) allowed/required flags are bitwise fields (1=RT,2=DM,4=FAV,12=PFAV)"

/-- Reads the parameters. -/
def PostsQuery.read : List Json → Except Exn PostsQuery
  | [count, users] => do
    .ok { count := ← count.getInt, users := ← users.getArray }
  | [count, users, allowed] => do
    .ok { count := ← count.getInt, users := ← users.getArray, allowedFlags := ← allowed.getInt }
  | [count, users, allowed, required] => do
    .ok { count := ← count.getInt, users := ← users.getArray,
          allowedFlags := ← allowed.getInt, requiredFlags := ← required.getInt }
  | _ => .error (.runtime getpostsHelp)

/-- One of the users asked for.  The members are the ones `getdirectmsgs` reads. -/
def readUser (v : Json) : Except Exn DMQuery := v.getObj.bind (DMQuery.read {})

/-- The pieces of one user, and the torrents after the errors. -/
def PostsQuery.userPieces (q : PostsQuery) (disk : Disk) (u : Nat)
    (torrents : List (Bytes × Torrent)) (user : DMQuery) :
    List Bytes × List (Bytes × Torrent) :=
  match torrents.lookup user.remoteUsername with
  | none => ([], torrents)
  | some t =>
    let ids := disk.arrange u
      (t.getPieces q.count user.maxId user.sinceId
        (q.allowedFlags % 2 ^ 32).toNat (q.requiredFlags % 2 ^ 32).toNat)
    let lost := ids.filter fun i => (disk.read user.remoteUsername i).isNone
    (ids.filterMap (disk.read user.remoteUsername),
      mapSet keyLt user.remoteUsername (lost.foldl Torrent.weDontHave t) torrents)

/-- The test of the time of a post, for the log. -/
def isIgnored (node : PostNode) (time : Int) : Bool :=
  time = -1 || time > node.adjustedTime + maxTimeInFuture

/-- The time and the post of a piece; after the test of the time there is only a `printf`. -/
def readPiece (env : PostEnv) (piece : Bytes) : Except PostsError (Option (Int × Entry)) :=
  match (env.lazyBdecode piece).filter (·.type = .dict) with
  | none => .ok none
  | some v =>
    match v.dictFindDict "userpost" with
    | none => .error .nullPointer
    | some post =>
      match Entry.assign none v with
      | none => .error .typeError
      | some vEntry => .ok (some (post.dictFindIntOr "time" (-1), hexcapePost vEntry))

/-- The loop over the pieces of a user.  `postsByTime` is read from its end. -/
def insertPosts (env : PostEnv) :
    List (Int × Entry) → List Bytes → Except PostsError (List (Int × Entry))
  | postsByTime, [] => .ok postsByTime
  | postsByTime, piece :: pieces =>
    (readPiece env piece).bind fun
      | none => insertPosts env postsByTime pieces
      | some post => insertPosts env (RankedList.insert Prod.fst post postsByTime) pieces

/-- The loop over the users. -/
def PostsQuery.gather (q : PostsQuery) (env : PostEnv) (disk : Disk) :
    Nat → List (Bytes × Torrent) → List (Int × Entry) → List Json →
      Except PostsError (List (Int × Entry))
  | _, _, postsByTime, [] => .ok postsByTime
  | u, torrents, postsByTime, v :: users => do
    let user ← (readUser v).mapError .exn
    let (pieces, torrents) := q.userPieces disk u torrents user
    let postsByTime ← insertPosts env postsByTime pieces
    q.gather env disk (u + 1) torrents postsByTime users

/-- `getposts`. -/
def getposts (env : PostEnv) (disk : Disk) (torrents : List (Bytes × Torrent))
    (params : List Json) : Except PostsError Json := do
  let q ← (PostsQuery.read params).mapError .exn
  let postsByTime ← q.gather env disk 0 torrents [] q.users
  .ok (.array ((postsByTime.take q.count.toNat).map fun post => entryToJson post.2))

/-! ## The posts that are found -/

/-- The pieces a call reads. -/
def PostsQuery.pieces (q : PostsQuery) (disk : Disk) :
    Nat → List (Bytes × Torrent) → List DMQuery → List Bytes
  | _, _, [] => []
  | u, torrents, user :: users =>
    let (pieces, torrents) := q.userPieces disk u torrents user
    pieces ++ q.pieces disk (u + 1) torrents users

/-- A piece that decodes to a dictionary has a post, and can be copied. -/
def PostReadable (env : PostEnv) (piece : Bytes) : Prop :=
  ∀ v, env.lazyBdecode piece = some v → v.type = .dict →
    (v.dictFindDict "userpost").isSome ∧ (Entry.assign none v).isSome

/-- The posts in pieces. -/
def postsOf (env : PostEnv) (pieces : List Bytes) : List (Int × Entry) :=
  pieces.filterMap fun piece => (readPiece env piece).toOption.join

section Found

variable {env : PostEnv} {disk : Disk} {q : PostsQuery} {u : Nat} {piece : Bytes}
  {pieces : List Bytes} {torrents : List (Bytes × Torrent)} {posts found : List (Int × Entry)}
  {values : List Json} {users : List DMQuery}

theorem readPiece_ok_iff : (∃ post, readPiece env piece = .ok post) ↔ PostReadable env piece := by
  rw [readPiece, PostReadable]
  cases hv : env.lazyBdecode piece with
  | none => simp
  | some v =>
    by_cases hdict : v.type = .dict
    · cases hpost : v.dictFindDict "userpost" with
      | none => simp [Option.filter, hdict, hpost]
      | some post => cases hcopy : Entry.assign none v <;> simp [Option.filter, hdict, hpost, hcopy]
    · simp [Option.filter, hdict]

theorem insertPosts_eq_ok_iff : insertPosts env posts pieces = .ok found ↔
    (∀ piece ∈ pieces, PostReadable env piece) ∧
      (postsOf env pieces).foldl (fun ranked x => RankedList.insert Prod.fst x ranked) posts =
        found := by
  induction pieces generalizing posts with
  | nil => simp [insertPosts, postsOf]
  | cons piece pieces ih =>
    rw [insertPosts, List.forall_mem_cons, ← readPiece_ok_iff]
    cases hread : readPiece env piece with
    | error e => simp [Except.bind]
    | ok post =>
      cases post with
      | none => simpa [Except.bind, Except.toOption, postsOf, hread] using ih
      | some post => simpa [Except.bind, Except.toOption, postsOf, hread] using ih

theorem PostsQuery.gather_eq_ok_iff
    (husers : List.Forall₂ (fun v user => readUser v = .ok user) values users) :
    q.gather env disk u torrents posts values = .ok found ↔
      (∀ piece ∈ q.pieces disk u torrents users, PostReadable env piece) ∧
        (postsOf env (q.pieces disk u torrents users)).foldl
          (fun ranked x => RankedList.insert Prod.fst x ranked) posts = found := by
  induction husers generalizing u torrents posts with
  | nil => simp [gather, pieces, postsOf]
  | cons hread _ ih =>
    simp only [gather, pieces, hread, Except.mapError, bind, Except.bind_eq_ok_iff,
      insertPosts_eq_ok_iff, ih, postsOf, List.forall_mem_append, List.filterMap_append,
      List.foldl_append]
    simp [and_assoc]

end Found

/-! ## The answer -/

/-- The newest posts. -/
def newestPosts (count : Int) (posts : List (Int × Entry)) : List (Int × Entry) :=
  (RankedList.ofList Prod.fst posts).take count.toNat

/-- Nothing is returned, or no time is past the limit and enough posts have one. -/
def TimesFit (limit count : Int) (times : List Int) : Prop :=
  count = 0 ∨
    (∀ time ∈ times, time ≤ limit) ∧ ((∀ time ∈ times, time ≠ -1) ∨ count ≤ times.countP (-1 < ·))

instance (limit count : Int) (times : List Int) : Decidable (TimesFit limit count times) := by
  unfold TimesFit
  infer_instance

section Answer

variable {env : PostEnv} {node : PostNode} {disk : Disk} {torrents : List (Bytes × Torrent)}
  {params : List Json} {q : PostsQuery} {users : List DMQuery} {count : Int}
  {posts : List (Int × Entry)} {ret : Json}

theorem isIgnored_eq_false_iff {time : Int} : isIgnored node time = false ↔
    time ≠ -1 ∧ time ≤ node.adjustedTime + maxTimeInFuture := by
  simp [isIgnored]

/-- No post to be ignored is among the newest iff the times fit. -/
theorem newestPosts_forall_iff (hcount : 0 ≤ count) :
    (∀ post ∈ newestPosts count posts, isIgnored node post.1 = false) ↔
      TimesFit (node.adjustedTime + maxTimeInFuture) count (posts.map Prod.fst) := by
  have hord : RankedList.Ordered Prod.fst (RankedList.ofList Prod.fst posts) :=
    RankedList.ordered_ofList posts
  have hperm : (RankedList.ofList Prod.fst posts).Perm posts := RankedList.ofList_perm posts
  have hzero : count.toNat = 0 ↔ count = 0 := by omega
  simp only [isIgnored_eq_false_iff, newestPosts, forall_and, hord.forall_take_le_iff,
    hord.forall_take_ne_iff, hperm.mem_iff, hperm.countP_eq, hzero, TimesFit,
    List.forall_mem_map, List.countP_map, Function.comp_def, Int.toNat_le]
  constructor
  · rintro ⟨hne, rfl | hle⟩
    · exact .inl rfl
    · exact .inr ⟨hle, hne⟩
  · rintro (rfl | ⟨hle, hne⟩)
    · exact ⟨.inr (Int.natCast_nonneg _), .inl rfl⟩
    · exact ⟨hne, .inr hle⟩

theorem getposts_eq_ok_iff (hread : PostsQuery.read params = .ok q)
    (husers : List.Forall₂ (fun v user => readUser v = .ok user) q.users users) :
    getposts env disk torrents params = .ok ret ↔
      (∀ piece ∈ q.pieces disk 0 torrents users, PostReadable env piece) ∧
        .array ((newestPosts q.count (postsOf env (q.pieces disk 0 torrents users))).map
          fun post => entryToJson post.2) = ret := by
  simp only [getposts, hread, Except.mapError, bind, Except.bind_eq_ok_iff, Except.ok.injEq,
    PostsQuery.gather_eq_ok_iff husers, newestPosts, RankedList.ofList, and_assoc,
    exists_and_left, exists_eq_left']

/-- `getposts` returns the latest posts, in order and none to be ignored, iff the pieces can be
read as posts and the times fit. -/
theorem getposts_iff (hread : PostsQuery.read params = .ok q)
    (husers : List.Forall₂ (fun v user => readUser v = .ok user) q.users users)
    (hcount : 0 ≤ q.count) :
    let pieces := q.pieces disk 0 torrents users
    let posts := postsOf env pieces
    let shown := newestPosts q.count posts
    (getposts env disk torrents params =
        .ok (.array (shown.map fun post => entryToJson post.2)) ∧
      shown.length ≤ q.count ∧
      shown.Pairwise (fun a b => b.1 ≤ a.1) ∧
      shown.Subperm posts ∧
      ∀ post ∈ shown, isIgnored node post.1 = false) ↔
    (∀ piece ∈ pieces, PostReadable env piece) ∧
      TimesFit (node.adjustedTime + maxTimeInFuture) q.count (posts.map Prod.fst) := by
  intro pieces posts shown
  have hlength : (shown.length : Int) ≤ q.count := by
    have := List.length_take_le q.count.toNat (RankedList.ofList Prod.fst posts)
    simp only [shown, newestPosts]
    omega
  have hordered : shown.Pairwise (fun a b => b.1 ≤ a.1) :=
    (RankedList.ordered_ofList posts).sublist (List.take_sublist _ _)
  have hsub : shown.Subperm posts :=
    (List.take_sublist _ _).subperm.trans (RankedList.ofList_perm posts).subperm
  rw [getposts_eq_ok_iff hread husers, newestPosts_forall_iff hcount]
  exact ⟨fun ⟨hok, _, _, _, hfit⟩ => ⟨hok.1, hfit⟩,
    fun ⟨hok, hfit⟩ => ⟨⟨hok, rfl⟩, hlength, hordered, hsub, hfit⟩⟩

end Answer

/-- A post with a time or without one. -/
def timedPost (time : Option Int) : Entry :=
  .dict [(ascii "userpost", .dict (time.toList.map fun t => (ascii "time", .int t)))]

/-- A network of which `lazy_bdecode` reads whatever was encoded. -/
def timedNet : PostEnv := { grownNet (.dict []) with lazyBdecode := Entry.bdecode }

/-- A disk with such posts. -/
def timedDisk (times : List (Option Int)) : Disk where
  read _ i := times[i]?.map fun time => Entry.bencode (timedPost time)
  arrange _ l := l
  arrange_perm _ l := .refl l

/-- Torrents of alice. -/
def timedTorrents (n : Nat) : List (Bytes × Torrent) :=
  [(ascii "alice", ⟨n, some (List.replicate n (some 0)), [], []⟩)]

/-- A request for posts of alice. -/
def timedParams (count : Int) : List Json :=
  [.int count, .array [.obj [(ascii "username", .str (ascii "alice"))]]]

theorem postReadable_timedPost (time : Option Int) :
    PostReadable timedNet (Entry.bencode (timedPost time)) := by
  intro v hv _
  have hv : Entry.bdecode (Entry.bencode (timedPost time)) = some v := hv
  rw [Entry.bdecode_bencode, Option.some.injEq] at hv
  rw [← hv]
  cases time with
  | none => exact ⟨rfl, rfl⟩
  | some t => exact ⟨rfl, rfl⟩

/-- Two posts, the later one first. -/
theorem getposts_two :
    getposts timedNet (timedDisk [some 500, some 900]) (timedTorrents 2) (timedParams 2) =
      .ok (.array ([timedPost (some 900), timedPost (some 500)].map entryToJson)) := by
  have husers : List.Forall₂ (fun v user => readUser v = .ok user)
      [.obj [(ascii "username", .str (ascii "alice"))]] [⟨ascii "alice", intMax, -1⟩] :=
    .cons rfl .nil
  have hiff := @getposts_iff timedNet quoteNode (timedDisk [some 500, some 900]) (timedTorrents 2)
    (timedParams 2) ⟨2, _, userpostFlagHome, 0⟩ _ rfl husers (by decide)
  refine (hiff.mpr ⟨fun piece hpiece => ?_, by decide +kernel⟩).1
  have hpiece : piece ∈ [some 900, some 500].map fun time => Entry.bencode (timedPost time) :=
    hpiece
  obtain ⟨time, -, rfl⟩ := List.mem_map.mp hpiece
  exact postReadable_timedPost time

/-- A post from the future and one without a time are returned. -/
theorem getposts_from_the_future :
    getposts timedNet (timedDisk [some 900, some 9000, none]) (timedTorrents 3) (timedParams 3) =
      .ok (.array ([timedPost (some 9000), timedPost (some 900), timedPost none].map
        entryToJson)) ∧
    isIgnored quoteNode 9000 = true ∧ isIgnored quoteNode (-1) = true :=
  ⟨rfl, by decide, by decide⟩

end CoMoNet
