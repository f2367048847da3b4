import Mathlib.Data.List.DropRight
import CoMoNet.Lib.Reach
import CoMoNet.Post.DirectMsg
import CoMoNet.Post.NewPost

/-!
# Polling for direct messages

`getdirectmsgs` numbers messages by position, and clients poll with the largest id seen.
A message that `storeNewDM` puts before a seen one is never returned (`polling_exact`).
-/

namespace CoMoNet

open GuardedRun (System)
open PostState (directMsgs setUser textAt)

/-! ## getdirectmsgs -/

/-- `get_array`, with the error of `check_type`. -/
def Json.getArray : Json → Except Exn (List Json)
  | .array values => .ok values
  | v => .error (.runtime ("value is type " ++ v.typeName ++ ", expected array"))

/-- `get_obj`, with the error of `check_type`. -/
def Json.getObj : Json → Except Exn (List (Bytes × Json))
  | .obj members => .ok members
  | v => .error (.runtime ("value is type " ++ v.typeName ++ ", expected obj"))

/-- The maximum of `int`. -/
def intMax : Int := 2 ^ 31 - 1

/-- The members of a list with their positions. -/
def numbered {α : Type} (l : List α) : List (Nat × α) := (List.range l.length).zip l

/-- A query about one user. -/
structure DMQuery where
  remoteUsername : Bytes := []
  maxId : Int := intMax
  sinceId : Int := -1

/-- Reads a query. -/
def DMQuery.read : DMQuery → List (Bytes × Json) → Except Exn DMQuery
  | q, [] => .ok q
  | q, (name, value) :: rest => do
    let q ← if name = ascii "username" then
        value.getStr.map fun text => { q with remoteUsername := text } else .ok q
    let q ← if name = ascii "max_id" then
        value.getInt.map fun n => { q with maxId := n } else .ok q
    let q ← if name = ascii "since_id" then
        value.getInt.map fun n => { q with sinceId := n } else .ok q
    q.read rest

/-- The value of an `int` expression. -/
def checkedInt (n : Int) : Except Exn Int :=
  if -2 ^ 31 ≤ n ∧ n ≤ intMax then .ok n else .error .intOverflow

theorem checkedInt_of_fits {n : Int} (hlow : -2 ^ 31 ≤ n) (hhigh : n ≤ intMax) :
    checkedInt n = .ok n :=
  if_pos ⟨hlow, hhigh⟩

/-- The messages from `since_id` to `max_id`, at most `count` of them. -/
def dmsSince (dms : List StoredDirectMsg) (count maxId sinceId : Int) :
    Except Exn (List (Nat × StoredDirectMsg)) := do
  let maxId := min maxId (← checkedInt (toInt32 dms.length - 1))
  let sinceId := max sinceId (← checkedInt (maxId - count))
  let start := max (← checkedInt (sinceId + 1)) 0
  .ok (((numbered dms).drop start.toNat).take (maxId + 1 - start).toNat)

/-- A message for the client. -/
def dmObj (x : Nat × StoredDirectMsg) : Json :=
  .obj [(ascii "id", .int x.1), (ascii "time", .int x.2.utcTime), (ascii "text", .str x.2.text),
    (ascii "fromMe", .bool x.2.fromMe), (ascii "from", .str x.2.sender), (ascii "k", .int x.2.k)]

/-- What is answered about one remote user. -/
def PostState.answerQuery (s : PostState) (strUsername : Bytes) (count : Int) (q : DMQuery) :
    Except Exn (List (Bytes × Json)) :=
  match (s.users.lookup strUsername).bind (·.directmsg.lookup q.remoteUsername) with
  | some dmsFromToUser =>
    if q.remoteUsername = [] then .ok []
    else do
      let userMsgs ← dmsSince dmsFromToUser count q.maxId q.sinceId
      .ok (if userMsgs = [] then [] else [(q.remoteUsername, .array (userMsgs.map dmObj))])
  | none => .ok []

/-- `getdirectmsgs`. -/
def getdirectmsgs (s : PostState) (params : List Json) : Except Exn Json :=
  match params with
  | [username, count, remoteusers] => do
    let strUsername ← username.getStr
    let count ← count.getInt
    let remoteusers ← remoteusers.getArray
    let ret ← remoteusers.foldlM (fun ret v => do
      let q ← DMQuery.read {} (← v.getObj)
      .ok (ret ++ (← s.answerQuery strUsername count q))) []
    .ok (.obj ret)
  | _ => .error (.runtime
      ("getdirectmsgs <localuser> <count_per_user> '[\x7b\"username\":username,\"max_id\":max_id,\"since_id\":since_id\x7d,...]'\n" ++
        "get (locally stored) decrypted direct messages sent/received by user <localuser>\n" ++
        "max_id and since_id may be omited. up to <count_per_user> are returned for each remote user."))

/-! ## Numbered lists -/

section Numbered

variable {α : Type} {l l' : List α} {seen : List (Nat × α)}

theorem length_numbered (l : List α) : (numbered l).length = l.length := by
  rw [numbered, List.length_zip, List.length_range, Nat.min_self]

theorem take_numbered {n : Nat} (h : n ≤ l.length) :
    (numbered l).take n = (List.range n).zip (l.take n) := by
  rw [numbered, List.zip_eq_zipWith, List.take_zipWith, ← List.zip_eq_zipWith, List.take_range,
    Nat.min_eq_left h]

/-- What was seen of a list: its first members with their positions. -/
theorem eq_zip_of_seen (h : seen <+: numbered l) :
    seen.length ≤ l.length ∧ seen = (List.range seen.length).zip (l.take seen.length) := by
  have hle : seen.length ≤ l.length := length_numbered l ▸ h.length_le
  refine ⟨hle, ?_⟩
  rw [← take_numbered hle]
  exact List.prefix_iff_eq_take.1 h

/-- A list still starts with what was seen iff these members have kept their places. -/
theorem prefix_numbered_iff (h : seen <+: numbered l) (hlen : l.length ≤ l'.length) :
    seen <+: numbered l' ↔ l'.take seen.length = l.take seen.length := by
  obtain ⟨hle, hseen⟩ := eq_zip_of_seen h
  constructor
  · intro h'
    obtain ⟨hle', hseen'⟩ := eq_zip_of_seen h'
    have hmembers := congrArg (List.map Prod.snd) (hseen'.symm.trans hseen)
    rw [List.map_snd_zip (by simp [hle']), List.map_snd_zip (by simp [hle])] at hmembers
    exact hmembers
  · intro hkept
    rw [List.prefix_iff_eq_take, take_numbered (Nat.le_trans hle hlen), hkept]
    exact hseen

/-- The largest id seen. -/
def largestId (seen : List (Nat × α)) : Int := seen.foldl (fun k x => max k x.1) (-1)

theorem foldl_max_range (n : Nat) :
    (List.range n).foldl (fun (k : Int) (i : Nat) => max k i) (-1) = n - 1 := by
  induction n with
  | zero => rfl
  | succ n ih =>
    rw [List.range_succ, List.foldl_append, ih, List.foldl_cons, List.foldl_nil]
    omega

theorem largestId_eq (h : seen <+: numbered l) : largestId seen = seen.length - 1 := by
  obtain ⟨hle, hseen⟩ := eq_zip_of_seen h
  have hids : seen.map Prod.fst = List.range seen.length := by
    have := congrArg (List.map Prod.fst) hseen
    rwa [List.map_fst_zip (by simp [hle])] at this
  rw [largestId, ← foldl_max_range, ← hids, List.foldl_map]

theorem numbered_concat (l : List α) (a : α) :
    numbered (l ++ [a]) = numbered l ++ [(l.length, a)] := by
  rw [numbered, numbered, List.length_append, List.length_singleton, List.range_succ,
    List.zip_append List.length_range]
  rfl

/-- The members after a position. -/
theorem filter_numbered (sinceId : Int) (l : List α) :
    (numbered l).filter (fun x => sinceId < x.1) = (numbered l).drop (sinceId + 1).toNat := by
  induction l using List.reverseRecOn with
  | nil => rw [show numbered ([] : List α) = [] from rfl, List.filter_nil, List.drop_nil]
  | append_singleton l a ih =>
    rw [numbered_concat, List.filter_append, ih, List.drop_append, length_numbered]
    congr 1
    by_cases hlt : sinceId < l.length
    · rw [List.filter_cons_of_pos (by simpa using hlt), List.filter_nil,
        show (sinceId + 1).toNat - l.length = 0 by omega, List.drop_zero]
    · rw [List.filter_cons_of_neg (by simpa using hlt), List.filter_nil,
        List.drop_eq_nil_of_le (by rw [List.length_singleton]; omega)]

end Numbered

/-! ## What a poll returns -/

/-- The last `count` messages after `since_id`, with their positions. -/
def lastSince (dms : List StoredDirectMsg) (count sinceId : Int) : List (Nat × StoredDirectMsg) :=
  ((numbered dms).filter fun x => sinceId < x.1).rtake count.toNat

section Polls

variable {dms : List StoredDirectMsg} {count sinceId : Int}

/-- `dmsSince` without a `max_id` returns the last messages after `since_id`. -/
theorem dmsSince_eq (hlen : dms.length ≤ intMax) (hcount : 0 ≤ count) (hmax : count ≤ intMax)
    (hlow : -2 ^ 31 ≤ sinceId) (hsince : sinceId < intMax) :
    dmsSince dms count intMax sinceId = .ok (lastSince dms count sinceId) := by
  have hint : intMax = 2147483647 := by decide
  have hfits : toInt32 dms.length = dms.length := toInt32_of_fits (by omega) (by omega)
  have hlast : min intMax ((dms.length : Int) - 1) = dms.length - 1 := by omega
  obtain ⟨start, hstart⟩ : ∃ start : Nat,
      max (max sinceId (dms.length - 1 - count) + 1) 0 = start :=
    Int.eq_ofNat_of_zero_le (by omega)
  have hfirst : (sinceId + 1).toNat + (dms.length - (sinceId + 1).toNat - count.toNat) = start := by
    omega
  rw [dmsSince, hfits, checkedInt_of_fits (by omega) (by omega)]
  simp only [bind, Except.bind, hlast]
  rw [checkedInt_of_fits (by omega) (by omega)]
  simp only
  rw [checkedInt_of_fits (by omega) (by omega)]
  simp only [hstart, Int.toNat_natCast]
  rw [lastSince, filter_numbered, List.rtake, List.drop_drop, List.length_drop, length_numbered,
    hfirst, List.take_of_length_le (by rw [List.length_drop, length_numbered]; omega)]

/-- With a `count` that covers the list, everything after `since_id` is returned. -/
theorem lastSince_covering (hlen : dms.length ≤ count) (n : Nat) :
    lastSince dms count (n - 1) = (numbered dms).drop n := by
  rw [lastSince, filter_numbered, List.rtake, List.length_drop, length_numbered,
    show ((n : Int) - 1 + 1).toNat = n by omega,
    show dms.length - n - count.toNat = 0 by omega, List.drop_zero]

end Polls

theorem directMsgs_eq (s : PostState) (localuser dmUser : Bytes) :
    s.directMsgs localuser dmUser =
      ((s.users.lookup localuser).bind fun data => data.directmsg.lookup dmUser).getD [] := by
  rw [directMsgs]
  cases s.users.lookup localuser <;> rfl

/-- The answer to a query with `since_id`. -/
theorem answerQuery_since {s : PostState} {strUsername remoteUsername : Bytes}
    {count sinceId : Int} (hremote : remoteUsername ≠ [])
    (hlen : (s.directMsgs strUsername remoteUsername).length ≤ intMax)
    (hcount : 0 ≤ count) (hmax : count ≤ intMax)
    (hlow : -2 ^ 31 ≤ sinceId) (hsince : sinceId < intMax) :
    let userMsgs := lastSince (s.directMsgs strUsername remoteUsername) count sinceId
    s.answerQuery strUsername count { remoteUsername, sinceId } =
      .ok (if userMsgs = [] then [] else [(remoteUsername, .array (userMsgs.map dmObj))]) := by
  intro userMsgs
  rw [PostState.answerQuery]
  split
  · next dms hdms =>
    have hstored : s.directMsgs strUsername remoteUsername = dms := by
      rw [directMsgs_eq, hdms, Option.getD_some]
    rw [if_neg hremote, ← hstored, dmsSince_eq hlen hcount hmax hlow hsince]
    rfl
  · next hdms =>
    have hstored : s.directMsgs strUsername remoteUsername = [] := by
      rw [directMsgs_eq, hdms, Option.getD_none]
    rw [if_pos]
    simp only [userMsgs, hstored]
    exact List.rtake_nil _

/-- The answer about one user: the last `count` messages after `since_id`, or nothing. -/
theorem getdirectmsgs_poll {s : PostState} {strUsername remoteUsername : Bytes}
    {count sinceId : Int} (hremote : remoteUsername ≠ [])
    (hlen : (s.directMsgs strUsername remoteUsername).length ≤ intMax)
    (hcount : 0 ≤ count) (hmax : count ≤ intMax)
    (hlow : -2 ^ 31 ≤ sinceId) (hsince : sinceId < intMax) :
    let userMsgs := ((numbered (s.directMsgs strUsername remoteUsername)).filter
      fun x => sinceId < x.1).rtake count.toNat
    getdirectmsgs s [.str strUsername, .int count, .array [.obj [(ascii "username",
        .str remoteUsername), (ascii "since_id", .int sinceId)]]] =
      .ok (.obj (if userMsgs = [] then []
        else [(remoteUsername, .array (userMsgs.map dmObj))])) := by
  intro userMsgs
  have hint : intMax < 2 ^ 31 := by decide
  have hread : DMQuery.read {} [(ascii "username", .str remoteUsername),
      (ascii "since_id", .int sinceId)] = .ok { remoteUsername, sinceId } := by
    simp +decide only [DMQuery.read, Json.getStr, Json.getInt,
      toInt32_of_fits hlow (hsince.trans hint)]
    rfl
  have hanswer := answerQuery_since hremote hlen hcount hmax hlow hsince
  rw [getdirectmsgs]
  simp only [Json.getStr, Json.getInt, Json.getArray, Json.getObj,
    toInt32_of_fits (n := count) (by omega) (by omega), List.foldlM_cons, List.foldlM_nil, hread,
    hanswer, bind, Except.bind, pure, Except.pure, List.nil_append]
  rfl

/-- Four messages are stored, the client has seen the first and asks for two. -/
theorem getdirectmsgs_poll_four :
    let s := ({} : PostState).storeDMs (ascii "alice") (ascii "bob")
      [textAt 3 "a", textAt 4 "b", textAt 5 "c", textAt 7 "d"]
    getdirectmsgs s [.str (ascii "alice"), .int 2, .array [.obj
      [(ascii "username", .str (ascii "bob")), (ascii "since_id", .int 0)]]] =
    .ok (.obj [(ascii "bob", .array [dmObj (2, textAt 5 "c"),
      dmObj (3, textAt 7 "d")])]) :=
  getdirectmsgs_poll (by decide) (by decide) (by decide) (by decide) (by decide) (by decide)

/-! ## Stores and polls -/

/-- The part of `newdirectmsg` that stores a message when no copy goes to the sender. -/
def PostState.pushDM (s : PostState) (strFrom strTo : Bytes) (k : Int) (strMsg : Bytes)
    (utcTime : Int) : PostState :=
  let data := (s.users.lookup strFrom).getD {}
  let dms := (data.directmsg.lookup strTo).getD []
  let stoDM : StoredDirectMsg :=
    { fromMe := true, sender := strFrom, k := k, text := strMsg, utcTime := utcTime }
  s.setUser strFrom { data with directmsg := mapSet keyLt strTo (dms ++ [stoDM]) data.directmsg }

/-- What happens to the messages between two users. -/
inductive DMEvent where
  | storeNewDM (stoDM : StoredDirectMsg)
  /-- The store of `newdirectmsg`. -/
  | newdirectmsg (k : Int) (strMsg : Bytes) (utcTime : Int)
  /-- A poll with `getdirectmsgs`. -/
  | getdirectmsgs (count : Int)

/-- A node and what a client has seen. -/
structure Polling where
  node : PostState
  seen : List (Nat × StoredDirectMsg)

namespace Polling

section Runs

variable (localuser dmUser : Bytes)

/-- The messages. -/
def dms (c : Polling) : List StoredDirectMsg := c.node.directMsgs localuser dmUser

/-- A poll asks for what comes after the largest id seen so far. -/
def next (c : Polling) : DMEvent → Polling
  | .storeNewDM stoDM => { c with node := c.node.storeNewDM localuser dmUser stoDM }
  | .newdirectmsg k strMsg utcTime =>
    { c with node := c.node.pushDM localuser dmUser k strMsg utcTime }
  | .getdirectmsgs count =>
    { c with seen := c.seen ++ ((dmsSince (c.dms localuser dmUser) count intMax
        (largestId c.seen)).toOption.getD []) }

/-- A poll asks for at least as many messages as there are. -/
def Allowed (c : Polling) : DMEvent → Prop
  | .getdirectmsgs count => ((c.dms localuser dmUser).length : Int) ≤ count ∧ count ≤ intMax
  | _ => True

/-- Messages and polls. -/
def system : System Polling DMEvent where
  init c := c.seen = []
  step c event c' := c.Allowed localuser dmUser event ∧ c' = c.next localuser dmUser event

/-- A message that comes in is later than those seen, or is in the list. -/
def StoreOK (c : Polling) : DMEvent → Prop
  | .storeNewDM stoDM =>
    (∀ dm ∈ (c.dms localuser dmUser).take c.seen.length, dm.utcTime < stoDM.utcTime) ∨
    ∃ dm ∈ (c.dms localuser dmUser).find? (fun dm => stoDM.utcTime ≤ dm.utcTime),
      stoDM.Same dm
  | _ => True

instance (c : Polling) : (event : DMEvent) → Decidable (c.Allowed localuser dmUser event)
  | .storeNewDM _ => inferInstanceAs (Decidable True)
  | .newdirectmsg _ _ _ => inferInstanceAs (Decidable True)
  | .getdirectmsgs _ => inferInstanceAs (Decidable (_ ∧ _))

instance (c : Polling) : (event : DMEvent) → Decidable (c.StoreOK localuser dmUser event)
  | .storeNewDM _ => inferInstanceAs (Decidable (_ ∨ _))
  | .newdirectmsg _ _ _ => inferInstanceAs (Decidable True)
  | .getdirectmsgs _ => inferInstanceAs (Decidable True)

end Runs

variable {localuser dmUser : Bytes} {c : Polling}

theorem dms_storeNewDM (stoDM : StoredDirectMsg) :
    (c.next localuser dmUser (.storeNewDM stoDM)).dms localuser dmUser =
      insertDM stoDM (c.dms localuser dmUser) :=
  PostState.directMsgs_storeNewDM stoDM

theorem dms_newdirectmsg (k : Int) (strMsg : Bytes) (utcTime : Int) :
    ∃ stoDM, (c.next localuser dmUser (.newdirectmsg k strMsg utcTime)).dms localuser dmUser =
      c.dms localuser dmUser ++ [stoDM] := by
  refine ⟨{ fromMe := true, sender := localuser, k := k, text := strMsg, utcTime := utcTime }, ?_⟩
  simp only [dms, next, directMsgs, PostState.pushDM, setUser, lookup_mapSet,
    if_true, Option.getD_some]

/-- The list starts with what the client has seen. -/
def Seen (localuser dmUser : Bytes) (c : Polling) : Prop :=
  c.seen <+: numbered (c.dms localuser dmUser)

/-- The first members keep their places iff the message is later than all or not stored. -/
theorem take_insertDM_iff {m : StoredDirectMsg} {dms : List StoredDirectMsg} {n : Nat}
    (hn : n ≤ dms.length) :
    (insertDM m dms).take n = dms.take n ↔ (∀ dm ∈ dms.take n, dm.utcTime < m.utcTime) ∨
      ∃ dm ∈ dms.find? (fun dm => m.utcTime ≤ dm.utcTime), m.Same dm := by
  rw [← insertDM_eq_self_iff]
  rcases insertDM_cases m dms with ⟨heq, -⟩ | ⟨before, after, rfl, hinsert, hbefore, hafter⟩
  · simp only [heq, or_true]
  have hnew : insertDM m (before ++ after) ≠ before ++ after := by
    intro heq
    have := congrArg List.length (hinsert.symm.trans heq)
    simp at this
  simp only [hnew, or_false]
  rw [hinsert]
  rcases Nat.lt_or_ge before.length n with hlt | hge
  · have hget : ∀ x rest, ((before ++ x :: rest).take n)[before.length]? = some x := by
      intro x rest
      rw [List.getElem?_take_of_lt hlt, List.getElem?_append_right (Nat.le_refl _), Nat.sub_self,
        List.getElem?_cons_zero]
    cases after with
    | nil =>
      rw [List.append_nil] at hn
      omega
    | cons a after =>
      obtain ⟨hle, hne⟩ := hafter a rfl
      constructor
      · intro h
        have hplace := hget m (a :: after)
        rw [h, hget a after] at hplace
        cases hplace
        exact absurd ⟨rfl, rfl⟩ hne
      · intro h
        have := h a (List.mem_of_getElem? (hget a after))
        omega
  · rw [List.take_append_of_le_length hge, List.take_append_of_le_length hge]
    simp only [true_iff]
    exact fun dm hdm => hbefore dm (List.mem_of_mem_take hdm)

theorem Seen.poll (h : c.Seen localuser dmUser) {count : Int}
    (hcount : c.Allowed localuser dmUser (.getdirectmsgs count)) :
    (c.next localuser dmUser (.getdirectmsgs count)).seen =
      c.seen ++ (numbered (c.dms localuser dmUser)).drop c.seen.length := by
  obtain ⟨hlen, hmax⟩ := hcount
  have hseen := (eq_zip_of_seen h).1
  have hint : intMax = 2147483647 := by decide
  rw [next, largestId_eq h, dmsSince_eq (by omega) (by omega) hmax (by omega) (by omega),
    lastSince_covering hlen]
  rfl

theorem Seen.poll_eq (h : c.Seen localuser dmUser) {count : Int}
    (hcount : c.Allowed localuser dmUser (.getdirectmsgs count)) :
    (c.next localuser dmUser (.getdirectmsgs count)).seen = numbered (c.dms localuser dmUser) := by
  rw [h.poll hcount, ← List.prefix_iff_eq_append]
  exact h

/-- What a message that comes in does to the part that was seen. -/
theorem Seen.storeNewDM_iff (h : c.Seen localuser dmUser) (stoDM : StoredDirectMsg) :
    (c.next localuser dmUser (.storeNewDM stoDM)).Seen localuser dmUser ↔
      c.StoreOK localuser dmUser (.storeNewDM stoDM) := by
  have hlen := (sublist_insertDM stoDM (c.dms localuser dmUser)).length_le
  rw [Seen, dms_storeNewDM]
  exact (prefix_numbered_iff h hlen).trans (take_insertDM_iff (eq_zip_of_seen h).1)

/-- An allowed step keeps what was seen. -/
theorem Seen.next (h : c.Seen localuser dmUser) {event : DMEvent}
    (hallowed : c.Allowed localuser dmUser event) (hok : c.StoreOK localuser dmUser event) :
    (c.next localuser dmUser event).Seen localuser dmUser := by
  cases event with
  | storeNewDM stoDM => exact (h.storeNewDM_iff stoDM).2 hok
  | newdirectmsg k strMsg utcTime =>
    obtain ⟨stoDM, hdms⟩ : ∃ stoDM, (c.next localuser dmUser
        (.newdirectmsg k strMsg utcTime)).dms localuser dmUser =
          c.dms localuser dmUser ++ [stoDM] := dms_newdirectmsg k strMsg utcTime
    rw [Seen, hdms]
    refine (prefix_numbered_iff h (by simp)).2 ?_
    rw [List.take_append_of_le_length (eq_zip_of_seen h).1]
  | getdirectmsgs count =>
    rw [Seen, h.poll_eq hallowed]
    exact List.prefix_rfl

/-- In runs whose incoming messages are later than those seen, or known, the polls return every
message once. One more stored message is returned by a poll iff it meets the condition too. -/
theorem polling_exact
    (h : (system localuser dmUser).Reach (StoreOK localuser dmUser) c) :
    (∀ count, c.Allowed localuser dmUser (.getdirectmsgs count) →
      (c.next localuser dmUser (.getdirectmsgs count)).seen =
        numbered (c.dms localuser dmUser)) ∧
    ∀ stoDM count, let c' := c.next localuser dmUser (.storeNewDM stoDM)
      c'.Allowed localuser dmUser (.getdirectmsgs count) →
      ((c'.next localuser dmUser (.getdirectmsgs count)).seen =
        numbered (c'.dms localuser dmUser) ↔
        c.StoreOK localuser dmUser (.storeNewDM stoDM)) := by
  have hseen : c.Seen localuser dmUser := by
    refine System.Reach.invariant (I := Seen localuser dmUser) ?_ ?_ h
    · intro c hinit
      rw [Seen, show c.seen = [] from hinit]
      exact List.nil_prefix
    · rintro c event _ hc hok ⟨hallowed, rfl⟩
      exact hc.next hallowed hok
  refine ⟨fun count hcount => hseen.poll_eq hcount, ?_⟩
  intro stoDM count c' hcount
  rw [← hseen.storeNewDM_iff stoDM]
  constructor
  · intro hpoll
    rw [Seen, ← hpoll]
    exact List.prefix_append _ _
  · exact fun hc' => hc'.poll_eq hcount

/-- Nothing is stored or seen. -/
def atStart : Polling := ⟨{}, []⟩

/-- An allowed step. -/
def nextAllowed (c : Polling) (event : DMEvent) : Option Polling :=
  if c.Allowed (ascii "alice") (ascii "bob") event then
    some (c.next (ascii "alice") (ascii "bob") event)
  else none

theorem nextAllowed_step {c' : Polling} {event : DMEvent} (h : c.nextAllowed event = some c') :
    (system (ascii "alice") (ascii "bob")).step c event c' := by
  rw [nextAllowed] at h
  split at h
  · next hallowed =>
      cases h
      exact ⟨hallowed, rfl⟩
  · cases h

theorem init_atStart : (system (ascii "alice") (ascii "bob")).init atStart :=
  show atStart.seen = [] from rfl

/-- A poll after the first of two messages, and one after the second. -/
theorem polling_exact_two : ∃ c : Polling,
    c.seen = [(0, textAt 5 "b")] ∧
    (c.next (ascii "alice") (ascii "bob") (.getdirectmsgs 2)).seen =
      [(0, textAt 5 "b"), (1, textAt 7 "c")] := by
  obtain ⟨c, hrun, hseen, hdms⟩ : ∃ c, System.run nextAllowed
      (fun c event => c.StoreOK (ascii "alice") (ascii "bob") event) atStart
      [.storeNewDM (textAt 5 "b"), .getdirectmsgs 1,
        .storeNewDM (textAt 7 "c")] = some c ∧ c.seen = [(0, textAt 5 "b")] ∧
      c.dms (ascii "alice") (ascii "bob") = [textAt 5 "b", textAt 7 "c"] :=
    ⟨_, rfl, by decide, by decide⟩
  have hreach : (system (ascii "alice") (ascii "bob")).Reach (StoreOK (ascii "alice") (ascii "bob"))
      c := .of_run (fun _ _ _ => nextAllowed_step) (fun _ _ => of_decide_eq_true)
        (.init init_atStart) hrun
  have hallowed : c.Allowed (ascii "alice") (ascii "bob") (.getdirectmsgs 2) := by
    rw [Allowed, hdms]
    decide
  refine ⟨c, hseen, ((polling_exact hreach).1 2 hallowed).trans ?_⟩
  rw [hdms]
  rfl

/-- The second message is the earlier one: the first is returned twice, the second never. -/
theorem polling_repeats : ∃ c : Polling,
    (system (ascii "alice") (ascii "bob")).Reach (fun _ _ => True) c ∧
    c.dms (ascii "alice") (ascii "bob") = [textAt 3 "a", textAt 5 "b"] ∧
    c.seen = [(0, textAt 5 "b"), (1, textAt 5 "b")] := by
  obtain ⟨c, hrun, hseen, hdms⟩ : ∃ c, System.run nextAllowed (fun _ _ => true) atStart
      [.storeNewDM (textAt 5 "b"), .getdirectmsgs 1,
        .storeNewDM (textAt 3 "a"), .getdirectmsgs 2] = some c ∧
      c.seen = [(0, textAt 5 "b"), (1, textAt 5 "b")] ∧
      c.dms (ascii "alice") (ascii "bob") = [textAt 3 "a", textAt 5 "b"] :=
    ⟨_, rfl, by decide, by decide⟩
  have hreach : (system (ascii "alice") (ascii "bob")).Reach (fun _ _ => True) c :=
    .of_run (fun _ _ _ => nextAllowed_step) (fun _ _ _ => trivial) (.init init_atStart) hrun
  exact ⟨c, hreach, hdms, hseen⟩

end Polling

end CoMoNet
