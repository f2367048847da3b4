import CoMoNet.Dht.Admission
import CoMoNet.Lib.Reach
import CoMoNet.Post.Sorted

/-!
# Requests through a proxy

A proxy lists the peers that wait for each target and counts the active requests of each
peer. A stop takes all requests of the peer for the target off the list, but lowers the
counter by one (`active_exact`).
-/

namespace CoMoNet

open GuardedRun

namespace DhtProxy

/-! ## The tables of a proxy -/

/-- `CService`. -/
structure CService where
  ip : Nat
  port : Nat
deriving DecidableEq, Repr

/-- `CDHTGetRequest`. -/
structure CDHTGetRequest where
  username : Bytes
  resource : Bytes
  resTypeMulti : Bool
  stopReq : Bool

/-- `PeerBanStats`.  Times are in microseconds. -/
structure PeerBanStats where
  /-- The requests that are active. -/
  active : Int := 0
  /-- The cost of the recent messages. -/
  count : Int := 0
  /-- The time before which too much cost is an abuse. -/
  limit : Int
deriving DecidableEq, Repr

/-- The global tables.  Nothing depends on the order of their members. -/
structure Tables where
  dhtgetPeersReq : List (Bytes × List CService) := []
  peerBanStats : List (CService × PeerBanStats) := []
deriving DecidableEq, Repr

/-- `m[key] = value`. -/
def assign {κ α : Type} [DecidableEq κ] (key : κ) (value : α) (m : List (κ × α)) : List (κ × α) :=
  mapSet (fun _ _ => false) key value m

/-- `m.erase(key)`. -/
def eraseKey {κ α : Type} [DecidableEq κ] (key : κ) (m : List (κ × α)) : List (κ × α) :=
  m.eraseP fun member => member.1 = key

namespace Tables

/-- `m_peerBanStats[addr]`, at some time. -/
def stats (now : Int) (s : Tables) (addr : CService) : PeerBanStats :=
  (s.peerBanStats.lookup addr).getD { limit := now }

/-- Sets the entry of a peer. -/
def setStats (s : Tables) (addr : CService) (entry : PeerBanStats) : Tables :=
  { s with peerBanStats := assign addr entry s.peerBanStats }

/-- The active requests of a peer. -/
def active (s : Tables) (addr : CService) : Int :=
  ((s.peerBanStats.lookup addr).map PeerBanStats.active).getD 0

/-- How often an address is in the lists of `m_dhtgetPeersReq`. -/
def outstanding (s : Tables) (addr : CService) : Nat :=
  (s.dhtgetPeersReq.flatMap Prod.snd).count addr

/-- `dhtgetPeerReqAdd`. -/
def dhtgetPeerReqAdd (now : Int) (s : Tables) (ih : Bytes) (addr : CService) : Tables :=
  let entry := s.stats now addr
  { s with dhtgetPeersReq :=
      assign ih (((s.dhtgetPeersReq.lookup ih).getD []) ++ [addr]) s.dhtgetPeersReq }.setStats addr
    { entry with active := entry.active + 1 }

/-- `dhtgetPeerReqRemove`. -/
def dhtgetPeerReqRemove (now : Int) (s : Tables) (ih : Bytes) (addr : CService) : Tables :=
  match s.dhtgetPeersReq.lookup ih with
  | none => s
  | some addrList =>
    let entry := s.stats now addr
    let addrList := addrList.filter (· ≠ addr)
    { s with dhtgetPeersReq :=
        if addrList.length = 0 then eraseKey ih s.dhtgetPeersReq
        else assign ih addrList s.dhtgetPeersReq }.setStats addr
      { entry with active := entry.active - 1 }

/-- `checkForAbuse`. -/
def checkForAbuse (now : Int) (s : Tables) (pfrom : CService) (cost : Int) : Bool × Tables :=
  let entry := s.stats now pfrom
  let entry := { entry with count := entry.count + cost }
  if 500 ≤ entry.count ∧ now < entry.limit then
    (true, s.setStats pfrom { entry with limit := now + 5 * 60 * 1000000 })
  else
    let entry := if 500 ≤ entry.count then { entry with count := 0, limit := now + 5 * 1000000 }
      else entry
    (decide (10 < entry.active), s.setStats pfrom entry)

end Tables

/-- A request that comes in. -/
structure Message where
  now : Int
  req : CDHTGetRequest
  pfrom : CService

/-- The hash of its target. -/
def Message.target (env : DhtEnv) (msg : Message) : Bytes :=
  dhtTargetHash env msg.req.username msg.req.resource (targetType msg.req.resTypeMulti)

/-- `dhtgetRequestReceived`: whether the message is accepted, and the tables. -/
def dhtgetRequestReceived (env : DhtEnv) (fEnabled : Bool) (s : Tables) (msg : Message) :
    Bool × Tables :=
  if fEnabled then (true, s)
  else if msg.req.stopReq then (true, s.dhtgetPeerReqRemove msg.now (msg.target env) msg.pfrom)
  else
    let (abuse, s) := s.checkForAbuse msg.now msg.pfrom 1
    if abuse then (false, s) else (true, s.dhtgetPeerReqAdd msg.now (msg.target env) msg.pfrom)

/-- The tables of a proxy. -/
def system (env : DhtEnv) (fEnabled : Bool) : System Tables Message where
  init s := s = {}
  step s msg s' := (dhtgetRequestReceived env fEnabled s msg).2 = s'

/-! ## Occurrences in a table of lists -/

section Maps

variable {κ α : Type} [BEq κ] [LawfulBEq κ] [DecidableEq κ] [DecidableEq α]

theorem count_assign (key : κ) (l : List α) (m : List (κ × List α)) (a : α) :
    ((assign key l m).flatMap Prod.snd).count a + ((m.lookup key).getD []).count a =
      (m.flatMap Prod.snd).count a + l.count a := by
  induction m with
  | nil => simp [assign, mapSet]
  | cons member m ih =>
    rw [assign, mapSet, lookup_cons_ite]
    by_cases hkey : member.1 = key
    · simp only [if_pos hkey, if_pos hkey.symm, List.flatMap_cons, List.count_append,
        Option.getD_some]
      omega
    · simp only [if_neg hkey, if_neg (Ne.symm hkey), List.flatMap_cons, List.count_append,
        Bool.false_eq_true, if_false]
      rw [assign] at ih
      omega

theorem count_eraseKey (key : κ) (m : List (κ × List α)) (a : α) :
    ((eraseKey key m).flatMap Prod.snd).count a + ((m.lookup key).getD []).count a =
      (m.flatMap Prod.snd).count a := by
  induction m with
  | nil => simp [eraseKey]
  | cons member m ih =>
    rw [lookup_cons_ite]
    by_cases hkey : member.1 = key
    · rw [eraseKey, List.eraseP_cons_of_pos (by simpa using hkey), if_pos hkey.symm,
        List.flatMap_cons, List.count_append, Option.getD_some, Nat.add_comm]
    · rw [eraseKey, List.eraseP_cons_of_neg (by simpa using hkey), if_neg (Ne.symm hkey),
        List.flatMap_cons, List.flatMap_cons, List.count_append, List.count_append, ← eraseKey]
      omega

end Maps

/-! ## One message -/

/-- The counters are right. -/
def Accounted (s : Tables) : Prop := ∀ addr, s.active addr = s.outstanding addr

section Steps

variable {env : DhtEnv} {fEnabled : Bool} {s : Tables} {ih : Bytes} {now : Int} {addr : CService}
variable {msg : Message}
variable {addrList : List CService}

theorem active_setStats (entry : PeerBanStats) (a : CService) :
    (s.setStats addr entry).active a = if a = addr then entry.active else s.active a := by
  rw [Tables.active, Tables.setStats, assign, lookup_mapSet]
  split <;> rfl

theorem active_stats (now : Int) : (s.stats now addr).active = s.active addr := by
  rw [Tables.stats, Tables.active]
  cases s.peerBanStats.lookup addr <;> rfl

@[simp]
theorem outstanding_setStats (entry : PeerBanStats) (a : CService) :
    (s.setStats addr entry).outstanding a = s.outstanding a := rfl

/-- A request raises the counter. -/
theorem active_add (a : CService) :
    (s.dhtgetPeerReqAdd now ih addr).active a = s.active a + if a = addr then 1 else 0 := by
  rw [Tables.dhtgetPeerReqAdd, active_setStats, active_stats]
  split
  · next h => rw [h]
  · exact (Int.add_zero _).symm

theorem outstanding_add (a : CService) :
    (s.dhtgetPeerReqAdd now ih addr).outstanding a =
      s.outstanding a + if a = addr then 1 else 0 := by
  have hcount := count_assign ih (((s.dhtgetPeersReq.lookup ih).getD []) ++ [addr])
    s.dhtgetPeersReq a
  rw [List.count_append, List.count_singleton] at hcount
  rw [Tables.dhtgetPeerReqAdd, outstanding_setStats, Tables.outstanding, Tables.outstanding]
  simp only [beq_iff_eq, eq_comm (a := addr)] at hcount ⊢
  omega

/-- A stop lowers the counter by one. -/
theorem active_remove (h : s.dhtgetPeersReq.lookup ih = some addrList)
    (a : CService) :
    (s.dhtgetPeerReqRemove now ih addr).active a = s.active a - if a = addr then 1 else 0 := by
  simp only [Tables.dhtgetPeerReqRemove, h]
  rw [active_setStats, active_stats]
  split
  · next h => rw [h]
  · exact (Int.sub_zero _).symm

/-- A stop takes all requests off. -/
theorem outstanding_remove
    (h : s.dhtgetPeersReq.lookup ih = some addrList) (a : CService) :
    (s.dhtgetPeerReqRemove now ih addr).outstanding a +
      (if a = addr then addrList.count addr else 0) =
      s.outstanding a := by
  have hfilter : (addrList.filter (· ≠ addr)).count a +
      (if a = addr then addrList.count addr else 0) =
      addrList.count a := by
    split
    · next ha => rw [ha, List.count_eq_zero_of_not_mem (by simp), Nat.zero_add]
    · next ha => exact List.count_filter (by simpa using ha)
  simp only [Tables.dhtgetPeerReqRemove, h]
  rw [outstanding_setStats, Tables.outstanding, Tables.outstanding]
  simp only
  split
  · next hempty =>
      have hcount := count_eraseKey ih s.dhtgetPeersReq a
      rw [h, Option.getD_some, ← hfilter, List.length_eq_zero_iff.mp hempty] at hcount
      simpa using hcount
  · have hcount := count_assign ih (addrList.filter (· ≠ addr)) s.dhtgetPeersReq a
    rw [h, Option.getD_some] at hcount
    omega

theorem checkForAbuse_frame (s : Tables) (now : Int) (addr : CService) (cost : Int) (a : CService) :
    (s.checkForAbuse now addr cost).2.active a = s.active a ∧
      (s.checkForAbuse now addr cost).2.dhtgetPeersReq = s.dhtgetPeersReq := by
  rw [Tables.checkForAbuse]
  simp only
  split
  · refine ⟨?_, rfl⟩
    rw [active_setStats, active_stats]
    split
    · next h => rw [h]
    · rfl
  · refine ⟨?_, rfl⟩
    rw [active_setStats]
    split
    · next h =>
        rw [h, ← active_stats now]
        split <;> rfl
    · rfl

theorem checkForAbuse_of_active (h : 10 < s.active addr) (cost : Int) :
    (s.checkForAbuse now addr cost).1 = true := by
  rw [Tables.checkForAbuse]
  simp only
  split
  · rfl
  · rw [← active_stats now] at h
    refine decide_eq_true ?_
    split <;> exact h

/-- A request that is stopped is on the list of its target once, if there is the list. -/
def Message.Matched (env : DhtEnv) (fEnabled : Bool) (s : Tables) (msg : Message) : Prop :=
  fEnabled = false → msg.req.stopReq = true →
    ∀ addrList ∈ s.dhtgetPeersReq.lookup (msg.target env), addrList.count msg.pfrom = 1

theorem accounted_add (h : Accounted s) : Accounted (s.dhtgetPeerReqAdd now ih addr) := by
  intro a
  rw [active_add, outstanding_add, h a]
  split <;> simp

/-- A stop is right if the peer was on the list once. -/
theorem accounted_remove_iff (h : Accounted s)
    (hlist : s.dhtgetPeersReq.lookup ih = some addrList) :
    Accounted (s.dhtgetPeerReqRemove now ih addr) ↔ addrList.count addr = 1 := by
  have hafter : ∀ a, (s.dhtgetPeerReqRemove now ih addr).active a =
      (s.dhtgetPeerReqRemove now ih addr).outstanding a ↔ a = addr → addrList.count addr = 1 := by
    intro a
    have hout : (s.dhtgetPeerReqRemove now ih addr).outstanding a +
        (if a = addr then addrList.count addr else 0) = s.outstanding a :=
          outstanding_remove hlist a
    have hbefore := h a
    rw [active_remove hlist]
    by_cases ha : a = addr
    · simp only [ha, if_true, forall_const] at *
      omega
    · simp only [ha, if_false, IsEmpty.forall_iff, iff_true] at *
      omega
  constructor
  · intro hall
    exact (hafter addr).mp (hall addr) rfl
  · intro hone a
    exact (hafter a).mpr fun _ => hone

theorem accounted_checkForAbuse (h : Accounted s) (now : Int) (addr : CService) (cost : Int) :
    Accounted (s.checkForAbuse now addr cost).2 := by
  intro a
  obtain ⟨hactive, hlists⟩ := checkForAbuse_frame s now addr cost a
  rw [hactive, h a, Tables.outstanding, Tables.outstanding, hlists]

/-- A message keeps the counters right exactly if it stops nothing or one request. -/
theorem accounted_received_iff (h : Accounted s) :
    Accounted (dhtgetRequestReceived env fEnabled s msg).2 ↔ msg.Matched env fEnabled s := by
  rw [dhtgetRequestReceived]
  split
  · next henabled => simp [h, Message.Matched, henabled]
  next henabled =>
  split
  · next hstop =>
      cases hlist : s.dhtgetPeersReq.lookup (msg.target env) with
      | none => simp [Tables.dhtgetPeerReqRemove, hlist, h, Message.Matched]
      | some addrList => simp [accounted_remove_iff h hlist, Message.Matched, hlist, henabled,
        hstop]
  · next hstart =>
      have hchecked := accounted_checkForAbuse h msg.now msg.pfrom 1
      have hmatched : msg.Matched env fEnabled s := fun _ hstop => absurd hstop hstart
      simp only [hmatched, iff_true]
      split
      · exact hchecked
      · exact accounted_add hchecked

instance : Decidable (msg.Matched env fEnabled s) :=
  inferInstanceAs (Decidable (_ → _ → ∀ addrList ∈ s.dhtgetPeersReq.lookup (msg.target env), _))

end Steps

/-! ### Two peers -/

/-- A request for the status of alice. -/
def statusRequest (port : Nat) (stopReq : Bool) : Message :=
  ⟨0, ⟨ascii "alice", ascii "status", false, stopReq⟩, ⟨1, port⟩⟩

/-- The tables after messages. -/
def received (check : Tables → Message → Bool) (messages : List Message) : Option Tables :=
  System.run (fun s msg => some (dhtgetRequestReceived dhtNet false s msg).2) check {}
    messages

theorem reach_received {check : Tables → Message → Bool} {ok : Tables → Message → Prop}
    {messages : List Message} {s : Tables} (hcheck : ∀ s msg, check s msg = true → ok s msg)
    (h : received check messages = some s) : (system dhtNet false).Reach ok s :=
  System.Reach.of_run (fun _ _ _ hnext => Option.some.inj hnext) hcheck (.init rfl) h

/-! ## Runs -/

section Runs

variable {env : DhtEnv} {fEnabled : Bool} {s : Tables}

/-- As long as every stop is for one request, the counters are right and a peer with more than ten
outstanding requests is refused. The next message keeps it so exactly if it is such. -/
theorem active_exact
    (h : (system env fEnabled).Reach (fun s msg => msg.Matched env fEnabled s) s) :
    (∀ addr, s.active addr = s.outstanding addr) ∧ (∀ addr, 0 ≤ s.active addr) ∧
      (∀ addr, 10 < s.outstanding addr → ∀ now cost, (s.checkForAbuse now addr cost).1 = true) ∧
      ∀ msg : Message, (∀ addr, (dhtgetRequestReceived env fEnabled s msg).2.active addr =
          (dhtgetRequestReceived env fEnabled s msg).2.outstanding addr) ↔
        msg.Matched env fEnabled s := by
  have hexact : Accounted s := by
    refine System.Reach.invariant (I := Accounted) ?_ ?_ h
    · rintro s rfl addr
      rfl
    · rintro s msg s' hs hok rfl
      exact (accounted_received_iff hs).mpr hok
  refine ⟨hexact, fun addr => ?_, fun addr hmany now cost => ?_,
    fun msg => accounted_received_iff hexact⟩
  · rw [hexact addr]
    exact Int.natCast_nonneg _
  · refine checkForAbuse_of_active ?_ cost
    rw [hexact addr]
    exact Int.ofNat_lt.mpr hmany

end Runs

/-- A peer starts a request and stops it. -/
theorem active_exact_two :
    ∃ s, (system dhtNet false).Reach (fun s msg => msg.Matched dhtNet false s) s ∧
      s.active ⟨1, 7⟩ = 0 ∧ s.outstanding ⟨1, 7⟩ = 0 ∧ s.active ⟨1, 8⟩ = s.outstanding ⟨1, 8⟩ := by
  have hrun : (received (fun s msg => decide (msg.Matched dhtNet false s))
      [statusRequest 8 false, statusRequest 7 false, statusRequest 7 true]).map
      (fun s => (s.active ⟨1, 7⟩, s.outstanding ⟨1, 7⟩)) = some (0, 0) := by
    decide +kernel
  obtain ⟨s, hs, hpair⟩ := Option.map_eq_some_iff.mp hrun
  obtain ⟨hactive, hout⟩ := Prod.mk.inj hpair
  have hreach := reach_received (fun s msg h => of_decide_eq_true h) hs
  exact ⟨s, hreach, hactive, hout, (active_exact hreach).1 _⟩

/-- Stopping two requests at once leaves one active, and stopping another peer's less than none:
then eleven outstanding requests are not refused. -/
theorem active_wrong :
    ∃ s₁ s₂ s₃, (system dhtNet false).Reach (fun _ _ => True) s₁ ∧
      (system dhtNet false).Reach (fun _ _ => True) s₂ ∧
      (system dhtNet false).Reach (fun _ _ => True) s₃ ∧
      (s₁.active ⟨1, 7⟩ = 1 ∧ s₁.outstanding ⟨1, 7⟩ = 0) ∧ s₂.active ⟨1, 7⟩ = -1 ∧
      s₃.outstanding ⟨1, 7⟩ = 11 ∧ (s₃.checkForAbuse 0 ⟨1, 7⟩ 1).1 = false := by
  have hruns : (received (fun _ _ => true)
        [statusRequest 7 false, statusRequest 7 false, statusRequest 7 true]).map
        (fun s => (s.active ⟨1, 7⟩, s.outstanding ⟨1, 7⟩)) = some (1, 0) ∧
      (received (fun _ _ => true) [statusRequest 8 false, statusRequest 7 true]).map
        (fun s => s.active ⟨1, 7⟩) = some (-1) ∧
      (received (fun _ _ => true) ([statusRequest 8 false, statusRequest 7 true] ++
        List.replicate 11 (statusRequest 7 false))).map
        (fun s => (s.outstanding ⟨1, 7⟩, (s.checkForAbuse 0 ⟨1, 7⟩ 1).1)) = some (11, false) := by
    decide +kernel
  obtain ⟨h₁, h₂, h₃⟩ := hruns
  obtain ⟨s₁, hs₁, hpair₁⟩ := Option.map_eq_some_iff.mp h₁
  obtain ⟨s₂, hs₂, hnegative⟩ := Option.map_eq_some_iff.mp h₂
  obtain ⟨s₃, hs₃, hpair₃⟩ := Option.map_eq_some_iff.mp h₃
  exact ⟨s₁, s₂, s₃, reach_received (fun _ _ _ => trivial) hs₁,
    reach_received (fun _ _ _ => trivial) hs₂,
    reach_received (fun _ _ _ => trivial) hs₃, Prod.mk.inj hpair₁, hnegative, Prod.mk.inj hpair₃⟩

end DhtProxy
end CoMoNet
