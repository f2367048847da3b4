import CoMoNet.Dht.Admission

/-!
# Reading data of others

The entries of a reply are filtered by their signatures and go to the requests waiting
for the target of the first entry, or for the hash in a proxy's reply. The filters do
not look at whom an entry is about (`delivered_authentic`).
-/

namespace CoMoNet

/-! ## Replies -/

/-- The parts of `dht_get`, a lookup in the DHT, that are read. -/
structure DhtGet where
  targetUser : Bytes
  targetResource : Bytes
  multi : Bool

/-- The signature in a reply is there, and is one of the bytes of `p`. -/
def hasSignature (env : Env) (node : PostNode) (e p : LazyEntry) : Bool :=
  match e.dictFindString "sig_p", e.dictFindString "sig_user" with
  | some sigP, some sigUser =>
    verifySignature env node p.dataSection sigUser.stringValue sigP.stringValue (-1)
  | _, _ => false

/-- The filter of `dht_get_observer::reply`. -/
def acceptsReply (env : Env) (node : PostNode) (e : LazyEntry) : Bool :=
  match e.dictFindDict "p" with
  | none => false
  | some p =>
    let time := p.dictFindIntValue "time"
    hasSignature env node e p && time ≠ 0 && time ≤ node.adjustedTime + maxTimeInFuture

/-- The peers a tracker gives, as an entry without a signature. -/
def trackerEntry (dget : DhtGet) (r : LazyEntry) : Option (List Entry) :=
  let followers := toInt32 (r.dictFindIntValue "followers")
  if dget.targetResource = ascii "tracker" ∧ dget.multi ∧ followers ≠ 0 then
    let v := Entry.set [] "followers" (.int followers)
    let target := targetEntry dget.targetUser dget.targetResource (targetType dget.multi)
    let entry (v : List (Bytes × Entry)) : Entry :=
      .dict [(ascii "p", .dict (Entry.set (Entry.set [] "target" target) "v" (.dict v)))]
    match r.dictFindList "values" with
    | none => some [entry v]
    | some values =>
      (Entry.assign none values).map fun copy =>
        [entry (Entry.set (Entry.set v "values_size" (.int values.listValues.length)) "values"
          copy)]
  else none

/-- `dht_get_observer::reply`: the list given to `got_data`. -/
def replyList (env : Env) (node : PostNode) (dget : DhtGet) (message : LazyEntry) :
    Option (List Entry) :=
  (message.dictFindDict "r").bind fun r =>
    (r.dictFindString "id").bind fun id =>
      if id.stringValue.length ≠ 20 then none
      else
        match r.dictFindList "data" with
        | some n => Entry.assignList [] (n.listValues.filter (acceptsReply env node))
        | none => trackerEntry dget r

/-- The target `ThreadSessionAlerts` finds in the first entry of a list. -/
def alertTarget (env : DhtEnv) : List Entry → Option Bytes
  | [] => none
  | first :: _ =>
    (Entry.findDict first.members "p").bind fun p =>
      (Entry.findDict p "target").bind fun target =>
        match Entry.strOf target "n", Entry.strOf target "r", Entry.strOf target "t" with
        | some n, some r, some t => some (dhtTargetHash env n r t)
        | _, _, _ => none

/-- The filter of `DhtProxy::dhtgetReplyReceived`. -/
def acceptsProxy (env : Env) (node : PostNode) (e : LazyEntry) : Bool :=
  match e.dictFindDict "p" with
  | none => false
  | some p =>
    match p.dictFindDict "target" with
    | none => false
    | some target =>
      match target.strOf "r", target.strOf "t" with
      | some r, some t =>
        (r == ascii "tracker" && t == ascii "m") || hasSignature env node e p
      | _, _ => false

/-- `sha1_hash(s)`: the first 20 bytes, after which stands what was there before. -/
def sha1Hash (s old : Bytes) : Bytes := s.take 20 ++ (old.take 20).drop s.length

/-- What comes in for the requests that wait. -/
inductive GetEvent where
  | reply (node : PostNode) (dget : DhtGet) (message : LazyEntry)
  /-- A reply of a proxy: `vchTargetHash`, what is in the memory of the hash that is
  made of it, and what `vchBencodedData` decodes to. -/
  | proxyReply (node : PostNode) (targetHash old : Bytes) (v : LazyEntry)

namespace GetEvent

/-- The node the reply comes to. -/
def node : GetEvent → PostNode
  | .reply node _ _ => node
  | .proxyReply node _ _ _ => node

/-- The entries received. -/
def received : GetEvent → List LazyEntry
  | .reply _ _ message =>
    (((message.dictFindDict "r").bind (·.dictFindList "data")).map LazyEntry.listValues).getD []
  | .proxyReply _ _ _ v => v.listValues

/-- The filter they go through. -/
def accepts (env : Env) : GetEvent → LazyEntry → Bool
  | .reply node _ _ => acceptsReply env node
  | .proxyReply node _ _ _ => acceptsProxy env node

/-- The alert for the requests that wait for a hash. -/
def posts (env : DhtEnv) : GetEvent → Option (Bytes × List Entry)
  | .reply node dget message =>
    (replyList env.toEnv node dget message).bind fun lst =>
      (alertTarget env lst).map fun ih => (ih, lst)
  | .proxyReply node targetHash old v =>
    if v.type = .list then
      (Entry.assignList [] (v.listValues.filter (acceptsProxy env.toEnv node))).map
        fun lst => (sha1Hash targetHash old, lst)
    else none

end GetEvent

/-! ## Authentic entries -/

/-- The dictionary `target` of an entry. -/
def LazyEntry.targetDict (e : LazyEntry) : Option LazyEntry :=
  (e.dictFindDict "p").bind (·.dictFindDict "target")

/-- The members of the target. -/
def LazyEntry.targetOf (e : LazyEntry) : Option (Option Bytes × Option Bytes × Option Bytes) :=
  e.targetDict.map fun target => (target.strOf "n", target.strOf "r", target.strOf "t")

/-- `LazyEntry.targetOf`, for an entry that was copied. -/
def Entry.targetOf (e : Entry) : Option (Option Bytes × Option Bytes × Option Bytes) :=
  (Entry.findDict e.members "p").bind fun p =>
    (Entry.findDict p "target").map fun target =>
      (Entry.strOf target "n", Entry.strOf target "r", Entry.strOf target "t")

/-- An entry for the single resource `r` of `n` that `n` is said to have signed. -/
def LazyEntry.OwnerSigned (n r : Bytes) (e : LazyEntry) : Prop :=
  e.targetOf = some (some n, some r, some (ascii "s")) ∧ e.strOf "sig_user" = some n

/-- `LazyEntry.OwnerSigned`, for an entry that was copied. -/
def Entry.OwnerSigned (n r : Bytes) (e : Entry) : Prop :=
  e.targetOf = some (some n, some r, some (ascii "s")) ∧
    Entry.strOf e.members "sig_user" = some n

/-- An entry repeats no name, nor do its `p` and its target. -/
structure Unrepeated (e : LazyEntry) : Prop where
  entry : (e.members.map Prod.fst).Nodup
  p : ∀ p ∈ e.dictFindDict "p", (p.members.map Prod.fst).Nodup
  target : ∀ p ∈ e.dictFindDict "p", ∀ target ∈ p.dictFindDict "target",
    (target.members.map Prod.fst).Nodup

instance (n r : Bytes) (e : LazyEntry) : Decidable (e.OwnerSigned n r) :=
  inferInstanceAs (Decidable (_ ∧ _))

instance (n r : Bytes) (e : Entry) : Decidable (e.OwnerSigned n r) :=
  inferInstanceAs (Decidable (_ ∧ _))

instance (e : LazyEntry) : Decidable (Unrepeated e) :=
  decidable_of_iff ((e.members.map Prod.fst).Nodup ∧
      (∀ p ∈ e.dictFindDict "p", (p.members.map Prod.fst).Nodup) ∧
      ∀ p ∈ e.dictFindDict "p", ∀ target ∈ p.dictFindDict "target",
        (target.members.map Prod.fst).Nodup)
    ⟨fun h => ⟨h.1, h.2.1, h.2.2⟩, fun h => ⟨h.entry, h.p, h.target⟩⟩

/-- The hash is that of the entry's target, its user is said to have signed, and no name is
repeated. -/
def LazyEntry.StoredUnder (env : DhtEnv) (ih : Bytes) (e : LazyEntry) : Prop :=
  e.targetDict.map (fun target => (env.hasher target.dataSection, target.strOf "n")) =
      some (ih, e.strOf "sig_user") ∧
    Unrepeated e

instance (env : DhtEnv) (ih : Bytes) (e : LazyEntry) : Decidable (e.StoredUnder env ih) :=
  inferInstanceAs (Decidable (_ ∧ _))

/-- The signature of a copy is one of the bytes its `p` was read from. -/
def Signed (env : Env) (node : PostNode) (e : LazyEntry) (copy : Entry) : Prop :=
  ∃ p inner sigP sigUser, e.dictFindDict "p" = some p ∧
    Entry.findDict copy.members "p" = some inner ∧ Entry.assign none p = some (.dict inner) ∧
    Entry.strOf copy.members "sig_p" = some sigP ∧
    Entry.strOf copy.members "sig_user" = some sigUser ∧
    verifySignature env node p.dataSection sigUser sigP (-1) = true

section Copies

variable {env : Env} {node : PostNode} {e p : LazyEntry} {copy : Entry} {n r : Bytes}

theorem LazyEntry.type_of_dictFindDict {name : String} (h : e.dictFindDict name = some p) :
    e.type = .dict := by
  have hfind := (dictFindType_eq_some.mp h).1
  cases e with
  | dict data members => rfl
  | int data n => cases hfind
  | string data s => cases hfind
  | list data values => cases hfind

theorem Unrepeated.copied (unrepeated : Unrepeated e) (htype : e.type = .dict)
    (h : Entry.assign none e = some copy) : Copied e copy.members := by
  obtain ⟨members, rfl⟩ := Entry.exists_of_assign_dict htype h
  exact ⟨htype, unrepeated.entry, h⟩

/-- A copy has the target of the entry. -/
theorem Unrepeated.targetOf (unrepeated : Unrepeated e) (htype : e.type = .dict)
    (h : Entry.assign none e = some copy) : copy.targetOf = e.targetOf := by
  have copied := unrepeated.copied htype h
  rw [Entry.targetOf, LazyEntry.targetOf, LazyEntry.targetDict]
  rcases copied.findDict "p" with ⟨hp, hp'⟩ | ⟨p, inner, hp, hp', hptype, hassign⟩
  · rw [hp, hp']
    rfl
  · have copiedP : Copied p inner := ⟨hptype, unrepeated.p p hp, hassign⟩
    rw [hp, hp', Option.bind_some, Option.bind_some]
    rcases copiedP.findDict "target" with ⟨ht, ht'⟩ | ⟨target, inner', ht, ht', httype, hassign'⟩
    · rw [ht, ht']
      rfl
    · have copiedTarget : Copied target inner' :=
        ⟨httype, unrepeated.target p hp target ht, hassign'⟩
      rw [ht, ht', Option.map_some, Option.map_some, copiedTarget.strOf, copiedTarget.strOf,
        copiedTarget.strOf]

/-- A copy names the owner if the entry does. -/
theorem Unrepeated.ownerSigned_iff (unrepeated : Unrepeated e) (htype : e.type = .dict)
    (h : Entry.assign none e = some copy) : copy.OwnerSigned n r ↔ e.OwnerSigned n r := by
  rw [Entry.OwnerSigned, LazyEntry.OwnerSigned, unrepeated.targetOf htype h,
    (unrepeated.copied htype h).strOf]

theorem Unrepeated.signed (unrepeated : Unrepeated e) (hp : e.dictFindDict "p" = some p)
    (hsig : hasSignature env node e p = true) (h : Entry.assign none e = some copy) :
    Signed env node e copy := by
  have copied := unrepeated.copied (LazyEntry.type_of_dictFindDict hp) h
  rw [hasSignature] at hsig
  split at hsig
  · rename_i sigP sigUser hsigP hsigUser
    rcases copied.findDict "p" with ⟨hnone, -⟩ | ⟨p', inner, hp', hinner, -, hassign⟩
    · rw [hp] at hnone
      cases hnone
    · rw [hp, Option.some.injEq] at hp'
      subst hp'
      refine ⟨p, inner, sigP.stringValue, sigUser.stringValue, hp, hinner, hassign, ?_, ?_, hsig⟩
      · rw [copied.strOf, LazyEntry.strOf, hsigP, Option.map_some]
      · rw [copied.strOf, LazyEntry.strOf, hsigUser, Option.map_some]
  · cases hsig

end Copies

/-! ## What requests get -/

/-- The requests for a single resource get an entry that was asked for. -/
def GetEvent.Authentic (env : DhtEnv) (ev : GetEvent) (n r : Bytes) (copy : Entry) : Prop :=
  copy.OwnerSigned n r ∧
    ∃ e ∈ ev.received, Entry.assign none e = some copy ∧ Signed env.toEnv ev.node e copy

section Delivery

variable {env : DhtEnv} {ev : GetEvent} {e : LazyEntry} {copy : Entry} {n r ih : Bytes}
variable {lst : List Entry}

/-- An entry that passes has a `p`, and for a single resource a checked signature. -/
theorem GetEvent.exists_p (h : ev.accepts env.toEnv e = true) :
    ∃ p, e.dictFindDict "p" = some p ∧
      (e.OwnerSigned n r → hasSignature env.toEnv ev.node e p = true) := by
  cases ev with
  | reply node dget message =>
    rw [accepts, acceptsReply] at h
    split at h
    · cases h
    · rename_i p hp
      simp only [Bool.and_eq_true] at h
      exact ⟨p, hp, fun _ => h.1.1⟩
  | proxyReply node targetHash old v =>
    rw [accepts, acceptsProxy] at h
    split at h
    · cases h
    · rename_i p hp
      refine ⟨p, hp, fun howner => ?_⟩
      have htarget := howner.1
      rw [LazyEntry.targetOf, LazyEntry.targetDict, hp, Option.bind_some] at htarget
      split at h
      · cases h
      · rename_i target ht
        rw [ht, Option.map_some, Option.some.injEq, Prod.mk.injEq, Prod.mk.injEq] at htarget
        rw [htarget.2.1, htarget.2.2] at h
        rcases Bool.or_eq_true_iff.mp h with htracker | hsig
        · have ht : (ascii "s" == ascii "m") = true := (Bool.and_eq_true_iff.mp htracker).2
          exact absurd ht (by decide)
        · exact hsig

theorem bencode_targetEntry (n r t : Bytes) :
    ∃ start, Entry.bencode (targetEntry n r t) = start ++ (t ++ ascii "e") := by
  refine ⟨ascii "d" ++ (CScript.decimal 1 ++ ascii ":" ++ ascii "n" ++ Entry.bencode (.str n)) ++
    (CScript.decimal 1 ++ ascii ":" ++ ascii "r" ++ Entry.bencode (.str r)) ++
    (CScript.decimal 1 ++ ascii ":" ++ ascii "t" ++ CScript.decimal t.length ++ ascii ":"), ?_⟩
  have hmembers : targetEntry n r t =
      .dict [(ascii "n", .str n), (ascii "r", .str r), (ascii "t", .str t)] := rfl
  rw [hmembers]
  simp only [Entry.bencode, Entry.bencodeDict, List.append_assoc, List.append_nil]
  rfl

/-- Single and multi targets have different hashes. -/
theorem dhtTargetHash_single_ne (hinj : Function.Injective env.hasher) (u r' : Bytes) :
    dhtTargetHash env n r (ascii "s") ≠ dhtTargetHash env u r' (ascii "m") := by
  intro h
  obtain ⟨start, hs⟩ := bencode_targetEntry n r (ascii "s")
  obtain ⟨start', hm⟩ := bencode_targetEntry u r' (ascii "m")
  rw [dhtTargetHash, dhtTargetHash, hinj.eq_iff, hs, hm] at h
  have hlen : (ascii "s" ++ ascii "e").length = (ascii "m" ++ ascii "e").length := by decide
  exact absurd (List.append_inj_right' h hlen) (by decide)

theorem alertTarget_trackerEntry {dget : DhtGet} {resp : LazyEntry}
    (h : trackerEntry dget resp = some lst) (hih : alertTarget env lst = some ih) :
    ∃ u r', ih = dhtTargetHash env u r' (ascii "m") := by
  rw [trackerEntry] at h
  dsimp only at h
  split at h
  · rename_i htracker
    rw [htracker.2.1] at h
    have hone : ∀ v, alertTarget env [.dict [(ascii "p", .dict (Entry.set (Entry.set [] "target"
        (targetEntry dget.targetUser dget.targetResource (targetType true))) "v" (.dict v)))]] =
          some (dhtTargetHash env dget.targetUser dget.targetResource (ascii "m")) :=
      fun _ => rfl
    refine ⟨dget.targetUser, dget.targetResource, ?_⟩
    split at h
    · cases h
      rw [hone, Option.some.injEq] at hih
      exact hih.symm
    · obtain ⟨values, -, rfl⟩ := Option.map_eq_some_iff.mp h
      rw [hone, Option.some.injEq] at hih
      exact hih.symm
  · cases h

/-- The requests for a single resource get a list of entries. -/
def GetEvent.Answers (env : DhtEnv) (ev : GetEvent) (n r : Bytes) (lst : List Entry) : Prop :=
  ev.posts env = some (dhtTargetHash env n r (ascii "s"), lst)

/-- These are copies of the entries that pass. -/
theorem GetEvent.Answers.copies (answers : ev.Answers env n r lst)
    (hinj : Function.Injective env.hasher) :
    (ev.received.filter (ev.accepts env.toEnv)).map (Entry.assign none) = lst.map some := by
  have hcopies : ∀ {es lst}, Entry.assignList [] es = some lst →
      es.map (Entry.assign none) = lst.map some := by
    intro es lst hes
    obtain ⟨rest, hrest, hmap⟩ := Entry.map_of_assignList hes
    rw [hrest, List.nil_append, hmap]
  cases ev with
  | reply node dget message =>
    rw [Answers, posts] at answers
    obtain ⟨lst', hlst, answers⟩ := Option.bind_eq_some_iff.mp answers
    obtain ⟨ih, hih, hpair⟩ := Option.map_eq_some_iff.mp answers
    cases hpair
    rw [replyList] at hlst
    obtain ⟨resp, hresp, hlst⟩ := Option.bind_eq_some_iff.mp hlst
    obtain ⟨id, -, hlst⟩ := Option.bind_eq_some_iff.mp hlst
    split at hlst
    · cases hlst
    · split at hlst
      · rename_i data hdata
        rw [received, hresp, Option.bind_some, hdata]
        exact hcopies hlst
      · obtain ⟨u, r', heq⟩ := alertTarget_trackerEntry hlst hih
        exact absurd heq (dhtTargetHash_single_ne hinj u r')
  | proxyReply node targetHash old v =>
    rw [Answers, posts] at answers
    split at answers
    · obtain ⟨lst', hlst, hpair⟩ := Option.map_eq_some_iff.mp answers
      rw [← (Prod.mk.inj hpair).2]
      exact hcopies hlst
    · cases answers

/-- If the copy delivered is authentic, the entry is for the resource and names the owner. -/
theorem GetEvent.ownerSigned_of_authentic (hinj : Function.Injective env.hasher)
    (answers : ev.Answers env n r lst) (hauth : ∀ copy ∈ lst, ev.Authentic env n r copy)
    (he : e ∈ ev.received) (hpass : ev.accepts env.toEnv e = true) (unrepeated : Unrepeated e) :
    e.OwnerSigned n r := by
  have hmem : Entry.assign none e ∈ (ev.received.filter (ev.accepts env.toEnv)).map
      (Entry.assign none) := List.mem_map_of_mem (List.mem_filter.mpr ⟨he, hpass⟩)
  rw [answers.copies hinj] at hmem
  obtain ⟨copy, hcopy, hassign⟩ := List.mem_map.mp hmem
  obtain ⟨p, hp, -⟩ := GetEvent.exists_p (n := n) (r := r) hpass
  have htype := LazyEntry.type_of_dictFindDict hp
  exact (unrepeated.ownerSigned_iff htype hassign.symm).mp (hauth copy hcopy).1

/-- `lazy_bdecode` reads the targets in a decoded reply as they are. -/
def GetEvent.Decoded (env : DhtEnv) (ev : GetEvent) : Prop :=
  ∀ e ∈ ev.received, ∀ target, e.targetDict = some target →
    env.lazyBdecode target.dataSection = target

/-- An entry stored under the hash of a single resource is for it. -/
theorem LazyEntry.StoredUnder.ownerSigned (hinj : Function.Injective env.hasher)
    (hlimits : (targetEntry n r (ascii "s")).WithinLimits)
    (stored : e.StoredUnder env (dhtTargetHash env n r (ascii "s")))
    (hdec : ∀ target, e.targetDict = some target →
      env.lazyBdecode target.dataSection = target) : e.OwnerSigned n r := by
  obtain ⟨target, htarget, hpair⟩ := Option.map_eq_some_iff.mp stored.1
  obtain ⟨hhash, huser⟩ := Prod.mk.inj hpair
  have hlazy : Entry.lazy (targetEntry n r (ascii "s")) = target := by
    rw [← hdec target htarget, ← env.readsBack _ hlimits, hinj hhash]
  rw [OwnerSigned, ← huser, targetOf, htarget, ← hlazy]
  exact ⟨rfl, rfl⟩

end Delivery

/-! ### An avatar of alice -/

/-- Alice and bob are registered. -/
def avatarNode : PostNode := aliceNode (worldOf [memberTx "alice" 1, memberTx "bob" 2] []) []

/-- The data of a single resource. -/
def avatarP (n r : String) : Entry :=
  .dict [(ascii "target", targetEntry (ascii n) (ascii r) (ascii "s")),
    (ascii "time", .int 1000), (ascii "v", .str [])]

/-- The signature of the data with a key. -/
def avatarSig (n r : String) (k : UInt8) : Bytes :=
  [k, UInt8.ofNat (signNet.messageHash (Entry.bencode (avatarP n r)) % 251)]

/-- An entry with the data, which users are said to have signed. -/
def avatarEntry (n r : String) (k : UInt8) (users : List String) : Entry :=
  .dict ((ascii "p", avatarP n r) :: (ascii "sig_p", .str (avatarSig n r k)) ::
    users.map fun user => (ascii "sig_user", .str (ascii user)))

/-- A reply with the avatar of alice. -/
def avatarReply (k : UInt8) (users : List String) : GetEvent :=
  .reply avatarNode ⟨ascii "alice", ascii "avatar", false⟩ (Entry.lazy (.dict
    [(ascii "r", .dict [(ascii "data", .list [avatarEntry "alice" "avatar" k users]),
      (ascii "id", .str (List.replicate 20 0))])]))

/-- A reply of a proxy, in which a byte follows the hash of the resource `b` of `a`. -/
def forgedReply : GetEvent :=
  .proxyReply avatarNode
    (dhtTargetHash dhtNet (ascii "a") (ascii "b") (ascii "s") ++ [0]) []
    (Entry.lazy (.list [avatarEntry "a" "b" 2 ["bob"]]))

/-- A reply goes to the requests for a resource, and its first entry passes a test. -/
def postsTo (ev : GetEvent) (n r : String) (test : Entry → Bool) : Bool :=
  match ev.posts dhtNet with
  | some (ih, copy :: _) =>
    ih == dhtTargetHash dhtNet (ascii n) (ascii r) (ascii "s") && test copy
  | _ => false

theorem of_postsTo {ev : GetEvent} {n r : String} {test : Entry → Bool}
    (h : postsTo ev n r test = true) :
    ∃ lst, ev.Answers dhtNet (ascii n) (ascii r) lst ∧ ∃ copy ∈ lst, test copy = true := by
  rw [postsTo] at h
  split at h
  · rename_i ih copy rest hposts
    obtain ⟨hih, htest⟩ := Bool.and_eq_true_iff.mp h
    rw [eq_of_beq hih] at hposts
    exact ⟨copy :: rest, hposts, copy, List.mem_cons_self, htest⟩
  · cases h

theorem decoded_avatarReply (k : UInt8) (users : List String) :
    (avatarReply k users).Decoded dhtNet := by
  intro e he target htarget
  have he : e ∈ [Entry.lazy (avatarEntry "alice" "avatar" k users)] := he
  rw [List.mem_singleton.mp he] at htarget
  obtain ⟨p, hp, htarget⟩ := Option.bind_eq_some_iff.mp htarget
  obtain ⟨p', rfl⟩ :=
    Entry.exists_of_dictFind_lazy (LazyEntry.dictFindType_eq_some.mp hp).1
  obtain ⟨target', rfl⟩ :=
    Entry.exists_of_dictFind_lazy (LazyEntry.dictFindType_eq_some.mp htarget).1
  rw [Entry.dataSection_lazy, lazyBdecode_dhtNet]

end CoMoNet
