import CoMoNet.Dht.PutData
import CoMoNet.Lib.Reach
import CoMoNet.Post.NewPost

/-!
# Which messages are admitted

The handler of `putData` follows the pointers `verify_message` leaves. `seq` is tested
before it is used, `witness` is not, and a post without one stops the node
(`putData_outcome`). Two pointers lead to memory that may be used anew.
-/

namespace CoMoNet

open GuardedRun (System)

/-- The value of a key. -/
def PutMessage.get (m : PutMessage) : MsgKey → Option LazyEntry
  | .token => some m.token
  | .sigP => some m.sigP
  | .sigUser => some m.sigUser
  | .p => some m.p
  | .v => some m.v
  | .seq => m.seq
  | .witness => m.witness
  | .time => some m.time
  | .height => some m.height
  | .target => some m.target
  | .n => some m.n
  | .r => some m.r
  | .t => some m.t

section Handler

variable {env : DhtEnv} {node : DhtNode} {s s' : DhtState} {m : PutMessage} {cache cache' : Nat}
variable {reply : PutReply} {f : DhtFault}
variable {arg : LazyEntry}

theorem msgKey_keys (key : MsgKey) : msgKey m.keys key = m.get key := by
  cases key <;> rfl

variable (env node m) in
/-- The first checks read no null pointer. -/
theorem checkEnvelope_ok : ∃ refusal, checkEnvelope env node m.keys = .ok refusal := by
  simp only [checkEnvelope, deref, msgKey_keys, PutMessage.get, bind, Except.bind, pure,
    Except.pure]
  generalize (if m.t.stringValue == ascii "m" then 768 else 8192) = maxSize
  split
  · exact ⟨_, rfl⟩
  · split
    · exact ⟨_, rfl⟩
    · split
      · exact ⟨_, rfl⟩
      · split
        · exact ⟨_, rfl⟩
        · exact ⟨_, rfl⟩

variable (node m) in
/-- These checks go through, and a single item that passes has a number. -/
theorem checkContent_ok : ∃ refusal, checkContent node m.keys = .ok refusal ∧
    (refusal = none → (m.t.stringValue == ascii "m") = false → m.seq.isSome = true) := by
  simp only [checkContent, deref, msgKey_keys, PutMessage.get, bind, Except.bind, pure, Except.pure]
  split
  · exact ⟨_, rfl, nofun⟩
  · split
    · exact ⟨_, rfl, nofun⟩
    · split
      · exact ⟨_, rfl, nofun⟩
      · rename_i hseq
        have hsome : (m.t.stringValue == ascii "m") = false → m.seq.isSome = true := by
          intro hsingle
          cases hm : m.seq with
          | some seq => rfl
          | none => simp [hsingle, hm] at hseq
        split
        · exact ⟨_, rfl, nofun⟩
        · split
          · exact ⟨_, rfl, nofun⟩
          · exact ⟨_, rfl, fun _ => hsome⟩

/-- Other resources ask for no witness. -/
theorem checkAdmin_of_not (h : postOrSwarm (node.receivedRscType m.r.stringValue) = false) :
    checkAdmin env node cache m.keys = .ok (none, cache) := by
  simp [checkAdmin, deref, msgKey_keys, PutMessage.get, bind, Except.bind, pure, Except.pure, h]

/-- A missing witness is a null pointer. -/
theorem checkAdmin_absent (h : postOrSwarm (node.receivedRscType m.r.stringValue) = true)
    (hw : m.witness = none) :
    checkAdmin env node cache m.keys = .error (.absent .witness) := by
  simp [checkAdmin, deref, msgKey_keys, PutMessage.get, bind, Except.bind, h, hw]

variable (env node cache) in
/-- Past the check the user is an administrator. -/
theorem checkAdmin_witness {witness : LazyEntry}
    (h : postOrSwarm (node.receivedRscType m.r.stringValue) = true)
    (hw : m.witness = some witness) :
    (∃ e, checkAdmin env node cache m.keys = .error (.exn e)) ∨
      ∃ refusal cache', checkAdmin env node cache m.keys = .ok (refusal, cache') ∧
        (refusal = none → ∃ answer,
          isAdminWitness env.toEnv env.mapToPrime node.toWorld cache
            (cString (node.receivedUsername m.n.stringValue)) (cString witness.stringValue) =
              .ok answer ∧ answer.verdict = true) := by
  simp only [checkAdmin, deref, msgKey_keys, PutMessage.get, bind, Except.bind, pure, Except.pure,
    h, hw, if_true]
  split
  · exact .inr ⟨_, _, rfl, nofun⟩
  · split
    · exact .inl ⟨_, rfl⟩
    · rename_i answer hanswer
      split
      · rename_i hverdict
        exact .inr ⟨_, _, rfl, fun _ => ⟨answer, hanswer, hverdict⟩⟩
      · exact .inr ⟨_, _, rfl, nofun⟩

theorem processNewlyStoredEntry_storage {p : LazyEntry} :
    (processNewlyStoredEntry p s).storage = s.storage := by
  have htags : ∀ target, (updateHashtagsStats p target s).storage = s.storage := by
    intro target
    rw [updateHashtagsStats]
    split
    · rfl
    · dsimp only
      split
      · rfl
      · rfl
  rw [processNewlyStoredEntry]
  split
  · rfl
  · rw [updatePostsStats]
    split
    · exact htags _
    · exact htags _

/-- The sections of `p` and of its target decode to what was read. -/
def PutMessage.Decoded (env : DhtEnv) (m : PutMessage) : Prop :=
  env.lazyBdecode m.p.dataSection = m.p ∧ env.lazyBdecode m.target.dataSection = m.target

/-- The item of a message is complete. -/
theorem PutMessage.ReadFrom.complete (read : m.ReadFrom arg)
    (decoded : m.Decoded env)
    (hseq : (m.t.stringValue == ascii "m") = false → m.seq.isSome = true) :
    (env.lazyBdecode m.target.dataSection).isMulti = (m.t.stringValue == ascii "m") ∧
      DhtItem.Complete env (m.t.stringValue == ascii "m")
        ⟨m.p.dataSection, m.sigP.stringValue, m.sigUser.stringValue⟩ := by
  constructor
  · have ht : m.target.dictFindString "t" = some m.t := LazyEntry.dictFindType_eq_some.mpr read.t
    rw [decoded.2, LazyEntry.isMulti, LazyEntry.dictFindStringValue, ht]
    rfl
  · rw [DhtItem.Complete, decoded.1, read.v]
    split
    · rfl
    · rename_i hsingle
      rw [LazyEntry.dictFindInt, read.seq]
      exact hseq (Bool.eq_false_iff.mpr hsingle)

variable (node) in
/-- The last part goes through on a sound table, and leaves one. -/
theorem storeMessage_ok (sound : s.storage.Sound env)
    (hinj : Function.Injective env.hasher) (read : m.ReadFrom arg) (decoded : m.Decoded env)
    (hseq : (m.t.stringValue == ascii "m") = false → m.seq.isSome = true) :
    ∃ r, storeMessage env node s m.keys = .ok r ∧ r.2.storage.Sound env := by
  obtain ⟨hmulti, hcomplete⟩ := read.complete decoded hseq
  obtain ⟨seq, hseq'⟩ : ∃ seq, seqArgument m.keys (m.t.stringValue == ascii "m") = .ok seq := by
    rw [seqArgument]
    split
    · exact ⟨0, rfl⟩
    · rename_i hsingle
      obtain ⟨e, he⟩ := Option.isSome_iff_exists.mp (hseq (Bool.eq_false_iff.mpr hsingle))
      rw [deref, msgKey_keys, PutMessage.get, he]
      exact ⟨e.intValue, rfl⟩
  obtain ⟨⟨stored, storage⟩, hstore, hsound⟩ := storeDhtItem_ok (toInt32 seq)
    (toInt32 m.height.intValue) m.v.dataSection sound hinj hmulti hcomplete
  simp only [storeMessage, deref, msgKey_keys, PutMessage.get, bind, Except.bind, pure,
    Except.pure, hseq', hstore]
  split
  · exact ⟨_, rfl, sound⟩
  · refine ⟨_, rfl, ?_⟩
    split
    · rw [processNewlyStoredEntry_storage]
      exact hsound
    · exact hsound

/-- The message comes to the check of the witness. -/
def AsksWitness (env : DhtEnv) (node : DhtNode) (m : PutMessage) : Prop :=
  checkEnvelope env node m.keys = .ok none ∧
    postOrSwarm (node.receivedRscType m.r.stringValue) = true

/-- What is read through the pointers is still the text of the message. -/
def TextsRemain (node : DhtNode) (m : PutMessage) : Prop :=
  cString (node.receivedRscType m.r.stringValue) = cString m.r.stringValue ∧
    cString (node.receivedUsername m.n.stringValue) = cString m.n.stringValue

/-- `isAdmin` returns true for the user and the witness of the message. -/
def AdminWitness (env : DhtEnv) (node : DhtNode) (cache : Nat) (m : PutMessage) : Prop :=
  ∃ witness answer, m.witness = some witness ∧
    isAdminWitness env.toEnv env.mapToPrime node.toWorld cache (cString m.n.stringValue)
      (cString witness.stringValue) = .ok answer ∧ answer.verdict = true

/-- How the handler ends on a message that passed `verify_message`. -/
inductive PutOutcome (env : DhtEnv) (node : DhtNode) (s : DhtState) (m : PutMessage) :
    Except DhtFault (PutReply × DhtState) → Prop where
  | absent : AsksWitness env node m → m.witness = none →
      PutOutcome env node s m (.error (.absent .witness))
  /-- `isAdmin` throws. -/
  | exn {witness : LazyEntry} {e : Exn} : m.witness = some witness →
      PutOutcome env node s m (.error (.exn e))
  /-- The message is answered and nothing is stored. -/
  | unchanged {reply : PutReply} {s' : DhtState} : (AsksWitness env node m → m.witness ≠ none) →
      s'.storage = s.storage → PutOutcome env node s m (.ok (reply, s'))
  | stored {reply : PutReply} {s' : DhtState} : (AsksWitness env node m → m.witness ≠ none) →
      (TextsRemain node m → postOrSwarm m.r.stringValue = true →
        AdminWitness env node s.cache m) →
      s'.storage.Sound env → PutOutcome env node s m (.ok (reply, s'))

theorem PutOutcome.after_admin {cache' : Nat} (sound : s.storage.Sound env)
    (hinj : Function.Injective env.hasher) (read : m.ReadFrom arg) (decoded : m.Decoded env)
    (hasks : AsksWitness env node m → m.witness ≠ none)
    (hadmin : TextsRemain node m → postOrSwarm m.r.stringValue = true →
      AdminWitness env node s.cache m) :
    PutOutcome env node s m (do
      if let some msg ← checkContent node m.keys then
        return (.refused msg, { s with cache := cache' })
      storeMessage env node { s with cache := cache' } m.keys) := by
  obtain ⟨refusal, hcontent, hseq⟩ := checkContent_ok node m
  simp only [hcontent, bind, Except.bind, pure, Except.pure]
  cases refusal with
  | some msg => exact .unchanged hasks rfl
  | none =>
    obtain ⟨⟨reply, s'⟩, hstore, hsound⟩ :=
      storeMessage_ok node (s := { s with cache := cache' }) sound hinj read decoded (hseq rfl)
    simp only [hstore]
    exact .stored hasks hadmin hsound

variable (node) in
/-- The handler on a message that passed `verify_message`, with a sound table. -/
theorem putData_outcome (sound : s.storage.Sound env)
    (hinj : Function.Injective env.hasher) (hverify : verifyMessage putDataDesc arg = .ok m.keys)
    (decoded : m.Decoded env) : PutOutcome env node s m (putData env node s arg) := by
  have read : m.ReadFrom arg := by
    obtain ⟨m', hkeys, hread⟩ := verifyMessage_putData hverify
    rw [PutMessage.keys_inj hkeys]
    exact hread
  obtain ⟨refusal, henvelope⟩ := checkEnvelope_ok env node m
  rw [putData, hverify]
  simp only [henvelope, bind, Except.bind, pure, Except.pure]
  cases refusal with
  | some msg =>
    refine .unchanged (fun hasks => ?_) rfl
    rw [AsksWitness, henvelope] at hasks
    cases hasks.1
  | none =>
    cases hr : postOrSwarm (node.receivedRscType m.r.stringValue) with
    | false =>
      simp only [checkAdmin_of_not hr]
      refine .after_admin sound hinj read decoded (fun hasks => ?_) (fun remain h => ?_)
      · rw [hasks.2] at hr
        cases hr
      · rw [postOrSwarm, remain.1, ← postOrSwarm, h] at hr
        cases hr
    | true =>
      cases hw : m.witness with
      | none =>
        simp only [checkAdmin_absent hr hw]
        exact .absent ⟨henvelope, hr⟩ hw
      | some witness =>
        have hasks : AsksWitness env node m → m.witness ≠ none := by
          intro _
          rw [hw]
          exact nofun
        rcases checkAdmin_witness env node s.cache hr hw with
          ⟨e, he⟩ | ⟨refusal, cache', hadmin, hnone⟩
        · simp only [he]
          exact .exn hw
        · simp only [hadmin]
          cases refusal with
          | some msg => exact .unchanged hasks rfl
          | none =>
            refine .after_admin sound hinj read decoded hasks fun remain _ => ?_
            obtain ⟨answer, hanswer, hverdict⟩ := hnone rfl
            rw [remain.2] at hanswer
            exact ⟨witness, answer, hw, hanswer, hverdict⟩

end Handler

/-! ## Runs -/

/-- The test of `putDataSigned` for a number. -/
def hasSeq (p : List (Bytes × Entry)) (multi : Bool) : Bool :=
  match Entry.find p "seq" with
  | some (.int _) => true
  | _ => multi

/-- `putDataSigned`, with the members of `p`. -/
def putDataSigned (env : DhtEnv) (s : DhtState) (username resource : Bytes) (multi : Bool)
    (p : List (Bytes × Entry)) (sigP sigUser : Bytes) (isLocal : Bool) :
    Except DhtFault DhtState :=
  match Entry.find p "target" with
  | none => .ok s
  | some (.dict target) =>
    match Entry.find p "v", Entry.find p "height" with
    | some v, some (.int height) =>
      if hasSeq p multi ∧ Entry.findString target "n" = username ∧
          Entry.findString target "r" = resource ∧ Entry.findString target "t" = targetType multi ∧
          isLocal then
        let item : DhtItem := ⟨Entry.bencode (.dict p), sigP, sigUser⟩
        let target := dhtTargetHash env username resource (targetType multi)
        let seq := toInt32 (Entry.findInt p "seq" (-1))
        (storeDhtItem env s.storage item target multi seq (toInt32 height)
          (Entry.bencode v)).map fun r => { s with storage := r.2 }
      else .ok s
    | _, _ => .ok s
  | some _ => .error (.exn (.runtime "invalid type requested from entry"))

/-- What can happen to the table. -/
inductive DhtLabel where
  /-- A `putData` message comes in. -/
  | putData (node : DhtNode) (arg : LazyEntry)
  | putDataSigned (username resource : Bytes) (multi : Bool) (p : List (Bytes × Entry))
      (sigP sigUser : Bytes) (isLocal : Bool)
  /-- The node starts again: `load_storage` reads what `save_storage` wrote, and
  leaves out the items that have expired. -/
  | loadStorage (expired : DhtItem → Bool)

/-- One step. -/
inductive DhtStep (env : DhtEnv) : DhtState → DhtLabel → DhtState → Prop where
  | putData {s s' : DhtState} {node : DhtNode} {arg : LazyEntry} {reply : PutReply} :
      putData env node s arg = .ok (reply, s') → DhtStep env s (.putData node arg) s'
  | putDataSigned {s s' : DhtState} {username resource sigP sigUser : Bytes} {multi isLocal : Bool}
      {p : List (Bytes × Entry)} :
      putDataSigned env s username resource multi p sigP sigUser isLocal = .ok s' →
        DhtStep env s (.putDataSigned username resource multi p sigP sigUser isLocal) s'
  | loadStorage {s s' : DhtState} {expired : DhtItem → Bool} :
      s'.storage = loadStorage expired (saveStorage s.storage) →
        DhtStep env s (.loadStorage expired) s'

/-- The table of a node. -/
def dhtSystem (env : DhtEnv) : System DhtState DhtLabel where
  init s := ∀ target, s.storage target = none
  step := DhtStep env

/-- Decoded messages decode again, and data of the node's own is within the limits. -/
def Decodable (env : DhtEnv) : DhtState → DhtLabel → Prop
  | _, .putData _ arg => ∀ m : PutMessage, verifyMessage putDataDesc arg = .ok m.keys →
      m.Decoded env
  | _, .putDataSigned username resource multi p _ _ _ =>
    Entry.WithinLimits (.dict p) ∧ (targetEntry username resource (targetType multi)).WithinLimits
  | _, .loadStorage _ => True

section Runs

variable {env : DhtEnv} {node : DhtNode} {s s' : DhtState} {m : PutMessage} {arg : LazyEntry}
variable {reply : PutReply}
variable {multi : Bool} {sigP sigUser : Bytes}

theorem isMulti_targetEntry (username resource type : Bytes) :
    (Entry.lazy (targetEntry username resource type)).isMulti = (type == ascii "m") := by
  have hfind : (Entry.lazy (targetEntry username resource type)).dictFindString "t" =
      some (Entry.lazy (.str type)) := by
    refine LazyEntry.dictFindType_eq_some.mpr ⟨?_, rfl⟩
    rw [targetEntry, Entry.dictFind_lazy, Entry.find, Entry.set, Entry.lookup_insert, if_pos rfl]
    rfl
  rw [LazyEntry.isMulti, LazyEntry.dictFindStringValue, hfind]
  rfl

/-- The kind of an own target is read back. -/
theorem isMulti_ownTarget {username resource : Bytes}
    (h : (targetEntry username resource (targetType multi)).WithinLimits) :
    (env.lazyBdecode (Entry.bencode
      (targetEntry username resource (targetType multi)))).isMulti = multi := by
  rw [env.readsBack _ h, isMulti_targetEntry]
  cases multi with
  | true => rfl
  | false => decide

/-- A message keeps the table sound. -/
theorem StorageTable.Sound.putData (sound : s.storage.Sound env)
    (hinj : Function.Injective env.hasher)
    (hdec : ∀ m : PutMessage, verifyMessage putDataDesc arg = .ok m.keys → m.Decoded env)
    (h : putData env node s arg = .ok (reply, s')) : s'.storage.Sound env := by
  cases hverify : verifyMessage putDataDesc arg with
  | error msg =>
    rw [CoMoNet.putData, hverify, Except.ok.injEq, Prod.mk.injEq] at h
    rw [← h.2]
    exact sound
  | ok keys =>
    obtain ⟨m, rfl, -⟩ := verifyMessage_putData hverify
    have hout := putData_outcome node sound hinj hverify (hdec m hverify)
    rw [h] at hout
    cases hout with
    | unchanged _ hsame => rw [hsame]; exact sound
    | stored _ _ hsound => exact hsound

theorem complete_of_hasSeq {p : List (Bytes × Entry)} {v : Entry}
    (hlimits : Entry.WithinLimits (.dict p)) (hv : Entry.find p "v" = some v)
    (hseq : hasSeq p multi = true) :
    DhtItem.Complete env multi ⟨Entry.bencode (.dict p), sigP, sigUser⟩ := by
  rw [DhtItem.Complete, env.readsBack _ hlimits, Entry.dictFind_lazy, hv]
  split
  · rfl
  · rename_i hmulti
    rw [hasSeq] at hseq
    split at hseq
    · rename_i n hn
      rw [LazyEntry.dictFindInt, LazyEntry.dictFindType, Entry.dictFind_lazy, hn]
      rfl
    · exact absurd hseq hmulti

/-- Putting own data changes nothing, or is one call of `store_dht_item`. -/
theorem putDataSigned_cases {username resource : Bytes} {isLocal : Bool}
    {p : List (Bytes × Entry)}
    (h : putDataSigned env s username resource multi p sigP sigUser isLocal = .ok s') :
    s' = s ∨ ∃ v height stored, Entry.find p "v" = some v ∧ hasSeq p multi = true ∧
      storeDhtItem env s.storage ⟨Entry.bencode (.dict p), sigP, sigUser⟩
        (dhtTargetHash env username resource (targetType multi)) multi
        (toInt32 (Entry.findInt p "seq" (-1))) (toInt32 height) (Entry.bencode v) =
          .ok (stored, s'.storage) := by
  rw [CoMoNet.putDataSigned] at h
  dsimp only at h
  split at h
  · cases h
    exact .inl rfl
  · split at h
    · rename_i v height hv hheight
      split at h
      · rename_i hok
        obtain ⟨r, hstore, h⟩ := Except.map_eq_ok_iff.mp h
        refine .inr ⟨v, height, r.1, hv, hok.1, ?_⟩
        rw [hstore, ← h]
      · cases h
        exact .inl rfl
    · cases h
      exact .inl rfl
  · cases h

/-- Own data keeps the table sound. -/
theorem StorageTable.Sound.putDataSigned {username resource : Bytes}
    {isLocal : Bool} {p : List (Bytes × Entry)} (sound : s.storage.Sound env)
    (hinj : Function.Injective env.hasher)
    (hdec : Decodable env s (.putDataSigned username resource multi p sigP sigUser isLocal))
    (h : putDataSigned env s username resource multi p sigP sigUser isLocal = .ok s') :
    s'.storage.Sound env := by
  obtain ⟨hp, htarget⟩ := hdec
  rcases putDataSigned_cases h with rfl | ⟨v, height, stored, hv, hseq, hstore⟩
  · exact sound
  · obtain ⟨r, hr, hsound⟩ := storeDhtItem_ok (toInt32 (Entry.findInt p "seq" (-1)))
      (toInt32 height) (Entry.bencode v) sound hinj (isMulti_ownTarget htarget)
      (complete_of_hasSeq hp hv hseq)
    rw [dhtTargetHash, hr, Except.ok.injEq] at hstore
    rw [hstore] at hsound
    exact hsound

/-- The table is sound in every run. -/
theorem sound_of_reach (hinj : Function.Injective env.hasher)
    (h : (dhtSystem env).Reach (Decodable env) s) : s.storage.Sound env := by
  refine h.invariant (I := fun s => s.storage.Sound env) ?_ ?_
  · intro s hinit target lsto htarget
    rw [hinit target] at htarget
    cases htarget
  · intro s a s' sound hdec hstep
    cases hstep with
    | putData hput => exact sound.putData hinj hdec hput
    | putDataSigned hput => exact sound.putDataSigned hinj hdec hput
    | loadStorage hload =>
      intro target lsto htarget x hx
      rw [hload] at htarget
      obtain ⟨lsto', hlsto', hsub⟩ := sublist_of_loadStorage htarget
      exact sound target lsto' hlsto' x (hsub.subset hx)

end Runs

/-! ### A post of alice -/

/-- The node of alice. -/
def aliceDht : DhtNode :=
  { aliceNode aliceGroup (ascii "3") with
      verifyToken := fun _ _ => true
      findNode := fun _ => []
      bucketSize := 8
      nid := 0
      receivedUsername := id
      receivedRscType := id }

/-- A node that reads another text where longer names were. -/
def reusedDht : DhtNode :=
  { aliceDht with receivedRscType := fun r => if r.length ≤ 15 then r else [] }

/-- The data of a post of alice and its signature, as `dhtPutData` makes them. -/
def alicePut (resource : String) (witness : Option Bytes) : List (Bytes × Entry) × Bytes :=
  match dhtPutData signNet aliceDht.toPostNode (ascii "alice") (ascii resource) false (.dict [])
      (ascii "alice") 1 witness with
  | [.dhtPut _ _ (.dict p) sigP] => (p, sigP)
  | _ => ([], [])

/-- The arguments of the message. -/
def aliceArg (resource : String) (witness : Option Bytes) : LazyEntry :=
  let arg := Entry.set [] "token" (.str [])
  let arg := Entry.set arg "p" (.dict (alicePut resource witness).1)
  let arg := Entry.set arg "sig_p" (.str (alicePut resource witness).2)
  Entry.lazy (.dict (Entry.set arg "sig_user" (.str (ascii "alice"))))

/-- A network of which `lazy_bdecode` reads whatever was encoded. -/
def dhtNet : DhtEnv :=
  { signNet with
      mapToPrime := fun _ => 2
      hasher := id
      lazyBdecode := fun data => (Entry.bdecode data).getD (.dict [] [])
      readsBack := fun e _ => by rw [Entry.bdecode_bencode, Option.getD_some]
      maxEntriesPerMulti := 32 }

theorem lazyBdecode_dhtNet (e : Entry) : dhtNet.lazyBdecode (Entry.bencode e) = Entry.lazy e :=
  congrArg (Option.getD · _) (Entry.bdecode_bencode e)

/-- A message of encoded data is decoded. -/
theorem PutMessage.ReadFrom.decoded {arg : Entry} {m : PutMessage}
    (read : m.ReadFrom (Entry.lazy arg)) : m.Decoded dhtNet := by
  obtain ⟨p, hp⟩ := Entry.exists_of_dictFind_lazy read.p.1
  have htarget := read.target.1
  rw [← hp] at htarget
  obtain ⟨target, htarget⟩ := Entry.exists_of_dictFind_lazy htarget
  rw [PutMessage.Decoded, ← hp, ← htarget, Entry.dataSection_lazy, Entry.dataSection_lazy]
  exact ⟨lazyBdecode_dhtNet _, lazyBdecode_dhtNet _⟩

/-- Whether a message of alice asks to store a post, and whether it has a witness. -/
def alicePost (resource : String) (witness : Option Bytes) : Option (Bool × Bool) :=
  (verifyMessage putDataDesc (aliceArg resource witness)).toOption.map fun keys =>
    ((msgKey keys .r).any fun r => postOrSwarm r.stringValue, (msgKey keys .witness).isSome)

theorem exists_message {resource : String} {witness : Option Bytes}
    (h : alicePost resource witness = some (true, witness.isSome)) :
    ∃ m : PutMessage, verifyMessage putDataDesc (aliceArg resource witness) = .ok m.keys ∧
      m.Decoded dhtNet ∧ postOrSwarm m.r.stringValue = true ∧
      m.witness.isSome = witness.isSome := by
  obtain ⟨keys, hverify, hkeys⟩ := Except.toOption_map_eq_some_iff.mp h
  obtain ⟨m, rfl, read⟩ := verifyMessage_putData hverify
  obtain ⟨hr, hw⟩ := Prod.mk.inj hkeys
  exact ⟨m, hverify, read.decoded, hr, hw⟩

end CoMoNet
