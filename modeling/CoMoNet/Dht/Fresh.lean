import CoMoNet.Dht.Admission

/-!
# The item a single target holds

`store_dht_item` gets the sequence number as an `int` and compares it with 64 bits of
the held item, and it replaces nothing in an empty list (`single_fresh_iff`).
-/

namespace CoMoNet

open GuardedRun (System)

/-- The item of a message. -/
def PutMessage.item (m : PutMessage) : DhtItem :=
  ⟨m.p.dataSection, m.sigP.stringValue, m.sigUser.stringValue⟩

/-- The hash of its target. -/
def PutMessage.targetHash (env : DhtEnv) (m : PutMessage) : Bytes :=
  env.hasher m.target.dataSection

/-- It is for a multi target. -/
def PutMessage.multi (m : PutMessage) : Bool := m.t.stringValue == ascii "m"

/-- The number `seq` in an item, as the wire has it. -/
def DhtItem.wireSeq (env : DhtEnv) (item : DhtItem) : Int :=
  (env.lazyBdecode item.p).dictFindIntValue "seq"

/-- The item held. -/
def StorageTable.held (table : StorageTable) (target : Bytes) : Option DhtItem :=
  (table target).bind List.head?

/-- Single targets hold at most one item. -/
def StorageTable.Short (env : DhtEnv) (table : StorageTable) : Prop :=
  ∀ data lsto, table (env.hasher data) = some lsto → (env.lazyBdecode data).isMulti = false →
    lsto.length ≤ 1

/-! ## What a message does to the table -/

section Handler

variable {env : DhtEnv} {node : DhtNode} {s s' : DhtState} {m : PutMessage} {arg : LazyEntry}
variable {reply : PutReply}

/-- What the content of a handled message is. -/
theorem checkContent_none (h : checkContent node m.keys = .ok none) :
    (m.multi = false → ∃ seq, m.seq = some seq ∧ 0 ≤ seq.intValue) ∧
      m.r.stringValue.length ≤ 32 ∧
      (0 < node.bestHeight → m.height.intValue ≤ node.bestHeight + 1) := by
  simp only [checkContent, deref, msgKey_keys, PutMessage.get, bind, Except.bind, pure,
    Except.pure] at h
  split at h
  · cases h
  split at h
  · cases h
  rename_i hlen
  split at h
  · cases h
  rename_i hseq
  split at h
  · cases h
  rename_i hheight
  refine ⟨fun hsingle => ?_, by omega, fun hbest => ?_⟩
  · rw [PutMessage.multi] at hsingle
    cases hm : m.seq with
    | none => simp [hsingle, hm] at hseq
    | some seq => exact ⟨seq, rfl, by simpa [hsingle, hm] using hseq⟩
  · by_contra hhigh
    exact hheight ⟨by omega, hbest⟩

/-- The last part of the handler is one call of `store_dht_item`, for a
neighbour. -/
theorem storeMessage_eq {seq : Int} (hseq : seqArgument m.keys m.multi = .ok seq) :
    storeMessage env node s m.keys =
      if !possiblyNeighbor node (m.targetHash env) then .ok (.ignored, s)
      else
        (storeDhtItem env s.storage m.item (m.targetHash env) m.multi (toInt32 seq)
          (toInt32 m.height.intValue) m.v.dataSection).map fun r =>
            (.handled r.1, if r.1 then processNewlyStoredEntry m.p { s with storage := r.2 }
              else { s with storage := r.2 }) := by
  rw [PutMessage.multi] at hseq
  simp only [storeMessage, deref, msgKey_keys, PutMessage.get, bind, Except.bind, pure, Except.pure,
    hseq]
  rfl

/-- A handled message passed the checks and went to `store_dht_item`; others leave the table. -/
theorem putData_cases (hverify : verifyMessage putDataDesc arg = .ok m.keys)
    (h : putData env node s arg = .ok (reply, s')) :
    ((∀ stored, reply ≠ .handled stored) ∧ s'.storage = s.storage) ∨
      ∃ stored seq, reply = .handled stored ∧ checkContent node m.keys = .ok none ∧
        seqArgument m.keys m.multi = .ok seq ∧
        storeDhtItem env s.storage m.item (m.targetHash env) m.multi (toInt32 seq)
          (toInt32 m.height.intValue) m.v.dataSection = .ok (stored, s'.storage) := by
  obtain ⟨refusal, henvelope⟩ := checkEnvelope_ok env node m
  obtain ⟨refusal', hcontent, hseq⟩ := checkContent_ok node m
  rw [putData, hverify] at h
  simp only [henvelope, bind, Except.bind, pure, Except.pure] at h
  cases refusal with
  | some msg =>
    cases h
    exact .inl ⟨by simp, rfl⟩
  | none =>
    simp only at h
    split at h
    · cases h
    rename_i admin hadmin
    split at h
    · cases h
      exact .inl ⟨by simp, rfl⟩
    simp only [hcontent] at h
    cases refusal' with
    | some msg =>
      cases h
      exact .inl ⟨by simp, rfl⟩
    | none =>
      obtain ⟨seq, hargument⟩ : ∃ seq, seqArgument m.keys m.multi = .ok seq := by
        rw [seqArgument]
        split
        · exact ⟨0, rfl⟩
        · rename_i hsingle
          obtain ⟨e, he⟩ := Option.isSome_iff_exists.mp
            (hseq rfl (Bool.eq_false_iff.mpr hsingle))
          rw [deref, msgKey_keys, PutMessage.get, he]
          exact ⟨e.intValue, rfl⟩
      simp only [storeMessage_eq hargument] at h
      split at h
      · cases h
        exact .inl ⟨by simp, rfl⟩
      · obtain ⟨r, hstore, h⟩ := Except.map_eq_ok_iff.mp h
        cases h
        refine .inr ⟨r.1, seq, rfl, hcontent, hargument, ?_⟩
        split
        · rw [processNewlyStoredEntry_storage, hstore]
        · exact hstore

end Handler

/-! ## Lists with one item -/

section Short

variable {env : DhtEnv} {item old : DhtItem} {seq height : Int} {v target : Bytes}
variable {multi stored : Bool} {table table' : StorageTable} {lsto : List DhtItem}

theorem storeSingle_length {r : Bool × List DhtItem} (h : storeSingle env item seq lsto = .ok r) :
    r.2.length = lsto.length := by
  induction lsto generalizing r with
  | nil =>
    cases h
    rfl
  | cons olditem rest ih =>
    rw [storeSingle] at h
    split at h
    · cases h
    split at h
    · obtain ⟨r', hrest, h⟩ := Except.map_eq_ok_iff.mp h
      rw [← h, List.length_cons, List.length_cons, ih hrest]
    · cases h
      rfl

theorem storeSingle_one (hold : old.Complete env false) :
    storeSingle env item seq [old] =
      .ok (if old.wireSeq env < seq then (true, [item]) else (false, [old])) := by
  have hseq : ((env.lazyBdecode old.p).dictFindInt "seq").isSome = true := hold
  obtain ⟨oldseq, hfound⟩ := Option.isSome_iff_exists.mp hseq
  rw [storeSingle, hfound, DhtItem.wireSeq, LazyEntry.dictFindIntValue, hfound]
  simp only [storeSingle, Option.map_some, Option.getD_some, gt_iff_lt]
  split <;> rfl

theorem storeDhtItem_short {data : Bytes} (short : table.Short env)
    (hinj : Function.Injective env.hasher) (hmulti : (env.lazyBdecode data).isMulti = multi)
    (h : storeDhtItem env table item (env.hasher data) multi seq height v = .ok (stored, table')) :
    table'.Short env := by
  have hshort : ∀ lsto' : List DhtItem, (multi = false → lsto'.length ≤ 1) →
      StorageTable.Short env (Function.update table (env.hasher data) (some lsto')) := by
    intro lsto' hlen data' lsto htable hsingle
    refine StorageTable.forall_update (P := fun target lsto => target = env.hasher data' →
      lsto.length ≤ 1) (fun target lsto hold heq => ?_) (fun heq => ?_) _ lsto htable rfl
    · exact short data' lsto (heq ▸ hold) hsingle
    · rw [← hinj heq, hmulti] at hsingle
      exact hlen hsingle
  rcases storeDhtItem_cases h with ⟨-, -, rfl⟩ | ⟨lsto, r, hlsto, hlist, -, rfl⟩
  · exact hshort [item] fun _ => Nat.le_refl 1
  · refine hshort _ fun hfalse => ?_
    subst hfalse
    rw [storeInList, if_neg Bool.false_ne_true] at hlist
    obtain ⟨r', hone, hlist⟩ := Except.map_eq_ok_iff.mp hlist
    have hlen := storeSingle_length hone
    rw [List.length_reverse] at hlen
    rw [← hlist, List.length_take, List.length_reverse, hlen]
    exact Nat.le_trans (Nat.min_le_right _ _) (short data lsto hlsto hmulti)

/-- Other targets stay as they are. -/
theorem storeDhtItem_other {other : Bytes} (hother : other ≠ target)
    (h : storeDhtItem env table item target multi seq height v = .ok (stored, table')) :
    table' other = table other := by
  rcases storeDhtItem_cases h with ⟨-, -, rfl⟩ | ⟨lsto, r, -, -, -, rfl⟩
  · exact Function.update_of_ne hother _ _
  · exact Function.update_of_ne hother _ _

/-- The item held after a call for a single target. -/
theorem storeDhtItem_held (hmax : 0 < env.maxEntriesPerMulti)
    (hcomplete : ∀ lsto, table target = some lsto → ∀ x ∈ lsto, x.Complete env false)
    (hshort : ∀ lsto, table target = some lsto → lsto.length ≤ 1)
    (h : storeDhtItem env table item target false seq height v = .ok (stored, table')) :
    table'.held target =
      match table target with
      | none => some item
      | some [] => none
      | some (old :: _) => if old.wireSeq env < seq then some item else some old := by
  rw [storeDhtItem] at h
  cases htable : table target with
  | none =>
    rw [htable] at h
    cases h
    rw [StorageTable.held, Function.update_self]
    rfl
  | some lsto =>
    have hlen := hshort lsto htable
    have hold := hcomplete lsto htable
    simp only [htable, storeInList, if_neg Bool.false_ne_true] at h
    cases lsto with
    | nil =>
      cases h
      rw [StorageTable.held, Function.update_self]
      simp
    | cons old rest =>
      have hnil : rest = [] := by
        rw [List.length_cons] at hlen
        exact List.length_eq_zero_iff.mp (by omega)
      subst hnil
      obtain ⟨n, hn⟩ := Nat.exists_eq_succ_of_ne_zero hmax.ne'
      rw [List.reverse_singleton, storeSingle_one (hold old List.mem_cons_self)] at h
      simp only [Except.map, Except.ok.injEq, Prod.mk.injEq] at h
      rw [← h.2, StorageTable.held, Function.update_self, hn]
      simp only
      split <;> rfl

end Short

/-! ## Runs -/

/-- Narrowing makes numbers smaller. -/
theorem toInt32_le {n : Int} (h : 0 ≤ n) : toInt32 n ≤ n := by
  rw [toInt32]
  omega

section Runs

variable {env : DhtEnv} {node : DhtNode} {s s' : DhtState} {m : PutMessage} {arg : LazyEntry}
variable {reply : PutReply} {stored : Bool}

theorem StorageTable.Short.putData (short : s.storage.Short env)
    (hinj : Function.Injective env.hasher)
    (hdec : ∀ m : PutMessage, verifyMessage putDataDesc arg = .ok m.keys → m.Decoded env)
    (h : putData env node s arg = .ok (reply, s')) : s'.storage.Short env := by
  cases hverify : verifyMessage putDataDesc arg with
  | error msg =>
    rw [CoMoNet.putData, hverify, Except.ok.injEq, Prod.mk.injEq] at h
    rw [← h.2]
    exact short
  | ok keys =>
    obtain ⟨m, rfl, read⟩ := verifyMessage_putData hverify
    rcases putData_cases hverify h with ⟨-, hsame⟩ | ⟨stored, seq, -, hcontent, -, hstore⟩
    · rw [hsame]
      exact short
    · obtain ⟨refusal, hcontent', hseq⟩ := checkContent_ok node m
      rw [hcontent, Except.ok.injEq] at hcontent'
      exact storeDhtItem_short short hinj
        (read.complete (hdec m hverify) (hseq hcontent'.symm)).1 hstore

theorem StorageTable.Short.putDataSigned {username resource sigP sigUser : Bytes}
    {multi isLocal : Bool} {p : List (Bytes × Entry)} (short : s.storage.Short env)
    (hinj : Function.Injective env.hasher)
    (hdec : Decodable env s (.putDataSigned username resource multi p sigP sigUser isLocal))
    (h : putDataSigned env s username resource multi p sigP sigUser isLocal = .ok s') :
    s'.storage.Short env := by
  rcases putDataSigned_cases h with rfl | ⟨v, height, stored, -, -, hstore⟩
  · exact short
  · exact storeDhtItem_short short hinj (isMulti_ownTarget hdec.2) hstore

theorem short_of_reach (hinj : Function.Injective env.hasher)
    (h : (dhtSystem env).Reach (Decodable env) s) : s.storage.Short env := by
  refine h.invariant (I := fun s => s.storage.Short env) ?_ ?_
  · intro s hinit data lsto htarget
    rw [hinit] at htarget
    cases htarget
  · intro s a s' short hdec hstep
    cases hstep with
    | putData hput => exact short.putData hinj hdec hput
    | putDataSigned hput => exact short.putDataSigned hinj hdec hput
    | loadStorage hload =>
      intro data lsto htarget hsingle
      rw [hload] at htarget
      obtain ⟨lsto', hlsto', hsub⟩ := sublist_of_loadStorage htarget
      exact hsub.length_le.trans (short data lsto' hlsto' hsingle)

/-- A single item that passes has a number, and not a negative one. -/
theorem checkContent_seq (h : checkContent node m.keys = .ok none) (hsingle : m.multi = false) :
    ∃ seq, m.seq = some seq ∧ 0 ≤ seq.intValue ∧
      seqArgument m.keys m.multi = .ok seq.intValue := by
  obtain ⟨seq, hseq, hnonneg⟩ := (checkContent_none h).1 hsingle
  refine ⟨seq, hseq, hnonneg, ?_⟩
  rw [hsingle, seqArgument, if_neg Bool.false_ne_true, deref, msgKey_keys, PutMessage.get, hseq]
  rfl

/-- What a message that is handled leaves for its target, if it is a single
one. -/
theorem putData_held (hinj : Function.Injective env.hasher) (hmax : 0 < env.maxEntriesPerMulti)
    (h : (dhtSystem env).Reach (Decodable env) s)
    (hverify : verifyMessage putDataDesc arg = .ok m.keys) (decoded : m.Decoded env)
    (hsingle : m.multi = false) (hput : putData env node s arg = .ok (.handled stored, s')) :
    ∃ seq, m.seq = some seq ∧ 0 ≤ seq.intValue ∧ m.item.wireSeq env = seq.intValue ∧
      s'.storage.held (m.targetHash env) =
        match s.storage (m.targetHash env) with
        | none => some m.item
        | some [] => none
        | some (old :: _) =>
          if old.wireSeq env < toInt32 seq.intValue then some m.item else some old := by
  obtain ⟨m', hkeys, read⟩ := verifyMessage_putData hverify
  rw [← PutMessage.keys_inj hkeys] at read
  rcases putData_cases hverify hput with ⟨hnot, -⟩ | ⟨b, n, hreply, hcontent, hargument, hstore⟩
  · exact absurd rfl (hnot stored)
  obtain ⟨seq, hseq, hnonneg, hargument'⟩ := checkContent_seq hcontent hsingle
  rw [hargument', Except.ok.injEq] at hargument
  rw [hsingle, ← hargument] at hstore
  have htarget : (env.lazyBdecode m.target.dataSection).isMulti = false := by
    rw [(read.complete decoded fun _ => by rw [hseq]; rfl).1]
    exact hsingle
  refine ⟨seq, hseq, hnonneg, ?_, ?_⟩
  · rw [DhtItem.wireSeq, PutMessage.item, decoded.1, LazyEntry.dictFindIntValue,
      LazyEntry.dictFindInt, read.seq, hseq]
    rfl
  · refine storeDhtItem_held hmax ?_ ?_ hstore
    · intro lsto hlsto
      have hcomplete := (sound_of_reach hinj h).complete hinj hlsto
      rwa [htarget] at hcomplete
    · intro lsto hlsto
      exact short_of_reach hinj h _ lsto hlsto htarget

variable (env) in
/-- The target has no item, or one with a lower number. -/
def PutMessage.Newer (m : PutMessage) (table : StorageTable) (seq : Int) : Prop :=
  ∀ old, table.held (m.targetHash env) = some old → old.wireSeq env < seq

variable (env) in
/-- The target has no empty list, and the narrowed number is higher than the held one. -/
def PutMessage.Replaces (m : PutMessage) (table : StorageTable) (seq : Int) : Prop :=
  table (m.targetHash env) ≠ some [] ∧
    ∀ old, table.held (m.targetHash env) = some old → old.wireSeq env < toInt32 seq

end Runs

/-! ### The status of alice -/

/-- The status of alice. -/
def statusTarget : Entry := targetEntry (ascii "alice") (ascii "status") (ascii "s")

/-- A status. -/
def statusP (seq : Int) : List (Bytes × Entry) :=
  [(ascii "height", .int 4), (ascii "seq", .int seq), (ascii "target", statusTarget),
    (ascii "time", .int 1000), (ascii "v", .str [])]

/-- The message with it. -/
def statusArg (seq : Int) : LazyEntry :=
  let sigP := createSignature signNet aliceDht.toPostNode (Entry.bencode (.dict (statusP seq)))
    (ascii "alice")
  Entry.lazy (.dict [(ascii "p", .dict (statusP seq)), (ascii "sig_p", .str sigP),
    (ascii "sig_user", .str (ascii "alice")), (ascii "token", .str [])])

theorem status_message {seq : Int}
    (h : (verifyMessage putDataDesc (statusArg seq)).toOption.isSome = true) :
    ∃ m : PutMessage, verifyMessage putDataDesc (statusArg seq) = .ok m.keys ∧
      m.Decoded dhtNet ∧ m.multi = false ∧ m.targetHash dhtNet = Entry.bencode statusTarget ∧
      m.seq = some (Entry.lazy (.int seq)) := by
  obtain ⟨keys, hverify⟩ := Except.exists_ok_of_isSome h
  obtain ⟨m, rfl, read⟩ := verifyMessage_putData hverify
  have hp : m.p = Entry.lazy (.dict (statusP seq)) := Entry.eq_lazy_of_dictFind read.p.1 rfl
  have ht : m.target = Entry.lazy statusTarget :=
    Entry.eq_lazy_of_dictFind (hp ▸ read.target.1) rfl
  refine ⟨m, hverify, read.decoded, ?_, ?_, ?_⟩
  · have hkind := isMulti_targetEntry (ascii "alice") (ascii "status") (ascii "s")
    have hfound : m.target.dictFindString "t" = some m.t :=
      LazyEntry.dictFindType_eq_some.mpr read.t
    rw [← statusTarget, ← ht, LazyEntry.isMulti, LazyEntry.dictFindStringValue, hfound] at hkind
    exact hkind
  · rw [PutMessage.targetHash, ht, Entry.dataSection_lazy]
    rfl
  · have hfound := read.seq
    rw [PutMessage.Optional, hp, LazyEntry.dictFindType, Entry.dictFind_lazy] at hfound
    exact hfound.symm

/-- The table after the first status. -/
def statusState : DhtState :=
  ((putData dhtNet aliceDht {} (statusArg 0)).toOption.map Prod.snd).getD {}

/-- The state after it has expired and the node has started again. -/
def expiredState : DhtState where
  storage := loadStorage (fun _ => true) (saveStorage statusState.storage)

theorem reach_statusState
    (h : (putData dhtNet aliceDht {} (statusArg 0)).toOption.isSome = true) :
    (dhtSystem dhtNet).Reach (Decodable dhtNet) statusState := by
  have hinit : (dhtSystem dhtNet).Reach (Decodable dhtNet) {} := .init fun _ => rfl
  obtain ⟨⟨answer, s'⟩, hput⟩ := Except.exists_ok_of_isSome h
  have hstate : statusState = s' := by
    rw [statusState, hput]
    rfl
  rw [hstate]
  refine .step (a := .putData aliceDht (statusArg 0)) hinit (fun m hverify => ?_) (.putData hput)
  obtain ⟨m', hkeys, read⟩ := verifyMessage_putData hverify
  rw [PutMessage.keys_inj hkeys]
  exact read.decoded

section Runs

variable {env : DhtEnv} {s : DhtState}

/-- A message with a higher number than the held item, or without one held, is held afterwards
exactly if the list is not empty and the number is higher as an `int`. No message lowers the held
number. -/
theorem single_fresh_iff (hinj : Function.Injective env.hasher)
    (hmax : 0 < env.maxEntriesPerMulti) (h : (dhtSystem env).Reach (Decodable env) s) :
    (∀ node arg m stored s', verifyMessage putDataDesc arg = .ok (PutMessage.keys m) →
      m.Decoded env → m.multi = false → putData env node s arg = .ok (.handled stored, s') →
      ∃ seq, m.seq = some seq ∧ m.item.wireSeq env = seq.intValue ∧
        ((m.Newer env s.storage seq.intValue →
            s'.storage.held (m.targetHash env) = some m.item) ↔
          (m.Newer env s.storage seq.intValue → m.Replaces env s.storage seq.intValue))) ∧
    ∀ node arg reply s' data old, Decodable env s (.putData node arg) →
      putData env node s arg = .ok (reply, s') → (env.lazyBdecode data).isMulti = false →
      s.storage.held (env.hasher data) = some old →
      ∃ new, s'.storage.held (env.hasher data) = some new ∧ old.wireSeq env ≤ new.wireSeq env := by
  constructor
  · intro node arg m stored s' hverify decoded hsingle hput
    obtain ⟨seq, hseq, hnonneg, hwire, hheld⟩ :=
      putData_held hinj hmax h hverify decoded hsingle hput
    refine ⟨seq, hseq, hwire, imp_congr_right fun hnewer => ?_⟩
    rw [PutMessage.Newer, StorageTable.held] at hnewer
    rw [hheld, PutMessage.Replaces, StorageTable.held]
    cases htable : s.storage (m.targetHash env) with
    | none => simp
    | some lsto =>
      cases lsto with
      | nil => simp
      | cons old rest =>
        have hold := hnewer old (by rw [htable]; rfl)
        simp only [Option.bind_some, List.head?_cons, Option.some.injEq, forall_eq', ne_eq,
          reduceCtorEq, not_false_eq_true, true_and]
        constructor
        · intro heq
          by_contra hnot
          rw [if_neg hnot, Option.some.injEq] at heq
          rw [heq, hwire] at hold
          exact absurd hold (Int.lt_irrefl _)
        · intro hlt
          rw [if_pos hlt]
  · intro node arg reply s' data old hdec hput hdata hold
    cases hverify : verifyMessage putDataDesc arg with
    | error msg =>
      rw [putData, hverify, Except.ok.injEq, Prod.mk.injEq] at hput
      exact ⟨old, hput.2 ▸ hold, Int.le_refl _⟩
    | ok keys =>
      obtain ⟨m, rfl, read⟩ := verifyMessage_putData hverify
      rcases putData_cases hverify hput with
        ⟨-, hsame⟩ | ⟨stored, n, rfl, hcontent, hargument, hstore⟩
      · exact ⟨old, hsame ▸ hold, Int.le_refl _⟩
      by_cases htarget : env.hasher data = m.targetHash env
      · have hsame : data = m.target.dataSection := hinj htarget
        obtain ⟨refusal, hcontent', hseq⟩ := checkContent_ok node m
        rw [hcontent, Except.ok.injEq] at hcontent'
        have hsingle : m.multi = false := by
          rw [PutMessage.multi, ← (read.complete (hdec m hverify) (hseq hcontent'.symm)).1, ← hsame]
          exact hdata
        obtain ⟨seq, -, hnonneg, hwire, hheld⟩ :=
          putData_held hinj hmax h hverify (hdec m hverify) hsingle hput
        rw [htarget, StorageTable.held] at hold
        rw [htarget, hheld]
        obtain ⟨lsto, hlsto, hhead⟩ := Option.bind_eq_some_iff.mp hold
        cases lsto with
        | nil => cases hhead
        | cons x rest =>
          cases hhead
          rw [hlsto]
          by_cases hlt : old.wireSeq env < toInt32 seq.intValue
          · have hle := toInt32_le hnonneg
            exact ⟨m.item, if_pos hlt, by omega⟩
          · exact ⟨old, if_neg hlt, Int.le_refl _⟩
      · have hother := storeDhtItem_other htarget hstore
        rw [StorageTable.held] at hold
        exact ⟨old, by rw [StorageTable.held, hother, hold], Int.le_refl _⟩

/-- A status with the number 1 takes the place of one with the number 0. -/
theorem single_fresh_alice :
    ∃ m s', verifyMessage putDataDesc (statusArg 1) = .ok (PutMessage.keys m) ∧
      putData dhtNet aliceDht statusState (statusArg 1) = .ok (.handled true, s') ∧
      m.Newer dhtNet statusState.storage 1 ∧
      s'.storage.held (Entry.bencode statusTarget) = some m.item := by
  have hfacts : (putData dhtNet aliceDht {} (statusArg 0)).toOption.isSome = true ∧
      (verifyMessage putDataDesc (statusArg 1)).toOption.isSome = true ∧
      (statusState.storage (Entry.bencode statusTarget)).map
        (List.map (DhtItem.wireSeq dhtNet)) =
        some [0] ∧
      (putData dhtNet aliceDht statusState (statusArg 1)).toOption.map Prod.fst =
        some (.handled true) := by
    decide +kernel
  obtain ⟨hrun, hone, hheld, hput⟩ := hfacts
  obtain ⟨m, hverify, hdec, hsingle, htarget, hseq⟩ := status_message hone
  obtain ⟨lsto, hlsto, hwires⟩ := Option.map_eq_some_iff.mp hheld
  have hzero : ∀ old, statusState.storage.held (m.targetHash dhtNet) = some old →
      old.wireSeq dhtNet = 0 := by
    intro old hold
    rw [htarget, StorageTable.held, hlsto, Option.bind_some] at hold
    have hmem : old.wireSeq dhtNet ∈ lsto.map (DhtItem.wireSeq dhtNet) :=
      List.mem_map_of_mem (List.mem_of_mem_head? hold)
    rw [hwires] at hmem
    exact List.mem_singleton.mp hmem
  have hnewer : m.Newer dhtNet statusState.storage 1 := by
    intro old hold
    rw [hzero old hold]
    decide
  obtain ⟨⟨answer, s'⟩, hres, htrue⟩ := Except.toOption_map_eq_some_iff.mp hput
  cases htrue
  obtain ⟨seq, hseq', -, hiff⟩ := (single_fresh_iff Function.injective_id (by decide)
    (reach_statusState hrun)).1 aliceDht (statusArg 1) m true s' hverify hdec hsingle hres
  rw [hseq, Option.some.injEq] at hseq'
  subst hseq'
  refine ⟨m, s', hverify, hres, hnewer, htarget ▸ hiff.mpr (fun _ => ⟨?_, ?_⟩) hnewer⟩
  · rw [htarget, hlsto, Ne, Option.some.injEq]
    rintro rfl
    cases hwires
  · intro old hold
    rw [hzero old hold]
    decide

/-- A status numbered 2 ^ 32 does not replace one numbered 0, and after all items have expired
none is stored. -/
theorem status_not_stored :
    ((dhtSystem dhtNet).Reach (Decodable dhtNet) statusState ∧
      ∃ s' old, putData dhtNet aliceDht statusState (statusArg (2 ^ 32)) =
          .ok (.handled false, s') ∧
        s'.storage.held (Entry.bencode statusTarget) = some old ∧ old.wireSeq dhtNet = 0) ∧
    ∃ s s', (dhtSystem dhtNet).Reach (Decodable dhtNet) s ∧
      s.storage.held (Entry.bencode statusTarget) = none ∧
      putData dhtNet aliceDht s (statusArg 1) = .ok (.handled false, s') ∧
      s'.storage.held (Entry.bencode statusTarget) = none := by
  have hfacts : (putData dhtNet aliceDht {} (statusArg 0)).toOption.isSome = true ∧
      (putData dhtNet aliceDht statusState (statusArg (2 ^ 32))).toOption.map
        (fun r => (r.1, (r.2.storage.held (Entry.bencode statusTarget)).map
          (DhtItem.wireSeq dhtNet))) = some (.handled false, some 0) ∧
      expiredState.storage.held (Entry.bencode statusTarget) = none ∧
      (putData dhtNet aliceDht expiredState (statusArg 1)).toOption.map
        (fun r => (r.1, r.2.storage.held (Entry.bencode statusTarget))) =
          some (.handled false, none) := by
    decide +kernel
  obtain ⟨hrun, hwide, hnone, hempty⟩ := hfacts
  have hreach := reach_statusState hrun
  refine ⟨⟨hreach, ?_⟩, expiredState, ?_⟩
  · obtain ⟨⟨answer, s'⟩, hres, hvalue⟩ := Except.toOption_map_eq_some_iff.mp hwide
    obtain ⟨rfl, hheld⟩ := Prod.mk.inj hvalue
    obtain ⟨old, hold, hzero⟩ := Option.map_eq_some_iff.mp hheld
    exact ⟨s', old, hres, hold, hzero⟩
  · obtain ⟨⟨answer, s'⟩, hres, hvalue⟩ := Except.toOption_map_eq_some_iff.mp hempty
    obtain ⟨rfl, hheld⟩ := Prod.mk.inj hvalue
    refine ⟨s', ?_, hnone, hres, hheld⟩
    have hload : expiredState.storage =
        loadStorage (fun _ => true) (saveStorage statusState.storage) := by
      rw [expiredState]
    exact .step (a := .loadStorage fun _ => true) hreach trivial (.loadStorage hload)

end Runs

end CoMoNet
