import CoMoNet.Dht.Bdecode
import CoMoNet.Dht.Message
import Mathlib.Data.List.InsertIdx

/-!
# The storage table

A single target holds the item with the highest sequence number, a multi target a list
by height. `store_dht_item` reads `seq` or `v` of stored items without a test, which
`Sound` tables have.
-/

namespace CoMoNet

/-! ## Items -/

/-- `dht_storage_item`, without the times of its refresh. -/
structure DhtItem where
  /-- The bytes of `p`. -/
  p : Bytes
  sigP : Bytes
  sigUser : Bytes
deriving DecidableEq, Repr

/-- What stops the node. -/
inductive DhtFault where
  /-- A null pointer from `msg_keys` is used. -/
  | absent (key : MsgKey)
  /-- A null pointer from `dict_find` in a stored item is used. -/
  | storedAbsent (name : String)
  | exn (e : Exn)
deriving DecidableEq, Repr

/-- What the code of the DHT is linked with. -/
structure DhtEnv extends Env where
  mapToPrime : Bytes → Nat
  /-- `hasher(…).final()`, that is SHA-1. -/
  hasher : Bytes → Bytes
  /-- What `lazy_bdecode` leaves behind for the bytes, with the limits 10 and 500. -/
  lazyBdecode : Bytes → LazyEntry
  /-- What was encoded is read back, if it is within the limits. -/
  readsBack : ∀ e : Entry, e.WithinLimits → lazyBdecode (Entry.bencode e) = Entry.lazy e
  /-- `m_settings.max_entries_per_multi`. -/
  maxEntriesPerMulti : Nat

/-- The hash under which the items of a resource are stored. -/
def dhtTargetHash (env : DhtEnv) (username resource type : Bytes) : Bytes :=
  env.hasher (Entry.bencode (targetEntry username resource type))

/-- Items by target hash. -/
abbrev StorageTable := Bytes → Option (List DhtItem)

/-! ## store_dht_item -/

/-- The loop for a single item, from the back of the list. -/
def storeSingle (env : DhtEnv) (item : DhtItem) (seq : Int) :
    List DhtItem → Except DhtFault (Bool × List DhtItem)
  | [] => .ok (false, [])
  | olditem :: rest =>
    match (env.lazyBdecode olditem.p).dictFindInt "seq" with
    | none => .error (.storedAbsent "seq")
    | some oldseq =>
      if seq > oldseq.intValue then
        (storeSingle env item seq rest).map fun r => (true, item :: r.2)
      else .ok (false, olditem :: rest)

/-- The loop for a multi item: its place from the back, or `none` if its value is there. -/
def multiSlot (env : DhtEnv) (v : Bytes) (height : Int) :
    Nat → Nat → List DhtItem → Except DhtFault (Option Nat)
  | _, insertPos, [] => .ok (some insertPos)
  | j, insertPos, olditem :: rest =>
    match (env.lazyBdecode olditem.p).dictFind "v" with
    | none => .error (.storedAbsent "v")
    | some oldv =>
      if v = oldv.dataSection then .ok none
      else
        let newer := height ≥ (env.lazyBdecode olditem.p).dictFindIntValue "height"
        multiSlot env v height (j + 1) (if newer then j + 1 else insertPos) rest

/-- The list after a call. -/
def storeInList (env : DhtEnv) (item : DhtItem) (multi : Bool) (seq height : Int) (v : Bytes)
    (lsto : List DhtItem) : Except DhtFault (Bool × List DhtItem) :=
  if multi then
    (multiSlot env v height 0 0 lsto.reverse).map fun slot =>
      match slot with
      | none => (false, lsto)
      | some insertPos => (true, (lsto.reverse.insertIdx insertPos item).reverse)
  else (storeSingle env item seq lsto.reverse).map fun r => (r.1, r.2.reverse)

/-- `store_dht_item`: whether the item was stored, and the table. -/
def storeDhtItem (env : DhtEnv) (table : StorageTable) (item : DhtItem) (target : Bytes)
    (multi : Bool) (seq height : Int) (v : Bytes) : Except DhtFault (Bool × StorageTable) :=
  match table target with
  | none => .ok (true, Function.update table target (some [item]))
  | some lsto =>
    (storeInList env item multi seq height v lsto).map fun r =>
      (r.1, Function.update table target (some (r.2.take env.maxEntriesPerMulti)))

/-- `save_storage`, which writes no empty list. -/
def saveStorage (table : StorageTable) : StorageTable := fun target =>
  (table target).filter fun lsto => !lsto.isEmpty

/-- `load_storage` of a saved table: the lists without the items that have
expired. -/
def loadStorage (expired : DhtItem → Bool) (saved : StorageTable) : StorageTable := fun target =>
  (saved target).map (List.filter fun item => !expired item)

/-! ## Sound tables -/

/-- An item has the fields that are read when another one comes for its target. -/
def DhtItem.Complete (env : DhtEnv) (multi : Bool) (item : DhtItem) : Prop :=
  if multi then ((env.lazyBdecode item.p).dictFind "v").isSome = true
  else ((env.lazyBdecode item.p).dictFindInt "seq").isSome = true

/-- Whether a target is one of a multi resource. -/
def LazyEntry.isMulti (target : LazyEntry) : Bool := target.dictFindStringValue "t" == ascii "m"

/-- Items lie under the hash of a target and are complete for its kind. -/
def StorageTable.Sound (env : DhtEnv) (table : StorageTable) : Prop :=
  ∀ target lsto, table target = some lsto → ∀ item ∈ lsto,
    ∃ data, env.hasher data = target ∧ item.Complete env (env.lazyBdecode data).isMulti

section Store

variable {env : DhtEnv} {item : DhtItem} {multi stored : Bool} {seq height : Int} {v : Bytes}
variable {target : Bytes} {lsto lsto' : List DhtItem} {table table' : StorageTable}

theorem sublist_of_loadStorage {expired : DhtItem → Bool}
    (h : loadStorage expired (saveStorage table) target = some lsto) :
    ∃ lsto', table target = some lsto' ∧ lsto.Sublist lsto' := by
  obtain ⟨lsto', hlsto', rfl⟩ := Option.map_eq_some_iff.mp h
  exact ⟨lsto', (Option.filter_eq_some_iff.mp hlsto').1, List.filter_sublist⟩

theorem storeSingle_ok (h : ∀ x ∈ lsto, x.Complete env false) :
    ∃ r, storeSingle env item seq lsto = .ok r ∧ ∀ x ∈ r.2, x = item ∨ x ∈ lsto := by
  induction lsto with
  | nil => exact ⟨(false, []), rfl, nofun⟩
  | cons olditem rest ih =>
    obtain ⟨r, hr, hmem⟩ := ih fun x hx => h x (List.mem_cons_of_mem _ hx)
    have hseq : ((env.lazyBdecode olditem.p).dictFindInt "seq").isSome = true :=
      h olditem List.mem_cons_self
    obtain ⟨oldseq, hold⟩ := Option.isSome_iff_exists.mp hseq
    rw [storeSingle, hold]
    simp only
    split
    · refine ⟨(true, item :: r.2), by rw [hr]; rfl, ?_⟩
      intro x hx
      rcases List.mem_cons.mp hx with rfl | hx
      · exact .inl rfl
      · exact (hmem x hx).imp_right (List.mem_cons_of_mem _)
    · exact ⟨(false, olditem :: rest), rfl, fun x hx => .inr hx⟩

theorem multiSlot_ok {j insertPos : Nat} (h : ∀ x ∈ lsto, x.Complete env true) :
    ∃ slot, multiSlot env v height j insertPos lsto = .ok slot := by
  induction lsto generalizing j insertPos with
  | nil => exact ⟨some insertPos, rfl⟩
  | cons olditem rest ih =>
    have hv : ((env.lazyBdecode olditem.p).dictFind "v").isSome = true :=
      h olditem List.mem_cons_self
    obtain ⟨oldv, hold⟩ := Option.isSome_iff_exists.mp hv
    rw [multiSlot, hold]
    simp only
    split
    · exact ⟨none, rfl⟩
    · exact ih fun x hx => h x (List.mem_cons_of_mem _ hx)

theorem storeInList_ok (h : ∀ x ∈ lsto, x.Complete env multi) :
    ∃ r, storeInList env item multi seq height v lsto = .ok r ∧ ∀ x ∈ r.2, x = item ∨ x ∈ lsto := by
  rw [storeInList]
  have hrev : ∀ x ∈ lsto.reverse, x.Complete env multi := fun x hx => h x (List.mem_reverse.mp hx)
  cases multi with
  | true =>
    obtain ⟨slot, hslot⟩ : ∃ slot, multiSlot env v height 0 0 lsto.reverse = .ok slot :=
      multiSlot_ok hrev
    rw [if_pos rfl, hslot]
    cases slot with
    | none => exact ⟨(false, lsto), rfl, fun x hx => .inr hx⟩
    | some insertPos =>
      refine ⟨_, rfl, fun x hx => ?_⟩
      rcases List.eq_or_mem_of_mem_insertIdx (List.mem_reverse.mp hx) with rfl | hx
      · exact .inl rfl
      · exact .inr (List.mem_reverse.mp hx)
  | false =>
    obtain ⟨r, hr, hmem⟩ : ∃ r, storeSingle env item seq lsto.reverse = .ok r ∧
        ∀ x ∈ r.2, x = item ∨ x ∈ lsto.reverse := storeSingle_ok hrev
    rw [if_neg Bool.false_ne_true, hr]
    refine ⟨_, rfl, fun x hx => ?_⟩
    exact (hmem x (List.mem_reverse.mp hx)).imp_right List.mem_reverse.mp

/-- Items under the hash of a target are complete for it. -/
theorem StorageTable.Sound.complete {data : Bytes} (sound : table.Sound env)
    (hinj : Function.Injective env.hasher) (h : table (env.hasher data) = some lsto) :
    ∀ x ∈ lsto, x.Complete env (env.lazyBdecode data).isMulti := by
  intro x hx
  obtain ⟨data', hdata', hcomplete⟩ := sound _ lsto h x hx
  rw [hinj hdata'] at hcomplete
  exact hcomplete

/-- What holds of every list holds after one was replaced, if it holds of the new
one. -/
theorem StorageTable.forall_update {P : Bytes → List DhtItem → Prop} {target : Bytes}
    (h : ∀ target lsto, table target = some lsto → P target lsto) (hnew : P target lsto) :
    ∀ other lsto', Function.update table target (some lsto) other = some lsto' → P other lsto' := by
  intro other lsto' hother
  by_cases heq : other = target
  · rw [heq, Function.update_self, Option.some.injEq] at hother
    rw [heq, ← hother]
    exact hnew
  · rw [Function.update_of_ne heq] at hother
    exact h other lsto' hother

/-- A call replaces the list of the target. -/
theorem storeDhtItem_cases {target : Bytes} {stored : Bool} {table' : StorageTable}
    (h : storeDhtItem env table item target multi seq height v = .ok (stored, table')) :
    (table target = none ∧ stored = true ∧ table' = Function.update table target (some [item])) ∨
      ∃ lsto r, table target = some lsto ∧ storeInList env item multi seq height v lsto = .ok r ∧
        stored = r.1 ∧
        table' = Function.update table target (some (r.2.take env.maxEntriesPerMulti)) := by
  rw [storeDhtItem] at h
  split at h
  · rename_i hnone
    cases h
    exact .inl ⟨hnone, rfl, rfl⟩
  · rename_i lsto hlsto
    obtain ⟨r, hlist, h⟩ := Except.map_eq_ok_iff.mp h
    cases h
    exact .inr ⟨lsto, r, hlsto, hlist, rfl, rfl⟩

variable (seq height v) in
/-- On a sound table a call returns, with a sound table. -/
theorem storeDhtItem_ok {data : Bytes} (sound : table.Sound env)
    (hinj : Function.Injective env.hasher) (hmulti : (env.lazyBdecode data).isMulti = multi)
    (hitem : item.Complete env multi) :
    ∃ r, storeDhtItem env table item (env.hasher data) multi seq height v = .ok r ∧
      r.2.Sound env := by
  have hsound : ∀ lsto : List DhtItem,
      (∀ x ∈ lsto, x.Complete env multi) →
        StorageTable.Sound env (Function.update table (env.hasher data) (some lsto)) := by
    intro lsto hlsto
    refine StorageTable.forall_update sound fun x hx => ⟨data, rfl, ?_⟩
    rw [hmulti]
    exact hlsto x hx
  rw [storeDhtItem]
  cases htable : table (env.hasher data) with
  | none =>
    refine ⟨_, rfl, hsound [item] fun x hx => ?_⟩
    rw [List.mem_singleton.mp hx]
    exact hitem
  | some lsto =>
    have hlsto : ∀ x ∈ lsto, x.Complete env multi := hmulti ▸ sound.complete hinj htable
    obtain ⟨r, hr, hmem⟩ : ∃ r, storeInList env item multi seq height v lsto = .ok r ∧
        ∀ x ∈ r.2, x = item ∨ x ∈ lsto := storeInList_ok hlsto
    simp only [hr, Except.map]
    refine ⟨_, rfl, hsound _ fun x hx => ?_⟩
    rcases hmem x (List.mem_of_mem_take hx) with rfl | hx
    · exact hitem
    · exact hlsto x hx

end Store

end CoMoNet
