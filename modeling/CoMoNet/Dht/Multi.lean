import CoMoNet.Dht.Fresh
import CoMoNet.Lib.RankedList

/-!
# The list of a multi target

`store_dht_item` scans the list from the back for the value and the place of a new item,
which is that of `RankedList.insert`, and cuts the list off (`multi_ordered`).
-/

namespace CoMoNet

open GuardedRun (System)

/-- The height of an item. -/
def DhtItem.height (env : DhtEnv) (item : DhtItem) : Int :=
  (env.lazyBdecode item.p).dictFindIntValue "height"

/-- The value of an item. -/
def DhtItem.value (env : DhtEnv) (item : DhtItem) : Bytes :=
  ((env.lazyBdecode item.p).dictFind "v").elim [] LazyEntry.dataSection

/-! ## The scan -/

section Scan

variable {env : DhtEnv} {item : DhtItem} {seq height : Int} {v target : Bytes} {stored : Bool}
variable {lsto : List DhtItem} {table table' : StorageTable}

/-- The scan finds the value or the place. -/
theorem multiSlot_cases {j pos : Nat} {slot : Option Nat}
    (h : multiSlot env v height j pos lsto = .ok slot) :
    (slot = none ∧ ∃ x ∈ lsto, x.value env = v) ∨
      slot = some (RankedList.slot (DhtItem.height env) height j pos lsto) ∧
        ∀ x ∈ lsto, x.value env ≠ v := by
  induction lsto generalizing j pos with
  | nil =>
    cases h
    exact .inr ⟨rfl, nofun⟩
  | cons olditem rest ih =>
    rw [multiSlot] at h
    split at h
    · cases h
    rename_i oldv hold
    have hvalue : olditem.value env = oldv.dataSection := by
      rw [DhtItem.value, hold]
      rfl
    split at h
    · rename_i heq
      cases h
      exact .inl ⟨rfl, olditem, List.mem_cons_self, by rw [hvalue, heq]⟩
    · rename_i hne
      rcases ih h with ⟨hnone, x, hx, hxv⟩ | ⟨hslot, hall⟩
      · exact .inl ⟨hnone, x, List.mem_cons_of_mem _ hx, hxv⟩
      · refine .inr ⟨hslot, fun x hx => ?_⟩
        rcases List.mem_cons.mp hx with rfl | hx
        · rw [hvalue]
          exact fun heq => hne heq.symm
        · exact hall x hx

/-- The list of a multi target that has the value stays; another one gets the
item. -/
theorem storeInList_multi {r : Bool × List DhtItem}
    (h : storeInList env item true seq height v lsto = .ok r) :
    (r = (false, lsto) ∧ ∃ x ∈ lsto, x.value env = v) ∨
      r = (true, (lsto.reverse.insertIdx
        (RankedList.slot (DhtItem.height env) height 0 0 lsto.reverse) item).reverse) ∧
        ∀ x ∈ lsto, x.value env ≠ v := by
  rw [storeInList, if_pos rfl] at h
  obtain ⟨slot, hslot, h⟩ := Except.map_eq_ok_iff.mp h
  rcases multiSlot_cases hslot with ⟨rfl, x, hx, hxv⟩ | ⟨rfl, hall⟩
  · exact .inl ⟨h.symm, x, List.mem_reverse.mp hx, hxv⟩
  · exact .inr ⟨h.symm, fun x hx => hall x (List.mem_reverse.mpr hx)⟩

end Scan

/-! ## The order -/

/-- The table of a node and the items it has stored for a target, the last one
first. -/
structure MultiState where
  table : StorageTable := fun _ => none
  history : List DhtItem := []

/-- A call for a multi target with the height and value of the item. -/
def MultiStep (env : DhtEnv) (target : Bytes) (st : MultiState) (call : DhtItem × Int)
    (st' : MultiState) : Prop :=
  call.1.Complete env true ∧
    ∃ stored, storeDhtItem env st.table call.1 target true call.2 (call.1.height env)
        (call.1.value env) = .ok (stored, st'.table) ∧
      st'.history = if stored then call.1 :: st.history else st.history

/-- Calls for one target. -/
def multiSystem (env : DhtEnv) (target : Bytes) : System MultiState (DhtItem × Int) where
  init st := st = {}
  step := MultiStep env target

/-- `a` comes before `b`: it is higher, or it was stored later. -/
def Precedes (env : DhtEnv) (history : List DhtItem) (a b : DhtItem) : Prop :=
  b.height env < a.height env ∨
    b.height env = a.height env ∧ history.idxOf a < history.idxOf b

/-- What holds of the list. -/
structure MultiOK (env : DhtEnv) (history lsto : List DhtItem) : Prop where
  complete : ∀ x ∈ lsto, x.Complete env true
  stored : ∀ x ∈ lsto, x ∈ history
  ordered : lsto.Pairwise (Precedes env history)
  values : lsto.Pairwise fun a b => a.value env ≠ b.value env
  length : lsto.length ≤ env.maxEntriesPerMulti

section Order

variable {env : DhtEnv} {item : DhtItem} {seq : Int} {target : Bytes} {stored : Bool}
variable {history lsto lsto' : List DhtItem} {table table' : StorageTable} {st : MultiState}

theorem MultiOK.ranked (h : MultiOK env history lsto) :
    RankedList.Ordered (DhtItem.height env) lsto := by
  refine h.ordered.imp fun {a b} hab => ?_
  rcases hab with hlt | ⟨heq, -⟩ <;> omega

/-- Inserting and cutting off keeps it. -/
theorem MultiOK.insert (h : MultiOK env history lsto) (hitem : item.Complete env true)
    (hnew : ∀ x ∈ lsto, x.value env ≠ item.value env) :
    MultiOK env (item :: history)
      ((RankedList.insert (DhtItem.height env) item lsto).take env.maxEntriesPerMulti) := by
  have hne : ∀ x ∈ lsto, x ≠ item := fun x hx heq => hnew x hx (by rw [heq])
  have hidx : ∀ x ∈ lsto, (item :: history).idxOf x = history.idxOf x + 1 := fun x hx =>
    List.idxOf_cons_ne _ (hne x hx).symm
  have hordered : (RankedList.insert (DhtItem.height env) item lsto).Pairwise
      (Precedes env (item :: history)) := by
    refine RankedList.pairwise_insert h.ranked ?_ ?_ ?_
    · refine h.ordered.imp_of_mem fun {a b} ha hb hab => ?_
      rw [Precedes, hidx a ha, hidx b hb]
      rcases hab with hlt | ⟨heq, hlt⟩
      · exact .inl hlt
      · exact .inr ⟨heq, Nat.succ_lt_succ hlt⟩
    · exact fun a _ hlt => .inl hlt
    · intro a ha hle
      rcases Int.lt_or_eq_of_le hle with hlt | heq
      · exact .inl hlt
      · refine .inr ⟨heq, ?_⟩
        rw [hidx a ha, List.idxOf_cons_self]
        exact Nat.succ_pos _
  have hvalues : (RankedList.insert (DhtItem.height env) item lsto).Pairwise
      fun a b => a.value env ≠ b.value env :=
    RankedList.pairwise_insert h.ranked h.values (fun a ha _ => hnew a ha)
      fun a ha _ => (hnew a ha).symm
  refine ⟨fun x hx => ?_, fun x hx => ?_, hordered.sublist (List.take_sublist _ _),
    hvalues.sublist (List.take_sublist _ _), ?_⟩
  · rcases RankedList.mem_insert.mp (List.mem_of_mem_take hx) with rfl | hx
    · exact hitem
    · exact h.complete x hx
  · rcases RankedList.mem_insert.mp (List.mem_of_mem_take hx) with rfl | hx
    · exact List.mem_cons_self
    · exact List.mem_cons_of_mem _ (h.stored x hx)
  · rw [List.length_take]
    exact Nat.min_le_left _ _

theorem MultiOK.store (hmax : 0 < env.maxEntriesPerMulti) (hitem : item.Complete env true)
    (hok : ∀ lsto, table target = some lsto → MultiOK env history lsto)
    (h : storeDhtItem env table item target true seq (item.height env) (item.value env) =
      .ok (stored, table')) (hlsto : table' target = some lsto') :
    MultiOK env (if stored then item :: history else history) lsto' := by
  rcases storeDhtItem_cases h with ⟨-, rfl, rfl⟩ | ⟨lsto, r, htable, hlist, rfl, rfl⟩
  · rw [Function.update_self, Option.some.injEq] at hlsto
    subst hlsto
    exact ⟨by simpa using hitem, by simp, List.pairwise_singleton _ _,
      List.pairwise_singleton _ _, hmax⟩
  · have hold := hok lsto htable
    rw [Function.update_self, Option.some.injEq] at hlsto
    subst hlsto
    rcases storeInList_multi hlist with ⟨rfl, -⟩ | ⟨rfl, hnew⟩
    · rw [List.take_of_length_le hold.length]
      exact hold
    · rw [RankedList.insert_slot hold.ranked]
      exact hold.insert hitem hnew

theorem multiOK_of_reach (hmax : 0 < env.maxEntriesPerMulti)
    (h : (multiSystem env target).Reach (fun _ _ => True) st) :
    ∀ lsto, st.table target = some lsto → MultiOK env st.history lsto := by
  refine h.invariant
    (I := fun st => ∀ lsto, st.table target = some lsto → MultiOK env st.history lsto) ?_ ?_
  · rintro st rfl lsto hlsto
    cases hlsto
  · rintro st ⟨item, seq⟩ st' hok - ⟨hitem, stored, hstore, hhistory⟩ lsto' hlsto'
    rw [hhistory]
    exact MultiOK.store hmax hitem hok hstore hlsto'

end Order

/-! ### Items under a hashtag -/

/-- A hashtag. -/
def tagTarget : Entry := targetEntry (ascii "tag") (ascii "hashtag") (ascii "m")

/-- A message with it. -/
def tagP (height : Int) (c : UInt8) : List (Bytes × Entry) :=
  [(ascii "height", .int height), (ascii "target", tagTarget), (ascii "time", .int 1000),
    (ascii "v", .str [c])]

/-- The item. -/
def tagItem (height : Int) (c : UInt8) : DhtItem := ⟨Entry.bencode (.dict (tagP height c)), [], []⟩

theorem tagItem_complete (height : Int) (c : UInt8) :
    (tagItem height c).Complete dhtNet true := by
  rw [DhtItem.Complete, tagItem, lazyBdecode_dhtNet, Entry.dictFind_lazy]
  rfl

section Order

variable {env : DhtEnv} {target : Bytes} {lsto : List DhtItem} {st : MultiState}

/-- The list of a multi target has the highest item first and, among equal heights, the newest, no
value twice and not too many items. No call reads an absent field. -/
theorem multi_ordered (hmax : 0 < env.maxEntriesPerMulti)
    (h : (multiSystem env target).Reach (fun _ _ => True) st)
    (hlsto : st.table target = some lsto) :
    lsto.Pairwise (fun a b => b.height env ≤ a.height env) ∧
      lsto.Pairwise (fun a b => a.value env ≠ b.value env) ∧
      lsto.length ≤ env.maxEntriesPerMulti ∧
      (∀ x ∈ lsto, x ∈ st.history) ∧
      lsto.Pairwise (fun a b => a.height env = b.height env →
        st.history.idxOf a < st.history.idxOf b) ∧
      ∀ item seq height v, ∃ r, storeDhtItem env st.table item target true seq height v =
        .ok r := by
  have hok := multiOK_of_reach hmax h lsto hlsto
  refine ⟨hok.ranked, hok.values, hok.length, hok.stored, hok.ordered.imp ?_, ?_⟩
  · intro a b hab heq
    rcases hab with hlt | ⟨-, hidx⟩
    · exact absurd heq.symm (Int.ne_of_lt hlt)
    · exact hidx
  · intro item seq height v
    obtain ⟨r, hr, -⟩ : ∃ r, storeInList env item true seq height v lsto = .ok r ∧
        ∀ x ∈ r.2, x = item ∨ x ∈ lsto := storeInList_ok hok.complete
    rw [storeDhtItem, hlsto]
    exact ⟨_, by simp only [hr, Except.map]; rfl⟩

/-- Of two items of one height the second one comes first. -/
theorem multi_ordered_tag :
    ∃ st, (multiSystem dhtNet (Entry.bencode tagTarget)).Reach (fun _ _ => True) st ∧
      st.table (Entry.bencode tagTarget) = some [tagItem 4 2, tagItem 4 1] ∧
      st.history.idxOf (tagItem 4 2) < st.history.idxOf (tagItem 4 1) := by
  have hfacts : (tagItem 4 1).height dhtNet = 4 ∧ (tagItem 4 2).height dhtNet = 4 ∧
      (storeInList dhtNet (tagItem 4 2) true 0 ((tagItem 4 2).height dhtNet)
        ((tagItem 4 2).value dhtNet) [tagItem 4 1]).toOption =
          some (true, [tagItem 4 2, tagItem 4 1]) := by
    decide +kernel
  obtain ⟨hheight, hheight', hlist⟩ := hfacts
  let first : MultiState :=
    ⟨Function.update (fun _ => none) (Entry.bencode tagTarget) (some [tagItem 4 1]), [tagItem 4 1]⟩
  let second : MultiState :=
    ⟨Function.update first.table (Entry.bencode tagTarget) (some [tagItem 4 2, tagItem 4 1]),
      [tagItem 4 2, tagItem 4 1]⟩
  have hfirst : (multiSystem dhtNet (Entry.bencode tagTarget)).Reach (fun _ _ => True) first :=
    .step (a := (tagItem 4 1, 0)) (.init rfl) trivial ⟨tagItem_complete 4 1, true, rfl, rfl⟩
  have hsecond : (multiSystem dhtNet (Entry.bencode tagTarget)).Reach (fun _ _ => True) second := by
    refine .step (a := (tagItem 4 2, 0)) hfirst trivial ⟨tagItem_complete 4 2, true, ?_, rfl⟩
    rw [storeDhtItem]
    simp only [first, Function.update_self, Except.toOption_eq_some_iff.mp hlist, Except.map]
    rfl
  have hlsto : second.table (Entry.bencode tagTarget) = some [tagItem 4 2, tagItem 4 1] := by
    simp only [second, Function.update_self]
  refine ⟨second, hsecond, hlsto, ?_⟩
  have hordered := (multi_ordered (by decide) hsecond hlsto).2.2.2.2.1
  exact (List.pairwise_cons.mp hordered).1 (tagItem 4 1) (List.mem_singleton_self _)
    (by rw [hheight, hheight'])

end Order

end CoMoNet
