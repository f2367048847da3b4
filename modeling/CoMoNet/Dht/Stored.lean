import CoMoNet.Dht.Multi

/-!
# What `store_dht_item` reports

The flag is set where an item is put into the list, which is cut off afterwards.
`store_reports_iff` says when the flag means that the item is new in the list.
-/

namespace CoMoNet

open GuardedRun (System)

/-- The item is in the list. -/
def StorageTable.Has (table : StorageTable) (target : Bytes) (item : DhtItem) : Prop :=
  ∃ lsto, table target = some lsto ∧ item ∈ lsto

/-- Lists are not too long. -/
def StorageTable.Bounded (env : DhtEnv) (table : StorageTable) : Prop :=
  ∀ target lsto, table target = some lsto → lsto.length ≤ env.maxEntriesPerMulti

/-- A multi target has the value, has room, or has an item that is not higher. A single target
lacks the item, or its last item has no lower number. -/
def Reports (env : DhtEnv) (table : StorageTable) (target : Bytes) (item : DhtItem) (multi : Bool)
    (seq height : Int) : Prop :=
  ∀ lsto, table target = some lsto →
    if multi then
      (∃ x ∈ lsto, x.value env = item.value env) ∨ lsto.length < env.maxEntriesPerMulti ∨
        ∃ x ∈ lsto, x.height env ≤ height
    else item ∈ lsto → ∀ last, lsto.getLast? = some last → seq ≤ last.wireSeq env

section Report

variable {env : DhtEnv} {item : DhtItem} {multi stored : Bool} {seq height : Int} {v : Bytes}
variable {target : Bytes} {lsto : List DhtItem} {table table' : StorageTable}
variable {r : Bool × List DhtItem}

theorem storeSingle_cases
    (h : storeSingle env item seq lsto.reverse = .ok r) :
    (r = (false, lsto.reverse) ∧ ∀ last, lsto.getLast? = some last → seq ≤ last.wireSeq env) ∨
      r.1 = true ∧ item ∈ r.2 ∧ ∃ last, lsto.getLast? = some last ∧ last.wireSeq env < seq := by
  rw [← List.head?_reverse]
  cases hrev : lsto.reverse with
  | nil =>
    rw [hrev] at h
    cases h
    exact .inl ⟨rfl, nofun⟩
  | cons last rest =>
    rw [hrev, storeSingle] at h
    split at h
    · cases h
    rename_i oldseq hold
    have hwire : last.wireSeq env = oldseq.intValue := by
      rw [DhtItem.wireSeq, LazyEntry.dictFindIntValue, hold]
      rfl
    split at h
    · rename_i hlt
      obtain ⟨r', hrest, h⟩ := Except.map_eq_ok_iff.mp h
      rw [← h]
      exact .inr ⟨rfl, List.mem_cons_self, last, rfl, by rw [hwire]; exact hlt⟩
    · rename_i hle
      cases h
      refine .inl ⟨rfl, fun x hx => ?_⟩
      cases hx
      rw [hwire]
      exact Int.not_lt.mp hle

/-- What the flag says about the list of a target. -/
theorem storeInList_reports
    (hlen : lsto.length ≤ env.maxEntriesPerMulti) (hv : multi = true → v = item.value env)
    (h : storeInList env item multi seq height v lsto = .ok r) :
    (r.1 = true ↔ item ∈ r.2.take env.maxEntriesPerMulti ∧ item ∉ lsto) ↔
      if multi then
        (∃ x ∈ lsto, x.value env = item.value env) ∨ lsto.length < env.maxEntriesPerMulti ∨
          ∃ x ∈ lsto, x.height env ≤ height
      else item ∈ lsto → ∀ last, lsto.getLast? = some last → seq ≤ last.wireSeq env := by
  cases multi with
  | true =>
    rw [if_pos rfl]
    rw [hv rfl] at h
    rcases storeInList_multi h with ⟨rfl, hdup⟩ | ⟨rfl, hnew⟩
    · rw [List.take_of_length_le hlen]
      exact iff_of_true (by simp) (.inl hdup)
    · have hnot : item ∉ lsto := fun hmem => hnew item hmem rfl
      have hslot : RankedList.slot (DhtItem.height env) height 0 0 lsto.reverse ≤ lsto.length := by
        have hle : RankedList.slot (DhtItem.height env) height 0 0 lsto.reverse ≤
          0 + lsto.reverse.length := RankedList.slot_le (Nat.le_refl 0)
        rwa [Nat.zero_add, List.length_reverse] at hle
      have hpos : 0 < RankedList.slot (DhtItem.height env) height 0 0 lsto.reverse ↔
          0 < 0 ∨ ∃ x ∈ lsto.reverse, x.height env ≤ height := RankedList.slot_pos_iff
      simp only [Nat.lt_irrefl, false_or, List.mem_reverse] at hpos
      have hdup : ¬∃ x ∈ lsto, x.value env = item.value env := by
        rintro ⟨x, hx, hxv⟩
        exact hnew x hx hxv
      rw [RankedList.mem_take_insertIdx hslot hnot, ← hpos]
      simp only [hnot, hdup, not_false_eq_true, and_true, true_iff, false_or]
      omega
  | false =>
    rw [if_neg Bool.false_ne_true]
    rw [storeInList, if_neg Bool.false_ne_true] at h
    obtain ⟨r', hone, h⟩ := Except.map_eq_ok_iff.mp h
    subst h
    have hlen' : r'.2.reverse.length ≤ env.maxEntriesPerMulti := by
      rw [List.length_reverse, storeSingle_length hone, List.length_reverse]
      exact hlen
    rw [List.take_of_length_le hlen']
    rcases storeSingle_cases hone with ⟨rfl, hle⟩ | ⟨htrue, hmem, last, hlast, hlt⟩
    · rw [List.reverse_reverse]
      exact iff_of_true (by simp) fun _ => hle
    · simp only [htrue, List.mem_reverse, hmem, true_and, true_iff, hlast, Option.some.injEq,
        forall_eq']
      constructor
      · exact fun hnot hin => absurd hin hnot
      · exact fun himp hin => absurd (himp hin) (Int.not_le.mpr hlt)

theorem StorageTable.Bounded.store (hmax : 0 < env.maxEntriesPerMulti) (hbound : table.Bounded env)
    (h : storeDhtItem env table item target multi seq height v = .ok (stored, table')) :
    table'.Bounded env := by
  rcases storeDhtItem_cases h with ⟨-, -, rfl⟩ | ⟨lsto, r, -, -, -, rfl⟩
  · exact StorageTable.forall_update hbound hmax
  · refine StorageTable.forall_update hbound ?_
    rw [List.length_take]
    exact Nat.min_le_left _ _

theorem storeDhtItem_reports (hbound : table.Bounded env)
    (hv : multi = true → v = item.value env)
    (h : storeDhtItem env table item target multi seq height v = .ok (stored, table')) :
    (stored = true ↔ table'.Has target item ∧ ¬table.Has target item) ↔
      Reports env table target item multi seq height := by
  rcases storeDhtItem_cases h with ⟨htable, rfl, rfl⟩ | ⟨lsto, r, htable, hlist, rfl, rfl⟩
  · refine iff_of_true ?_ fun lsto hlsto => ?_
    · simp [StorageTable.Has, htable]
    · rw [htable] at hlsto
      cases hlsto
  · have hreports := storeInList_reports (hbound target lsto htable) hv hlist
    simp only [Reports, htable, Option.some.injEq, forall_eq']
    rw [← hreports]
    simp [StorageTable.Has, htable]

end Report

/-! ## Runs -/

section Runs

variable {env : DhtEnv} {s s' : DhtState}

/-- Lists are bounded in every run. -/
theorem bounded_of_reach {ok : DhtState → DhtLabel → Prop} (hmax : 0 < env.maxEntriesPerMulti)
    (h : (dhtSystem env).Reach ok s) : s.storage.Bounded env := by
  refine h.invariant (I := fun s => s.storage.Bounded env) ?_ ?_
  · intro s hinit target lsto htarget
    rw [hinit target] at htarget
    cases htarget
  · intro s a s' hbound _ hstep
    cases hstep with
    | @putData _ node arg reply hput =>
      cases hverify : verifyMessage putDataDesc arg with
      | error msg =>
        rw [putData, hverify, Except.ok.injEq, Prod.mk.injEq] at hput
        rw [← hput.2]
        exact hbound
      | ok keys =>
        obtain ⟨m, rfl, -⟩ := verifyMessage_putData hverify
        rcases putData_cases hverify hput with ⟨-, hsame⟩ | ⟨stored, seq, -, -, -, hstore⟩
        · rw [hsame]
          exact hbound
        · exact hbound.store hmax hstore
    | putDataSigned hput =>
      rcases putDataSigned_cases hput with rfl | ⟨v, height, stored, -, -, hstore⟩
      · exact hbound
      · exact hbound.store hmax hstore
    | loadStorage hload =>
      intro target lsto htarget
      rw [hload] at htarget
      obtain ⟨lsto', hlsto', hsub⟩ := sublist_of_loadStorage htarget
      exact hsub.length_le.trans (hbound target lsto' hlsto')

end Runs

/-! ### A full list -/

/-- Puts a hashtag. -/
def putTag (s : DhtState) (c : UInt8) : DhtState :=
  (putDataSigned dhtNet s (ascii "tag") (ascii "hashtag") true
    (tagP 4 c) [] [] true).toOption.getD s

/-- A full list. -/
def fullState : DhtState := ((List.range 32).map UInt8.ofNat).foldl putTag {}

theorem reach_putTags (cs : List UInt8) {s : DhtState}
    (hcs : ∀ c ∈ cs, Entry.WithinLimits (.dict (tagP 4 c)))
    (h : (dhtSystem dhtNet).Reach (Decodable dhtNet) s) :
    (dhtSystem dhtNet).Reach (Decodable dhtNet) (cs.foldl putTag s) := by
  induction cs generalizing s with
  | nil => exact h
  | cons c cs ih =>
    refine ih (fun c' hc' => hcs c' (List.mem_cons_of_mem _ hc')) ?_
    rw [putTag]
    cases hput : putDataSigned dhtNet s (ascii "tag") (ascii "hashtag") true (tagP 4 c) [] []
        true with
    | error f => exact h
    | ok s' =>
      exact .step (a := .putDataSigned (ascii "tag") (ascii "hashtag") true (tagP 4 c) [] []
        true) h ⟨hcs c List.mem_cons_self, by decide⟩ (.putDataSigned hput)

theorem reach_fullState : (dhtSystem dhtNet).Reach (Decodable dhtNet) fullState :=
  reach_putTags _ (by decide +kernel) (.init fun _ => rfl)

section Runs

variable {env : DhtEnv} {s : DhtState} {item : DhtItem} {target v : Bytes} {multi stored : Bool}
variable {seq height : Int} {table : StorageTable}

/-- In every table reached, `store_dht_item` returns true exactly when the item is in the list now
and was not before, iff the call meets the condition. -/
theorem store_reports_iff {ok : DhtState → DhtLabel → Prop} (hmax : 0 < env.maxEntriesPerMulti)
    (h : (dhtSystem env).Reach ok s) (hv : multi = true → v = item.value env)
    (hstore : storeDhtItem env s.storage item target multi seq height v = .ok (stored, table)) :
    (stored = true ↔ table.Has target item ∧ ¬s.storage.Has target item) ↔
      Reports env s.storage target item multi seq height :=
  storeDhtItem_reports (bounded_of_reach hmax h) hv hstore

/-- An item as high as those of the full list is stored. -/
theorem store_reports_tag :
    ∃ table, storeDhtItem dhtNet fullState.storage (tagItem 4 40) (Entry.bencode tagTarget) true 0 4
        ((tagItem 4 40).value dhtNet) = .ok (true, table) ∧
      table.Has (Entry.bencode tagTarget) (tagItem 4 40) ∧
      ¬fullState.storage.Has (Entry.bencode tagTarget) (tagItem 4 40) := by
  have hfacts : (storeDhtItem dhtNet fullState.storage (tagItem 4 40) (Entry.bencode tagTarget) true
        0 4 ((tagItem 4 40).value dhtNet)).toOption.map Prod.fst = some true ∧
      (fullState.storage (Entry.bencode tagTarget)).all
        (fun lsto => lsto.any fun x => decide (x.height dhtNet ≤ 4)) = true := by
    decide +kernel
  obtain ⟨hstored, hlow⟩ := hfacts
  obtain ⟨⟨stored, table⟩, hres, htrue⟩ := Except.toOption_map_eq_some_iff.mp hstored
  cases htrue
  have hreports : Reports dhtNet fullState.storage (Entry.bencode tagTarget) (tagItem 4 40) true
      0 4 := by
    intro lsto hlsto
    rw [hlsto, Option.all_some, List.any_eq_true] at hlow
    obtain ⟨x, hx, hle⟩ := hlow
    exact .inr (.inr ⟨x, hx, of_decide_eq_true hle⟩)
  have hiff := (store_reports_iff (by decide) reach_fullState (fun _ => rfl) hres).mpr hreports
  exact ⟨table, hres, hiff.mp rfl⟩

/-- An item below a full list is reported as stored and is not there. -/
theorem store_reports_dropped :
    (dhtSystem dhtNet).Reach (Decodable dhtNet) fullState ∧
      ∃ table, storeDhtItem dhtNet fullState.storage (tagItem 3 40) (Entry.bencode tagTarget) true 0
          ((tagItem 3 40).height dhtNet) ((tagItem 3 40).value dhtNet) = .ok (true, table) ∧
        ¬table.Has (Entry.bencode tagTarget) (tagItem 3 40) := by
  have hfacts : (storeDhtItem dhtNet fullState.storage (tagItem 3 40) (Entry.bencode tagTarget) true
        0 ((tagItem 3 40).height dhtNet) ((tagItem 3 40).value dhtNet)).toOption.map
        (fun r => (r.1, (r.2 (Entry.bencode tagTarget)).any
          fun lsto => decide (tagItem 3 40 ∈ lsto))) = some (true, false) := by
    decide +kernel
  refine ⟨reach_fullState, ?_⟩
  obtain ⟨⟨stored, table⟩, hres, hvalue⟩ := Except.toOption_map_eq_some_iff.mp hfacts
  simp only [Prod.mk.injEq] at hvalue
  obtain ⟨rfl, hnot⟩ := hvalue
  refine ⟨table, hres, ?_⟩
  rintro ⟨lsto, hlsto, hmem⟩
  rw [hlsto, Option.any_some, decide_eq_false_iff_not] at hnot
  exact hnot hmem

end Runs

end CoMoNet
