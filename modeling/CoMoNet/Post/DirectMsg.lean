import CoMoNet.Post.Sorted

/-!
# Lists of direct messages

`storeNewDM` keeps messages sorted by time and looks for a duplicate only at the first
message that is not earlier, so one can hide behind another text at the same time
(`storeDMs_spec`).
-/

namespace CoMoNet

/-- What counts as a duplicate in `storeNewDM`. -/
def StoredDirectMsg.Same (m dm : StoredDirectMsg) : Prop :=
  m.utcTime = dm.utcTime ∧ m.text = dm.text

instance (m dm : StoredDirectMsg) : Decidable (m.Same dm) :=
  inferInstanceAs (Decidable (_ ∧ _))

/-! ## One message -/

section Insert

variable {m d : StoredDirectMsg} {dms : List StoredDirectMsg}

/-- A call finds the message, or puts it before the first one that is not earlier. -/
theorem insertDM_cases (m : StoredDirectMsg) (dms : List StoredDirectMsg) :
    (insertDM m dms = dms ∧ ∃ d ∈ dms, m.Same d) ∨
    ∃ before after, dms = before ++ after ∧ insertDM m dms = before ++ m :: after ∧
      (∀ d ∈ before, d.utcTime < m.utcTime) ∧
      ∀ d ∈ after.head?, m.utcTime ≤ d.utcTime ∧ ¬ m.Same d := by
  induction dms with
  | nil => exact .inr ⟨[], [], rfl, rfl, by simp, by simp⟩
  | cons dm rest ih =>
    rw [insertDM]
    split
    · next hsame => exact .inl ⟨rfl, dm, List.mem_cons_self, hsame⟩
    next hsame =>
    split
    · next hle => exact .inr ⟨[], dm :: rest, rfl, rfl, by simp, by simpa using ⟨hle, hsame⟩⟩
    next hlt =>
    rcases ih with ⟨heq, d, hd, hsame'⟩ | ⟨before, after, hdms, hinsert, hbefore, hafter⟩
    · exact .inl ⟨by rw [heq], d, List.mem_cons_of_mem dm hd, hsame'⟩
    · refine .inr ⟨dm :: before, after, by rw [hdms, List.cons_append], ?_, ?_, hafter⟩
      · rw [hinsert, List.cons_append]
      · exact List.forall_mem_cons.2 ⟨Int.not_le.1 hlt, hbefore⟩

/-- Nothing else is stored. -/
theorem mem_insertDM (h : d ∈ insertDM m dms) : d = m ∨ d ∈ dms := by
  rcases insertDM_cases m dms with ⟨heq, -⟩ | ⟨before, after, rfl, hinsert, -⟩
  · exact .inr (heq ▸ h)
  · simp only [hinsert, List.mem_append, List.mem_cons] at h ⊢
    tauto

/-- Nothing is lost. -/
theorem sublist_insertDM (m : StoredDirectMsg) (dms : List StoredDirectMsg) :
    List.Sublist dms (insertDM m dms) := by
  rcases insertDM_cases m dms with ⟨heq, -⟩ | ⟨before, after, rfl, hinsert, -⟩
  · rw [heq]
  · rw [hinsert]
    exact (List.sublist_cons_self m after).append_left before

/-- The message is in the list afterwards. -/
theorem exists_same_insertDM (m : StoredDirectMsg) (dms : List StoredDirectMsg) :
    ∃ d ∈ insertDM m dms, m.Same d := by
  rcases insertDM_cases m dms with ⟨heq, hsame⟩ | ⟨before, after, rfl, hinsert, -⟩
  · rwa [heq]
  · rw [hinsert]
    exact ⟨m, by simp, rfl, rfl⟩

/-- The list stays as it is iff the first message that is not earlier is the same. -/
theorem insertDM_eq_self_iff :
    insertDM m dms = dms ↔ ∃ d ∈ dms.find? (fun d => m.utcTime ≤ d.utcTime), m.Same d := by
  induction dms with
  | nil => simp [insertDM]
  | cons dm rest ih =>
    rw [insertDM, List.find?_cons]
    split
    · next hsame =>
        have hle : m.utcTime ≤ dm.utcTime := Int.le_of_eq hsame.1
        simp only [hle, decide_true, true_iff]
        exact ⟨dm, rfl, hsame⟩
    · next hsame =>
        split
        · next hle =>
            simp only [hle, decide_true, Option.mem_some_iff, exists_eq_left']
            constructor
            · intro h
              have := congrArg List.length h
              simp at this
            · exact fun h => absurd h hsame
        · next hle =>
            simp only [hle, decide_false, List.cons.injEq, true_and]
            exact ih

/-- Times go up. -/
def TimeSorted (dms : List StoredDirectMsg) : Prop :=
  dms.Pairwise fun a b => a.utcTime ≤ b.utcTime

/-- A call keeps the order. -/
theorem TimeSorted.insertDM (h : TimeSorted dms) (m : StoredDirectMsg) :
    TimeSorted (insertDM m dms) := by
  rcases insertDM_cases m dms with ⟨heq, -⟩ | ⟨before, after, rfl, hinsert, hbefore, hafter⟩
  · rwa [heq]
  obtain ⟨hsorted, hsorted', hcross⟩ := List.pairwise_append.1 h
  have hlater : ∀ d ∈ after, m.utcTime ≤ d.utcTime := by
    cases after with
    | nil => simp
    | cons a after =>
      have hfirst := (hafter a rfl).1
      have hrest := (List.pairwise_cons.1 hsorted').1
      exact List.forall_mem_cons.2 ⟨hfirst, fun d hd => Int.le_trans hfirst (hrest d hd)⟩
  rw [hinsert]
  refine List.pairwise_append.2 ⟨hsorted, List.pairwise_cons.2 ⟨hlater, hsorted'⟩, ?_⟩
  intro a ha
  exact List.forall_mem_cons.2 ⟨Int.le_of_lt (hbefore a ha), hcross a ha⟩

/-- In a sorted list where a time has one text, a message that is there is left alone. -/
theorem TimeSorted.insertDM_eq_self (h : TimeSorted dms) (hd : d ∈ dms)
    (htime : m.utcTime = d.utcTime)
    (hone : ∀ d' ∈ dms, m.utcTime = d'.utcTime → m.text = d'.text) :
    CoMoNet.insertDM m dms = dms := by
  induction dms with
  | nil => cases hd
  | cons dm rest ih =>
    obtain ⟨hfirst, hrest⟩ := List.pairwise_cons.1 h
    rw [CoMoNet.insertDM]
    split
    · rfl
    next hne =>
      have hearlier : dm.utcTime ≠ m.utcTime := fun heq =>
        hne ⟨heq.symm, hone dm List.mem_cons_self heq.symm⟩
      rcases List.mem_cons.1 hd with rfl | hd
      · exact absurd htime.symm hearlier
      · have hle := hfirst d hd
        rw [if_neg (by omega), ih hrest hd fun d' hd' => hone d' (List.mem_cons_of_mem dm hd')]

/-- A message at a time of its own, or with the text of its time, makes no duplicate. -/
theorem noDuplicates_insertDM (h : TimeSorted dms) (hnodup : dms.Pairwise fun a b => ¬ a.Same b)
    (hone : ∀ d ∈ dms, m.utcTime = d.utcTime → m.text = d.text) :
    (insertDM m dms).Pairwise fun a b => ¬ a.Same b := by
  by_cases htime : ∃ d ∈ dms, m.utcTime = d.utcTime
  · obtain ⟨d, hd, htime⟩ := htime
    rwa [h.insertDM_eq_self hd htime hone]
  rcases insertDM_cases m dms with ⟨heq, -⟩ | ⟨before, after, rfl, hinsert, -⟩
  · rwa [heq]
  have hfresh : ∀ d ∈ before ++ after, ¬ m.Same d := fun d hd hsame => htime ⟨d, hd, hsame.1⟩
  have hsymm : ∀ {a b : StoredDirectMsg}, ¬ a.Same b → ¬ b.Same a :=
    fun hne hsame => hne ⟨hsame.1.symm, hsame.2.symm⟩
  rw [hinsert, List.Perm.pairwise_iff hsymm List.perm_middle]
  exact List.pairwise_cons.2 ⟨hfresh, hnodup⟩

end Insert

/-! ## A sequence of messages -/

section Sequence

variable {dms msgs : List StoredDirectMsg}

/-- Several calls. -/
def insertDMs (dms msgs : List StoredDirectMsg) : List StoredDirectMsg :=
  msgs.foldl (fun dms m => insertDM m dms) dms

theorem insertDMs_cons (dms : List StoredDirectMsg) (m : StoredDirectMsg)
    (msgs : List StoredDirectMsg) : insertDMs dms (m :: msgs) = insertDMs (insertDM m dms) msgs :=
  rfl

theorem sublist_insertDMs (dms msgs : List StoredDirectMsg) :
    List.Sublist dms (insertDMs dms msgs) := by
  induction msgs generalizing dms with
  | nil => exact List.Sublist.refl _
  | cons m msgs ih => exact (sublist_insertDM m dms).trans (ih _)

theorem TimeSorted.insertDMs (h : TimeSorted dms) (msgs : List StoredDirectMsg) :
    TimeSorted (insertDMs dms msgs) := by
  induction msgs generalizing dms with
  | nil => exact h
  | cons m msgs ih => exact ih (h.insertDM m)

theorem mem_insertDMs {d : StoredDirectMsg} (h : d ∈ insertDMs dms msgs) : d ∈ msgs ∨ d ∈ dms := by
  induction msgs generalizing dms with
  | nil => exact .inr h
  | cons m msgs ih =>
    rcases ih h with hd | hd
    · exact .inl (List.mem_cons_of_mem m hd)
    rcases mem_insertDM hd with rfl | hd
    · exact .inl List.mem_cons_self
    · exact .inr hd

/-- Every message is in the list afterwards. -/
theorem exists_same_insertDMs (dms : List StoredDirectMsg) {m : StoredDirectMsg} (h : m ∈ msgs) :
    ∃ d ∈ insertDMs dms msgs, m.Same d := by
  induction msgs generalizing dms with
  | nil => cases h
  | cons m' msgs ih =>
    rcases List.mem_cons.1 h with rfl | h
    · obtain ⟨d, hd, hsame⟩ := exists_same_insertDM m dms
      exact ⟨d, (sublist_insertDMs _ msgs).subset hd, hsame⟩
    · exact ih _ h

/-- Calls change nothing iff none does. -/
theorem insertDMs_eq_self_iff :
    insertDMs dms msgs = dms ↔ ∀ m ∈ msgs, insertDM m dms = dms := by
  induction msgs with
  | nil => simp [insertDMs]
  | cons m msgs ih =>
    rw [insertDMs_cons, List.forall_mem_cons, ← ih]
    constructor
    · intro h
      have hfirst : insertDM m dms = dms := by
        have hback := sublist_insertDMs (insertDM m dms) msgs
        rw [h] at hback
        exact hback.antisymm (sublist_insertDM m dms)
      rw [hfirst] at h
      exact ⟨hfirst, h⟩
    · rintro ⟨hfirst, hrest⟩
      rw [hfirst, hrest]

/-- No two messages at the same time have different texts. -/
def OneText (msgs : List StoredDirectMsg) : Prop :=
  ∀ m ∈ msgs, ∀ m' ∈ msgs, m.utcTime = m'.utcTime → m.text = m'.text

instance (msgs : List StoredDirectMsg) : Decidable (OneText msgs) :=
  inferInstanceAs (Decidable (∀ m ∈ msgs, ∀ m' ∈ msgs, _))

/-- Messages that are not stored again have one text for each time. -/
theorem oneText_of_eq_self (h : ∀ m ∈ msgs, insertDM m dms = dms) : OneText msgs := by
  intro m hm m' hm' htime
  obtain ⟨d, hfind, hsame⟩ := insertDM_eq_self_iff.1 (h m hm)
  obtain ⟨d', hfind', hsame'⟩ := insertDM_eq_self_iff.1 (h m' hm')
  rw [htime] at hfind
  cases Option.mem_unique hfind hfind'
  exact hsame.2.trans hsame'.2.symm

/-- With one text for each time there are no duplicates. -/
theorem noDuplicates_insertDMs (hsorted : TimeSorted dms)
    (hnodup : dms.Pairwise fun a b => ¬ a.Same b)
    (hone : ∀ m ∈ msgs, ∀ d, d ∈ msgs ∨ d ∈ dms → m.utcTime = d.utcTime → m.text = d.text) :
    (insertDMs dms msgs).Pairwise fun a b => ¬ a.Same b := by
  induction msgs generalizing dms with
  | nil => exact hnodup
  | cons m msgs ih =>
    have hfirst := hone m List.mem_cons_self
    refine ih (hsorted.insertDM m)
      (noDuplicates_insertDM hsorted hnodup fun d hd => hfirst d (.inr hd)) ?_
    intro m' hm' d hd
    refine hone m' (List.mem_cons_of_mem m hm') d ?_
    rcases hd with hd | hd
    · exact .inl (List.mem_cons_of_mem m hd)
    rcases mem_insertDM hd with rfl | hd
    · exact .inl List.mem_cons_self
    · exact .inr hd

/-- Storing the messages again, onto the list they made. -/
theorem OneText.insertDMs_again (h : OneText msgs) :
    insertDMs (insertDMs [] msgs) msgs = insertDMs [] msgs := by
  rw [insertDMs_eq_self_iff]
  intro m hm
  obtain ⟨d, hd, hsame⟩ := exists_same_insertDMs [] hm
  have hsorted : TimeSorted (insertDMs [] msgs) := TimeSorted.insertDMs List.Pairwise.nil msgs
  refine hsorted.insertDM_eq_self hd hsame.1 fun d' hd' => ?_
  rcases mem_insertDMs hd' with hd' | hd'
  · exact h m hm d' hd'
  · cases hd'

end Sequence

/-! ## storeNewDM -/

namespace PostState

/-- The messages between a local user and another user. -/
def directMsgs (s : PostState) (localuser dmUser : Bytes) : List StoredDirectMsg :=
  (((s.users.lookup localuser).getD {}).directmsg.lookup dmUser).getD []

/-- Some calls of `storeNewDM` for one local user and one peer. -/
def storeDMs (s : PostState) (localuser dmUser : Bytes) (msgs : List StoredDirectMsg) : PostState :=
  msgs.foldl (fun s m => s.storeNewDM localuser dmUser m) s

variable {s : PostState} {localuser dmUser : Bytes}

theorem directMsgs_storeNewDM (m : StoredDirectMsg) :
    (s.storeNewDM localuser dmUser m).directMsgs localuser dmUser =
      insertDM m (s.directMsgs localuser dmUser) := by
  simp only [directMsgs, storeNewDM, setUser, lookup_mapSet, if_true, Option.getD_some]

theorem directMsgs_storeDMs (msgs : List StoredDirectMsg) :
    (s.storeDMs localuser dmUser msgs).directMsgs localuser dmUser =
      insertDMs (s.directMsgs localuser dmUser) msgs := by
  induction msgs generalizing s with
  | nil => rfl
  | cons m msgs ih =>
    rw [storeDMs, List.foldl_cons, ← storeDMs, ih, directMsgs_storeNewDM, insertDMs_cons]

/-- From an empty list, the list is sorted and has every message. It has no duplicates and the
calls are idempotent iff no two messages at one time have different texts. -/
theorem storeDMs_spec (h : s.directMsgs localuser dmUser = []) (msgs : List StoredDirectMsg) :
    let s' := s.storeDMs localuser dmUser msgs
    TimeSorted (s'.directMsgs localuser dmUser) ∧
    (∀ m ∈ msgs, ∃ d ∈ s'.directMsgs localuser dmUser, m.Same d) ∧
    (((s'.directMsgs localuser dmUser).Pairwise (fun a b => ¬ a.Same b) ∧
      (s'.storeDMs localuser dmUser msgs).directMsgs localuser dmUser =
        s'.directMsgs localuser dmUser) ↔ OneText msgs) := by
  intro s'
  simp only [s', directMsgs_storeDMs, h]
  have hempty : TimeSorted [] := List.Pairwise.nil
  refine ⟨hempty.insertDMs msgs, fun m hm => exists_same_insertDMs [] hm, ?_, ?_⟩
  · rintro ⟨-, hagain⟩
    exact oneText_of_eq_self (insertDMs_eq_self_iff.1 hagain)
  · intro hone
    refine ⟨noDuplicates_insertDMs hempty List.Pairwise.nil ?_, hone.insertDMs_again⟩
    intro m hm d hd
    exact hone m hm d (hd.resolve_right List.not_mem_nil)

/-- A message. -/
def textAt (utcTime : Int) (text : String) : StoredDirectMsg :=
  { utcTime := utcTime, text := ascii text, fromMe := false, sender := ascii "bob", k := 1 }

/-- Two messages and the first one again. -/
theorem storeDMs_spec_two :
    let msgs := [textAt 5 "hello", textAt 4 "hi", textAt 5 "hello"]
    let s' := ({} : PostState).storeDMs (ascii "alice") (ascii "bob") msgs
    (s'.directMsgs (ascii "alice") (ascii "bob")).Pairwise (fun a b => ¬ a.Same b) ∧
      (s'.storeDMs (ascii "alice") (ascii "bob") msgs).directMsgs (ascii "alice") (ascii "bob") =
        s'.directMsgs (ascii "alice") (ascii "bob") := by
  intro msgs s'
  have hempty : ({} : PostState).directMsgs (ascii "alice") (ascii "bob") = [] := rfl
  exact (storeDMs_spec hempty msgs).2.2.2 (by decide)

/-- Two texts at the same time: the first one is stored twice when it comes again. -/
theorem storeDMs_duplicates : ∃ msgs : List StoredDirectMsg,
    (({} : PostState).storeDMs (ascii "alice") (ascii "bob") msgs).directMsgs (ascii "alice")
        (ascii "bob") = [textAt 5 "hi", textAt 5 "hello", textAt 5 "hi"] ∧
    ¬ ((({} : PostState).storeDMs (ascii "alice") (ascii "bob") msgs).directMsgs (ascii "alice")
        (ascii "bob")).Pairwise (fun a b => ¬ a.Same b) := by
  refine ⟨[textAt 5 "hi", textAt 5 "hello", textAt 5 "hi"], by decide, by decide⟩

end PostState

end CoMoNet
