import CoMoNet.Admin.Quorum

/-!
# The first accumulator

For the first accumulator all must sign. Two lookups at its address are compared by
number only, so the update is unanimous exactly if the numbers tell
(`first_unanimous_iff`).
-/

namespace CoMoNet

section Unanimity

variable {env : Env} {w : World} {cache cache' acc : Nat} {r : AccResult}
variable {tx : CTransaction} {address : Bytes}

/-- The second reply lists a user, and every user of either reply has a valid signature in it. -/
def Unanimous (env : Env) (w : World) (tx : CTransaction) (address : Bytes) : Prop :=
  entriesAt w 1 address ≠ [] ∧
    ∀ entry ∈ entriesAt w 0 address ++ entriesAt w 1 address,
      ∃ signed ∈ entriesAt w 1 address,
        signed.1 = entry.1 ∧ validEntry env w (signedText tx) signed = true

instance : Decidable (Unanimous env w tx address) :=
  inferInstanceAs (Decidable (_ ∧ _))

/-- The update compares the numbers and takes over a new value if there are enough. -/
structure Comparing (w : World) (cache : Nat) (tx : CTransaction) (address : Bytes) : Prop where
  address_eq : unhex (CScript.toStr tx.pubKey) = some address
  reply_ne : w.dhtget 1 address ≠ []
  checkable : ∀ entry ∈ entriesAt w 1 address, Checkable w entry
  value : ∃ acc, accumulatorValue tx = some acc ∧ acc ≠ cache

theorem lastAdmin_one (hfirst : w.getTransaction (adminName 1) = some tx)
    (hsecond : w.getTransaction (adminName 2) = none) : LastAdmin w 1 {} tx where
  pos := Nat.le_refl 1
  le := by decide
  registered i hi hi' := by
    rw [Nat.le_antisymm hi' hi, hfirst]
    rfl
  last := hfirst
  before h := by omega
  stop _ := hsecond

/-- For a new value there are as many valid entries in the second reply as entries in the first. -/
theorem checkSignatures_changes {needed : Nat}
    (haddress : unhex (CScript.toStr tx.pubKey) = some address)
    (h : checkSignatures env w cache tx needed (w.dhtget 1 address) = .ok (r, cache'))
    (hne : cache' ≠ cache) :
    Comparing w cache tx address ∧
      needed ≤ (entriesAt w 1 address).countP (validEntry env w (signedText tx)) := by
  rw [checkSignatures] at h
  split at h
  · cases h
    exact absurd rfl hne
  rename_i hreply
  split at h
  · cases h
  rename_i validated hcount
  split at h
  · cases h
    exact absurd rfl hne
  rename_i henough
  rcases takeOver_cases h with ⟨-, hsame⟩ | ⟨-, hvalue, -⟩
  · exact absurd hsame hne
  · refine ⟨⟨haddress, fun hnil => hreply (by rw [hnil]; rfl), ?_, cache', hvalue, hne⟩, ?_⟩
    · exact countValid_returns_iff.mp ⟨validated, hcount⟩
    · rw [entriesAt, ← countValid_eq hcount]
      exact Nat.le_of_not_lt henough

/-- Enough valid entries are all that is needed once the numbers are compared. -/
theorem Comparing.changes {needed : Nat} (h : Comparing w cache tx address)
    (henough : needed ≤ (entriesAt w 1 address).countP (validEntry env w (signedText tx))) :
    ∃ r cache', checkSignatures env w cache tx needed (w.dhtget 1 address) = .ok (r, cache') ∧
      cache' ≠ cache := by
  obtain ⟨k, hk⟩ : ∃ k, countValid env w (signedText tx) (entriesAt w 1 address) = .ok k :=
    countValid_returns_iff.mpr h.checkable
  rw [← countValid_eq hk] at henough
  rw [entriesAt] at hk
  obtain ⟨acc, hvalue, hne⟩ := h.value
  have hreply : ¬(w.dhtget 1 address).isEmpty = true := by
    rw [List.isEmpty_iff]
    exact h.reply_ne
  rw [checkSignatures, if_neg hreply, hk]
  simp only
  rw [if_neg (Nat.not_lt.mpr henough), takeOver_accepts hvalue]
  exact ⟨_, acc, rfl, hne⟩

/-- When the first accumulator is taken over. -/
theorem first_changes_iff (hfirst : w.getTransaction (adminName 1) = some tx)
    (hsecond : w.getTransaction (adminName 2) = none) :
    (∃ r cache', updateAccumulator env w cache = .ok (r, cache') ∧ cache' ≠ cache) ↔
      ∃ address, Comparing w cache tx address ∧ (entriesAt w 0 address).length ≤
        (entriesAt w 1 address).countP (validEntry env w (signedText tx)) := by
  have hneeded : ∀ address, computeNeededSignatures (w.dhtget 0 address) true =
      (entriesAt w 0 address).length := fun address => rfl
  rw [updateAccumulator_eq (lastAdmin_one hfirst hsecond)]
  simp only [updateFrom, decide_true, if_true, hneeded]
  constructor
  · rintro ⟨r, cache', h, hne⟩
    split at h
    · cases h
    rename_i address haddress
    exact ⟨address, checkSignatures_changes haddress h hne⟩
  · rintro ⟨address, hcomparing, henough⟩
    simp only [hcomparing.address_eq]
    exact hcomparing.changes henough

/-- Replies with the same entries make an accepted update unanimous. -/
theorem Unanimous.of_same_entries (hsame : entriesAt w 0 address = entriesAt w 1 address)
    (hlisted : entriesAt w 1 address ≠ [])
    (henough : (entriesAt w 0 address).length ≤
      (entriesAt w 1 address).countP (validEntry env w (signedText tx))) :
    Unanimous env w tx address := by
  rw [hsame] at henough
  have hall := List.countP_eq_length.mp (Nat.le_antisymm List.countP_le_length henough)
  refine ⟨hlisted, fun entry hentry => ?_⟩
  rw [hsame, List.mem_append, or_self] at hentry
  exact ⟨entry, hentry, rfl, hall entry hentry⟩

theorem not_unanimous_iff : ¬Unanimous env w tx address ↔ entriesAt w 1 address = [] ∨
    ∃ entry ∈ entriesAt w 0 address ++ entriesAt w 1 address,
      ∀ signed ∈ entriesAt w 1 address, signed.1 = entry.1 →
        validEntry env w (signedText tx) signed = false := by
  rw [Unanimous, not_and_or, not_not]
  simp only [not_forall, not_exists, not_and, exists_prop, Bool.not_eq_true]

/-- Updates are unanimous exactly if the second reply has too few valid signatures whenever some
listed user has none in it or it lists nobody. -/
theorem first_unanimous_iff (hfirst : w.getTransaction (adminName 1) = some tx)
    (hsecond : w.getTransaction (adminName 2) = none) :
    (∀ r cache', updateAccumulator env w cache = .ok (r, cache') → cache' ≠ cache →
      ∃ address, unhex (CScript.toStr tx.pubKey) = some address ∧ Unanimous env w tx address) ↔
    ∀ address, Comparing w cache tx address →
      (entriesAt w 1 address = [] ∨
        ∃ entry ∈ entriesAt w 0 address ++ entriesAt w 1 address,
          ∀ signed ∈ entriesAt w 1 address, signed.1 = entry.1 →
            validEntry env w (signedText tx) signed = false) →
      (entriesAt w 1 address).countP (validEntry env w (signedText tx)) <
        (entriesAt w 0 address).length := by
  simp only [← not_unanimous_iff]
  constructor
  · intro h address hcomparing hmissing
    by_contra henough
    obtain ⟨r, cache', hupdate, hne⟩ :=
      (first_changes_iff hfirst hsecond).mpr ⟨address, hcomparing, Nat.le_of_not_lt henough⟩
    obtain ⟨address', haddress, hall⟩ := h r cache' hupdate hne
    rw [hcomparing.address_eq, Option.some.injEq] at haddress
    exact hmissing (haddress ▸ hall)
  · intro h r cache' hupdate hne
    obtain ⟨address, hcomparing, henough⟩ :=
      (first_changes_iff hfirst hsecond).mp ⟨r, cache', hupdate, hne⟩
    refine ⟨address, hcomparing.address_eq, ?_⟩
    by_contra hmissing
    exact absurd henough (Nat.not_le.mpr (h address hcomparing hmissing))

end Unanimity

/-! ## Two lookups -/

/-- A node with two replies. -/
def twoReplies (txs : List CTransaction) (first second : List Json) : World where
  getTransaction u := txs.find? fun tx => tx.getUsername == u
  dhtget call _ := if call = 0 then first else second
  wallet := ⟨[], fun _ => none, List.nodup_nil⟩

/-- Members, others and a first accumulator. -/
def firstTxs : List CTransaction :=
  [memberTx "alice" 1, memberTx "bob" 2, memberTx "mallory" 3, memberTx "trudy" 4,
    adminTx 1 "addr1" 7]

/-- The reply with both members. -/
def membersReply : List Json := reply [("alice", memberSign 1 7), ("bob", memberSign 2 7)]

theorem first_unanimous_iff_members :
    updateAccumulator signNet (twoReplies firstTxs membersReply membersReply) 0 =
        .ok (.accChanged, 7) ∧
      ∀ r cache', updateAccumulator signNet (twoReplies firstTxs membersReply membersReply) 0 =
        .ok (r, cache') → cache' ≠ 0 →
        ∃ address, unhex (CScript.toStr (adminTx 1 "addr1" 7).pubKey) = some address ∧
          Unanimous signNet (twoReplies firstTxs membersReply membersReply) (adminTx 1 "addr1" 7)
            address := by
  have hfacts : unhex (CScript.toStr (adminTx 1 "addr1" 7).pubKey) = some (ascii "addr1") ∧
      Unanimous signNet (twoReplies firstTxs membersReply membersReply) (adminTx 1 "addr1" 7)
        (ascii "addr1") ∧
      updateAccumulator signNet (twoReplies firstTxs membersReply membersReply) 0 =
        .ok (.accChanged, 7) := by
    decide +kernel
  refine ⟨hfacts.2.2, (first_unanimous_iff (by decide +kernel) (by decide +kernel)).mpr ?_⟩
  intro address hcomparing hmissing
  obtain rfl : address = ascii "addr1" :=
    Option.some.inj (hcomparing.address_eq.symm.trans hfacts.1)
  exact absurd hfacts.2.1 (not_unanimous_iff.mpr hmissing)

/-- A node that takes over the first accumulator without unanimity. -/
def TakesOver (first second : List Json) : Prop :=
  updateAccumulator signNet (twoReplies firstTxs first second) 0 = .ok (.accChanged, 7) ∧
    unhex (CScript.toStr (adminTx 1 "addr1" 7).pubKey) = some (ascii "addr1") ∧
    ¬Unanimous signNet (twoReplies firstTxs first second) (adminTx 1 "addr1" 7) (ascii "addr1")

instance (first second : List Json) : Decidable (TakesOver first second) :=
  inferInstanceAs (Decidable (_ ∧ _))

/-- Nobody is listed; two members are listed and two others sign; one of two signs. -/
theorem first_not_unanimous :
    (∀ tx ∈ firstTxs, (checkTransaction signNet tx).isValid = true) ∧
    (twoReplies firstTxs [] []).getTransaction (adminName 2) = none ∧
    TakesOver [] [.obj []] ∧
    TakesOver membersReply (reply [("mallory", memberSign 3 7), ("trudy", memberSign 4 7)]) ∧
    TakesOver (reply [("alice", memberSign 1 7)])
      (reply [("alice", memberSign 1 7), ("bob", memberSign 3 7)]) := by
  decide +kernel

end CoMoNet
