import CoMoNet.Admin.Message

/-!
# The accumulator of the administrators

Each value of the RSA accumulator is registered as the key of a user `_admin_1`,
`_admin_2` and so on, and members publish their signatures of it in the DHT.
`updateAccumulator` finds the last of these transactions and takes its value over if it
has enough signatures; `isAdmin` compares a power of a witness with the cached value.
-/

namespace CoMoNet

open CScript (decimal toStr)

/-! ## Helpers of the source -/

/-- `admin_str + itostr(i)`. -/
def adminName (i : Nat) : Bytes := ascii "_admin_" ++ decimal i

/-- The value of a hexadecimal digit. -/
def hexValue (b : UInt8) : Option Nat :=
  let n := b.toNat
  if 48 ≤ n ∧ n ≤ 57 then some (n - 48)
  else if 65 ≤ n ∧ n ≤ 70 then some (n - 65 + 10)
  else if 97 ≤ n ∧ n ≤ 102 then some (n - 97 + 10)
  else none

/-- `boost::algorithm::unhex`, `none` for the exceptions at wrong digits or an odd number of
them. -/
def unhex : Bytes → Option Bytes
  | [] => some []
  | [_] => none
  | a :: b :: rest =>
    match hexValue a, hexValue b, unhex rest with
    | some x, some y, some bytes => some (UInt8.ofNat (16 * x + y) :: bytes)
    | _, _, _ => none

/-- `boost::to_upper_copy`. -/
def toUpper (text : Bytes) : Bytes :=
  text.map fun b => if 97 ≤ b.toNat ∧ b.toNat ≤ 122 then b - 32 else b

/-- `mp_read_unsigned_bin`. -/
def bigEndian (vch : Bytes) : Nat := vch.foldl (fun n b => 256 * n + b.toNat) 0

/-- The digits `mp_read_radix` reads, up to the first other character. -/
def readDigits : Nat → Bytes → Nat
  | n, [] => n
  | n, b :: rest =>
    match hexValue b with
    | none => n
    | some y => readDigits (16 * n + y) rest

/-- `mp_read_radix(…, 16)`. -/
def mpReadRadix : Bytes → Int
  | 45 :: rest => -(readDigits 0 rest : Int)
  | text => readDigits 0 text

/-- A text as it is seen through `c_str()`. -/
def cString (text : Bytes) : Bytes := text.takeWhile (· ≠ 0)

/-! ## Signatures in the DHT -/

/-- The members of the members of an object that have a name and are objects. -/
def membersNamed (name : String) (members : List (Bytes × Json)) : List (Bytes × Json) :=
  members.flatMap fun
    | (n, .obj inner) => if n = ascii name then inner else []
    | _ => []

/-- The entries under `p` and `v` of every object of a reply: names and signatures. -/
def signatureEntries (result : List Json) : List (Bytes × Json) :=
  result.flatMap fun
    | .obj resDict => membersNamed "v" (membersNamed "p" resDict)
    | _ => []

/-- `computeNeededSignatures`, from the reply at the address. -/
def computeNeededSignatures (result : List Json) (isFirst : Bool) : Nat :=
  let temp := (signatureEntries result).length
  if isFirst then temp else temp / 2 + 1

/-- The loop over the signatures: the number of valid ones. -/
def countValid (env : Env) (w : World) (message : Bytes) :
    List (Bytes × Json) → Except Exn Nat
  | [] => .ok 0
  | (username, value) :: entries =>
    match value.getStr with
    | .error e => .error e
    | .ok signature =>
      match verifymessage env w username signature message with
      | .error e => .error e
      | .ok valid => (countValid env w message entries).map ((if valid then 1 else 0) + ·)

/-! ## updateAccumulator -/

/-- What `updateAccumulator` returns. -/
inductive AccResult where
  | accError
  | accUnchanged
  | accChanged
deriving DecidableEq, Repr

/-- The loop over `_admin_2` and so on: the last name tried, the last transactions. -/
def scanAdmins (getTransaction : Bytes → Option CTransaction) : Nat → Nat → Bytes →
    CTransaction → CTransaction → Bytes × CTransaction × CTransaction
  | 0, _, nextTry, previous, tx => (nextTry, previous, tx)
  | tries + 1, i, _, previous, tx =>
    match getTransaction (adminName i) with
    | none => (adminName i, previous, tx)
    | some temp => scanAdmins getTransaction tries (i + 1) (adminName i) tx temp

/-- The loop goes up to 1023. -/
def maxTries : Nat := 1022

/-- The text the members sign. -/
def signedText (tx : CTransaction) : Bytes := toUpper (toStr tx.accumulator)

/-- The last part of `updateAccumulator`: takes over a value with enough signatures. -/
def takeOver (cache : Nat) (tx : CTransaction) : Except Exn (AccResult × Nat) :=
  match CScript.extractPushData tx.accumulator with
  | none => .ok (.accError, cache)
  | some [] => .error .outOfRange
  | some (vch :: _) =>
    if cache = bigEndian vch then .ok (.accUnchanged, cache)
    else .ok (.accChanged, bigEndian vch)

/-- The middle part: count the signatures at the address of the last
transaction. -/
def checkSignatures (env : Env) (w : World) (cache : Nat) (tx : CTransaction) (needed : Nat)
    (result : List Json) : Except Exn (AccResult × Nat) :=
  if result.isEmpty then .ok (.accError, cache)
  else
    match countValid env w (signedText tx) (signatureEntries result) with
    | .error e => .error e
    | .ok validated => if validated < needed then .ok (.accError, cache) else takeOver cache tx

/-- `updateAccumulator` after the scan. -/
def updateFrom (env : Env) (w : World) (cache : Nat) (isFirst : Bool)
    (previous tx : CTransaction) : Except Exn (AccResult × Nat) :=
  match unhex (toStr tx.pubKey) with
  | none => .error .hexDecode
  | some dhtAddress =>
    match unhex (toStr (if isFirst then tx else previous).pubKey) with
    | none => .error .hexDecode
    | some dhtAddressPrevious =>
      let needed := computeNeededSignatures (w.dhtget 0 dhtAddressPrevious) isFirst
      checkSignatures env w cache tx needed (w.dhtget 1 dhtAddress)

/-- `updateAccumulator`. -/
def updateAccumulator (env : Env) (w : World) (cache : Nat) : Except Exn (AccResult × Nat) :=
  match w.getTransaction (adminName 1) with
  | none => .ok (.accError, cache)
  | some first =>
    let (nextTry, previous, tx) := scanAdmins w.getTransaction maxTries 2 (adminName 1) {} first
    updateFrom env w cache (nextTry == ascii "_admin_2") previous tx

/-! ## isAdmin -/

/-- The errors of `isAdmin`. -/
inductive AdminError where
  | noError
  | emptyWitness
  | missingWitness
deriving DecidableEq, Repr

/-- What a call of `isAdmin` leaves behind. -/
structure AdminAnswer where
  verdict : Bool
  error : AdminError
  cache : Nat
deriving DecidableEq, Repr

/-- The modulus of the accumulator. -/
def modulo : Nat := 0x625db8b14abe99dd61d65eb05742e10916148354c764b58d6f0e84dda9fa9b77

/-- The witness to the power of the prime of the user is the accumulator. -/
def checkWitness (mapToPrime : Bytes → Nat) (username witness : Bytes) (cache : Nat) : Bool :=
  mpReadRadix witness ^ mapToPrime username % modulo == (cache : Int)

/-- The text `mp_tohex` makes of the number fits 65 bytes. -/
def fitsHex (n : Int) : Bool := -16 ^ 63 < n && n < 16 ^ 64

/-- `isAdmin(username, witness, error)`. -/
def isAdminWitness (env : Env) (mapToPrime : Bytes → Nat) (w : World) (cache : Nat)
    (username witness : Bytes) : Except Exn AdminAnswer :=
  if witness.isEmpty then .ok ⟨false, .emptyWitness, cache⟩
  else
    match w.getTransaction username with
    | none => .ok ⟨false, .noError, cache⟩
    | some _ =>
      match updateAccumulator env w cache with
      | .error e => .error e
      | .ok (_, cache) =>
        if fitsHex (mpReadRadix witness) && fitsHex (mapToPrime username) && fitsHex cache then
          .ok ⟨checkWitness mapToPrime username witness cache, .noError, cache⟩
        else .error .bufferOverrun

/-- `isAdmin(username, error)`: the witness comes from the wallet. -/
def isAdmin (env : Env) (mapToPrime : Bytes → Nat) (w : World) (cache : Nat)
    (username : Bytes) : Except Exn AdminAnswer :=
  match w.wallet.getKeyIdFromUsername username with
  | none => .ok ⟨false, .missingWitness, cache⟩
  | some keyid =>
    let witness := ((w.wallet.mapKeyMetadata.lookup keyid).map CKeyMetadata.witness).getD []
    isAdminWitness env mapToPrime w cache username (cString witness)

/-! ## The scan -/

/-- `_admin_n` is the last one registered, with `tx`, and the one before it has `previous`. -/
structure LastAdmin (w : World) (n : Nat) (previous tx : CTransaction) : Prop where
  pos : 1 ≤ n
  le : n ≤ maxTries + 1
  registered : ∀ i, 1 ≤ i → i ≤ n → (w.getTransaction (adminName i)).isSome = true
  last : w.getTransaction (adminName n) = some tx
  before : 2 ≤ n → w.getTransaction (adminName (n - 1)) = some previous
  /-- There is no next one, or it is not tried. -/
  stop : n ≤ maxTries → w.getTransaction (adminName (n + 1)) = none

/-- The bytes of a decimal number are the characters of its digits. -/
theorem map_decimal (k : Nat) :
    (decimal k).map (fun b => Char.ofNat b.toNat) = Nat.toDigits 10 k := by
  have hpos : ¬(k : Int) < 0 := by omega
  simp only [decimal, if_neg hpos, List.nil_append, Int.natAbs_natCast, List.map_map]
  refine (List.map_congr_left fun c hc => ?_).trans (List.map_id _)
  have hdigit := Nat.isDigit_of_mem_toDigits (by decide) (Nat.le_refl 10) hc
  have hlt : c.toNat < 256 := by
    simp only [Char.isDigit, Bool.and_eq_true, decide_eq_true_eq, UInt32.le_iff_toNat_le] at hdigit
    exact Nat.lt_of_le_of_lt hdigit.2 (by decide)
  simp [Nat.mod_eq_of_lt hlt, Char.ofNat_toNat]

theorem decimal_injective {m n : Nat} (h : decimal m = decimal n) : m = n := by
  rw [← Nat.ofDigitChars_ten_toDigits (n := m), ← map_decimal m, h, map_decimal n,
    Nat.ofDigitChars_ten_toDigits]

theorem adminName_inj {i j : Nat} : adminName i = adminName j ↔ i = j := by
  refine ⟨fun h => decimal_injective (List.append_cancel_left h), fun h => ?_⟩
  rw [h]

section Scan

variable {env : Env} {w : World} {cache n m : Nat} {previous tx previous' tx' : CTransaction}

/-- There is one last transaction. -/
theorem LastAdmin.unique (h : LastAdmin w n previous tx) (h' : LastAdmin w m previous' tx') :
    n = m ∧ tx = tx' := by
  have hle : ∀ {n m : Nat} {p p' t t' : CTransaction}, LastAdmin w n p t → LastAdmin w m p' t' →
      n ≤ m := by
    intro n m p p' t t' hn hm
    by_contra hlt
    have hnext := hn.registered (m + 1) (by omega) (by omega)
    rw [hm.stop (by have := hn.le; omega)] at hnext
    cases hnext
  have hnm : n = m := Nat.le_antisymm (hle h h') (hle h' h)
  subst hnm
  exact ⟨rfl, Option.some.inj (h.last.symm.trans h'.last)⟩

/-- The scan, from the state after `_admin_i` was found. -/
theorem scanAdmins_spec (tries : Nat) {i : Nat} {nextTry : Bytes} (hi : 1 ≤ i)
    (hbound : i + tries = maxTries + 1)
    (hreg : ∀ j, 1 ≤ j → j ≤ i → (w.getTransaction (adminName j)).isSome = true)
    (hlast : w.getTransaction (adminName i) = some tx)
    (hbefore : 2 ≤ i → w.getTransaction (adminName (i - 1)) = some previous)
    (hname : nextTry = adminName i) :
    ∃ n previous' tx', LastAdmin w n previous' tx' ∧
      scanAdmins w.getTransaction tries (i + 1) nextTry previous tx =
        (adminName (if n ≤ maxTries then n + 1 else n), previous', tx') := by
  induction tries generalizing i nextTry previous tx with
  | zero =>
    refine ⟨i, previous, tx, ⟨hi, by omega, hreg, hlast, hbefore, fun h => by omega⟩, ?_⟩
    rw [scanAdmins, hname, if_neg (by omega)]
  | succ tries ih =>
    rw [scanAdmins]
    cases hnext : w.getTransaction (adminName (i + 1)) with
    | none =>
      refine ⟨i, previous, tx, ⟨hi, by omega, hreg, hlast, hbefore, fun _ => hnext⟩, ?_⟩
      rw [if_pos (by omega)]
    | some temp =>
      refine ih (by omega) (by omega) (fun j hj hji => ?_) hnext (fun _ => hlast) rfl
      rcases Nat.lt_or_ge i j with hlt | hge
      · have hji' : j = i + 1 := by omega
        rw [hji', hnext]
        rfl
      · exact hreg j hj hge

theorem exists_lastAdmin {first : CTransaction}
    (h : w.getTransaction (adminName 1) = some first) :
    ∃ n previous tx, LastAdmin w n previous tx ∧
      scanAdmins w.getTransaction maxTries 2 (adminName 1) {} first =
        (adminName (if n ≤ maxTries then n + 1 else n), previous, tx) := by
  refine scanAdmins_spec maxTries (Nat.le_refl 1) (Nat.add_comm _ _) ?_ h (fun h => by omega) rfl
  intro j hj hj'
  rw [Nat.le_antisymm hj' hj, h]
  rfl

/-- The last transaction decides how the update goes on. -/
theorem updateAccumulator_eq (h : LastAdmin w n previous tx) :
    updateAccumulator env w cache = updateFrom env w cache (n = 1) previous tx := by
  obtain ⟨first, hfirst⟩ := Option.isSome_iff_exists.mp (h.registered 1 (Nat.le_refl 1) h.pos)
  obtain ⟨m, previous', tx', h', hscan⟩ := exists_lastAdmin hfirst
  obtain ⟨rfl, rfl⟩ := h.unique h'
  have hisFirst : (adminName (if n ≤ maxTries then n + 1 else n) == ascii "_admin_2") =
      decide (n = 1) := by
    have hle := h.le
    have hpos := h.pos
    have htwo : ascii "_admin_2" = adminName 2 := by decide
    rw [htwo, Bool.eq_iff_iff, beq_iff_eq, adminName_inj, decide_eq_true_iff]
    rw [maxTries] at *
    split <;> omega
  simp only [updateAccumulator, hfirst, hscan, hisFirst]
  by_cases hone : n = 1
  · simp [updateFrom, hone]
  · have hprev := h.before (by have := h.pos; omega)
    rw [h'.before (by have := h.pos; omega), Option.some.injEq] at hprev
    rw [hprev]

theorem updateAccumulator_none (h : w.getTransaction (adminName 1) = none) :
    updateAccumulator env w cache = .ok (.accError, cache) := by
  rw [updateAccumulator, h]

end Scan

/-! ## Counting signatures -/

/-- An entry of a reply whose signature is valid for a text. -/
def validEntry (env : Env) (w : World) (message : Bytes) (entry : Bytes × Json) : Bool :=
  match entry.2 with
  | .str signature => verifymessage env w entry.1 signature message == .ok true
  | _ => false

section Count

variable {env : Env} {w : World} {message : Bytes} {entries : List (Bytes × Json)} {k : Nat}

/-- An entry that `countValid` can decide. -/
def Checkable (w : World) (entry : Bytes × Json) : Prop :=
  ∃ signature, entry.2 = .str signature ∧ HasKey w entry.1 ∧
    (decodeBase64 signature).isSome = true

theorem getStr_ok {value : Json} {text : Bytes} (h : value.getStr = .ok text) :
    value = .str text := by
  cases value with
  | str text' => rw [Except.ok.inj h]
  | _ => cases h

theorem countValid_eq (h : countValid env w message entries = .ok k) :
    k = entries.countP (validEntry env w message) := by
  induction entries generalizing k with
  | nil =>
    cases h
    rfl
  | cons entry entries ih =>
    obtain ⟨username, value⟩ := entry
    rw [countValid] at h
    split at h
    · cases h
    rename_i signature hstr
    split at h
    · cases h
    rename_i valid hverify
    obtain ⟨k', hrest, h⟩ := Except.map_eq_ok_iff.mp h
    have hentry : validEntry env w message (username, value) = valid := by
      rw [validEntry, getStr_ok hstr]
      simp only [hverify]
      cases valid <;> rfl
    rw [List.countP_cons, hentry, ← ih hrest, ← h, Nat.add_comm]

/-- The signatures are counted if all entries can be checked. -/
theorem countValid_returns_iff : (∃ k, countValid env w message entries = .ok k) ↔
    ∀ entry ∈ entries, Checkable w entry := by
  induction entries with
  | nil => exact iff_of_true ⟨0, rfl⟩ nofun
  | cons entry entries ih =>
    obtain ⟨username, value⟩ := entry
    rw [List.forall_mem_cons, ← ih, countValid]
    cases hstr : value.getStr with
    | error e =>
      refine iff_of_false (by simp) ?_
      rintro ⟨⟨signature, hvalue, -⟩, -⟩
      rw [show value = .str signature from hvalue] at hstr
      cases hstr
    | ok signature =>
      have hvalue := getStr_ok hstr
      subst hvalue
      have hiff : Checkable w (username, .str signature) ↔
          ∃ b, verifymessage env w username signature message = .ok b := by
        rw [verifymessage_returns_iff]
        exact ⟨fun ⟨_, heq, h⟩ => by cases heq; exact h, fun h => ⟨signature, rfl, h⟩⟩
      rw [hiff]
      cases hverify : verifymessage env w username signature message with
      | error e => simp [hverify]
      | ok valid =>
        cases countValid env w message entries with
        | error e => simp [hverify, Except.map]
        | ok k => simp [hverify, Except.map]

end Count

/-! ## What an update does -/

/-- The first push of the accumulator of a transaction. -/
def accumulatorValue (tx : CTransaction) : Option Nat :=
  match CScript.extractPushData tx.accumulator with
  | some (vch :: _) => some (bigEndian vch)
  | _ => none

section Update

variable {env : Env} {w : World} {cache cache' n : Nat} {previous tx : CTransaction}
variable {isFirst : Bool} {r : AccResult}

theorem takeOver_cases (h : takeOver cache tx = .ok (r, cache')) :
    (r = .accError ∧ cache' = cache) ∨ (r ≠ .accError ∧ accumulatorValue tx = some cache' ∧
      (r = .accUnchanged ↔ cache' = cache)) := by
  rw [takeOver] at h
  rw [accumulatorValue]
  split at h
  · cases h
    exact .inl ⟨rfl, rfl⟩
  · cases h
  · rename_i vch rest hpush
    rw [hpush]
    split at h
    · rename_i heq
      cases h
      exact .inr ⟨nofun, by rw [heq], by simp⟩
    · rename_i hne
      cases h
      refine .inr ⟨nofun, rfl, ?_⟩
      simp [Ne.symm hne]

theorem takeOver_accepts {acc : Nat} (h : accumulatorValue tx = some acc) :
    takeOver cache tx = .ok (if cache = acc then .accUnchanged else .accChanged, acc) := by
  rw [accumulatorValue] at h
  split at h
  · rename_i vch rest hpush
    cases h
    rw [takeOver, hpush]
    by_cases hsame : cache = bigEndian vch
    · simp [hsame]
    · simp [hsame]
  · cases h

/-- An update returns `ACC_ERROR` and keeps the cache, or takes over a value with enough
signatures. -/
theorem updateFrom_cases (h : updateFrom env w cache isFirst previous tx = .ok (r, cache')) :
    (r = .accError ∧ cache' = cache) ∨ (r ≠ .accError ∧ accumulatorValue tx = some cache' ∧
      (r = .accUnchanged ↔ cache' = cache) ∧
      ∃ address addressPrevious, unhex (toStr tx.pubKey) = some address ∧
        unhex (toStr (if isFirst then tx else previous).pubKey) = some addressPrevious ∧
        computeNeededSignatures (w.dhtget 0 addressPrevious) isFirst ≤
          (signatureEntries (w.dhtget 1 address)).countP
            (validEntry env w (signedText tx))) := by
  rw [updateFrom] at h
  split at h
  · cases h
  rename_i address haddress
  split at h
  · cases h
  rename_i addressPrevious hprevious
  rw [checkSignatures] at h
  split at h
  · cases h
    exact .inl ⟨rfl, rfl⟩
  split at h
  · cases h
  rename_i validated hcount
  split at h
  · cases h
    exact .inl ⟨rfl, rfl⟩
  rename_i henough
  rcases takeOver_cases h with hfail | ⟨hne, hvalue, hsame⟩
  · exact .inl hfail
  · refine .inr ⟨hne, hvalue, hsame, address, addressPrevious, haddress, hprevious, ?_⟩
    rw [← countValid_eq hcount]
    exact Nat.le_of_not_lt henough

/-- The same for the whole update: it goes by the last transaction of the
scan. -/
theorem updateAccumulator_cases (h : updateAccumulator env w cache = .ok (r, cache')) :
    (r = .accError ∧ cache' = cache) ∨ (r ≠ .accError ∧ (r = .accUnchanged ↔ cache' = cache) ∧
      ∃ n previous tx, LastAdmin w n previous tx ∧ accumulatorValue tx = some cache' ∧
      ∃ address addressPrevious, unhex (toStr tx.pubKey) = some address ∧
        unhex (toStr (if n = 1 then tx else previous).pubKey) = some addressPrevious ∧
        computeNeededSignatures (w.dhtget 0 addressPrevious) (n = 1) ≤
          (signatureEntries (w.dhtget 1 address)).countP
            (validEntry env w (signedText tx))) := by
  cases hfirst : w.getTransaction (adminName 1) with
  | none =>
    rw [updateAccumulator_none hfirst] at h
    cases h
    exact .inl ⟨rfl, rfl⟩
  | some first =>
    obtain ⟨n, previous, tx, hlast, -⟩ := exists_lastAdmin hfirst
    rw [updateAccumulator_eq hlast] at h
    rcases updateFrom_cases h with hfail | ⟨hne, hvalue, hsame, address, addressPrevious, hgood⟩
    · exact .inl hfail
    · refine .inr ⟨hne, hsame, n, previous, tx, hlast, hvalue, address, addressPrevious, ?_⟩
      simpa using hgood

end Update

end CoMoNet
