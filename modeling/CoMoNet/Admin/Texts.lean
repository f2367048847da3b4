import CoMoNet.Post.Client
import CoMoNet.Wallet.Keys

/-!
# Texts in transactions

The address of the signatures and the structure of a group are read back from a printed
script. A push of up to four bytes prints as a decimal number, so short texts do not
come back, but for one (`text_survives_iff`).
-/

namespace CoMoNet

open CScript (push toStr hexStr decimal)

/-! ## The calls -/

/-- `IsHex`. -/
def isHex (str : Bytes) : Bool :=
  str.all (fun c => (hexValue c).isSome) && (str.length > 0 && str.length % 2 == 0)

/-- A text in an error message. -/
def quoted (text : Bytes) : String := String.ofList (text.map fun b => Char.ofNat b.toNat)

/-- `ParseHexV`. -/
def parseHexV (v : Json) (strName : String) : Except Exn Bytes :=
  let strHex := match v with
    | .str text => text
    | _ => []
  if isHex strHex then .ok (parseHex strHex)
  else .error (.rpc rpcInvalidParameter
    (strName ++ " must be hexadecimal string (not '" ++ quoted strHex ++ "')"))

/-- `createrawaccumulatortransaction`, with the nonce that `DoTxProofOfWork` leaves. -/
def createrawaccumulatortransaction (params : List Json) (nonce : Nat) :
    Except Exn CTransaction :=
  match params with
  | [.str username, pubKey, accumulator, address] => do
    let _ ← parseHexV pubKey "pubkey"
    let address ← address.getStr
    let ach ← parseHexV accumulator "accumulator"
    .ok { userName := push username, pubKey := push address, accumulator := push ach,
          nNonce := nonce }
  | [_, _, _, _] => .error (.rpc rpcInvalidParameter "username must be string")
  | _ => .error (.runtime
      ("createrawaccumulatortransaction <username> <pubKey> <accumulator> <address>\n" ++
        "Create a transaction registering a new group username\n" ++
        "accumulator must be in hex format\n" ++
        "address is the dht address where the signatures of the accumulator are stored\n" ++
        "pubkey parameter is not used (even though the address is stored in that field in the transaction)\n" ++
        "Returns hex-encoded raw transaction.\n" ++
        "it is not stored in the wallet or transmitted to the network."))

/-- `createrawstructuretransaction`, with the nonce that `DoTxProofOfWork` leaves. -/
def createrawstructuretransaction (params : List Json) (nonce : Nat) : Except Exn CTransaction :=
  match params with
  | [.str username, address, structure_, _] => do
    let address ← address.getStr
    let structure_ ← structure_.getStr
    .ok { userName := push username, pubKey := push address, accumulator := push structure_,
          nNonce := nonce }
  | [_, _, _, _] => .error (.rpc rpcInvalidParameter "username must be string")
  | _ => .error (.runtime
      ("createrawstructuretransaction <name> <pubKey> <structure> <message>\n" ++
        "Create a transaction registering a new structure\n" ++
        "pubKey contains the address of the signatures\n" ++
        "structure follows a particular syntax" ++ "Returns hex-encoded raw transaction.\n" ++
        "it is not stored in the wallet or transmitted to the network."))

/-- `_structure_i`. -/
def structureName (i : Nat) : Bytes := ascii "_structure_" ++ decimal i

/-- The loop over `_structure_2`, `_structure_3` and so on. -/
def scanStructures (getTransaction : Bytes → Option CTransaction) : Nat → Nat → CTransaction →
    CTransaction
  | 0, _, txStructure => txStructure
  | tries + 1, i, txStructure =>
    match getTransaction (structureName i) with
    | none => txStructure
    | some temp => scanStructures getTransaction tries (i + 1) temp

/-- The last structure transaction. -/
def lastStructure (w : World) : Option CTransaction :=
  (w.getTransaction (structureName 1)).map (scanStructures w.getTransaction maxTries 2)

/-- `getstructure`. -/
def getstructure (w : World) (params : List Json) : Except Exn Bytes :=
  if params.length ≠ 0 then .error (.runtime "getstructure\nReturns a json with the structure\n")
  else
    match lastStructure w with
    | none => .error (.runtime "getstructure() : could not retrieve structure\n")
    | some txStructure =>
      match unhex (toStr txStructure.accumulator) with
      | none => .error .hexDecode
      | some text => .ok text

/-- The address that `updateAccumulator` looks up for a transaction. -/
def dhtAddress (tx : CTransaction) : Option Bytes := unhex (toStr tx.pubKey)

/-! ## Long texts -/

theorem toStr_push {s : Bytes} (h : s.length < 256 ^ 4) :
    toStr (push s) = CScript.valueString s := by
  obtain ⟨opcode, hop, hget⟩ := CScript.getOp_push [] h
  rw [List.append_nil] at hget
  cases hscript : push s with
  | nil => exact absurd hscript (CScript.push_ne_nil s)
  | cons first more =>
    rw [hscript] at hget
    rw [toStr, List.length_cons]
    simp only [CScript.toStrFrom, hget, if_pos hop, if_pos, List.nil_append]

/-- Hexadecimal texts are read back. -/
theorem unhex_hexStr (s : Bytes) : unhex (hexStr s) = some s := by
  have hdigit : ∀ n < 16, hexValue (CScript.hexDigit n) = some n := by decide
  induction s with
  | nil => rfl
  | cons b s ih =>
    have hhigh := hdigit (b.toNat / 16) (by have := b.toNat_lt; omega)
    have hlow := hdigit (b.toNat % 16) (by omega)
    rw [hexStr] at ih
    rw [hexStr, List.flatMap_cons, List.cons_append, List.cons_append, List.nil_append, unhex,
      hhigh, hlow, ih]
    dsimp only
    rw [Nat.div_add_mod, UInt8.ofNat_toNat]

/-! ## Short texts -/

/-- The number with these digits. -/
def digitsValue (digits : List Nat) : Nat := digits.foldl (fun n d => 10 * n + d) 0

/-- A number that is not negative prints as its digits, without zeros in front. -/
theorem exists_digits (n : Nat) :
    ∃ digits : List Nat, (∀ d ∈ digits, d < 10) ∧ digitsValue digits = n ∧
      decimal n = digits.map (fun d => UInt8.ofNat (48 + d)) ∧ (n < 10 → digits.length = 1) := by
  have hdigit : ∀ c ∈ Nat.toDigits 10 n, 48 ≤ c.toNat ∧ c.toNat ≤ 57 := by
    intro c hc
    have := Nat.isDigit_of_mem_toDigits (b := 10) (by decide) (by decide) hc
    simpa [Char.isDigit, UInt32.le_iff_toNat_le] using this
  refine ⟨(Nat.toDigits 10 n).map fun c => c.toNat - 48, ?_, ?_, ?_, ?_⟩
  · intro d hd
    obtain ⟨c, hc, rfl⟩ := List.mem_map.1 hd
    have := hdigit c hc
    omega
  · have hread := Nat.ofDigitChars_ten_toDigits (n := n)
    rw [Nat.ofDigitChars] at hread
    rw [digitsValue, List.foldl_map]
    exact hread
  · have hpos : ¬ (n : Int) < 0 := by omega
    rw [decimal, if_neg hpos, List.nil_append, Int.natAbs_natCast, List.map_map]
    refine List.map_congr_left fun c hc => ?_
    have := hdigit c hc
    rw [Function.comp_apply, Nat.add_sub_cancel' this.1]
  · intro h
    rw [List.length_map, Nat.toDigits_of_lt_base h, List.length_singleton]

/-- The byte that two decimal digits mean in hexadecimal. -/
def hexPair (p : Nat) : Nat := 16 * (p / 10) + p % 10

theorem hexPair_lt {p : Nat} (h : p < 100) : hexPair p < 256 := by
  rw [hexPair]
  omega

theorem hexValue_digit {d : Nat} (h : d < 10) : hexValue (UInt8.ofNat (48 + d)) = some d := by
  have : ∀ d < 10, hexValue (UInt8.ofNat (48 + d)) = some d := by decide
  exact this d h

/-- Digits that `unhex` accepts come in pairs, one for each byte. -/
theorem unhex_digits : ∀ {digits : List Nat} {s : Bytes}, (∀ d ∈ digits, d < 10) →
    unhex (digits.map fun d => UInt8.ofNat (48 + d)) = some s →
    ∃ pairs : List Nat, (∀ p ∈ pairs, p < 100) ∧ s = pairs.map (fun p => UInt8.ofNat (hexPair p)) ∧
      digits = pairs.flatMap fun p => [p / 10, p % 10]
  | [], s, _, h => by
    cases h
    exact ⟨[], by simp, rfl, rfl⟩
  | [_], _, _, h => by cases h
  | a :: b :: digits, s, hd, h => by
    have ha : a < 10 := hd a (by simp)
    have hb : b < 10 := hd b (by simp)
    rw [List.map_cons, List.map_cons, unhex, hexValue_digit ha, hexValue_digit hb] at h
    split at h
    · rename_i x y bytes hx hy hbytes
      cases hx
      cases hy
      cases h
      obtain ⟨pairs, hp, rfl, rfl⟩ := unhex_digits (fun d hmem => hd d (by simp [hmem])) hbytes
      have hhigh : (10 * a + b) / 10 = a := by omega
      have hlow : (10 * a + b) % 10 = b := by omega
      refine ⟨(10 * a + b) :: pairs, ?_, ?_, ?_⟩
      · intro p hmem
        rcases List.mem_cons.1 hmem with rfl | hmem
        · omega
        · exact hp p hmem
      · rw [List.map_cons, hexPair, hhigh, hlow]
      · rw [List.flatMap_cons, hhigh, hlow, List.cons_append, List.cons_append, List.nil_append]
    · cases h

/-- The number that a text of two-digit bytes stands for. -/
theorem littleEndian_pairs {pairs : List Nat} (h : ∀ p ∈ pairs, p < 100) :
    littleEndian (pairs.map fun p => UInt8.ofNat (hexPair p)) =
      pairs.foldr (fun p n => hexPair p + 256 * n) 0 := by
  induction pairs with
  | nil => rfl
  | cons p pairs ih =>
    have hbyte := hexPair_lt (h p (by simp))
    rw [List.map_cons, littleEndian, ih fun q hq => h q (by simp [hq]),
      UInt8.toNat_ofNat_of_lt' hbyte, List.foldr_cons]

theorem digitsValue_pairs (pairs : List Nat) :
    digitsValue (pairs.flatMap fun p => [p / 10, p % 10]) =
      pairs.foldl (fun n p => 100 * n + p) 0 := by
  rw [digitsValue, List.foldl_flatMap]
  congr 1
  funext n p
  rw [List.foldl_cons, List.foldl_cons, List.foldl_nil]
  omega

/-- The last digits of a number, from the ones before them and its two lowest bytes. -/
def lastDigits (head low : Nat) : Nat := (low + 131072000 - head) % 65536

theorem eq_lastDigits (rest : Nat) {head low tail : Nat} (h : head + tail = low + 65536 * rest)
    (hhead : head ≤ 131072000) (htail : tail < 65536) : tail = lastDigits head low := by
  rw [lastDigits]
  omega

/-- Six digits that start with two pairs can be the number that their bytes stand for. -/
def sixDigits (p q : Nat) : Bool :=
  let low := hexPair p + 256 * hexPair q
  let tail := lastDigits (100 * (100 * p + q)) low
  Nat.ble tail 99 && Nat.beq (100 * (100 * p + q) + tail) (low + 65536 * hexPair tail)

/-- The check of four bytes. -/
def eightDigits (p q : Nat) : Bool :=
  let low := hexPair p + 256 * hexPair q
  let tail := lastDigits (10000 * (100 * p + q)) low
  Nat.ble tail 9999 && Nat.beq (10000 * (100 * p + q) + tail)
    (low + 65536 * (hexPair (tail / 100) + 256 * hexPair (tail % 100)))

/-- The pairs that pass a check. -/
def pairsWhere (check : Nat → Nat → Bool) : List (Nat × Nat) :=
  (List.range 100).flatMap fun p => ((List.range 100).filter (check p)).map fun q => (p, q)

theorem mem_pairsWhere {check : Nat → Nat → Bool} {p q : Nat} (hp : p < 100) (hq : q < 100)
    (h : check p q = true) : (p, q) ∈ pairsWhere check := by
  refine List.mem_flatMap.2 ⟨p, List.mem_range.2 hp, List.mem_map.2 ⟨q, ?_, rfl⟩⟩
  exact List.mem_filter.2 ⟨List.mem_range.2 hq, h⟩

theorem pairsWhere_sixDigits : pairsWhere sixDigits = [(0, 0), (54, 51)] := by
  decide +kernel

theorem pairsWhere_eightDigits : pairsWhere eightDigits = [(0, 0)] := by
  decide +kernel

theorem two_pairs {p q : Nat} (hp : p < 100) (hq : q < 100)
    (h : 100 * p + q = hexPair p + 256 * hexPair q) : p = 0 ∧ q = 0 := by
  have hcheck : ∀ p < 100, ∀ q, q = (hexPair p + 25600 - 100 * p) % 256 → q < 100 →
      100 * p + q = hexPair p + 256 * hexPair q → p = 0 ∧ q = 0 := by
    simp only [forall_eq]
    decide +kernel
  have := hexPair_lt hp
  exact hcheck p hp q (by omega) hq h

/-- Three bytes of decimal digits are the number with these digits in one case only. -/
theorem three_pairs {p q r : Nat} (hp : p < 100) (hq : q < 100) (hr : r < 100)
    (h : 100 * (100 * p + q) + r = hexPair p + 256 * (hexPair q + 256 * hexPair r)) :
    (p = 0 ∧ q = 0 ∧ r = 0) ∨ (p = 54 ∧ q = 51 ∧ r = 8) := by
  have hlast : r = lastDigits (100 * (100 * p + q)) (hexPair p + 256 * hexPair q) :=
    eq_lastDigits (hexPair r) (by omega) (by omega) (by omega)
  have hpass : sixDigits p q = true := by
    rw [sixDigits, ← hlast, Bool.and_eq_true, Nat.ble_eq, Nat.beq_eq]
    omega
  have hmem := mem_pairsWhere hp hq hpass
  rw [pairsWhere_sixDigits] at hmem
  rcases List.mem_pair.1 hmem with hfirst | hfirst
  · cases hfirst
    exact .inl ⟨rfl, rfl, hlast.trans (by decide)⟩
  · cases hfirst
    exact .inr ⟨rfl, rfl, hlast.trans (by decide)⟩

theorem four_pairs {p q r t : Nat} (hp : p < 100) (hq : q < 100) (hr : r < 100) (ht : t < 100)
    (h : 100 * (100 * (100 * p + q) + r) + t =
      hexPair p + 256 * (hexPair q + 256 * (hexPair r + 256 * hexPair t))) :
    p = 0 ∧ q = 0 ∧ r = 0 ∧ t = 0 := by
  have hhigh : (100 * r + t) / 100 = r := by omega
  have hlow : (100 * r + t) % 100 = t := by omega
  have hlast : 100 * r + t = lastDigits (10000 * (100 * p + q)) (hexPair p + 256 * hexPair q) :=
    eq_lastDigits (hexPair r + 256 * hexPair t) (by omega) (by omega) (by omega)
  have hpass : eightDigits p q = true := by
    rw [eightDigits, ← hlast, hhigh, hlow, Bool.and_eq_true, Nat.ble_eq, Nat.beq_eq]
    omega
  have hmem := mem_pairsWhere hp hq hpass
  rw [pairsWhere_eightDigits] at hmem
  cases List.mem_singleton.1 hmem
  have hzero : 100 * r + t = 0 := hlast.trans (by decide)
  omega

/-- At most four bytes of decimal digits that are the number with these digits. -/
theorem eq_of_pairs {pairs : List Nat} (hp : ∀ p ∈ pairs, p < 100) (hlen : pairs.length ≤ 4)
    (hpos : 10 ≤ pairs.foldl (fun n p => 100 * n + p) 0)
    (h : pairs.foldl (fun n p => 100 * n + p) 0 =
      pairs.foldr (fun p n => hexPair p + 256 * n) 0) : pairs = [54, 51, 8] := by
  match pairs with
  | [] => cases hpos
  | [p] =>
    simp only [List.foldl_cons, List.foldl_nil, List.foldr_cons, List.foldr_nil, hexPair] at hpos h
    omega
  | [p, q] =>
    simp only [List.mem_cons, forall_eq_or_imp] at hp
    simp only [List.foldl_cons, List.foldl_nil, List.foldr_cons, List.foldr_nil, Nat.mul_zero,
      Nat.zero_add, Nat.add_zero] at hpos h
    have := two_pairs hp.1 hp.2.1 h
    omega
  | [p, q, r] =>
    simp only [List.mem_cons, forall_eq_or_imp] at hp
    simp only [List.foldl_cons, List.foldl_nil, List.foldr_cons, List.foldr_nil, Nat.mul_zero,
      Nat.zero_add, Nat.add_zero] at hpos h
    rcases three_pairs hp.1 hp.2.1 hp.2.2.1 h with hzero | ⟨rfl, rfl, rfl⟩
    · omega
    · rfl
  | [p, q, r, t] =>
    simp only [List.mem_cons, forall_eq_or_imp] at hp
    simp only [List.foldl_cons, List.foldl_nil, List.foldr_cons, List.foldr_nil, Nat.mul_zero,
      Nat.zero_add, Nat.add_zero] at hpos h
    have := four_pairs hp.1 hp.2.1 hp.2.2.1 hp.2.2.2.1 h
    omega
  | _ :: _ :: _ :: _ :: _ :: _ =>
    simp only [List.length_cons] at hlen
    omega

/-- A short push is read as a number that is not positive, or as its bytes. -/
theorem bigNumInt_cases (s : Bytes) :
    CScript.bigNumInt s ≤ 0 ∨ CScript.bigNumInt s = littleEndian s := by
  rw [CScript.bigNumInt]
  split
  · left
    omega
  · right
    rfl

/-- The texts that come back. -/
def Survives (s : Bytes) : Prop := 5 ≤ s.length ∨ s = [0x54, 0x51, 0x08]

theorem unhex_negative {n : Int} (h : n < 0) : unhex (decimal n) = none := by
  rw [decimal, if_pos h]
  cases Nat.toDigits 10 n.natAbs with
  | nil => rfl
  | cons c rest => rfl

theorem short_survives {s : Bytes} (hlen : s.length ≤ 4)
    (h : unhex (decimal (CScript.bigNumInt s)) = some s) : s = [0x54, 0x51, 0x08] := by
  have hnonneg : 0 ≤ CScript.bigNumInt s := by
    by_contra hneg
    rw [unhex_negative (Int.not_le.1 hneg)] at h
    cases h
  obtain ⟨n, hn⟩ := Int.eq_ofNat_of_zero_le hnonneg
  obtain ⟨digits, hdigits, hread, hprint, hone⟩ := exists_digits n
  rw [hn, hprint] at h
  obtain ⟨pairs, hp, rfl, rfl⟩ := unhex_digits hdigits h
  have hlarge : 10 ≤ n := by
    by_contra hsmall
    have := hone (Nat.lt_of_not_le hsmall)
    rw [List.length_flatMap] at this
    simp only [List.length_cons, List.length_nil, List.map_const', List.sum_replicate_nat] at this
    omega
  rw [digitsValue_pairs] at hread
  rw [List.length_map] at hlen
  have hvalue : n = pairs.foldr (fun p n => hexPair p + 256 * n) 0 := by
    have := bigNumInt_cases (pairs.map fun p => UInt8.ofNat (hexPair p))
    rw [littleEndian_pairs hp] at this
    omega
  rw [eq_of_pairs hp hlen (hread ▸ hlarge) (hread.trans hvalue)]
  rfl

/-- What `unhex` makes of the printed push of a text. -/
theorem unhex_push_iff {s : Bytes} (h : s.length < 256 ^ 4) :
    unhex (toStr (push s)) = some s ↔ Survives s := by
  rw [toStr_push h, CScript.valueString]
  constructor
  · intro hread
    split at hread
    · rename_i hshort
      exact .inr (short_survives hshort hread)
    · rename_i hlong
      exact .inl (by omega)
  · rintro (hlong | rfl)
    · rw [if_neg (by omega), unhex_hexStr]
    · decide

/-! ## The three fields -/

/-- `updateAccumulator` takes the signatures of a transaction from an address. -/
structure LooksUp (tx : CTransaction) (s : Bytes) : Prop where
  address : dhtAddress tx = some s
  /-- With the transaction as the last one, the signatures under the address decide. -/
  update : ∀ {env : Env} {w : World} {cache n : Nat} {previous : CTransaction} {p : Bytes},
    LastAdmin w n previous tx → dhtAddress (if n = 1 then tx else previous) = some p →
    updateAccumulator env w cache = checkSignatures env w cache tx
      (computeNeededSignatures (w.dhtget 0 p) (n = 1)) (w.dhtget 1 s)

theorem looksUp_iff {tx : CTransaction} {s : Bytes} : LooksUp tx s ↔ dhtAddress tx = some s := by
  refine ⟨LooksUp.address, fun h => ⟨h, ?_⟩⟩
  intro env w cache n previous p hlast hprevious
  rw [dhtAddress] at h hprevious
  rw [updateAccumulator_eq hlast, updateFrom, h]
  simp only [decide_eq_true_eq, hprevious]

theorem createrawaccumulatortransaction_pubKey {username pubKey accumulator : Json} {s : Bytes}
    {nonce : Nat} {tx : CTransaction}
    (h : createrawaccumulatortransaction [username, pubKey, accumulator, .str s] nonce = .ok tx) :
    tx.pubKey = push s := by
  cases username <;> simp only [createrawaccumulatortransaction, reduceCtorEq] at h
  cases hkey : parseHexV pubKey "pubkey" with
  | error e =>
    rw [hkey] at h
    cases h
  | ok vch =>
    cases hacc : parseHexV accumulator "accumulator" with
    | error e =>
      rw [hkey, hacc] at h
      cases h
    | ok ach =>
      rw [hkey, hacc] at h
      cases h
      rfl

theorem createrawstructuretransaction_eq {username address structure_ message : Json} {nonce : Nat}
    {tx : CTransaction}
    (h : createrawstructuretransaction [username, address, structure_, message] nonce = .ok tx) :
    ∃ addressText structureText, address = .str addressText ∧ structure_ = .str structureText ∧
      tx.pubKey = push addressText ∧ tx.accumulator = push structureText := by
  cases username <;> simp only [createrawstructuretransaction, reduceCtorEq] at h
  cases address <;> try cases h
  cases structure_ <;> cases h
  exact ⟨_, _, rfl, rfl, rfl, rfl⟩

/-- `getstructure` goes by the last structure. -/
theorem getstructure_eq_ok_iff {w : World} {tx : CTransaction} {s : Bytes}
    (h : lastStructure w = some tx) :
    getstructure w [] = .ok s ↔ unhex (toStr tx.accumulator) = some s := by
  rw [getstructure, if_neg (by simp), h]
  dsimp only
  cases unhex (toStr tx.accumulator) with
  | none => simp
  | some text => simp

/-- An address or a structure comes back iff it has five bytes or is the one short text that
prints as itself. -/
theorem text_survives_iff {s : Bytes} (h : s.length < 256 ^ 4) :
    (∀ username pubKey accumulator nonce tx,
      createrawaccumulatortransaction [username, pubKey, accumulator, .str s] nonce = .ok tx →
      (LooksUp tx s ↔ Survives s)) ∧
    (∀ username structure_ message nonce tx,
      createrawstructuretransaction [username, .str s, structure_, message] nonce = .ok tx →
      (LooksUp tx s ↔ Survives s)) ∧
    (∀ username address message nonce tx w,
      createrawstructuretransaction [username, address, .str s, message] nonce = .ok tx →
      lastStructure w = some tx → (getstructure w [] = .ok s ↔ Survives s)) := by
  refine ⟨?_, ?_, ?_⟩
  · intro username pubKey accumulator nonce tx hbuild
    rw [looksUp_iff, dhtAddress, createrawaccumulatortransaction_pubKey hbuild]
    exact unhex_push_iff h
  · intro username structure_ message nonce tx hbuild
    obtain ⟨address, text, haddress, -, hkey, -⟩ := createrawstructuretransaction_eq hbuild
    cases haddress
    rw [looksUp_iff, dhtAddress, hkey]
    exact unhex_push_iff h
  · intro username address message nonce tx w hbuild hlast
    obtain ⟨addressText, text, -, hstructure, -, hacc⟩ := createrawstructuretransaction_eq hbuild
    cases hstructure
    rw [getstructure_eq_ok_iff hlast, hacc]
    exact unhex_push_iff h

/-- A node with one structure. -/
def oneStructure (tx : CTransaction) : World where
  getTransaction name := if name = structureName 1 then some tx else none
  dhtget _ _ := []
  wallet := ⟨[], fun _ => none, List.nodup_nil⟩

theorem lastStructure_oneStructure (tx : CTransaction) :
    lastStructure (oneStructure tx) = some tx := by
  have hnext : structureName 2 ≠ structureName 1 := by decide
  simp only [lastStructure, oneStructure, if_true, Option.map_some, maxTries, scanStructures,
    if_neg hnext]

/-- A text of five bytes. -/
theorem text_survives_iff_hello : ∃ tx,
    createrawstructuretransaction [.str (ascii "x"), .str (ascii "hello"), .str (ascii "world"),
      .null] 0 = .ok tx ∧ LooksUp tx (ascii "hello") ∧
    getstructure (oneStructure tx) [] = .ok (ascii "world") := by
  obtain ⟨tx, hbuild⟩ : ∃ tx, createrawstructuretransaction [.str (ascii "x"),
      .str (ascii "hello"), .str (ascii "world"), .null] 0 = .ok tx := ⟨_, rfl⟩
  refine ⟨tx, hbuild, ?_, ?_⟩
  · exact ((text_survives_iff (s := ascii "hello") (by decide)).2.1 _ _ _ _ _ hbuild).2
      (.inl (by decide))
  · exact ((text_survives_iff (s := ascii "world") (by decide)).2.2 _ _ _ _ _ _ hbuild
      (lastStructure_oneStructure tx)).2 (.inl (by decide))

/-- The address `abcd` is looked up elsewhere, and the structure `abc` makes the call throw. -/
theorem text_lost : ∃ tx,
    createrawstructuretransaction [.str (ascii "x"), .str (ascii "abcd"), .str (ascii "abc"),
      .null] 0 = .ok tx ∧ dhtAddress tx = some [0x16, 0x84, 0x23, 0x48, 0x49] ∧
    ¬ LooksUp tx (ascii "abcd") ∧
    getstructure (oneStructure tx) [] = .error .hexDecode := by
  have haddress : unhex (toStr (push (ascii "abcd"))) = some [0x16, 0x84, 0x23, 0x48, 0x49] := by
    decide +kernel
  have hstructure : unhex (toStr (push (ascii "abc"))) = none := by
    decide +kernel
  refine ⟨_, rfl, haddress, fun hlook => ?_, ?_⟩
  · have hother := haddress.symm.trans hlook.address
    exact absurd hother (by decide)
  · rw [getstructure, if_neg (by simp), lastStructure_oneStructure]
    dsimp only
    rw [hstructure]

end CoMoNet
