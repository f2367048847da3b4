import CoMoNet.Dht.LazyEntry
import CoMoNet.Lib.Decode

/-!
# Reading what was encoded

`lazy_bdecode` has limits for nesting and number of values. `Entry.decode` reads encoded
data back, without limits (`bdecode_bencode`).
-/

namespace CoMoNet

open CScript (decimal)
open Decode

namespace Entry

/-! ## Limits -/

mutual

/-- Numbers and lengths have their types, and the nesting is at most so deep. -/
def nested : Nat → Entry → Bool
  | _, .int n => -2 ^ 63 < n && n < 2 ^ 63
  | _, .str s => s.length < 2 ^ 31
  | depth + 1, .list values => nestedList depth values
  | depth + 1, .dict members => nestedDict depth members
  | 0, _ => false

/-- `nested`, for the values of a list. -/
def nestedList (depth : Nat) : List Entry → Bool
  | [] => true
  | value :: values => nested depth value && nestedList depth values

/-- `nested`, for the members of a dictionary. -/
def nestedDict (depth : Nat) : List (Bytes × Entry) → Bool
  | [] => true
  | (key, value) :: members =>
    key.length < 2 ^ 31 && nested depth value && nestedDict depth members

end

mutual

/-- The number of values. -/
def items : Entry → Nat
  | .int _ | .str _ => 1
  | .list values => 1 + itemsList values
  | .dict members => 1 + itemsDict members

/-- The number of values in a list. -/
def itemsList : List Entry → Nat
  | [] => 0
  | value :: values => items value + itemsList values

/-- The number of values in a dictionary. -/
def itemsDict : List (Bytes × Entry) → Nat
  | [] => 0
  | (_, value) :: members => items value + itemsDict members

end

/-- The limits with which the DHT calls `lazy_bdecode`, 10 and 500. -/
def WithinLimits (e : Entry) : Prop := nested 10 e = true ∧ items e < 500

instance (e : Entry) : Decidable e.WithinLimits := inferInstanceAs (Decidable (_ ∧ _))

/-! ## A decoder -/

/-- A decimal number and the byte that ends it. -/
def readNumber (stop : UInt8) : Reader UInt8 Nat := fun data =>
  let digits := data.takeWhile (· ≠ stop)
  if digits.length < data.length then
    some (Nat.ofDigitChars 10 (digits.map fun b => Char.ofNat b.toNat) 0,
      data.drop (digits.length + 1))
  else none

/-- An integer, after its first byte. -/
def readInt : Reader UInt8 Int
  | 45 :: data => ((fun n : Nat => -(n : Int)) <$> readNumber 101) data
  | data => ((fun n : Nat => (n : Int)) <$> readNumber 101) data

/-- A string with its length. -/
def readString : Reader UInt8 Bytes := do
  let len ← readNumber 58
  Decode.take len

mutual

/-- Read an entry. -/
def decode : Nat → Reader UInt8 Entry
  | 0, _ => none
  | _ + 1, 105 :: data => (Entry.int <$> readInt) data
  | fuel + 1, 108 :: data => (Entry.list <$> decodeList fuel) data
  | fuel + 1, 100 :: data => (Entry.dict <$> decodeDict fuel) data
  | _ + 1, data => (Entry.str <$> readString) data

/-- Read values up to the end of a list. -/
def decodeList : Nat → Reader UInt8 (List Entry)
  | 0, _ => none
  | _ + 1, 101 :: data => some ([], data)
  | fuel + 1, data => (do
    let value ← decode fuel
    let values ← decodeList fuel
    return value :: values : Reader UInt8 (List Entry)) data

/-- Read members up to the end of a dictionary. -/
def decodeDict : Nat → Reader UInt8 (List (Bytes × Entry))
  | 0, _ => none
  | _ + 1, 101 :: data => some ([], data)
  | fuel + 1, data => (do
    let key ← readString
    let value ← decode fuel
    let members ← decodeDict fuel
    return (key, value) :: members : Reader UInt8 (List (Bytes × Entry))) data

end

/-- What is read from encoded data. -/
def bdecode (data : Bytes) : Option LazyEntry := (decode data.length data).map fun r => lazy r.1

/-! ## The round trip -/

theorem isDigit_of_mem_decimal {k : Nat} {b : UInt8} (h : b ∈ decimal k) :
    48 ≤ b.toNat ∧ b.toNat ≤ 57 := by
  have hpos : ¬(k : Int) < 0 := by omega
  rw [decimal, if_neg hpos, List.nil_append, List.mem_map] at h
  obtain ⟨c, hc, rfl⟩ := h
  have hdigit := Nat.isDigit_of_mem_toDigits (by decide) (Nat.le_refl 10) hc
  simp only [Char.isDigit, Bool.and_eq_true, decide_eq_true_eq, UInt32.le_iff_toNat_le] at hdigit
  have hrange : 48 ≤ c.toNat ∧ c.toNat ≤ 57 := hdigit
  rw [UInt8.toNat_ofNat_of_lt' (show c.toNat < 256 by omega)]
  exact hrange

/-- A number starts with a digit. -/
theorem decimal_cons (k : Nat) :
    ∃ c digits, decimal k = c :: digits ∧ 48 ≤ c.toNat ∧ c.toNat ≤ 57 := by
  cases hcode : decimal k with
  | nil =>
    have hdigits := map_decimal k
    rw [hcode, List.map_nil] at hdigits
    exact absurd hdigits.symm Nat.toDigits_ne_nil
  | cons c digits => exact ⟨c, digits, rfl, isDigit_of_mem_decimal (hcode ▸ List.mem_cons_self)⟩

/-- A number is read back. -/
theorem reads_number (k : Nat) (stop : UInt8) (hstop : stop.toNat < 48 ∨ 57 < stop.toNat) :
    Reads (readNumber stop) (decimal k ++ [stop]) k := by
  intro rest
  have hdigits : (decimal k ++ [stop] ++ rest).takeWhile (· ≠ stop) = decimal k := by
    rw [List.append_assoc, List.takeWhile_append_of_pos]
    · simp
    · intro b hb
      have hrange := isDigit_of_mem_decimal hb
      refine decide_eq_true ?_
      rintro rfl
      omega
  rw [readNumber, hdigits, map_decimal, Nat.ofDigitChars_ten_toDigits, if_pos (by simp)]
  simp

/-- An integer is read back. -/
theorem reads_int (n : Int) : Reads readInt (decimal n ++ ascii "e") n := by
  intro rest
  have hread := reads_number n.natAbs 101 (by decide) rest
  by_cases hneg : n < 0
  · have hcode : decimal n = 45 :: decimal n.natAbs := by
      rw [decimal, decimal, if_pos hneg, if_neg (by omega), Int.natAbs_natCast]
      rfl
    rw [hcode]
    refine (run_map.mpr ⟨n.natAbs, hread, by omega⟩)
  · have hcode : decimal n = decimal n.natAbs := by
      rw [Int.natAbs_of_nonneg (by omega)]
    rw [hcode]
    obtain ⟨c, digits, hc, hdigit⟩ := decimal_cons n.natAbs
    rw [hc] at hread ⊢
    rw [List.cons_append, List.cons_append, readInt]
    · exact run_map.mpr ⟨n.natAbs, hread, by omega⟩
    · rintro data ⟨⟩
      exact absurd hdigit.1 (by decide)

/-- A string is read back. -/
theorem reads_string (s : Bytes) : Reads readString (decimal s.length ++ ascii ":" ++ s) s :=
  (reads_number s.length 58 (by decide)).bind (Reads.take rfl)

/-- The first byte of an encoded entry is not the one that ends a list. -/
theorem bencode_cons (e : Entry) : ∃ c data, bencode e = c :: data ∧ c ≠ 101 := by
  cases e with
  | int n => exact ⟨105, _, rfl, by decide⟩
  | list values => exact ⟨108, _, rfl, by decide⟩
  | dict members => exact ⟨100, _, rfl, by decide⟩
  | str s =>
    obtain ⟨c, digits, hc, hdigit⟩ := decimal_cons s.length
    refine ⟨c, digits ++ ascii ":" ++ s, by rw [bencode, hc]; rfl, ?_⟩
    rintro rfl
    exact absurd hdigit.2 (by decide)

mutual

/-- An entry is read back. -/
theorem reads_decode : ∀ (e : Entry) (fuel : Nat), (bencode e).length ≤ fuel →
    Reads (decode fuel) (bencode e) e
  | e, 0, h => by
    obtain ⟨c, data, hcode, -⟩ := bencode_cons e
    rw [hcode] at h
    cases h
  | .int n, fuel + 1, _ => fun rest => by
    exact ((reads_int n).map Entry.int) rest
  | .list values, fuel + 1, h => fun rest => by
    have hlength : (bencodeList values).length + 1 ≤ fuel := by
      simp [bencode, ascii] at h
      omega
    exact ((reads_decodeList values fuel hlength).map Entry.list) rest
  | .dict members, fuel + 1, h => fun rest => by
    have hlength : (bencodeDict members).length + 1 ≤ fuel := by
      simp [bencode, ascii] at h
      omega
    exact ((reads_decodeDict members fuel hlength).map Entry.dict) rest
  | .str s, fuel + 1, _ => fun rest => by
    have hread := ((reads_string s).map Entry.str) rest
    obtain ⟨c, digits, hc, hdigit⟩ := decimal_cons s.length
    rw [bencode]
    rw [hc, List.cons_append, List.cons_append, List.cons_append] at hread ⊢
    rw [decode]
    · exact hread
    all_goals
      rintro data ⟨⟩
      exact absurd hdigit.2 (by decide)

theorem reads_decodeList : ∀ (values : List Entry) (fuel : Nat),
    (bencodeList values).length + 1 ≤ fuel →
      Reads (decodeList fuel) (bencodeList values ++ ascii "e") values
  | _, 0, h => by omega
  | [], _ + 1, _ => fun _ => rfl
  | value :: values, fuel + 1, h => fun rest => by
    obtain ⟨c, data, hcode, hc⟩ := bencode_cons value
    have hlength : (bencode value).length + (bencodeList values).length ≤ fuel := by
      simpa [bencodeList] using h
    have hpos : 0 < (bencode value).length := by
      rw [hcode]
      exact Nat.succ_pos _
    have hread : Reads (do
        let value ← decode fuel
        let values ← decodeList fuel
        return value :: values) (bencode value ++ (bencodeList values ++ ascii "e"))
          (value :: values) := by
      refine (reads_decode value fuel (by omega)).bind ?_
      exact (reads_decodeList values fuel (by omega)).bind_pure (value :: ·)
    have hread := hread rest
    rw [bencodeList, List.append_assoc (bencode value)]
    rw [hcode, List.cons_append, List.cons_append] at hread ⊢
    rw [decodeList]
    · exact hread
    · rintro data ⟨⟩
      exact hc rfl

theorem reads_decodeDict : ∀ (members : List (Bytes × Entry)) (fuel : Nat),
    (bencodeDict members).length + 1 ≤ fuel →
      Reads (decodeDict fuel) (bencodeDict members ++ ascii "e") members
  | _, 0, h => by omega
  | [], _ + 1, _ => fun _ => rfl
  | (key, value) :: members, fuel + 1, h => fun rest => by
    obtain ⟨c, digits, hc, hdigit⟩ := decimal_cons key.length
    have hlength : (bencode value).length + (bencodeDict members).length + 1 ≤ fuel := by
      simp [bencodeDict, ascii] at h
      omega
    have hread : Reads (do
        let key ← readString
        let value ← decode fuel
        let members ← decodeDict fuel
        return (key, value) :: members) (decimal key.length ++ ascii ":" ++ key ++
          (bencode value ++ (bencodeDict members ++ ascii "e"))) ((key, value) :: members) := by
      refine (reads_string key).bind ?_
      refine (reads_decode value fuel (by omega)).bind ?_
      exact (reads_decodeDict members fuel (by omega)).bind_pure ((key, value) :: ·)
    have hread := hread rest
    have hcode : bencodeDict ((key, value) :: members) ++ ascii "e" =
        decimal key.length ++ ascii ":" ++ key ++
          (bencode value ++ (bencodeDict members ++ ascii "e")) := by
      simp only [bencodeDict, List.append_assoc]
    rw [hcode]
    rw [hc, List.cons_append, List.cons_append, List.cons_append, List.cons_append] at hread ⊢
    rw [decodeDict]
    · exact hread
    · rintro data ⟨⟩
      exact absurd hdigit.2 (by decide)

end

/-- An encoded entry is read back. -/
theorem bdecode_bencode (e : Entry) : bdecode (bencode e) = some (lazy e) := by
  have hread := reads_decode e _ (Nat.le_refl _) []
  rw [List.append_nil] at hread
  rw [bdecode, hread, Option.map_some]

end Entry

end CoMoNet
