import Mathlib.Algebra.Ring.Int.Defs
import Mathlib.Algebra.Ring.Nat
import Mathlib.Data.List.Basic

/-!
# Scripts

A script is a container of pushes and is never executed. `extractPushData` returns the
pushed strings, `extractSmallString` the single push of a user name, and `toStr` prints
the script, which the administrator code hashes and decodes.
-/

namespace CoMoNet

/-- A byte string: `std::string` and `std::vector<unsigned char>` alike. -/
abbrev Bytes := List UInt8

/-- The bytes of an ASCII text constant of the source. -/
def ascii (s : String) : Bytes := s.toList.map fun c => c.toNat.toUInt8

/-- A script is its bytes. -/
abbrev CScript := Bytes

/-- `OP_PUSHDATA1`: the push size is in the next byte. -/
def opPushData1 : UInt8 := 0x4c

/-- `OP_PUSHDATA2`: the push size is in the next two bytes. -/
def opPushData2 : UInt8 := 0x4d

/-- `OP_PUSHDATA4`: the push size is in the next four bytes. -/
def opPushData4 : UInt8 := 0x4e

/-- `OP_16`, the last opcode that counts as pushing data. -/
def op16 : UInt8 := 0x60

/-- The number with these bytes, the lowest first. -/
def littleEndian : Bytes → Nat
  | [] => 0
  | b :: bs => b.toNat + 256 * littleEndian bs

namespace CScript

/-! ## Reading one operation -/

/-- The number of bytes an opcode pushes and the script after its size field. -/
def operandSize (opcode : UInt8) (pc : Bytes) : Option (Nat × Bytes) :=
  let width := if opcode = opPushData1 then 1 else if opcode = opPushData2 then 2 else 4
  if opcode < opPushData1 then some (opcode.toNat, pc)
  else if pc.length < width then none
  else some (littleEndian (pc.take width), pc.drop width)

/-- `GetOp2`: the opcode, the bytes it pushes and the rest; `none` at the end or when bytes are
cut off. -/
def getOp : Bytes → Option (UInt8 × Bytes × Bytes)
  | [] => none
  | opcode :: pc =>
    if opcode ≤ opPushData4 then
      match operandSize opcode pc with
      | none => none
      | some (nSize, pc) =>
        if pc.length < nSize then none
        else some (opcode, pc.take nSize, pc.drop nSize)
    else some (opcode, [], pc)

/-! ## Pushes -/

/-- The loop of `ExtractPushData`, from a position of the script. -/
def extractFrom : Nat → Bytes → Option (List Bytes)
  | _, [] => some []
  | 0, _ :: _ => none
  | fuel + 1, pc@(_ :: _) =>
    match getOp pc with
    | none => none
    | some (opcode, vch, rest) =>
      if op16 < opcode then none
      else (extractFrom fuel rest).map (vch :: ·)

/-- `ExtractPushData`: all pushes, `none` if the script has anything else. -/
def extractPushData (script : CScript) : Option (List Bytes) :=
  extractFrom script.length script

/-- `ExtractPushDataString(n)`: the `n`th push, or the empty string. -/
def extractPushDataString (script : CScript) (n : Nat) : Bytes :=
  match extractPushData script with
  | none => []
  | some vData => vData.getD n []

/-- The script is one direct push. -/
def isSmallString : CScript → Bool
  | [] => false
  | opSize :: rest => opSize < opPushData1 && rest.length == opSize.toNat

/-- `ExtractSmallString`: the push of a small string, else the empty string. -/
def extractSmallString (script : CScript) : Bytes :=
  if isSmallString script then script.tail else []

/-- The bytes of a number, least significant first. -/
def sizeField : Nat → Nat → Bytes
  | 0, _ => []
  | width + 1, n => (n % 256).toUInt8 :: sizeField width (n / 256)

/-- `operator<<` for a byte vector: the script that pushes it. -/
def push (b : Bytes) : CScript :=
  (if b.length < opPushData1.toNat then [b.length.toUInt8]
   else if b.length ≤ 0xff then opPushData1 :: sizeField 1 b.length
   else if b.length ≤ 0xffff then opPushData2 :: sizeField 2 b.length
   else opPushData4 :: sizeField 4 b.length) ++ b

theorem push_ne_nil (b : Bytes) : push b ≠ [] := by
  rw [push]
  split
  · exact List.cons_ne_nil _ _
  split
  · exact List.cons_ne_nil _ _
  split <;> exact List.cons_ne_nil _ _

/-! ## Reading a push back -/

theorem length_sizeField : ∀ width n : Nat, (sizeField width n).length = width
  | 0, _ => rfl
  | width + 1, n => by rw [sizeField, List.length_cons, length_sizeField width]

theorem littleEndian_sizeField :
    ∀ {width n : Nat}, n < 256 ^ width → littleEndian (sizeField width n) = n
  | 0, n, h => by
    have : n = 0 := by simpa using h
    rw [this]
    rfl
  | width + 1, n, h => by
    have hdiv : n / 256 < 256 ^ width :=
      Nat.div_lt_of_lt_mul (by rwa [Nat.pow_succ, Nat.mul_comm] at h)
    have hbyte : (n % 256).toUInt8.toNat = n % 256 :=
      UInt8.toNat_ofNat_of_lt' (Nat.mod_lt n (by decide))
    rw [sizeField, littleEndian, littleEndian_sizeField hdiv, hbyte]
    exact Nat.mod_add_div n 256

theorem operandSize_sizeField {opcode : UInt8} {width n : Nat} {rest : Bytes}
    (hop : ¬ opcode < opPushData1)
    (hwidth : (if opcode = opPushData1 then 1 else if opcode = opPushData2 then 2 else 4) = width)
    (hn : n < 256 ^ width) :
    operandSize opcode (sizeField width n ++ rest) = some (n, rest) := by
  have hlen : ¬ (sizeField width n ++ rest).length < width := by
    rw [List.length_append, length_sizeField]
    omega
  rw [operandSize, if_neg hop]
  simp only [hwidth]
  rw [if_neg hlen, List.take_left' (length_sizeField width n),
    List.drop_left' (length_sizeField width n), littleEndian_sizeField hn]

/-- A short string is pushed by its length. -/
theorem push_small {b : Bytes} (h : b.length < 76) :
    ∃ opcode, push b = opcode :: b ∧ opcode < opPushData1 ∧ opcode.toNat = b.length := by
  have hnat : b.length.toUInt8.toNat = b.length :=
    UInt8.toNat_ofNat_of_lt' (Nat.lt_trans h (by decide))
  refine ⟨b.length.toUInt8, ?_, ?_, hnat⟩
  · rw [push, if_pos (show b.length < opPushData1.toNat from h), List.singleton_append]
  · rw [UInt8.lt_iff_toNat_lt, hnat]
    exact h

/-- A push is read as one operation. -/
theorem getOp_push {b : Bytes} (rest : Bytes) (h : b.length < 256 ^ 4) :
    ∃ opcode ≤ opPushData4, getOp (push b ++ rest) = some (opcode, b, rest) := by
  have key : ∀ (opcode : UInt8) (field : Bytes), opcode ≤ opPushData4 →
      push b = opcode :: field ++ b →
      operandSize opcode (field ++ (b ++ rest)) = some (b.length, b ++ rest) →
      ∃ opcode ≤ opPushData4, getOp (push b ++ rest) = some (opcode, b, rest) := by
    intro opcode field hop hpush hsize
    refine ⟨opcode, hop, ?_⟩
    rw [hpush, List.append_assoc, List.cons_append, getOp, if_pos hop, hsize]
    simp
  rcases Nat.lt_or_ge b.length 76 with hsmall | hsmall
  · obtain ⟨opcode, hpush, hlt, hnat⟩ := push_small hsmall
    refine key opcode [] (UInt8.le_trans (UInt8.le_of_lt hlt) (by decide)) hpush ?_
    rw [operandSize, if_pos hlt, hnat, List.nil_append]
  have hpush : push b = (if b.length ≤ 0xff then opPushData1 :: sizeField 1 b.length
      else if b.length ≤ 0xffff then opPushData2 :: sizeField 2 b.length
      else opPushData4 :: sizeField 4 b.length) ++ b := by
    rw [push, if_neg (show ¬ b.length < opPushData1.toNat from Nat.not_lt.2 hsmall)]
  split at hpush
  · exact key opPushData1 (sizeField 1 b.length) (by decide) hpush
      (operandSize_sizeField (by decide) (by decide) (by omega))
  split at hpush
  · exact key opPushData2 (sizeField 2 b.length) (by decide) hpush
      (operandSize_sizeField (by decide) (by decide) (by omega))
  · exact key opPushData4 (sizeField 4 b.length) (by decide) hpush
      (operandSize_sizeField (by decide) (by decide) h)

/-- Reading a push and what follows. -/
theorem extractFrom_push {b rest : Bytes} (fuel : Nat) (h : b.length < 256 ^ 4) :
    extractFrom (fuel + 1) (push b ++ rest) = (extractFrom fuel rest).map (b :: ·) := by
  obtain ⟨opcode, hop, hget⟩ := getOp_push rest h
  have hlast : ¬ op16 < opcode := UInt8.not_lt.2 (UInt8.le_trans hop (by decide))
  cases hscript : push b ++ rest with
  | nil => exact absurd (List.append_eq_nil_iff.1 hscript).1 (push_ne_nil b)
  | cons first more =>
    rw [hscript] at hget
    simp only [extractFrom, hget, if_neg hlast]

/-- The script that pushes some byte strings, one after the other. -/
def pushAll (parts : List Bytes) : CScript := parts.flatMap push

theorem extractFrom_pushAll :
    ∀ {parts : List Bytes} {fuel : Nat}, (∀ b ∈ parts, b.length < 256 ^ 4) →
      parts.length ≤ fuel → extractFrom fuel (pushAll parts) = some parts
  | [], 0, _, _ | [], _ + 1, _, _ => rfl
  | b :: parts, fuel + 1, hparts, hfuel => by
    rw [pushAll, List.flatMap_cons, extractFrom_push fuel (hparts b List.mem_cons_self)]
    rw [← pushAll, extractFrom_pushAll (fun c hc => hparts c (List.mem_cons_of_mem b hc))
      (Nat.le_of_succ_le_succ hfuel)]
    rfl

theorem length_le_pushAll (parts : List Bytes) : parts.length ≤ (pushAll parts).length := by
  induction parts with
  | nil => exact Nat.le_refl 0
  | cons b parts ih =>
    have hpos : 0 < (push b).length := List.length_pos_of_ne_nil (push_ne_nil b)
    rw [pushAll] at ih ⊢
    rw [List.flatMap_cons, List.length_append, List.length_cons]
    omega

theorem extractPushData_pushAll {parts : List Bytes} (h : ∀ b ∈ parts, b.length < 256 ^ 4) :
    extractPushData (pushAll parts) = some parts :=
  extractFrom_pushAll h (length_le_pushAll parts)

/-- A short push is a small string. -/
theorem extractSmallString_push {b : Bytes} (h : b.length < 76) :
    isSmallString (push b) = true ∧ extractSmallString (push b) = b := by
  obtain ⟨opcode, hpush, hlt, hnat⟩ := push_small h
  have hsmall : isSmallString (push b) = true := by
    rw [hpush, isSmallString, hnat]
    simp [hlt]
  refine ⟨hsmall, ?_⟩
  rw [extractSmallString, if_pos hsmall, hpush, List.tail_cons]

theorem foldl_push (parts : List Bytes) (script : CScript) :
    parts.foldl (fun script b => script ++ push b) script = script ++ pushAll parts := by
  induction parts generalizing script with
  | nil => exact (List.append_nil script).symm
  | cons b parts ih =>
    rw [List.foldl_cons, ih, List.append_assoc, pushAll, pushAll, List.flatMap_cons]

/-- A small string is the push of what is read from it. -/
theorem eq_push_of_isSmallString {script : CScript} (h : isSmallString script = true) :
    script = push (extractSmallString script) ∧ (extractSmallString script).length < 76 := by
  cases script with
  | nil => cases h
  | cons opSize rest =>
    have hread : extractSmallString (opSize :: rest) = rest := if_pos h
    simp only [isSmallString, Bool.and_eq_true, decide_eq_true_eq, beq_iff_eq] at h
    obtain ⟨hlt, hlen⟩ := h
    have hshort : rest.length < 76 := hlen ▸ hlt
    obtain ⟨opcode, hpush, -, hnat⟩ := push_small hshort
    rw [hread, hpush, UInt8.toNat_inj.1 (hnat.trans hlen)]
    exact ⟨rfl, hshort⟩

/-- A hexadecimal digit. -/
def hexDigit (n : Nat) : UInt8 := (ascii "0123456789abcdef").getD n 0

/-- `HexStr`. -/
def hexStr (vch : Bytes) : Bytes :=
  vch.flatMap fun b => [hexDigit (b.toNat / 16), hexDigit (b.toNat % 16)]

/-- `CBigNum(vch).getint()` of at most four bytes; the top bit is the sign. -/
def bigNumInt (vch : Bytes) : Int :=
  let magnitude := littleEndian vch
  let signBit := 2 ^ (8 * vch.length - 1)
  if vch ≠ [] ∧ signBit ≤ magnitude then -((magnitude - signBit : Nat) : Int) else magnitude

/-- `strprintf("%d", n)`. -/
def decimal (n : Int) : Bytes :=
  (if n < 0 then ascii "-" else []) ++
    (Nat.toDigits 10 n.natAbs).map fun c => c.toNat.toUInt8

/-- `ValueString`: short pushes print as a decimal number, longer ones in
hexadecimal. -/
def valueString (vch : Bytes) : Bytes :=
  if vch.length ≤ 4 then decimal (bigNumInt vch) else hexStr vch

/-- The names `GetOpName` has for the opcodes from `OP_1NEGATE` to `OP_NOP10`. -/
def opNames : List String :=
  ["-1", "OP_RESERVED", "1", "2", "3", "4", "5", "6", "7", "8", "9", "10", "11", "12", "13",
    "14", "15", "16", "OP_NOP", "OP_VER", "OP_IF", "OP_NOTIF", "OP_VERIF", "OP_VERNOTIF",
    "OP_ELSE", "OP_ENDIF", "OP_VERIFY", "OP_RETURN", "OP_TOALTSTACK", "OP_FROMALTSTACK",
    "OP_2DROP", "OP_2DUP", "OP_3DUP", "OP_2OVER", "OP_2ROT", "OP_2SWAP", "OP_IFDUP", "OP_DEPTH",
    "OP_DROP", "OP_DUP", "OP_NIP", "OP_OVER", "OP_PICK", "OP_ROLL", "OP_ROT", "OP_SWAP",
    "OP_TUCK", "OP_CAT", "OP_SUBSTR", "OP_LEFT", "OP_RIGHT", "OP_SIZE", "OP_INVERT", "OP_AND",
    "OP_OR", "OP_XOR", "OP_EQUAL", "OP_EQUALVERIFY", "OP_RESERVED1", "OP_RESERVED2", "OP_1ADD",
    "OP_1SUB", "OP_2MUL", "OP_2DIV", "OP_NEGATE", "OP_ABS", "OP_NOT", "OP_0NOTEQUAL", "OP_ADD",
    "OP_SUB", "OP_MUL", "OP_DIV", "OP_MOD", "OP_LSHIFT", "OP_RSHIFT", "OP_BOOLAND", "OP_BOOLOR",
    "OP_NUMEQUAL", "OP_NUMEQUALVERIFY", "OP_NUMNOTEQUAL", "OP_LESSTHAN", "OP_GREATERTHAN",
    "OP_LESSTHANOREQUAL", "OP_GREATERTHANOREQUAL", "OP_MIN", "OP_MAX", "OP_WITHIN",
    "OP_RIPEMD160", "OP_SHA1", "OP_SHA256", "OP_HASH160", "OP_HASH256", "OP_CODESEPARATOR",
    "OP_CHECKSIG", "OP_CHECKSIGVERIFY", "OP_CHECKMULTISIG", "OP_CHECKMULTISIGVERIFY", "OP_NOP1",
    "OP_NOP2", "OP_NOP3", "OP_NOP4", "OP_NOP5", "OP_NOP6", "OP_NOP7", "OP_NOP8", "OP_NOP9",
    "OP_NOP10"]

/-- `GetOpName`, for the opcodes that do not push bytes. -/
def getOpName (opcode : UInt8) : String :=
  if opcode = 0xfd then "OP_PUBKEYHASH"
  else if opcode = 0xfe then "OP_PUBKEY"
  else if opcode = 0xff then "OP_INVALIDOPCODE"
  else opNames.getD (opcode.toNat - 0x4f) "OP_UNKNOWN"

/-- The loop of `ToString`, with the text printed so far. -/
def toStrFrom : Nat → Bytes → Bytes → Bytes
  | _, str, [] => str
  | 0, str, _ :: _ => str
  | fuel + 1, str, pc@(_ :: _) =>
    let str := if str = [] then str else str ++ ascii " "
    match getOp pc with
    | none => str ++ ascii "[error]"
    | some (opcode, vch, rest) =>
      toStrFrom fuel (str ++
        if opcode ≤ opPushData4 then valueString vch else ascii (getOpName opcode)) rest

/-- `ToString`: the operations of the script, separated by blanks. -/
def toStr (script : CScript) : Bytes :=
  toStrFrom script.length [] script

end CScript
end CoMoNet
