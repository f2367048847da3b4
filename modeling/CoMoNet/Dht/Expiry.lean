import CoMoNet.Dht.Fresh
import Mathlib.Data.List.TakeWhile
import Mathlib.Tactic.IntervalCases

/-!
# The age of items

An item is dropped some time after its height, except for a few resources. Height and
number of a resource are read into an `int`, so some items never expire
(`item_expires_iff`).
-/

namespace CoMoNet

open CScript (decimal)

/-! ## Numbers of resources -/

/-- `isalpha`, of the C locale. -/
def isalpha (c : UInt8) : Bool := (65 ≤ c && c ≤ 90) || (97 ≤ c && c ≤ 122)

/-- `isdigit`. -/
def isdigit (c : UInt8) : Bool := 48 ≤ c && c ≤ 57

/-- A number with all digits and no leading zero. -/
def Numeral (digits : Bytes) : Prop :=
  digits ≠ [] ∧ digits.all isdigit = true ∧ (digits.head? = some 48 → digits.length = 1)

instance (digits : Bytes) : Decidable (Numeral digits) := inferInstanceAs (Decidable (_ ∧ _ ∧ _))

section Numerals

variable {a d n : Nat} {digits rest : Bytes} {c : UInt8}

theorem isdigit_iff : isdigit c = true ↔ 48 ≤ c.toNat ∧ c.toNat ≤ 57 := by
  simp [isdigit, UInt8.le_iff_toNat_le]

theorem toUInt8_digit (h : 48 ≤ c.toNat) : (48 + (c.toNat - 48)).toUInt8 = c := by
  rw [Nat.add_sub_cancel' h]
  exact UInt8.ofNat_toNat

theorem readDecimal_cons (hc : isdigit c = true) (k : Int) :
    readDecimal k (c :: rest) = readDecimal (10 * k + (c.toNat - 48 : Nat)) rest := by
  rw [readDecimal, if_pos (isdigit_iff.mp hc)]

theorem readDecimal_append (h : digits.all isdigit = true) (k : Int) :
    readDecimal k (digits ++ rest) = readDecimal (readDecimal k digits) rest := by
  induction digits generalizing k with
  | nil => rfl
  | cons c digits ih =>
    rw [List.all_cons, Bool.and_eq_true] at h
    rw [List.cons_append, readDecimal_cons h.1, readDecimal_cons h.1, ih h.2]

theorem decimal_digit (hd : d < 10) :
    decimal d = [(48 + d).toUInt8] ∧ (Nat.digitChar d).toNat.toUInt8 = (48 + d).toUInt8 ∧
      isdigit (48 + d).toUInt8 = true ∧ (48 + d).toUInt8.toNat - 48 = d := by
  interval_cases d <;> decide

theorem decimal_append (ha : 0 < a) (hd : d < 10) :
    decimal (10 * a + d : Nat) = decimal a ++ [(48 + d).toUInt8] := by
  have hdigits : Nat.toDigits 10 (10 * a + d) = Nat.toDigits 10 a ++ [Nat.digitChar d] := by
    rw [← Nat.toDigits_of_lt_base hd]
    exact (Nat.toDigits_append_toDigits (by decide) ha hd).symm
  have hsign : ∀ k : Nat, ¬(k : Int) < 0 := fun k => by omega
  rw [decimal, decimal, if_neg (hsign _), if_neg (hsign _), Int.natAbs_natCast,
    Int.natAbs_natCast, hdigits, List.map_append, List.map_singleton, (decimal_digit hd).2.1]
  rfl

/-- Decimal numbers are numerals. -/
theorem numeral_decimal (n : Nat) :
    Numeral (decimal n) ∧ readDecimal 0 (decimal n) = n := by
  induction n using Nat.strongRecOn with
  | _ n ih =>
    by_cases hsmall : n < 10
    · interval_cases n <;> decide
    · obtain ⟨a, d, ha, hd, rfl⟩ : ∃ a d, 0 < a ∧ d < 10 ∧ n = 10 * a + d :=
        ⟨n / 10, n % 10, by omega, by omega, by omega⟩
      obtain ⟨⟨hne, hall, hhead⟩, hread⟩ := ih a (by omega)
      obtain ⟨-, -, hdigit, hvalue⟩ := decimal_digit hd
      rw [decimal_append ha hd, readDecimal_append hall, hread, readDecimal_cons hdigit, hvalue]
      refine ⟨⟨by simp, ?_, fun hzero => ?_⟩, ?_⟩
      · rw [List.all_append, hall, List.all_cons, hdigit]
        rfl
      · rw [List.head?_append_of_ne_nil _ hne] at hzero
        have hone := hhead hzero
        have hzeroRead : readDecimal 0 (decimal a) = 0 := by
          match hdec : decimal a, hzero, hone with
          | [c], hc, _ =>
            cases hc
            rfl
        omega
      · rw [readDecimal]
        omega

theorem decimal_of_readDecimal (ha : 0 < a) (h : digits.all isdigit = true) :
    ∃ n : Nat, readDecimal a digits = n ∧ decimal a ++ digits = decimal n := by
  induction digits generalizing a with
  | nil => exact ⟨a, rfl, List.append_nil _⟩
  | cons c digits ih =>
    rw [List.all_cons, Bool.and_eq_true] at h
    have hrange := isdigit_iff.mp h.1
    obtain ⟨n, hn, hdec⟩ := ih (a := 10 * a + (c.toNat - 48)) (by omega) h.2
    refine ⟨n, ?_, ?_⟩
    · rw [readDecimal_cons h.1, ← hn]
      push_cast
      rfl
    · rw [← hdec, decimal_append ha (by omega), toUInt8_digit hrange.1, List.append_assoc,
        List.singleton_append]

/-- Numerals are decimal numbers. -/
theorem Numeral.eq_decimal (h : Numeral digits) :
    ∃ n : Nat, readDecimal 0 digits = n ∧ digits = decimal n := by
  obtain ⟨hne, hall, hhead⟩ := h
  cases digits with
  | nil => exact absurd rfl hne
  | cons c digits =>
    rw [List.all_cons, Bool.and_eq_true] at hall
    have hrange := isdigit_iff.mp hall.1
    by_cases hzero : c = 48
    · have hone := hhead (by rw [hzero]; rfl)
      rw [List.length_cons, Nat.add_eq_right, List.length_eq_zero_iff] at hone
      rw [hzero, hone]
      exact ⟨0, rfl, by decide⟩
    · have hpos : 0 < c.toNat - 48 := by
        have hne48 : c.toNat ≠ 48 := fun h => hzero (UInt8.toNat_inj.mp h)
        omega
      obtain ⟨n, hn, hdec⟩ := decimal_of_readDecimal hpos hall.2
      refine ⟨n, ?_, ?_⟩
      · rw [readDecimal_cons hall.1, ← hn, Int.mul_zero, Int.zero_add]
      · have hfirst : decimal (c.toNat - 48 : Nat) = [c] := by
          rw [(decimal_digit (by omega)).1, toUInt8_digit hrange.1]
        rw [← hdec, hfirst, List.singleton_append]

end Numerals

/-! ## Expiry -/

/-- `BLOCK_AGE_TO_EXPIRE_DHT_ENTRY`. -/
def blockAgeToExpireDhtEntry : Int := 2016

/-- `BLOCK_AGE_TO_EXPIRE_DHT_POSTS`. -/
def blockAgeToExpireDhtPosts : Int := 4320 * 2

/-- `ExpireResType`. -/
inductive ExpireResType where
  | simpleNoExpire
  | numberedNoExpire
  | postNoExpireRecent
deriving DecidableEq, Repr

/-- `noExpireResources`. -/
def noExpireResources : List (Bytes × ExpireResType) :=
  [(ascii "avatar", .simpleNoExpire), (ascii "profile", .simpleNoExpire),
    (ascii "following", .numberedNoExpire), (ascii "status", .simpleNoExpire),
    (ascii "post", .postNoExpireRecent)]

/-- The letters of a resource. -/
def resourceBasic (resource : Bytes) : Bytes := resource.takeWhile isalpha

/-- The number of a resource. -/
def resourceNumber (resource : Bytes) : Int :=
  let digits := resource.drop (resourceBasic resource).length
  if resource.length > (resourceBasic resource).length then
    if digits.head? = some 48 ∧ resource.length > (resourceBasic resource).length + 1 then
      -1
    else if digits.all isdigit then atoi (cString digits)
    else -1
  else -1

/-- `shouldDhtResourceExpire`.  The sums are of `int`s. -/
def shouldDhtResourceExpire (bestHeight : Int) (resource : Bytes) (multi : Bool) (height : Int) :
    Bool :=
  if toInt32 (height + blockAgeToExpireDhtEntry) < bestHeight then
    if multi then true
    else
      match noExpireResources.lookup (resourceBasic resource) with
      | none => true
      | some .simpleNoExpire => resource.length > (resourceBasic resource).length
      | some .numberedNoExpire => resourceNumber resource < 0 ∨ resourceNumber resource > 200
      | some .postNoExpireRecent =>
        resourceNumber resource < 0 ∨
          toInt32 (height + blockAgeToExpireDhtPosts) < bestHeight
  else false

/-- The keys `has_expired` reads. -/
def hasExpiredDesc : List KeyDesc :=
  [{ name := "v", type := none },
    { name := "seq", type := some .int, optional := true },
    { name := "time", type := some .int },
    { name := "height", type := some .int },
    { name := "target", type := some .dict, parseChildren := true },
    { name := "n", type := some .string },
    { name := "r", type := some .string },
    { name := "t", type := some .string }]

/-- `msg_keys[i]->…`, for a key of the table. -/
def derefAt (keys : List (Option LazyEntry)) (i : Nat) (key : MsgKey) :
    Except DhtFault LazyEntry :=
  match keys.getD i none with
  | none => .error (.absent key)
  | some e => .ok e

/-- `has_expired`. -/
def hasExpired (env : DhtEnv) (node : PostNode) (item : DhtItem) (skipSigCheck : Bool) :
    Except DhtFault Bool :=
  if node.bestHeight < 1 then .ok false
  else if !skipSigCheck && !verifySignature env.toEnv node item.p item.sigUser item.sigP (-1) then
    .ok true
  else
    match verifyMessage hasExpiredDesc (env.lazyBdecode item.p) with
    | .error _ => .ok true
    | .ok keys => do
      let t ← derefAt keys 7 .t
      let height ← derefAt keys 3 .height
      let r ← derefAt keys 6 .r
      return shouldDhtResourceExpire node.bestHeight r.stringValue (t.stringValue == ascii "m")
        (toInt32 height.intValue)

/-! ### The names that are kept -/

/-- The resources to be kept. -/
def KeptResource (r : Bytes) : Prop :=
  r = ascii "avatar" ∨ r = ascii "profile" ∨ r = ascii "status" ∨
    ∃ n : Nat, n ≤ 200 ∧ r = ascii "following" ++ decimal n

/-- What `atoi` makes of a number. -/
def folded (n : Nat) : Int := toInt32 (min (2 ^ 63 - 1) n)

/-- A number above 200 that `atoi` folds into the range from 0 to 200. -/
def FoldedNumber (r : Bytes) : Prop :=
  ∃ n : Nat, 200 < n ∧ 0 ≤ folded n ∧ folded n ≤ 200 ∧ r = ascii "following" ++ decimal n

/-- A post with a number that `atoi` does not make negative. -/
def PostResource (r : Bytes) : Prop :=
  ∃ n : Nat, 0 ≤ folded n ∧ r = ascii "post" ++ decimal n

section Names

variable {r name digits : Bytes} {best height : Int} {type : ExpireResType}

theorem cString_digits (h : digits.all isdigit = true) : cString digits = digits := by
  refine List.takeWhile_eq_self_iff.mpr fun c hc => ?_
  have hdigit := isdigit_iff.mp (List.all_eq_true.mp h c hc)
  refine decide_eq_true fun hzero => ?_
  rw [hzero] at hdigit
  exact absurd hdigit.1 (by decide)

theorem atoi_digits (hne : digits ≠ []) (hall : digits.all isdigit = true) :
    atoi digits = toInt32 (max (-2 ^ 63) (min (2 ^ 63 - 1) (readDecimal 0 digits))) := by
  cases digits with
  | nil => exact absurd rfl hne
  | cons c digits =>
    rw [List.all_cons, Bool.and_eq_true] at hall
    have hrange := isdigit_iff.mp hall.1
    have hspace : ¬(c = 32 ∨ (9 ≤ c ∧ c ≤ 13)) := by
      rintro (rfl | ⟨-, hle⟩)
      · exact absurd hrange.1 (by decide)
      · have hle' := UInt8.le_iff_toNat_le.mp hle
        have hthirteen : (13 : UInt8).toNat = 13 := rfl
        omega
    have hsign : c ≠ 45 ∧ c ≠ 43 := by
      constructor
      · rintro rfl
        exact absurd hrange.1 (by decide)
      · rintro rfl
        exact absurd hrange.1 (by decide)
    rw [atoi, List.dropWhile_cons_of_neg (by simpa using hspace)]
    split
    · rename_i heq
      exact absurd (List.cons.inj heq).1 hsign.1
    · rename_i heq
      exact absurd (List.cons.inj heq).1 hsign.2
    · rfl

theorem atoi_decimal (n : Nat) : atoi (cString (decimal n)) = folded n := by
  obtain ⟨⟨hne, hall, -⟩, hread⟩ := numeral_decimal n
  rw [cString_digits hall, atoi_digits hne hall, hread, folded]
  congr 1
  omega

theorem resourceNumber_append (hbasic : resourceBasic (name ++ digits) = name) :
    resourceNumber (name ++ digits) = if Numeral digits then atoi (cString digits) else -1 := by
  simp only [resourceNumber, hbasic, List.drop_left, List.length_append]
  cases digits with
  | nil => simp [Numeral]
  | cons c digits =>
    rw [if_pos (by simp)]
    by_cases hzero : (c :: digits).head? = some 48 ∧
        name.length + (c :: digits).length > name.length + 1
    · rw [if_pos hzero, if_neg]
      rintro ⟨-, -, hone⟩
      have hlen := hone hzero.1
      omega
    · rw [if_neg hzero]
      have hlead : (c :: digits).head? = some 48 → (c :: digits).length = 1 := by
        intro hhead
        rw [not_and] at hzero
        have hle := hzero hhead
        simp only [List.length_cons] at hle ⊢
        omega
      by_cases hall : (c :: digits).all isdigit = true
      · rw [if_pos hall, if_pos ⟨by simp, hall, hlead⟩]
      · rw [if_neg hall, if_neg fun hnumeral => hall hnumeral.2.1]

/-- A number that is not negative is read from the digits after the name. -/
theorem resourceNumber_nonneg (hbasic : resourceBasic r = name) (hnum : 0 ≤ resourceNumber r) :
    ∃ n : Nat, r = name ++ decimal n ∧ resourceNumber r = folded n := by
  have hsplit : name ++ r.drop name.length = r := by
    rw [← hbasic]
    exact List.prefix_iff_eq_append.mp (List.takeWhile_prefix _)
  rw [← hsplit] at hbasic hnum
  rw [resourceNumber_append hbasic] at hnum
  split at hnum
  · rename_i hnumeral
    obtain ⟨n, -, hdec⟩ := hnumeral.eq_decimal
    rw [hdec] at hsplit hbasic
    refine ⟨n, hsplit.symm, ?_⟩
    rw [← hsplit, resourceNumber_append hbasic, if_pos (numeral_decimal n).1, atoi_decimal]
  · exact absurd hnum (by decide)

theorem resourceBasic_decimal (hname : name.all isalpha = true) (n : Nat) :
    resourceBasic (name ++ decimal n) = name := by
  have hletters : ∀ c ∈ name, isalpha c = true := List.all_eq_true.mp hname
  rw [resourceBasic, List.takeWhile_append_of_pos hletters]
  obtain ⟨⟨hne, hall, -⟩, -⟩ := numeral_decimal n
  cases hdec : decimal n with
  | nil => exact absurd hdec hne
  | cons c digits =>
    rw [hdec, List.all_cons, Bool.and_eq_true] at hall
    have hrange := isdigit_iff.mp hall.1
    have halpha : ¬isalpha c = true := by
      simp only [isalpha, Bool.or_eq_true, Bool.and_eq_true, decide_eq_true_eq,
        UInt8.le_iff_toNat_le]
      have h65 : (65 : UInt8).toNat = 65 := rfl
      have h97 : (97 : UInt8).toNat = 97 := rfl
      omega
    rw [List.takeWhile_cons_of_neg halpha, List.append_nil]

theorem resourceNumber_decimal (hname : name.all isalpha = true) (n : Nat) :
    resourceNumber (name ++ decimal n) = folded n := by
  rw [resourceNumber_append (resourceBasic_decimal hname n), if_pos (numeral_decimal n).1,
    atoi_decimal]

theorem resourceBasic_eq (hlen : ¬r.length > (resourceBasic r).length) : resourceBasic r = r :=
  (List.takeWhile_prefix _).eq_of_length_le (Nat.le_of_not_gt hlen)

theorem lookup_noExpire (name : Bytes) :
    (noExpireResources.lookup name = some .simpleNoExpire ↔
      name = ascii "avatar" ∨ name = ascii "profile" ∨ name = ascii "status") ∧
    (noExpireResources.lookup name = some .numberedNoExpire ↔ name = ascii "following") ∧
    (noExpireResources.lookup name = some .postNoExpireRecent ↔ name = ascii "post") := by
  have hmem : ∀ type, noExpireResources.lookup name = some type →
      (name, type) ∈ noExpireResources := by
    intro type h
    obtain ⟨l, r, heq, -⟩ := List.lookup_eq_some_iff.mp h
    rw [heq]
    simp
  refine ⟨⟨fun h => ?_, ?_⟩, ⟨fun h => ?_, ?_⟩, ⟨fun h => ?_, ?_⟩⟩
  · simpa [noExpireResources] using hmem _ h
  · rintro (rfl | rfl | rfl) <;> decide
  · simpa [noExpireResources] using hmem _ h
  · rintro rfl
    decide
  · simpa [noExpireResources] using hmem _ h
  · rintro rfl
    decide

theorem simple_iff :
    (noExpireResources.lookup (resourceBasic r) = some .simpleNoExpire ∧
        ¬r.length > (resourceBasic r).length) ↔
      r = ascii "avatar" ∨ r = ascii "profile" ∨ r = ascii "status" := by
  constructor
  · rintro ⟨htype, hlen⟩
    rw [resourceBasic_eq hlen] at htype
    exact (lookup_noExpire r).1.mp htype
  · rintro (rfl | rfl | rfl) <;> decide

theorem numbered_iff (hname : name.all isalpha = true) {P : Int → Prop} (hP : ∀ k, P k → 0 ≤ k) :
    (resourceBasic r = name ∧ P (resourceNumber r)) ↔
      ∃ n : Nat, P (folded n) ∧ r = name ++ decimal n := by
  constructor
  · rintro ⟨hbasic, hnum⟩
    obtain ⟨n, hr, hfolded⟩ := resourceNumber_nonneg hbasic (hP _ hnum)
    exact ⟨n, hfolded ▸ hnum, hr⟩
  · rintro ⟨n, hn, rfl⟩
    rw [resourceNumber_decimal hname]
    exact ⟨resourceBasic_decimal hname n, hn⟩

theorem following_iff :
    (noExpireResources.lookup (resourceBasic r) = some .numberedNoExpire ∧
        0 ≤ resourceNumber r ∧ resourceNumber r ≤ 200) ↔
      ∃ n : Nat, (0 ≤ folded n ∧ folded n ≤ 200) ∧ r = ascii "following" ++ decimal n := by
  rw [(lookup_noExpire _).2.1]
  exact numbered_iff (P := fun k => 0 ≤ k ∧ k ≤ 200) (by decide) fun k hk => hk.1

theorem postResource_iff :
    (noExpireResources.lookup (resourceBasic r) = some .postNoExpireRecent ∧
        0 ≤ resourceNumber r) ↔ PostResource r := by
  rw [(lookup_noExpire _).2.2]
  exact numbered_iff (by decide) fun k hk => hk

theorem folded_of_le {n : Nat} (h : n ≤ 200) : folded n = n := by
  rw [folded, toInt32]
  omega

/-- Resources not dropped for their name are to be kept, or have a folded number. -/
theorem kept_or_folded_iff :
    (KeptResource r ∨ FoldedNumber r) ↔
      (r = ascii "avatar" ∨ r = ascii "profile" ∨ r = ascii "status") ∨
        ∃ n : Nat, (0 ≤ folded n ∧ folded n ≤ 200) ∧
          r = ascii "following" ++ decimal n := by
  constructor
  · rintro ((h | h | h | ⟨n, hn, h⟩) | ⟨n, -, hlow, hhigh, h⟩)
    · exact .inl (.inl h)
    · exact .inl (.inr (.inl h))
    · exact .inl (.inr (.inr h))
    · refine .inr ⟨n, ?_, h⟩
      rw [folded_of_le hn]
      omega
    · exact .inr ⟨n, ⟨hlow, hhigh⟩, h⟩
  · rintro ((h | h | h) | ⟨n, ⟨hlow, hhigh⟩, h⟩)
    · exact .inl (.inl h)
    · exact .inl (.inr (.inl h))
    · exact .inl (.inr (.inr (.inl h)))
    · by_cases hn : n ≤ 200
      · exact .inl (.inr (.inr (.inr ⟨n, hn, h⟩)))
      · exact .inr ⟨n, Nat.lt_of_not_le hn, hlow, hhigh, h⟩

/-- The height of an item is past the age for its resource. -/
def Outdated (best height : Int) (r : Bytes) (multi : Bool) : Prop :=
  toInt32 (height + blockAgeToExpireDhtEntry) < best ∧
    (multi = false → PostResource r → toInt32 (height + blockAgeToExpireDhtPosts) < best)

/-- An item expires past its age, unless it is a single one with a name to be kept or a folded
number. -/
theorem shouldDhtResourceExpire_iff {multi : Bool} :
    shouldDhtResourceExpire best r multi height = true ↔
      Outdated best height r multi ∧ (multi = false → ¬(KeptResource r ∨ FoldedNumber r)) := by
  rw [shouldDhtResourceExpire, Outdated, kept_or_folded_iff, ← simple_iff, ← following_iff,
    ← postResource_iff]
  by_cases hage : toInt32 (height + blockAgeToExpireDhtEntry) < best
  · rw [if_pos hage]
    cases multi with
    | true => simp [hage]
    | false =>
      cases htype : noExpireResources.lookup (resourceBasic r) with
      | none => simp [hage]
      | some type =>
        cases type with
        | simpleNoExpire => simp [hage]
        | numberedNoExpire =>
          simp only [Bool.false_eq_true, if_false, Bool.decide_or, Bool.or_eq_true,
            decide_eq_true_eq, hage, Option.some.injEq, reduceCtorEq, true_and, false_and,
            false_or, IsEmpty.forall_iff, imp_self, and_self, forall_const]
          omega
        | postNoExpireRecent =>
          simp only [Bool.false_eq_true, if_false, Bool.decide_or, Bool.or_eq_true,
            decide_eq_true_eq, hage, Option.some.injEq, reduceCtorEq, true_and, false_and,
            or_self, not_false_eq_true, imp_self, and_true, forall_const]
          omega
  · rw [if_neg hage]
    simp [hage]

end Names

/-! ### Items that were accepted -/

theorem KeyDesc.value_of_find {k : KeyDesc} {msg e : LazyEntry}
    (hfind : msg.dictFind k.name = some e) (htype : k.type.all (· = e.type) = true)
    (hsize : k.size = 0) : k.value msg = .ok (some e) := by
  have hread : k.read msg = some e := by
    rw [KeyDesc.read, hfind, Option.filter_some, if_pos htype]
  rw [KeyDesc.value, hread]
  simp [KeyDesc.invalid, hsize]

theorem KeyDesc.value_of_optional {k : KeyDesc} {msg : LazyEntry} (hk : k.optional = true) :
    ∃ ret, k.value msg = .ok ret := by
  rw [KeyDesc.value]
  cases k.read msg with
  | none => exact ⟨none, if_pos hk⟩
  | some e =>
    cases hinvalid : k.invalid e with
    | true => exact ⟨none, by simp [hinvalid, hk]⟩
    | false => exact ⟨some e, by simp [hinvalid]⟩

section Item

variable {env : DhtEnv} {node : PostNode} {m : PutMessage} {arg : LazyEntry}

/-- An item has all the keys that are asked for again. -/
theorem PutMessage.ReadFrom.verifyMessage (read : m.ReadFrom arg) :
    ∃ seq, CoMoNet.verifyMessage hasExpiredDesc m.p =
      .ok [some m.v, seq, some m.time, some m.height, some m.target, some m.n, some m.r,
        some m.t] := by
  have hfound : ∀ {msg e : LazyEntry} {name : String} {type : EntryType},
      PutMessage.Found msg name type e →
      (KeyDesc.value { name := name, type := some type } msg = .ok (some e)) :=
    fun h => KeyDesc.value_of_find h.1 (by simp [h.2]) rfl
  have htarget : KeyDesc.value { name := "target", type := some .dict, parseChildren := true } m.p =
      .ok (some m.target) :=
    KeyDesc.value_of_find read.target.1 (by simp [read.target.2]) rfl
  have hv : KeyDesc.value { name := "v", type := none } m.p = .ok (some m.v) :=
    KeyDesc.value_of_find read.v rfl rfl
  obtain ⟨seq, hseq⟩ :
      ∃ seq, KeyDesc.value { name := "seq", type := some .int, optional := true } m.p = .ok seq :=
    KeyDesc.value_of_optional rfl
  refine ⟨seq, ?_⟩
  rw [CoMoNet.verifyMessage, if_neg (by simp [read.p.2]), hasExpiredDesc]
  simp only [verifyFrom, hv, hseq, hfound read.time, hfound read.height, htarget, hfound read.n,
    hfound read.r, hfound read.t, KeyDesc.next, bind, Except.bind, pure, Except.pure,
    Bool.false_eq_true, if_false, if_true]

/-- `has_expired` of a stored item. -/
theorem hasExpired_item (read : m.ReadFrom arg) (decoded : m.Decoded env)
    (hbest : 1 ≤ node.bestHeight) :
    hasExpired env node m.item true = .ok (shouldDhtResourceExpire node.bestHeight
      m.r.stringValue m.multi (toInt32 m.height.intValue)) := by
  obtain ⟨seq, hverify⟩ := read.verifyMessage
  rw [hasExpired, if_neg (by omega), PutMessage.item, decoded.1, hverify]
  rfl

/-- An accepted height that fits is past every age when the chain is longer by that of posts. -/
theorem outdated_of_accepted {r : Bytes} {multi : Bool} {best best' height : Int}
    (hlow : -2 ^ 31 ≤ height) (hhigh : height ≤ best + 1)
    (hlater : best' > best + 1 + blockAgeToExpireDhtPosts) :
    Outdated best' (toInt32 height) r multi := by
  rw [blockAgeToExpireDhtPosts] at hlater
  simp only [Outdated, blockAgeToExpireDhtEntry, blockAgeToExpireDhtPosts, toInt32]
  omega

end Item

/-! ### Items of alice -/

/-- An item of alice. -/
def agingP (resource : String) (height : Int) : List (Bytes × Entry) :=
  [(ascii "height", .int height), (ascii "seq", .int 0),
    (ascii "target", targetEntry (ascii "alice") (ascii resource) (ascii "s")),
    (ascii "time", .int 1000), (ascii "v", .str [])]

/-- The message with it. -/
def agingArg (resource : String) (height : Int) : List (Bytes × Entry) :=
  let sigP := createSignature signNet aliceDht.toPostNode
    (Entry.bencode (.dict (agingP resource height))) (ascii "alice")
  [(ascii "p", .dict (agingP resource height)), (ascii "sig_p", .str sigP),
    (ascii "sig_user", .str (ascii "alice")), (ascii "token", .str [])]

/-- The node much later. -/
def laterDht : DhtNode := { aliceDht with bestHeight := 20000 }

/-- The message is accepted, and its item later gone or not. -/
def Ages (resource : String) (height : Int) (gone : Bool) : Prop :=
  let arg := Entry.lazy (.dict (agingArg resource height))
  (verifyMessage putDataDesc arg).toOption.isSome = true ∧
    (putData dhtNet aliceDht {} arg).toOption.map Prod.fst = some (.handled true) ∧
    shouldDhtResourceExpire 20000 (ascii resource) false (toInt32 height) = gone

instance (resource : String) (height : Int) (gone : Bool) : Decidable (Ages resource height gone) :=
  inferInstanceAs (Decidable (_ ∧ _ ∧ _))

theorem Ages.message {resource : String} {height : Int} {gone : Bool}
    (h : Ages resource height gone) :
    ∃ m s', verifyMessage putDataDesc (Entry.lazy (.dict (agingArg resource height))) =
        .ok (PutMessage.keys m) ∧
      m.Decoded dhtNet ∧ m.multi = false ∧
      m.r.stringValue = ascii resource ∧ m.height.intValue = height ∧
      putData dhtNet aliceDht {}
        (Entry.lazy (.dict (agingArg resource height))) = .ok (.handled true, s') := by
  obtain ⟨hread, hput, -⟩ := h
  obtain ⟨keys, hverify⟩ := Except.exists_ok_of_isSome hread
  obtain ⟨m, rfl, read⟩ := verifyMessage_putData hverify
  have hp : m.p = Entry.lazy (.dict (agingP resource height)) :=
    Entry.eq_lazy_of_dictFind read.p.1 rfl
  have hheight : m.height = Entry.lazy (.int height) :=
    Entry.eq_lazy_of_dictFind (hp ▸ read.height.1) rfl
  have htarget :
      m.target = Entry.lazy (targetEntry (ascii "alice") (ascii resource) (ascii "s")) :=
    Entry.eq_lazy_of_dictFind (hp ▸ read.target.1) rfl
  have hr : m.r = Entry.lazy (.str (ascii resource)) :=
    Entry.eq_lazy_of_dictFind (htarget ▸ read.r.1) rfl
  have ht : m.t = Entry.lazy (.str (ascii "s")) :=
    Entry.eq_lazy_of_dictFind (htarget ▸ read.t.1) rfl
  obtain ⟨⟨answer, s'⟩, hres, htrue⟩ := Except.toOption_map_eq_some_iff.mp hput
  cases htrue
  refine ⟨m, s', hverify, read.decoded, ?_, ?_, ?_, hres⟩
  · rw [PutMessage.multi, ht]
    rfl
  · rw [hr]
    rfl
  · rw [hheight]
    rfl

/-- A message is accepted, but its item is still there later. -/
def Stays (resource : String) (height : Int) : Prop :=
  ∃ m s', verifyMessage putDataDesc (Entry.lazy (.dict (agingArg resource height))) =
      .ok (PutMessage.keys m) ∧
    m.Decoded dhtNet ∧ 1 ≤ aliceDht.bestHeight ∧
    putData dhtNet aliceDht {}
      (Entry.lazy (.dict (agingArg resource height))) = .ok (.handled true, s') ∧
    laterDht.bestHeight > aliceDht.bestHeight + 1 + blockAgeToExpireDhtPosts ∧
    ¬KeptResource m.r.stringValue ∧
    hasExpired dhtNet laterDht.toPostNode m.item true = .ok false

theorem Ages.stays {resource : String} {height : Int} (h : Ages resource height false)
    (hname : ¬KeptResource (ascii resource)) : Stays resource height := by
  obtain ⟨m, s', hverify, hdec, hsingle, hr, hheight, hput⟩ := h.message
  obtain ⟨m', hkeys, read⟩ := verifyMessage_putData hverify
  rw [← PutMessage.keys_inj hkeys] at read
  refine ⟨m, s', hverify, hdec, by decide, hput, by decide, by rw [hr]; exact hname, ?_⟩
  rw [hasExpired_item read hdec (by decide), hr, hsingle, hheight]
  exact congrArg Except.ok h.2.2

section Item

variable {env : DhtEnv} {node later : DhtNode} {s s' : DhtState} {m : PutMessage}
variable {arg : LazyEntry} {stored : Bool}

/-- An accepted item without a name to be kept has expired, when the chain has grown by the age of
posts, exactly if its height is low as an `int` and its number is not folded. The height is, if
the wire has none below an `int`. -/
theorem item_expires_iff (hverify : verifyMessage putDataDesc arg = .ok m.keys)
    (decoded : m.Decoded env) (hbest : 1 ≤ node.bestHeight)
    (hput : putData env node s arg = .ok (.handled stored, s'))
    (hlater : later.bestHeight > node.bestHeight + 1 + blockAgeToExpireDhtPosts) :
    ((m.multi = false ∧ KeptResource m.r.stringValue ∨
        hasExpired env later.toPostNode m.item true = .ok true) ↔
      (m.multi = false ∧ KeptResource m.r.stringValue ∨
        Outdated later.bestHeight (toInt32 m.height.intValue) m.r.stringValue m.multi ∧
          ¬(m.multi = false ∧ FoldedNumber m.r.stringValue))) ∧
    (-2 ^ 31 ≤ m.height.intValue →
      Outdated later.bestHeight (toInt32 m.height.intValue) m.r.stringValue m.multi) := by
  obtain ⟨m', hkeys, read⟩ := verifyMessage_putData hverify
  rw [← PutMessage.keys_inj hkeys] at read
  rcases putData_cases hverify hput with ⟨hnot, -⟩ | ⟨b, n, hreply, hcontent, -, -⟩
  · exact absurd rfl (hnot stored)
  have hlater' : 1 ≤ later.bestHeight := by
    rw [blockAgeToExpireDhtPosts] at hlater
    omega
  constructor
  · rw [hasExpired_item read decoded hlater', Except.ok.injEq, shouldDhtResourceExpire_iff]
    cases m.multi with
    | true => simp
    | false =>
      simp only [true_and, forall_const, not_or]
      constructor
      · rintro (hkept | ⟨hage, -, hfolded⟩)
        · exact .inl hkept
        · exact .inr ⟨hage, hfolded⟩
      · rintro (hkept | ⟨hage, hfolded⟩)
        · exact .inl hkept
        · by_cases hkept : KeptResource m.r.stringValue
          · exact .inl hkept
          · exact .inr ⟨hage, hkept, hfolded⟩
  · intro hlow
    exact outdated_of_accepted hlow ((checkContent_none hcontent).2.2 (by omega)) hlater

/-- An item of alice for a resource that is not kept. -/
theorem item_expires_hobby :
    ∃ m s', verifyMessage putDataDesc (Entry.lazy (.dict (agingArg "hobby" 4))) =
        .ok (PutMessage.keys m) ∧
      putData dhtNet aliceDht {}
        (Entry.lazy (.dict (agingArg "hobby" 4))) = .ok (.handled true, s') ∧
      laterDht.bestHeight > aliceDht.bestHeight + 1 + blockAgeToExpireDhtPosts ∧
      hasExpired dhtNet laterDht.toPostNode m.item true = .ok true := by
  have hages : Ages "hobby" 4 true := by decide +kernel
  obtain ⟨m, s', hverify, hdec, -, hr, hheight, hput⟩ := hages.message
  have hlater : laterDht.bestHeight > aliceDht.bestHeight + 1 + blockAgeToExpireDhtPosts := by
    decide
  obtain ⟨hiff, hage⟩ := item_expires_iff hverify hdec (by decide) hput hlater
  have hname : ¬(KeptResource m.r.stringValue ∨ FoldedNumber m.r.stringValue) := by
    rw [hr, kept_or_folded_iff, ← simple_iff, ← following_iff]
    decide
  rw [not_or] at hname
  refine ⟨m, s', hverify, hput, hlater, ?_⟩
  refine (hiff.mpr (.inr ⟨hage (by rw [hheight]; decide), fun h => hname.2 h.2⟩)).resolve_left ?_
  exact fun h => hname.1 h.2

/-- A height below an `int` counts as far ahead, and the number 4294967301 as 5. -/
theorem item_stays :
    Stays "hobby" (-2 ^ 32 + 1000000) ∧ Stays "following4294967301" 4 := by
  have hages : Ages "hobby" (-2 ^ 32 + 1000000) false ∧ Ages "following4294967301" 4 false := by
    decide +kernel
  refine ⟨hages.1.stays ?_, hages.2.stays ?_⟩
  · intro hkept
    have hname := kept_or_folded_iff.mp (.inl hkept)
    rw [← simple_iff, ← following_iff] at hname
    exact absurd hname (by decide)
  · rintro (h | h | h | ⟨n, hn, h⟩)
    · exact absurd h (by decide)
    · exact absurd h (by decide)
    · exact absurd h (by decide)
    · have hsplit : ascii "following" ++ ascii "4294967301" =
          ascii "following" ++ decimal n := h
      have hread := congrArg (readDecimal 0) (List.append_cancel_left hsplit)
      rw [(numeral_decimal n).2, show readDecimal 0 (ascii "4294967301") = 4294967301 by decide]
        at hread
      omega

end Item

end CoMoNet
