import CoMoNet.Admin.Accumulator
import CoMoNet.Post.Sorted

/-!
# Posts on their way to a client and back

A client gets a post as JSON with some strings in hexadecimal, and a quoted post comes
back. Integers come back as an `int`, and `unHexcapePost` forgets `sig_fav` and `pfav`
(`clientRoundTrip_iff`).
-/

namespace CoMoNet

open CScript (hexStr)

/-! ## Hexadecimal text -/

/-- `isspace`. -/
def isSpaceByte (c : UInt8) : Bool := c == 0x20 || (0x09 ≤ c && c ≤ 0x0d)

/-- `ParseHex`, with the first digit of a half-read byte. Blanks between bytes are skipped. -/
def parseHexFrom : Option Nat → Bytes → Bytes
  | _, [] => []
  | none, c :: rest =>
    if isSpaceByte c then parseHexFrom none rest
    else
      match hexValue c with
      | none => []
      | some n => parseHexFrom (some n) rest
  | some n, c :: rest =>
    match hexValue c with
    | none => []
    | some m => UInt8.ofNat (16 * n + m) :: parseHexFrom none rest

/-- `ParseHex`. -/
def parseHex (str : Bytes) : Bytes := parseHexFrom none str

/-! ## JSON -/

namespace Entry

mutual

/-- `entryToJson`. -/
def entryToJson : Entry → Json
  | .int n => .int n
  | .str s => .str s
  | .list values => .array (entryToJsonList values)
  | .dict members => .obj (entryToJsonDict members)

/-- `entryToJson` of a list. -/
def entryToJsonList : List Entry → List Json
  | [] => []
  | value :: values => entryToJson value :: entryToJsonList values

/-- `entryToJson` of a dictionary. -/
def entryToJsonDict : List (Bytes × Entry) → List (Bytes × Json)
  | [] => []
  | (key, value) :: members => (key, entryToJson value) :: entryToJsonDict members

end

mutual

/-- `jsonToEntry`: `get_int` converts to an `int`. -/
def jsonToEntry : Json → Entry
  | .int n => .int (toInt32 n)
  | .str s => .str s
  | .array values => .list (jsonToEntryList values)
  | .obj members => .dict (jsonToEntryDict [] members)
  | .bool _ | .real | .null => .str (ascii "<uninitialized>")

/-- `jsonToEntry` of an array. -/
def jsonToEntryList : List Json → List Entry
  | [] => []
  | value :: values => jsonToEntry value :: jsonToEntryList values

/-- `jsonToEntry` of an object. -/
def jsonToEntryDict : List (Bytes × Entry) → List (Bytes × Json) → List (Bytes × Entry)
  | built, [] => built
  | built, (key, value) :: members => jsonToEntryDict (insert key (jsonToEntry value) built) members

end

/-! ## Fields in hexadecimal -/

/-- The member `key` is changed, if there is one. -/
def atKey (key : String) (f : Entry → Entry) (members : List (Bytes × Entry)) :
    List (Bytes × Entry) :=
  members.map fun m => if m.1 = ascii key then (m.1, f m.2) else m

/-- A string is changed, anything else is not. -/
def onString (f : Bytes → Bytes) : Entry → Entry
  | .str s => .str (f s)
  | e => e

/-- A dictionary is changed, anything else is not. -/
def onDict (f : List (Bytes × Entry) → List (Bytes × Entry)) : Entry → Entry
  | .dict members => .dict (f members)
  | e => e

/-- `find_key`. -/
def hasKey (members : List (Bytes × Entry)) (key : String) : Bool := (find members key).isSome

/-- `findAndHexcape`. -/
def findAndHexcape (key : String) : List (Bytes × Entry) → List (Bytes × Entry) :=
  atKey key (onString hexStr)

/-- `findAndUnHexcape`. -/
def findAndUnHexcape (key : String) : List (Bytes × Entry) → List (Bytes × Entry) :=
  atKey key (onString parseHex)

/-- The strings of a message as hexadecimal. -/
def hexcapeMessage (dm : List (Bytes × Entry)) : List (Bytes × Entry) :=
  findAndHexcape "mac" (findAndHexcape "key" (findAndHexcape "body" dm))

/-- The strings of a message, back. -/
def unHexcapeMessage (dm : List (Bytes × Entry)) : List (Bytes × Entry) :=
  findAndUnHexcape "mac" (findAndUnHexcape "key" (findAndUnHexcape "body" dm))

/-- The part of `hexcapePost` for the post. -/
def hexcapeUserpost (userpost : List (Bytes × Entry)) : List (Bytes × Entry) :=
  let userpost := findAndHexcape "sig_fav" (findAndHexcape "sig_rt" userpost)
  if hasKey userpost "dm" then atKey "dm" (onDict hexcapeMessage) userpost
  else atKey "pfav" (onDict hexcapeMessage) userpost

/-- The part of `unHexcapePost` for the post. -/
def unHexcapeUserpost (userpost : List (Bytes × Entry)) : List (Bytes × Entry) :=
  atKey "dm" (onDict unHexcapeMessage) (findAndUnHexcape "sig_rt" userpost)

/-- `hexcapePost`. -/
def hexcapePost : Entry → Entry :=
  onDict fun e => atKey "userpost" (onDict hexcapeUserpost) (findAndHexcape "sig_userpost" e)

/-- `unHexcapePost`. -/
def unHexcapePost : Entry → Entry :=
  onDict fun e => atKey "userpost" (onDict unHexcapeUserpost) (findAndUnHexcape "sig_userpost" e)

/-- A post that is shown to a client and passed back. -/
def clientRoundTrip (v : Entry) : Entry := unHexcapePost (jsonToEntry (entryToJson (hexcapePost v)))

end Entry

/-! ## Hexadecimal text is read back -/

theorem parseHexFrom_hexDigits {b : UInt8} {rest : Bytes} :
    parseHexFrom none (CScript.hexDigit (b.toNat / 16) :: CScript.hexDigit (b.toNat % 16) :: rest) =
      b :: parseHexFrom none rest := by
  have hdigit : ∀ n < 16, isSpaceByte (CScript.hexDigit n) = false ∧
      hexValue (CScript.hexDigit n) = some n := by
    decide
  have hhigh := hdigit (b.toNat / 16) (by have := b.toNat_lt; omega)
  have hlow := hdigit (b.toNat % 16) (by omega)
  rw [parseHexFrom, hhigh.1, if_neg (by simp), hhigh.2]
  dsimp only
  rw [parseHexFrom, hlow.2]
  dsimp only
  rw [Nat.div_add_mod, UInt8.ofNat_toNat]

/-- Hexadecimal is read back. -/
theorem parseHex_hexStr (s : Bytes) : parseHex (hexStr s) = s := by
  induction s with
  | nil => rfl
  | cons b s ih =>
    rw [parseHex] at ih
    rw [parseHex, hexStr, List.flatMap_cons, List.cons_append, List.cons_append, List.nil_append,
      parseHexFrom_hexDigits]
    exact congrArg (b :: ·) ih

/-- Only the empty string stays the same. -/
theorem hexStr_eq_self_iff {s : Bytes} : hexStr s = s ↔ s = [] := by
  refine ⟨fun h => ?_, fun h => by rw [h]; rfl⟩
  have hlength : (hexStr s).length = 2 * s.length := by
    simp [hexStr, List.length_flatMap, Nat.mul_comm]
  rw [h] at hlength
  exact List.length_eq_zero_iff.mp (by omega)

/-! ## What JSON does to an entry -/

namespace Entry

mutual

/-- Every integer of an entry is converted to an `int`. -/
def truncInts : Entry → Entry
  | .int n => .int (toInt32 n)
  | .str s => .str s
  | .list values => .list (truncIntsList values)
  | .dict members => .dict (truncIntsDict members)

/-- `truncInts` of a list. -/
def truncIntsList : List Entry → List Entry
  | [] => []
  | value :: values => truncInts value :: truncIntsList values

/-- `truncInts` of a dictionary. -/
def truncIntsDict : List (Bytes × Entry) → List (Bytes × Entry)
  | [] => []
  | (key, value) :: members => (key, truncInts value) :: truncIntsDict members

end

mutual

/-- An entry whose integers are in the range of an `int`. -/
def fitsInt : Entry → Bool
  | .int n => decide (-2 ^ 31 ≤ n ∧ n < 2 ^ 31)
  | .str _ => true
  | .list values => fitsIntList values
  | .dict members => fitsIntDict members

/-- `fitsInt` of a list. -/
def fitsIntList : List Entry → Bool
  | [] => true
  | value :: values => fitsInt value && fitsIntList values

/-- `fitsInt` of a dictionary. -/
def fitsIntDict : List (Bytes × Entry) → Bool
  | [] => true
  | (_, value) :: members => fitsInt value && fitsIntDict members

end

theorem truncIntsDict_eq (members : List (Bytes × Entry)) :
    truncIntsDict members = members.map fun m => (m.1, truncInts m.2) := by
  induction members with
  | nil => rw [truncIntsDict, List.map_nil]
  | cons m members ih => rw [truncIntsDict, ih, List.map_cons]

mutual

/-- A sorted entry comes back with its integers cut to an `int`. -/
theorem jsonToEntry_entryToJson (e : Entry) (h : e.sorted = true) :
    jsonToEntry (entryToJson e) = truncInts e := by
  cases e with
  | int n => rw [entryToJson, jsonToEntry, truncInts]
  | str s => rw [entryToJson, jsonToEntry, truncInts]
  | list values =>
    rw [sorted] at h
    rw [entryToJson, jsonToEntry, truncInts, jsonToEntryList_entryToJson values h]
  | dict members =>
    rw [sorted, Bool.and_eq_true, decide_eq_true_eq] at h
    rw [entryToJson, jsonToEntry, truncInts, jsonToEntryDict_entryToJson members h.2 [] h.1
      (fun _ _ => nofun), List.nil_append]

theorem jsonToEntryList_entryToJson (values : List Entry) (h : sortedList values = true) :
    jsonToEntryList (entryToJsonList values) = truncIntsList values := by
  cases values with
  | nil => rw [entryToJsonList, jsonToEntryList, truncIntsList]
  | cons value values =>
    rw [sortedList, Bool.and_eq_true] at h
    rw [entryToJsonList, jsonToEntryList, truncIntsList, jsonToEntry_entryToJson value h.1,
      jsonToEntryList_entryToJson values h.2]

theorem jsonToEntryDict_entryToJson (members : List (Bytes × Entry)) (h : sortedDict members = true)
    (built : List (Bytes × Entry)) (hkeys : KeysSorted members)
    (hbelow : ∀ m ∈ members, KeysBelow built m.1) :
    jsonToEntryDict built (entryToJsonDict members) = built ++ truncIntsDict members := by
  cases members with
  | nil => rw [entryToJsonDict, jsonToEntryDict, truncIntsDict, List.append_nil]
  | cons m members =>
    obtain ⟨key, value⟩ := m
    rw [sortedDict, Bool.and_eq_true] at h
    obtain ⟨hfirst, hrest⟩ := List.pairwise_cons.mp hkeys
    have hbelow' : ∀ m ∈ members, KeysBelow (built ++ [(key, truncInts value)]) m.1 := by
      intro m hm x hx
      rcases List.mem_append.mp hx with hx | hx
      · exact hbelow m (List.mem_cons_of_mem _ hm) x hx
      · rw [List.mem_singleton.mp hx]
        exact hfirst m hm
    rw [entryToJsonDict, jsonToEntryDict, truncIntsDict, jsonToEntry_entryToJson value h.1,
      insert_eq, mapSet_above (hbelow (key, value) List.mem_cons_self),
      jsonToEntryDict_entryToJson members h.2 _ hrest hbelow', List.append_assoc]
    rfl

end

/-- The integers that fit. -/
theorem toInt32_eq_self_iff {n : Int} : toInt32 n = n ↔ -2 ^ 31 ≤ n ∧ n < 2 ^ 31 := by
  rw [toInt32]
  omega

mutual

/-- The entries that are not cut. -/
theorem truncInts_eq_self_iff (e : Entry) : truncInts e = e ↔ e.fitsInt = true := by
  cases e with
  | int n => rw [truncInts, fitsInt, Entry.int.injEq, toInt32_eq_self_iff, decide_eq_true_eq]
  | str s => rw [truncInts, fitsInt, eq_self, eq_self]
  | list values =>
    rw [truncInts, fitsInt, Entry.list.injEq]
    exact truncIntsList_eq_self_iff values
  | dict members =>
    rw [truncInts, fitsInt, Entry.dict.injEq]
    exact truncIntsDict_eq_self_iff members

theorem truncIntsList_eq_self_iff (values : List Entry) :
    truncIntsList values = values ↔ fitsIntList values = true := by
  cases values with
  | nil => rw [truncIntsList, fitsIntList, eq_self, eq_self]
  | cons value values =>
    rw [truncIntsList, fitsIntList, List.cons.injEq, Bool.and_eq_true, truncInts_eq_self_iff value,
      truncIntsList_eq_self_iff values]

theorem truncIntsDict_eq_self_iff (members : List (Bytes × Entry)) :
    truncIntsDict members = members ↔ fitsIntDict members = true := by
  cases members with
  | nil => rw [truncIntsDict, fitsIntDict, eq_self, eq_self]
  | cons m members =>
    rw [truncIntsDict, fitsIntDict, List.cons.injEq, Prod.mk.injEq, Bool.and_eq_true,
      truncInts_eq_self_iff m.2, truncIntsDict_eq_self_iff members, eq_self, true_and]

end

mutual

/-- Cut entries fit. -/
theorem fitsInt_truncInts (e : Entry) : (truncInts e).fitsInt = true := by
  cases e with
  | int n =>
    rw [truncInts, fitsInt, decide_eq_true_eq, toInt32]
    omega
  | str s => rw [truncInts, fitsInt]
  | list values => rw [truncInts, fitsInt, fitsIntList_truncInts values]
  | dict members => rw [truncInts, fitsInt, fitsIntDict_truncInts members]

theorem fitsIntList_truncInts (values : List Entry) :
    fitsIntList (truncIntsList values) = true := by
  cases values with
  | nil => rw [truncIntsList, fitsIntList]
  | cons value values =>
    rw [truncIntsList, fitsIntList, fitsInt_truncInts value, fitsIntList_truncInts values,
      Bool.and_self]

theorem fitsIntDict_truncInts (members : List (Bytes × Entry)) :
    fitsIntDict (truncIntsDict members) = true := by
  cases members with
  | nil => rw [truncIntsDict, fitsIntDict]
  | cons m members =>
    rw [truncIntsDict, fitsIntDict, fitsInt_truncInts m.2, fitsIntDict_truncInts members,
      Bool.and_self]

end

theorem truncInts_truncInts (e : Entry) : truncInts (truncInts e) = truncInts e :=
  (truncInts_eq_self_iff _).mpr (fitsInt_truncInts e)

/-! ## Changing the members of a dictionary -/

section Members

variable {members : List (Bytes × Entry)} {key key' : String} {f g : Entry → Entry}

theorem atKey_atKey (f g : Entry → Entry) (members : List (Bytes × Entry)) :
    atKey key f (atKey key g members) = atKey key (f ∘ g) members := by
  rw [atKey, atKey, atKey, List.map_map]
  apply List.map_congr_left
  intro m _
  by_cases hm : m.1 = ascii key <;> simp [hm]

/-- Changes of different members commute. -/
theorem atKey_comm (hne : ascii key ≠ ascii key') (f g : Entry → Entry)
    (members : List (Bytes × Entry)) :
    atKey key f (atKey key' g members) = atKey key' g (atKey key f members) := by
  rw [atKey, atKey, atKey, atKey, List.map_map, List.map_map]
  apply List.map_congr_left
  intro m _
  by_cases hm : m.1 = ascii key
  · simp [hm, hne]
  · by_cases hm' : m.1 = ascii key'
    · simp [hm', Ne.symm hne]
    · simp [hm, hm']

theorem atKey_cancel (h : ∀ e, f (g e) = e) (members : List (Bytes × Entry)) :
    atKey key f (atKey key g members) = members := by
  rw [atKey_atKey, atKey]
  refine (List.map_congr_left fun m _ => ?_).trans (List.map_id members)
  simp [h]

/-- When a change of a member changes nothing. -/
theorem atKey_eq_self_iff :
    atKey key f members = members ↔ ∀ e, (ascii key, e) ∈ members → f e = e := by
  have hid : atKey key f members = members ↔ atKey key f members = members.map id := by
    rw [List.map_id]
  rw [hid, atKey, List.map_inj_left]
  constructor
  · intro h e he
    simpa using h (ascii key, e) he
  · rintro h ⟨k, e⟩ hm
    by_cases hk : k = ascii key
    · subst hk
      simp [h e hm]
    · simp [hk]

/-- A change of a member after one of others changes nothing only if neither does. -/
theorem atKey_map_eq_self_iff (change : Bytes × Entry → Bytes × Entry)
    (hkey : ∀ m, (change m).1 = m.1) (hother : ∀ e, change (ascii key, e) = (ascii key, e)) :
    atKey key f (members.map change) = members ↔
      atKey key f members = members ∧ members.map change = members := by
  constructor
  · intro h
    have hids : atKey key f (members.map change) = members.map id := by rw [h, List.map_id]
    rw [atKey, List.map_map, List.map_inj_left] at hids
    have hmap : members.map change = members.map id := by
      refine List.map_congr_left fun m hm => ?_
      by_cases hk : m.1 = ascii key
      · obtain ⟨k, e⟩ := m
        subst hk
        exact hother e
      · have := hids m hm
        rwa [Function.comp_apply, hkey, if_neg hk] at this
    rw [List.map_id] at hmap
    rw [hmap] at h
    exact ⟨h, hmap⟩
  · rintro ⟨hf, hchange⟩
    rw [hchange, hf]

/-- The change of a member. -/
def changeAt (key : String) (f : Entry → Entry) (m : Bytes × Entry) : Bytes × Entry :=
  if m.1 = ascii key then (m.1, f m.2) else m

theorem changeAt_key (m : Bytes × Entry) : (changeAt key f m).1 = m.1 := by
  rw [changeAt]
  split <;> rfl

theorem changeAt_other (hne : ascii key ≠ ascii key') (e : Entry) :
    changeAt key' f (ascii key, e) = (ascii key, e) :=
  if_neg hne

/-- Changes of two members change nothing only if neither does. -/
theorem atKey_atKey_eq_self_iff (hne : ascii key ≠ ascii key') :
    atKey key f (atKey key' g members) = members ↔
      atKey key f members = members ∧ atKey key' g members = members :=
  atKey_map_eq_self_iff (changeAt key' g) changeAt_key (changeAt_other hne)

theorem atKey_atKey_atKey_eq_self_iff {key'' : String} {h : Entry → Entry}
    (hne : ascii key ≠ ascii key') (hne' : ascii key ≠ ascii key'')
    (hne'' : ascii key' ≠ ascii key'') :
    atKey key f (atKey key' g (atKey key'' h members)) = members ↔
      atKey key f members = members ∧ atKey key' g members = members ∧
        atKey key'' h members = members := by
  have hboth : atKey key' g (atKey key'' h members) =
      members.map (changeAt key' g ∘ changeAt key'' h) := List.map_map
  have hkeys : ∀ m, ((changeAt key' g ∘ changeAt key'' h) m).1 = m.1 := by
    intro m
    rw [Function.comp_apply, changeAt_key, changeAt_key]
  have hother : ∀ e, (changeAt key' g ∘ changeAt key'' h) (ascii key, e) = (ascii key, e) := by
    intro e
    rw [Function.comp_apply, changeAt_other hne', changeAt_other hne]
  rw [hboth, atKey_map_eq_self_iff _ hkeys hother, ← hboth, atKey_atKey_eq_self_iff hne'']

theorem hasKey_eq : hasKey members key = decide (ascii key ∈ members.map Prod.fst) := by
  induction members with
  | nil => rfl
  | cons m members ih =>
    obtain ⟨k, e⟩ := m
    rw [hasKey, find] at ih ⊢
    by_cases hk : ascii key = k
    · simp [hk]
    · simp only [lookup_cons_ite, hk, if_false, ih, List.map_cons, List.mem_cons, false_or]

theorem keys_atKey : (atKey key f members).map Prod.fst = members.map Prod.fst := by
  rw [atKey, List.map_map]
  apply List.map_congr_left
  intro m _
  by_cases hm : m.1 = ascii key <;> simp [hm]

theorem hasKey_atKey : hasKey (atKey key f members) key' = hasKey members key' := by
  rw [hasKey_eq, hasKey_eq, keys_atKey]

/-- A missing member is not changed. -/
theorem atKey_of_not_hasKey (h : hasKey members key = false) : atKey key f members = members := by
  rw [hasKey_eq, decide_eq_false_iff_not] at h
  rw [atKey_eq_self_iff]
  intro e he
  exact absurd (List.mem_map_of_mem (f := Prod.fst) he) h

theorem hasKey_truncIntsDict : hasKey (truncIntsDict members) key = hasKey members key := by
  rw [hasKey_eq, hasKey_eq, truncIntsDict_eq, List.map_map]
  rfl

theorem onString_onString (p q : Bytes → Bytes) (h : ∀ s, p (q s) = s) (e : Entry) :
    onString p (onString q e) = e := by
  cases e <;> simp [onString, h]

theorem onDict_eq_self_iff {f : List (Bytes × Entry) → List (Bytes × Entry)} {e : Entry} :
    onDict f e = e ↔ ∀ members, e = .dict members → f members = members := by
  cases e <;> simp [onDict]

/-- A field that is written and read comes back. -/
theorem findAndUnHexcape_findAndHexcape (key : String) (members : List (Bytes × Entry)) :
    findAndUnHexcape key (findAndHexcape key members) = members :=
  atKey_cancel (onString_onString parseHex hexStr parseHex_hexStr) members

theorem findAndUnHexcape_comm (hne : ascii key ≠ ascii key') :
    findAndUnHexcape key (findAndHexcape key' members) =
      findAndHexcape key' (findAndUnHexcape key members) :=
  atKey_comm hne _ _ members

/-- A string is kept in hexadecimal only if it is empty. -/
def EmptyAt (key : String) (members : List (Bytes × Entry)) : Prop :=
  ∀ s, (ascii key, .str s) ∈ members → s = []

/-- A field stays the same iff it is empty or no string. -/
theorem findAndHexcape_eq_self_iff : findAndHexcape key members = members ↔
    EmptyAt key members := by
  rw [findAndHexcape, atKey_eq_self_iff]
  constructor
  · intro h s hs
    have hself := h (.str s) hs
    rw [onString, Entry.str.injEq, hexStr_eq_self_iff] at hself
    exact hself
  · intro h e he
    cases e with
    | str s => rw [h s he]; rfl
    | int n => rfl
    | list values => rfl
    | dict inner => rfl

end Members

/-! ## What the two ways leave -/

section Undo

variable {members userpost : List (Bytes × Entry)}

/-- Messages come back. -/
theorem unHexcapeMessage_hexcapeMessage (dm : List (Bytes × Entry)) :
    unHexcapeMessage (hexcapeMessage dm) = dm := by
  have hne : ascii "body" ≠ ascii "mac" ∧ ascii "body" ≠ ascii "key" ∧
      ascii "key" ≠ ascii "mac" := by
    simp +decide
  rw [unHexcapeMessage, hexcapeMessage, findAndUnHexcape_comm hne.1, findAndUnHexcape_comm hne.2.1,
    findAndUnHexcape_findAndHexcape, findAndUnHexcape_comm hne.2.2,
    findAndUnHexcape_findAndHexcape, findAndUnHexcape_findAndHexcape]

/-- What comes back of a `userpost`: the fields `sig_fav` and `pfav` stay hexadecimal. -/
theorem unHexcapeUserpost_hexcapeUserpost (userpost : List (Bytes × Entry)) :
    unHexcapeUserpost (hexcapeUserpost userpost) =
      if hasKey userpost "dm" then findAndHexcape "sig_fav" userpost
      else atKey "pfav" (onDict hexcapeMessage) (findAndHexcape "sig_fav" userpost) := by
  have hne : ascii "sig_rt" ≠ ascii "dm" ∧ ascii "sig_rt" ≠ ascii "sig_fav" ∧
      ascii "sig_rt" ≠ ascii "pfav" := by
    simp +decide
  have hdm : hasKey (findAndHexcape "sig_fav" (findAndHexcape "sig_rt" userpost)) "dm" =
      hasKey userpost "dm" := by
    rw [findAndHexcape, findAndHexcape, hasKey_atKey, hasKey_atKey]
  have hback : findAndUnHexcape "sig_rt"
      (findAndHexcape "sig_fav" (findAndHexcape "sig_rt" userpost)) =
        findAndHexcape "sig_fav" userpost := by
    rw [findAndUnHexcape_comm hne.2.1, findAndUnHexcape_findAndHexcape]
  have hcancel : ∀ e, onDict unHexcapeMessage (onDict hexcapeMessage e) = e := by
    intro e
    cases e <;> simp [onDict, unHexcapeMessage_hexcapeMessage]
  rw [hexcapeUserpost, hdm]
  cases hhas : hasKey userpost "dm" with
  | true =>
    rw [if_pos rfl, if_pos rfl, unHexcapeUserpost, findAndUnHexcape, atKey_comm hne.1,
      ← findAndUnHexcape, hback, atKey_cancel hcancel]
  | false =>
    have hnone : hasKey (atKey "pfav" (onDict hexcapeMessage) (findAndHexcape "sig_fav" userpost))
        "dm" = false := by
      rw [findAndHexcape, hasKey_atKey, hasKey_atKey, hhas]
    rw [if_neg nofun, if_neg nofun, unHexcapeUserpost, findAndUnHexcape, atKey_comm hne.2.2,
      ← findAndUnHexcape, hback, atKey_of_not_hasKey hnone]

/-- The outer fields come back. -/
theorem unHexcapePost_hexcapePost (members : List (Bytes × Entry)) :
    unHexcapePost (hexcapePost (.dict members)) =
      .dict (atKey "userpost" (onDict fun u => unHexcapeUserpost (hexcapeUserpost u)) members) := by
  have hne : ascii "sig_userpost" ≠ ascii "userpost" := by simp +decide
  have hcomp : onDict unHexcapeUserpost ∘ onDict hexcapeUserpost =
      onDict fun u => unHexcapeUserpost (hexcapeUserpost u) := by
    funext e
    cases e <;> rfl
  rw [hexcapePost, onDict, unHexcapePost, onDict, findAndUnHexcape, atKey_comm hne,
    ← findAndUnHexcape, findAndUnHexcape_findAndHexcape, atKey_atKey, hcomp]

/-- The fields that stay hexadecimal have nothing in them. -/
def favsPlain : Entry → Prop
  | .dict members => ∀ userpost, (ascii "userpost", .dict userpost) ∈ members →
      EmptyAt "sig_fav" userpost ∧
      (hasKey userpost "dm" = false → ∀ pfav, (ascii "pfav", .dict pfav) ∈ userpost →
        EmptyAt "body" pfav ∧ EmptyAt "key" pfav ∧ EmptyAt "mac" pfav)
  | _ => True

/-- Messages that are not changed. -/
theorem hexcapeMessage_eq_self_iff {dm : List (Bytes × Entry)} :
    hexcapeMessage dm = dm ↔ EmptyAt "body" dm ∧ EmptyAt "key" dm ∧ EmptyAt "mac" dm := by
  have hne : ascii "mac" ≠ ascii "key" ∧ ascii "mac" ≠ ascii "body" ∧
      ascii "key" ≠ ascii "body" := by
    simp +decide
  have hthree : hexcapeMessage dm = dm ↔ findAndHexcape "mac" dm = dm ∧
      findAndHexcape "key" dm = dm ∧ findAndHexcape "body" dm = dm :=
    atKey_atKey_atKey_eq_self_iff hne.1 hne.2.1 hne.2.2
  rw [hthree, findAndHexcape_eq_self_iff, findAndHexcape_eq_self_iff, findAndHexcape_eq_self_iff]
  exact ⟨fun ⟨hmac, hkey, hbody⟩ => ⟨hbody, hkey, hmac⟩,
    fun ⟨hbody, hkey, hmac⟩ => ⟨hmac, hkey, hbody⟩⟩

/-- Which posts come back. -/
theorem userpost_eq_self_iff :
    unHexcapeUserpost (hexcapeUserpost userpost) = userpost ↔ EmptyAt "sig_fav" userpost ∧
      (hasKey userpost "dm" = false → ∀ pfav, (ascii "pfav", .dict pfav) ∈ userpost →
        EmptyAt "body" pfav ∧ EmptyAt "key" pfav ∧ EmptyAt "mac" pfav) := by
  rw [unHexcapeUserpost_hexcapeUserpost]
  cases hdm : hasKey userpost "dm" with
  | true => simp [findAndHexcape_eq_self_iff]
  | false =>
    have hne : ascii "pfav" ≠ ascii "sig_fav" := by simp +decide
    have hboth : atKey "pfav" (onDict hexcapeMessage) (findAndHexcape "sig_fav" userpost) =
        userpost ↔ atKey "pfav" (onDict hexcapeMessage) userpost = userpost ∧
          findAndHexcape "sig_fav" userpost = userpost :=
      atKey_atKey_eq_self_iff hne
    rw [if_neg nofun, hboth, findAndHexcape_eq_self_iff, atKey_eq_self_iff, and_comm]
    refine and_congr_right fun _ => ?_
    simp only [forall_true_left]
    constructor
    · intro h pfav hmem
      exact hexcapeMessage_eq_self_iff.mp (onDict_eq_self_iff.mp (h _ hmem) pfav rfl)
    · intro h e he
      refine onDict_eq_self_iff.mpr fun pfav hpfav => ?_
      subst hpfav
      exact hexcapeMessage_eq_self_iff.mpr (h pfav he)

/-- Which entries come back. -/
theorem unHexcapePost_hexcapePost_eq_self_iff {e : Entry} :
    unHexcapePost (hexcapePost e) = e ↔ e.favsPlain := by
  cases e with
  | dict members =>
    rw [unHexcapePost_hexcapePost, Entry.dict.injEq, atKey_eq_self_iff, favsPlain]
    constructor
    · intro h userpost hmem
      exact userpost_eq_self_iff.mp (onDict_eq_self_iff.mp (h _ hmem) userpost rfl)
    · intro h e he
      refine onDict_eq_self_iff.mpr fun userpost hpost => ?_
      subst hpost
      exact userpost_eq_self_iff.mpr (h userpost he)
  | int n => simp [unHexcapePost, hexcapePost, onDict, favsPlain]
  | str s => simp [unHexcapePost, hexcapePost, onDict, favsPlain]
  | list values => simp [unHexcapePost, hexcapePost, onDict, favsPlain]

end Undo

/-! ## The changes keep integers and sorted dictionaries -/

section Keep

variable {members : List (Bytes × Entry)} {key : String} {f : Entry → Entry}
variable {g : List (Bytes × Entry) → List (Bytes × Entry)}

/-- A change that converting the integers does not see. -/
def KeepsInts (f : Entry → Entry) : Prop := ∀ e, truncInts (f e) = f (truncInts e)

/-- The change commutes with the cut. -/
def KeepsIntsDict (g : List (Bytes × Entry) → List (Bytes × Entry)) : Prop :=
  ∀ members, truncIntsDict (g members) = g (truncIntsDict members)

/-- A change that leaves dictionaries sorted. -/
def KeepsSorted (f : Entry → Entry) : Prop := ∀ e, e.sorted = true → (f e).sorted = true

/-- The change keeps maps sorted. -/
def KeepsSortedDict (g : List (Bytes × Entry) → List (Bytes × Entry)) : Prop :=
  ∀ members, sorted (.dict members) = true → sorted (.dict (g members)) = true

theorem KeepsInts.onString (p : Bytes → Bytes) : KeepsInts (onString p) := by
  intro e
  cases e <;> simp [Entry.onString, truncInts]

theorem KeepsInts.onDict (h : KeepsIntsDict g) : KeepsInts (onDict g) := by
  intro e
  cases e <;> simp [Entry.onDict, truncInts, h _]

theorem KeepsIntsDict.atKey (h : KeepsInts f) (key : String) : KeepsIntsDict (atKey key f) := by
  intro members
  rw [truncIntsDict_eq, truncIntsDict_eq, Entry.atKey, Entry.atKey, List.map_map, List.map_map]
  apply List.map_congr_left
  intro m _
  by_cases hm : m.1 = ascii key <;> simp [hm, h m.2]

theorem KeepsIntsDict.comp {g' : List (Bytes × Entry) → List (Bytes × Entry)} (h : KeepsIntsDict g)
    (h' : KeepsIntsDict g') : KeepsIntsDict fun members => g (g' members) := by
  intro members
  rw [h, h']

theorem KeepsSorted.onString (p : Bytes → Bytes) : KeepsSorted (onString p) := by
  intro e he
  cases e with
  | str s => simp [Entry.onString, sorted]
  | int n => exact he
  | list values => exact he
  | dict members => exact he

theorem KeepsSorted.onDict (h : KeepsSortedDict g) : KeepsSorted (onDict g) := by
  intro e he
  cases e with
  | dict members => exact h members he
  | int n => exact he
  | str s => exact he
  | list values => exact he

theorem sortedDict_iff : sortedDict members = true ↔ ∀ m ∈ members, m.2.sorted = true := by
  induction members with
  | nil => simp [sortedDict]
  | cons m members ih => simp [sortedDict, ih]

theorem KeepsSortedDict.atKey (h : KeepsSorted f) (key : String) :
    KeepsSortedDict (atKey key f) := by
  intro members hmembers
  rw [sorted, Bool.and_eq_true, decide_eq_true_eq, sortedDict_iff] at *
  refine ⟨hmembers.1.of_keys keys_atKey.symm, fun m hm => ?_⟩
  obtain ⟨x, hx, rfl⟩ := List.mem_map.mp hm
  split
  · exact h x.2 (hmembers.2 x hx)
  · exact hmembers.2 x hx

/-- `hexcapePost` commutes with the cut. -/
theorem keepsInts_hexcapePost : KeepsInts hexcapePost := by
  have hfield : ∀ key, KeepsIntsDict (findAndHexcape key) := .atKey (.onString hexStr)
  have hmessage : KeepsIntsDict hexcapeMessage :=
    (hfield "mac").comp ((hfield "key").comp (hfield "body"))
  have huserpost : KeepsIntsDict hexcapeUserpost := by
    intro u
    rw [hexcapeUserpost, hexcapeUserpost, ← hfield "sig_rt", ← hfield "sig_fav",
      hasKey_truncIntsDict]
    split
    · exact KeepsIntsDict.atKey (.onDict hmessage) "dm" _
    · exact KeepsIntsDict.atKey (.onDict hmessage) "pfav" _
  exact .onDict ((KeepsIntsDict.atKey (.onDict huserpost) "userpost").comp (hfield "sig_userpost"))

theorem keepsInts_unHexcapePost : KeepsInts unHexcapePost := by
  have hfield : ∀ key, KeepsIntsDict (findAndUnHexcape key) := .atKey (.onString parseHex)
  have hmessage : KeepsIntsDict unHexcapeMessage :=
    (hfield "mac").comp ((hfield "key").comp (hfield "body"))
  have huserpost : KeepsIntsDict unHexcapeUserpost :=
    (KeepsIntsDict.atKey (.onDict hmessage) "dm").comp (hfield "sig_rt")
  exact .onDict ((KeepsIntsDict.atKey (.onDict huserpost) "userpost").comp (hfield "sig_userpost"))

/-- `hexcapePost` keeps maps sorted. -/
theorem keepsSorted_hexcapePost : KeepsSorted hexcapePost := by
  have hfield : ∀ key, KeepsSortedDict (findAndHexcape key) := .atKey (.onString hexStr)
  have hmessage : KeepsSortedDict hexcapeMessage := fun dm h =>
    hfield "mac" _ (hfield "key" _ (hfield "body" dm h))
  have huserpost : KeepsSortedDict hexcapeUserpost := by
    intro u hu
    have hsigs := hfield "sig_fav" _ (hfield "sig_rt" u hu)
    rw [hexcapeUserpost]
    split
    · exact KeepsSortedDict.atKey (.onDict hmessage) "dm" _ hsigs
    · exact KeepsSortedDict.atKey (.onDict hmessage) "pfav" _ hsigs
  exact .onDict fun e he =>
    KeepsSortedDict.atKey (.onDict huserpost) "userpost" _ (hfield "sig_userpost" e he)

end Keep

/-- **Which posts come back from a client**: those whose integers fit an `int` and whose fields
that `unHexcapePost` forgets are empty. -/
theorem clientRoundTrip_iff (v : Entry) (hsorted : v.sorted = true) :
    v.clientRoundTrip = v ↔ v.fitsInt = true ∧ v.favsPlain := by
  have hjson : v.clientRoundTrip = unHexcapePost (hexcapePost (truncInts v)) := by
    rw [clientRoundTrip, jsonToEntry_entryToJson _ (keepsSorted_hexcapePost v hsorted),
      keepsInts_hexcapePost]
  rw [hjson, ← truncInts_eq_self_iff, ← unHexcapePost_hexcapePost_eq_self_iff]
  constructor
  · intro h
    have hints : truncInts v = v := by
      calc truncInts v = truncInts (unHexcapePost (hexcapePost (truncInts v))) := by rw [h]
        _ = unHexcapePost (hexcapePost (truncInts (truncInts v))) := by
            rw [keepsInts_unHexcapePost, keepsInts_hexcapePost]
        _ = v := by rw [truncInts_truncInts, h]
    rw [hints] at h
    exact ⟨hints, h⟩
  · rintro ⟨hints, hback⟩
    rw [hints, hback]

/-- A post with a message and a signature. -/
def shownPost : Entry :=
  .dict [(ascii "sig_userpost", .str [0xfe, 0xff]),
    (ascii "userpost", .dict [
      (ascii "dm", .dict [(ascii "body", .str [0x00, 0x80])]),
      (ascii "k", .int 7), (ascii "sig_rt", .str [0x1f])])]

theorem clientRoundTrip_shownPost : shownPost.clientRoundTrip = shownPost := by
  refine (clientRoundTrip_iff shownPost (by decide +kernel)).mpr ⟨by decide +kernel, ?_⟩
  simp +decide [shownPost, favsPlain, EmptyAt]

/-- A large integer and the signature of a favourite do not come back. -/
theorem clientRoundTrip_loses :
    ∃ v w : Entry, v.sorted = true ∧ w.sorted = true ∧ v.clientRoundTrip ≠ v ∧
      w.clientRoundTrip ≠ w := by
  refine ⟨.dict [(ascii "k", .int (2 ^ 31))],
    .dict [(ascii "userpost", .dict [(ascii "sig_fav", .str [0xff])])], by decide +kernel,
    by decide +kernel, ?_, ?_⟩
  · have hback : clientRoundTrip (.dict [(ascii "k", .int (2 ^ 31))]) =
        .dict [(ascii "k", .int (-2 ^ 31))] := by rfl
    rw [hback]
    simp
  · have hback : clientRoundTrip
        (.dict [(ascii "userpost", .dict [(ascii "sig_fav", .str [0xff])])]) =
        .dict [(ascii "userpost", .dict [(ascii "sig_fav", .str (ascii "ff"))])] := by rfl
    rw [hback]
    simp +decide

end Entry

end CoMoNet
