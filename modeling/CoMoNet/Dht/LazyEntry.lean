import CoMoNet.Post.Userpost

/-!
# Received entries

A `lazy_entry` points into received bytes, and `dict_find` takes the first member of a
name. A copy to an `entry` merges a later member of a name into an earlier one. `Copied`
says that they agree if no name is repeated.
-/

namespace CoMoNet

/-- A `lazy_entry`: a value with the bytes it was read from. -/
inductive LazyEntry where
  | int (data : Bytes) (n : Int)
  | string (data : Bytes) (s : Bytes)
  | list (data : Bytes) (values : List LazyEntry)
  /-- A dictionary: its members in the order they were received. -/
  | dict (data : Bytes) (members : List (Bytes × LazyEntry))

/-- `entry_type_t`. -/
inductive EntryType where
  | int
  | string
  | list
  | dict
deriving DecidableEq, Repr

namespace LazyEntry

/-- `type`. -/
def type : LazyEntry → EntryType
  | .int _ _ => .int
  | .string _ _ => .string
  | .list _ _ => .list
  | .dict _ _ => .dict

/-- `data_section`. -/
def dataSection : LazyEntry → Bytes
  | .int data _ | .string data _ | .list data _ | .dict data _ => data

/-- `int_value`, of an integer. -/
def intValue : LazyEntry → Int
  | .int _ n => n
  | _ => 0

/-- `string_value`. -/
def stringValue : LazyEntry → Bytes
  | .string _ s => s
  | _ => []

/-- The members of a dictionary. -/
def members : LazyEntry → List (Bytes × LazyEntry)
  | .dict _ members => members
  | _ => []

/-- `dict_size`. -/
def dictSize (e : LazyEntry) : Nat := e.members.length

/-- `dict_find`. -/
def dictFind (e : LazyEntry) (name : String) : Option LazyEntry := e.members.lookup (ascii name)

/-- `dict_find` followed by a test of the type. -/
def dictFindType (e : LazyEntry) (type : EntryType) (name : String) : Option LazyEntry :=
  (e.dictFind name).filter (·.type = type)

/-- `dict_find_dict`. -/
def dictFindDict (e : LazyEntry) (name : String) : Option LazyEntry := e.dictFindType .dict name

/-- `dict_find_list`. -/
def dictFindList (e : LazyEntry) (name : String) : Option LazyEntry := e.dictFindType .list name

/-- `dict_find_string`. -/
def dictFindString (e : LazyEntry) (name : String) : Option LazyEntry := e.dictFindType .string name

/-- `dict_find_int`. -/
def dictFindInt (e : LazyEntry) (name : String) : Option LazyEntry := e.dictFindType .int name

/-- `dict_find_string_value`. -/
def dictFindStringValue (e : LazyEntry) (name : String) : Bytes :=
  ((e.dictFindString name).map stringValue).getD []

/-- `dict_find_int_value`. -/
def dictFindIntValue (e : LazyEntry) (name : String) : Int :=
  ((e.dictFindInt name).map intValue).getD 0

/-- The values of a list. -/
def listValues : LazyEntry → List LazyEntry
  | .list _ values => values
  | _ => []

variable {e x : LazyEntry} {type : EntryType} {name : String}

theorem dictFindType_eq_some :
    e.dictFindType type name = some x ↔ e.dictFind name = some x ∧ x.type = type := by
  rw [dictFindType, Option.filter_eq_some_iff]
  simp

theorem exists_dict (h : e.type = .dict) : ∃ data members, e = .dict data members := by
  cases e with
  | dict data members => exact ⟨data, members, rfl⟩
  | int data n => cases h
  | string data s => cases h
  | list data values => cases h

end LazyEntry

/-! ## Entries that are kept -/

theorem lookup_cons_ite {κ α : Type} [BEq κ] [LawfulBEq κ] [DecidableEq κ] (key : κ) (value : α)
    (m : List (κ × α)) (k : κ) :
    ((key, value) :: m).lookup k = if k = key then some value else m.lookup k := by
  rw [List.lookup_cons]
  by_cases h : k = key
  · simp [h]
  · rw [beq_false_of_ne h, if_neg h]

namespace Entry

mutual

/-- `entry::operator=(lazy_entry)`, to an entry with or without a value; `none` is a
`type_error`. -/
def assign : Option Entry → LazyEntry → Option Entry
  | none, .int _ n | some (.int _), .int _ n => some (.int n)
  | none, .string _ s | some (.str _), .string _ s => some (.str s)
  | none, .list _ values => (assignList [] values).map .list
  | some (.list old), .list _ values => (assignList old values).map .list
  | none, .dict _ members => (assignDict [] members).map .dict
  | some (.dict old), .dict _ members => (assignDict old members).map .dict
  | _, _ => none

/-- `assign` of a list. -/
def assignList (old : List Entry) : List LazyEntry → Option (List Entry)
  | [] => some old
  | value :: values => (assign none value).bind fun e => assignList (old ++ [e]) values

/-- `assign` of the members. -/
def assignDict (old : List (Bytes × Entry)) :
    List (Bytes × LazyEntry) → Option (List (Bytes × Entry))
  | [] => some old
  | (key, value) :: members =>
    (assign (old.lookup key) value).bind fun e => assignDict (insert key e old) members

end

mutual

/-- What `lazy_bdecode` reads from the encoding of an entry. -/
def lazy : Entry → LazyEntry
  | .int n => .int (bencode (.int n)) n
  | .str s => .string (bencode (.str s)) s
  | .list values => .list (bencode (.list values)) (lazyList values)
  | .dict members => .dict (bencode (.dict members)) (lazyDict members)

/-- `lazy` of a list. -/
def lazyList : List Entry → List LazyEntry
  | [] => []
  | value :: values => lazy value :: lazyList values

/-- `lazy` of the members. -/
def lazyDict : List (Bytes × Entry) → List (Bytes × LazyEntry)
  | [] => []
  | (key, value) :: members => (key, lazy value) :: lazyDict members

end

theorem lookup_insert (key key' : Bytes) (value : Entry) (old : List (Bytes × Entry)) :
    (insert key value old).lookup key' =
      if key' = key then some value else old.lookup key' := by
  induction old with
  | nil => rw [insert, lookup_cons_ite]
  | cons m old ih =>
    obtain ⟨k, v⟩ := m
    rw [insert]
    split
    · rename_i hk
      obtain rfl := eq_of_beq hk
      rw [lookup_cons_ite, lookup_cons_ite]
      split
      · rfl
      · rfl
    · rename_i hk
      have hne : k ≠ key := fun h => hk (beq_iff_eq.mpr h)
      split
      · rw [lookup_cons_ite]
      · rw [lookup_cons_ite, lookup_cons_ite, ih]
        by_cases h : key' = k
        · rw [if_pos h, if_neg (h ▸ hne), if_pos h]
        · rw [if_neg h, if_neg h]

theorem dataSection_lazy (e : Entry) : (lazy e).dataSection = bencode e := by
  cases e <;> rfl

theorem dictFind_lazy (members : List (Bytes × Entry)) (name : String) :
    (lazy (.dict members)).dictFind name = (find members name).map lazy := by
  show (lazyDict members).lookup (ascii name) = (members.lookup (ascii name)).map lazy
  induction members with
  | nil => rfl
  | cons m members ih =>
    obtain ⟨key, value⟩ := m
    rw [lazyDict, lookup_cons_ite, lookup_cons_ite, ih]
    split
    · rfl
    · rfl

/-- What is found in an encoded dictionary is the member. -/
theorem eq_lazy_of_dictFind {members : List (Bytes × Entry)} {name : String} {x : LazyEntry}
    {value : Entry} (h : (lazy (.dict members)).dictFind name = some x)
    (hfind : find members name = some value) : x = lazy value := by
  rw [dictFind_lazy, hfind, Option.map_some, Option.some.injEq] at h
  exact h.symm

/-- What is found in an encoded entry is encoded. -/
theorem exists_of_dictFind_lazy {e : Entry} {name : String} {x : LazyEntry}
    (h : (lazy e).dictFind name = some x) : ∃ y, lazy y = x := by
  cases e with
  | dict members =>
    rw [dictFind_lazy] at h
    obtain ⟨y, -, hy⟩ := Option.map_eq_some_iff.mp h
    exact ⟨y, hy⟩
  | int n => cases h
  | str s => cases h
  | list values => cases h

theorem lookup_assignDict_of_notMem {key : Bytes} {members : List (Bytes × LazyEntry)}
    {old new : List (Bytes × Entry)} (hkey : key ∉ members.map Prod.fst)
    (h : assignDict old members = some new) : new.lookup key = old.lookup key := by
  induction members generalizing old with
  | nil =>
    rw [assignDict, Option.some.injEq] at h
    rw [h]
  | cons m members ih =>
    obtain ⟨k, v⟩ := m
    rw [List.map_cons, List.mem_cons, not_or] at hkey
    rw [assignDict] at h
    obtain ⟨e, -, h⟩ := Option.bind_eq_some_iff.mp h
    rw [ih hkey.2 h, lookup_insert, if_neg hkey.1]

/-- A member of a dictionary that repeats no name is copied. -/
theorem lookup_assignDict {key : Bytes} {members : List (Bytes × LazyEntry)}
    {old new : List (Bytes × Entry)} (hold : ∀ k ∈ members.map Prod.fst, old.lookup k = none)
    (hdup : (members.map Prod.fst).Nodup) (h : assignDict old members = some new) :
    (members.lookup key = none → new.lookup key = old.lookup key) ∧
      ∀ value, members.lookup key = some value →
        ∃ e, assign none value = some e ∧ new.lookup key = some e := by
  induction members generalizing old with
  | nil =>
    rw [assignDict, Option.some.injEq] at h
    rw [h]
    exact ⟨fun _ => rfl, nofun⟩
  | cons m members ih =>
    obtain ⟨k, v⟩ := m
    rw [List.map_cons, List.nodup_cons] at hdup
    rw [assignDict, hold k List.mem_cons_self] at h
    obtain ⟨e, he, h⟩ := Option.bind_eq_some_iff.mp h
    have hold' : ∀ k' ∈ members.map Prod.fst, (insert k e old).lookup k' = none := by
      intro k' hk'
      have hne : k' ≠ k := fun heq => hdup.1 (heq ▸ hk')
      rw [lookup_insert, if_neg hne]
      exact hold k' (List.mem_cons_of_mem _ hk')
    obtain ⟨hnone, hsome⟩ := ih hold' hdup.2 h
    rw [lookup_cons_ite]
    by_cases hkey : key = k
    · rw [if_pos hkey]
      refine ⟨nofun, ?_⟩
      rintro value ⟨⟩
      refine ⟨e, he, ?_⟩
      rw [hkey, lookup_assignDict_of_notMem hdup.1 h, lookup_insert, if_pos rfl]
    · rw [if_neg hkey]
      refine ⟨fun hnot => ?_, hsome⟩
      rw [hnone hnot, lookup_insert, if_neg hkey]

theorem map_of_assignList {values : List LazyEntry} {old new : List Entry}
    (h : assignList old values = some new) :
    ∃ rest, new = old ++ rest ∧ values.map (assign none) = rest.map some := by
  induction values generalizing old with
  | nil =>
    rw [assignList, Option.some.injEq] at h
    exact ⟨[], by rw [h, List.append_nil], rfl⟩
  | cons value values ih =>
    rw [assignList] at h
    obtain ⟨e, he, h⟩ := Option.bind_eq_some_iff.mp h
    obtain ⟨rest, hrest, hmap⟩ := ih h
    refine ⟨e :: rest, ?_, ?_⟩
    · rw [hrest, List.append_assoc, List.singleton_append]
    · rw [List.map_cons, List.map_cons, he, hmap]

/-- The members of a dictionary. -/
def members : Entry → List (Bytes × Entry)
  | .dict members => members
  | _ => []

/-- A member that is a string. -/
def strOf (members : List (Bytes × Entry)) (name : String) : Option Bytes :=
  match find members name with
  | some (.str s) => some s
  | _ => none

theorem assign_eq_str {x : LazyEntry} {s : Bytes} :
    assign none x = some (.str s) ↔ ∃ data, x = .string data s := by
  cases x with
  | int data n => simp [assign]
  | string data s' => simp [assign]
  | list data values => simp [assign]
  | dict data members => simp [assign]

theorem assign_eq_dict {x : LazyEntry} {inner : List (Bytes × Entry)}
    (h : assign none x = some (.dict inner)) : x.type = .dict := by
  cases x with
  | int data n => simp [assign] at h
  | string data s => simp [assign] at h
  | list data values => simp [assign] at h
  | dict data members => rfl

theorem exists_of_assign_dict {x : LazyEntry} {y : Entry} (hx : x.type = .dict)
    (h : assign none x = some y) : ∃ inner, y = .dict inner := by
  obtain ⟨data, members, rfl⟩ := LazyEntry.exists_dict hx
  rw [assign] at h
  obtain ⟨inner, -, rfl⟩ := Option.map_eq_some_iff.mp h
  exact ⟨inner, rfl⟩

end Entry

/-- A member that is a string. -/
def LazyEntry.strOf (e : LazyEntry) (name : String) : Option Bytes :=
  (e.dictFindString name).map stringValue

/-- A dictionary that repeats no name, with its copy. -/
structure Copied (e : LazyEntry) (members : List (Bytes × Entry)) : Prop where
  type : e.type = .dict
  nodup : (e.members.map Prod.fst).Nodup
  assign : Entry.assign none e = some (.dict members)

namespace Copied

variable {e : LazyEntry} {members : List (Bytes × Entry)} {name : String}

/-- The two ways of reading agree on such a dictionary. -/
theorem find (copied : Copied e members) (name : String) :
    (e.dictFind name = none → Entry.find members name = none) ∧
      ∀ x, e.dictFind name = some x →
        ∃ y, Entry.assign none x = some y ∧ Entry.find members name = some y := by
  obtain ⟨data, wire, rfl⟩ := LazyEntry.exists_dict copied.type
  have h := copied.assign
  rw [Entry.assign] at h
  obtain ⟨new, hnew, hdict⟩ := Option.map_eq_some_iff.mp h
  cases hdict
  exact Entry.lookup_assignDict (fun _ _ => rfl) copied.nodup hnew

/-- A copy has the same strings. -/
theorem strOf (copied : Copied e members) (name : String) :
    Entry.strOf members name = e.strOf name := by
  obtain ⟨hnone, hsome⟩ := copied.find name
  cases hfind : e.dictFind name with
  | none => simp [Entry.strOf, hnone hfind, LazyEntry.strOf, LazyEntry.dictFindString,
      LazyEntry.dictFindType, hfind]
  | some x =>
    obtain ⟨y, hy, hmembers⟩ := hsome x hfind
    rw [Entry.strOf, hmembers, LazyEntry.strOf, LazyEntry.dictFindString, LazyEntry.dictFindType,
      hfind]
    cases x with
    | string data s =>
      rw [Entry.assign_eq_str.mpr ⟨data, rfl⟩] at hy
      cases hy
      rfl
    | int data n =>
      cases hy
      rfl
    | list data values =>
      rw [Entry.assign] at hy
      obtain ⟨inner, -, rfl⟩ := Option.map_eq_some_iff.mp hy
      rfl
    | dict data inner =>
      obtain ⟨inner', rfl⟩ := Entry.exists_of_assign_dict rfl hy
      rfl

/-- A copy has the same dictionaries. -/
theorem findDict (copied : Copied e members) (name : String) :
    (e.dictFindDict name = none ∧ Entry.findDict members name = none) ∨
      ∃ x inner, e.dictFindDict name = some x ∧ Entry.findDict members name = some inner ∧
        x.type = .dict ∧ Entry.assign none x = some (.dict inner) := by
  obtain ⟨hnone, hsome⟩ := copied.find name
  cases hfind : e.dictFind name with
  | none =>
    refine .inl ⟨?_, ?_⟩
    · rw [LazyEntry.dictFindDict, LazyEntry.dictFindType, hfind]
      rfl
    · rw [Entry.findDict, hnone hfind]
  | some x =>
    obtain ⟨y, hy, hmembers⟩ := hsome x hfind
    by_cases hx : x.type = .dict
    · obtain ⟨inner, rfl⟩ := Entry.exists_of_assign_dict hx hy
      refine .inr ⟨x, inner, LazyEntry.dictFindType_eq_some.mpr ⟨hfind, hx⟩, ?_, hx, hy⟩
      rw [Entry.findDict, hmembers]
    · refine .inl ⟨?_, ?_⟩
      · rw [LazyEntry.dictFindDict, LazyEntry.dictFindType, hfind]
        simp [hx]
      · rw [Entry.findDict, hmembers]
        cases y with
        | dict inner => exact absurd (Entry.assign_eq_dict hy) hx
        | int n => rfl
        | str s => rfl
        | list values => rfl

end Copied

end CoMoNet
