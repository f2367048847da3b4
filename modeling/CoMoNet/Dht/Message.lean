import CoMoNet.Dht.LazyEntry
import CoMoNet.Lib.Results

/-!
# Descriptions of messages

`verify_message` reads a message by a table of keys, each with a type, perhaps optional
or with children.
-/

namespace CoMoNet

/-- `key_desc_t`. -/
structure KeyDesc where
  name : String
  /-- The type of the value; `none` for `none_t`, any type. -/
  type : Option EntryType
  size : Nat := 0
  optional : Bool := false
  parseChildren : Bool := false
  lastChild : Bool := false
  sizeDivisible : Bool := false

namespace KeyDesc

/-- The value of a key, if it is there with the right type. -/
def read (k : KeyDesc) (msg : LazyEntry) : Option LazyEntry :=
  (msg.dictFind k.name).filter fun e => k.type.all (· = e.type)

/-- A string that is not of the size the key asks for. -/
def invalid (k : KeyDesc) (e : LazyEntry) : Bool :=
  k.size > 0 && k.type = some .string &&
    if k.sizeDivisible then e.stringValue.length % k.size ≠ 0 else e.stringValue.length ≠ k.size

/-- The value to return for a key, or the error. -/
def value (k : KeyDesc) (msg : LazyEntry) : Except String (Option LazyEntry) :=
  match k.read msg with
  | none => if k.optional then .ok none else .error ("missing '" ++ k.name ++ "' key")
  | some e =>
    if k.invalid e then
      if k.optional then .ok none else .error ("invalid value for '" ++ k.name ++ "'")
    else .ok (some e)

/-- Where to go on: whether to skip to the next `last_child`, and the dictionaries to read. -/
def next (k : KeyDesc) (ret : Option LazyEntry) (msg : LazyEntry) (stack : List LazyEntry) :
    Except String (Bool × LazyEntry × List LazyEntry) :=
  if k.parseChildren then
    match ret with
    | some e => .ok (false, e, msg :: stack)
    | none => .ok (!k.lastChild, msg, stack)
  else if k.lastChild then
    match stack with
    | [] => .error ""
    | parent :: stack => .ok (false, parent, stack)
  else .ok (false, msg, stack)

end KeyDesc

/-- The loop of `verify_message`. -/
def verifyFrom : Bool × LazyEntry × List LazyEntry → List KeyDesc →
    Except String (List (Option LazyEntry))
  | _, [] => .ok []
  | (true, msg, stack), k :: desc =>
    (verifyFrom (!k.lastChild, msg, stack) desc).map (none :: ·)
  | (false, msg, stack), k :: desc => do
    let ret ← k.value msg
    let pos ← k.next ret msg stack
    let keys ← verifyFrom pos desc
    return ret :: keys

/-- `verify_message`: the values of the keys, or the error. -/
def verifyMessage (desc : List KeyDesc) (msg : LazyEntry) :
    Except String (List (Option LazyEntry)) :=
  if msg.type ≠ .dict then .error "not a dictionary" else verifyFrom (false, msg, []) desc

section Loop

variable {k : KeyDesc} {desc : List KeyDesc} {msg e : LazyEntry} {stack : List LazyEntry}
variable {ret : Option LazyEntry} {keys : List (Option LazyEntry)}

theorem KeyDesc.value_some (h : k.value msg = .ok (some e)) :
    msg.dictFind k.name = some e ∧ ∀ type, k.type = some type → e.type = type := by
  rw [value] at h
  split at h
  · split at h
    · cases h
    · cases h
  · rename_i e' he'
    obtain ⟨hfind, htype⟩ := Option.filter_eq_some_iff.mp he'
    have heq : e' = e := by
      split at h
      · split at h
        · cases h
        · cases h
      · cases h
        rfl
    rw [← heq]
    refine ⟨hfind, fun type hk => ?_⟩
    rw [hk] at htype
    exact (of_decide_eq_true htype).symm

theorem KeyDesc.value_required (hk : k.optional = false) (h : k.value msg = .ok ret) :
    ∃ e, ret = some e ∧ msg.dictFind k.name = some e ∧
      ∀ type, k.type = some type → e.type = type := by
  cases ret with
  | some e => exact ⟨e, rfl, value_some h⟩
  | none =>
    rw [value, hk] at h
    split at h
    · cases h
    · split at h
      · cases h
      · cases h

theorem verifyFrom_cons (h : verifyFrom (false, msg, stack) (k :: desc) = .ok keys) :
    ∃ ret pos rest, k.value msg = .ok ret ∧ k.next ret msg stack = .ok pos ∧
      verifyFrom pos desc = .ok rest ∧ keys = ret :: rest := by
  rw [verifyFrom] at h
  obtain ⟨ret, hret, h⟩ := Except.bind_eq_ok_iff.mp h
  obtain ⟨pos, hpos, h⟩ := Except.bind_eq_ok_iff.mp h
  obtain ⟨rest, hrest, h⟩ := Except.bind_eq_ok_iff.mp h
  cases h
  exact ⟨ret, pos, rest, hret, hpos, hrest, rfl⟩

theorem verifyFrom_optional (h : verifyFrom (false, msg, stack) (k :: desc) = .ok keys)
    (hp : k.parseChildren = false) (hl : k.lastChild = false) :
    ∃ ret rest, keys = ret :: rest ∧ k.value msg = .ok ret ∧
      verifyFrom (false, msg, stack) desc = .ok rest := by
  obtain ⟨ret, pos, rest, hret, hpos, hrest, rfl⟩ := verifyFrom_cons h
  simp only [KeyDesc.next, hp, hl, Bool.false_eq_true, if_false, Except.ok.injEq] at hpos
  rw [← hpos] at hrest
  exact ⟨ret, rest, rfl, hret, hrest⟩

theorem verifyFrom_leaf (h : verifyFrom (false, msg, stack) (k :: desc) = .ok keys)
    (hk : k.optional = false) (hp : k.parseChildren = false) (hl : k.lastChild = false) :
    ∃ e rest, keys = some e :: rest ∧ msg.dictFind k.name = some e ∧
      (∀ type, k.type = some type → e.type = type) ∧
      verifyFrom (false, msg, stack) desc = .ok rest := by
  obtain ⟨ret, rest, rfl, hret, hrest⟩ := verifyFrom_optional h hp hl
  obtain ⟨e, rfl, hfind, htype⟩ := KeyDesc.value_required hk hret
  exact ⟨e, rest, rfl, hfind, htype, hrest⟩

theorem verifyFrom_dict (h : verifyFrom (false, msg, stack) (k :: desc) = .ok keys)
    (hk : k.optional = false) (hp : k.parseChildren = true) :
    ∃ e rest, keys = some e :: rest ∧ msg.dictFind k.name = some e ∧
      (∀ type, k.type = some type → e.type = type) ∧
      verifyFrom (false, e, msg :: stack) desc = .ok rest := by
  obtain ⟨ret, pos, rest, hret, hpos, hrest, rfl⟩ := verifyFrom_cons h
  obtain ⟨e, rfl, hfind, htype⟩ := KeyDesc.value_required hk hret
  simp only [KeyDesc.next, hp, if_true, Except.ok.injEq] at hpos
  rw [← hpos] at hrest
  exact ⟨e, rest, rfl, hfind, htype, hrest⟩

end Loop

/-! ## putData -/

/-- The keys of `putData`. -/
def putDataDesc : List KeyDesc :=
  [{ name := "token", type := some .string },
    { name := "sig_p", type := some .string },
    { name := "sig_user", type := some .string },
    { name := "p", type := some .dict, parseChildren := true },
    { name := "v", type := none },
    { name := "seq", type := some .int, optional := true },
    { name := "witness", type := some .string, optional := true },
    { name := "time", type := some .int },
    { name := "height", type := some .int },
    { name := "target", type := some .dict, parseChildren := true },
    { name := "n", type := some .string },
    { name := "r", type := some .string },
    { name := "t", type := some .string }]

/-- The names of the keys. -/
inductive MsgKey where
  | token | sigP | sigUser | p | v | seq | witness | time | height | target | n | r | t
deriving DecidableEq, Repr

/-- Their places. -/
def MsgKey.index : MsgKey → Nat
  | .token => 0 | .sigP => 1 | .sigUser => 2 | .p => 3 | .v => 4 | .seq => 5 | .witness => 6
  | .time => 7 | .height => 8 | .target => 9 | .n => 10 | .r => 11 | .t => 12

/-- The values of a message. -/
structure PutMessage where
  token : LazyEntry
  sigP : LazyEntry
  sigUser : LazyEntry
  p : LazyEntry
  v : LazyEntry
  seq : Option LazyEntry
  witness : Option LazyEntry
  time : LazyEntry
  height : LazyEntry
  target : LazyEntry
  n : LazyEntry
  r : LazyEntry
  t : LazyEntry

namespace PutMessage

/-- The array the handler reads. -/
def keys (m : PutMessage) : List (Option LazyEntry) :=
  [some m.token, some m.sigP, some m.sigUser, some m.p, some m.v, m.seq, m.witness, some m.time,
    some m.height, some m.target, some m.n, some m.r, some m.t]

theorem keys_inj {m m' : PutMessage} (h : m.keys = m'.keys) : m = m' := by
  cases m
  cases m'
  simp only [keys, List.cons.injEq, Option.some.injEq, and_true] at h
  simp only [mk.injEq]
  exact h

/-- The value was found under the name, with the type. -/
def Found (msg : LazyEntry) (name : String) (type : EntryType) (e : LazyEntry) : Prop :=
  msg.dictFind name = some e ∧ e.type = type

/-- An optional value was found, or there is none of the type. -/
def Optional (msg : LazyEntry) (name : String) (type : EntryType) (ret : Option LazyEntry) :
    Prop :=
  msg.dictFindType type name = ret

/-- The values are those of the message. -/
structure ReadFrom (m : PutMessage) (msg : LazyEntry) : Prop where
  token : Found msg "token" .string m.token
  sigP : Found msg "sig_p" .string m.sigP
  sigUser : Found msg "sig_user" .string m.sigUser
  p : Found msg "p" .dict m.p
  v : m.p.dictFind "v" = some m.v
  seq : Optional m.p "seq" .int m.seq
  witness : Optional m.p "witness" .string m.witness
  time : Found m.p "time" .int m.time
  height : Found m.p "height" .int m.height
  target : Found m.p "target" .dict m.target
  n : Found m.target "n" .string m.n
  r : Found m.target "r" .string m.r
  t : Found m.target "t" .string m.t

end PutMessage

theorem KeyDesc.value_optional {msg : LazyEntry} {ret : Option LazyEntry} {name : String}
    {type : EntryType}
    (h : KeyDesc.value { name := name, type := some type, optional := true } msg = .ok ret) :
    PutMessage.Optional msg name type ret := by
  rw [PutMessage.Optional, LazyEntry.dictFindType]
  simp only [KeyDesc.value, KeyDesc.read, KeyDesc.invalid] at h
  rw [show (fun e : LazyEntry => decide (e.type = type)) =
      fun e => Option.all (fun x => decide (x = e.type)) (some type) by
    funext e
    simp [eq_comm]]
  split at h
  · rename_i hnone
    simp only [if_true, Except.ok.injEq] at h
    rw [hnone, h]
  · rename_i e hsome
    simp only [gt_iff_lt, Nat.lt_irrefl, decide_false, Bool.false_and, Bool.false_eq_true,
      if_false, Except.ok.injEq] at h
    rw [hsome, h]

/-- A `putData` message passes with all its keys; only `seq` and `witness` may be missing. -/
theorem verifyMessage_putData {msg : LazyEntry} {keys : List (Option LazyEntry)}
    (h : verifyMessage putDataDesc msg = .ok keys) :
    ∃ m : PutMessage, keys = m.keys ∧ m.ReadFrom msg := by
  rw [verifyMessage] at h
  split at h
  · cases h
  obtain ⟨token, _, rfl, htoken, htoken', h⟩ := verifyFrom_leaf h rfl rfl rfl
  obtain ⟨sigP, _, rfl, hsigP, hsigP', h⟩ := verifyFrom_leaf h rfl rfl rfl
  obtain ⟨sigUser, _, rfl, hsigUser, hsigUser', h⟩ := verifyFrom_leaf h rfl rfl rfl
  obtain ⟨p, _, rfl, hp, hp', h⟩ := verifyFrom_dict h rfl rfl
  obtain ⟨v, _, rfl, hv, -, h⟩ := verifyFrom_leaf h rfl rfl rfl
  obtain ⟨seq, _, rfl, hseq, h⟩ := verifyFrom_optional h rfl rfl
  obtain ⟨witness, _, rfl, hwitness, h⟩ := verifyFrom_optional h rfl rfl
  obtain ⟨time, _, rfl, htime, htime', h⟩ := verifyFrom_leaf h rfl rfl rfl
  obtain ⟨height, _, rfl, hheight, hheight', h⟩ := verifyFrom_leaf h rfl rfl rfl
  obtain ⟨target, _, rfl, htarget, htarget', h⟩ := verifyFrom_dict h rfl rfl
  obtain ⟨n, _, rfl, hn, hn', h⟩ := verifyFrom_leaf h rfl rfl rfl
  obtain ⟨r, _, rfl, hr, hr', h⟩ := verifyFrom_leaf h rfl rfl rfl
  obtain ⟨t, _, rfl, ht, ht', h⟩ := verifyFrom_leaf h rfl rfl rfl
  rw [verifyFrom, Except.ok.injEq] at h
  subst h
  exact ⟨⟨token, sigP, sigUser, p, v, seq, witness, time, height, target, n, r, t⟩, rfl,
    { token := ⟨htoken, htoken' _ rfl⟩
      sigP := ⟨hsigP, hsigP' _ rfl⟩
      sigUser := ⟨hsigUser, hsigUser' _ rfl⟩
      p := ⟨hp, hp' _ rfl⟩
      v := hv
      seq := KeyDesc.value_optional hseq
      witness := KeyDesc.value_optional hwitness
      time := ⟨htime, htime' _ rfl⟩
      height := ⟨hheight, hheight' _ rfl⟩
      target := ⟨htarget, htarget' _ rfl⟩
      n := ⟨hn, hn' _ rfl⟩
      r := ⟨hr, hr' _ rfl⟩
      t := ⟨ht, ht' _ rfl⟩ }⟩

end CoMoNet
