import CoMoNet.Dht.LazyEntry

/-!
# The checks of a post

`acceptSignedPost` checks author, number, height and text, then the signature of the
post and those of its quotations. Messages go to a buffer of 200 bytes, which a long
name overruns.
-/

namespace CoMoNet

open CScript (decimal)

/-- `dict_find_int_value` with a default. -/
def LazyEntry.dictFindIntOr (e : LazyEntry) (name : String) (defaultVal : Int) : Int :=
  ((e.dictFindInt name).map intValue).getD defaultVal

/-- The characters of a text with one byte each. -/
def latin1 (text : Bytes) : String := String.ofList (text.map fun b => Char.ofNat b.toNat)

/-- `verifySignature` of a part of a post, at the height it gives. -/
def LazyEntry.signedBy (env : Env) (node : PostNode) (e : LazyEntry) (username sig : Bytes) :
    Bool :=
  verifySignature env node e.dataSection username sig (toInt32 (e.dictFindIntOr "height" (-1)))

/-- The signature of a post that is quoted is good. -/
def LazyEntry.quoteSigned (env : Env) (node : PostNode) (post quoted : LazyEntry)
    (sigName : String) : Bool :=
  quoted.signedBy env node (quoted.dictFindStringValue "n") (post.dictFindStringValue sigName)

/-- The check of a quotation, if there is one: `ret` and the message. -/
def LazyEntry.checkQuote (env : Env) (node : PostNode) (post : LazyEntry) (name sigName : String)
    (message : String) (before : Bool × String) : Bool × String :=
  match post.dictFindDict name with
  | none => before
  | some quoted =>
    if post.quoteSigned env node quoted sigName then (true, before.2) else (false, message)

/-- `ret` and `errbuf` after the checks of `rt` and `fav`. -/
def LazyEntry.checkQuotes (env : Env) (node : PostNode) (post : LazyEntry) : Bool × String :=
  post.checkQuote env node "fav" "sig_fav" "bad FAV signature"
    (post.checkQuote env node "rt" "sig_rt" "bad RT signature" (true, ""))

/-- The checks before the quotations: the message if one fails, or the dictionary and its member
`userpost`. -/
def verifyDecoded (env : Env) (node : PostNode) (dataSize : Nat) (v : Option LazyEntry)
    (username : Bytes) (seq : Int) : Except String (LazyEntry × LazyEntry) :=
  if dataSize = 0 ∨ dataSize > 2048 then .error "bad bencoded post size"
  else
    match v.filter (·.type = .dict) with
    | none => .error ""
    | some v =>
      let sig := v.dictFindStringValue "sig_userpost"
      match v.dictFindDict "userpost" with
      | none => .error "missing post or signature."
      | some post =>
        let n := post.dictFindStringValue "n"
        let k := toInt32 (post.dictFindIntOr "k" (-1))
        let height := toInt32 (post.dictFindIntOr "height" (-1))
        if sig = [] then .error "missing post or signature."
        else if n ≠ username then
          .error ("expected username '" ++ latin1 (cString username) ++ "' got '" ++
            latin1 (cString n) ++ "'")
        else if k ≠ seq then
          .error ("expected piece '" ++ latin1 (decimal seq) ++ "' got '" ++
            latin1 (decimal k) ++ "'")
        else if !validatePostNumberForUser node username k then
          .error ("too much posts from user '" ++ latin1 (cString username) ++
            "' rejecting post")
        else if height < 0 ∨ (height > node.bestHeight + 1 ∧ node.bestHeight > 0) then
          .error ("post from future not accepted (height: " ++ latin1 (decimal height) ++
            " > " ++ latin1 (decimal node.bestHeight) ++ ")")
        else
          match numCharacters (post.dictFindStringValue "msg") with
          | none => .error "invalid utf8 string"
          | some msgUtf8Chars =>
            if msgUtf8Chars > 140 then
              .error ("msg too big (" ++ latin1 (decimal msgUtf8Chars) ++ " > 140)")
            else if !post.signedBy env node username sig then
              .error "bad post signature"
            else .ok (v, post)

/-- `ret` and `errbuf` at the end. -/
def checkPost (env : Env) (node : PostNode) (dataSize : Nat) (v : Option LazyEntry)
    (username : Bytes) (seq : Int) : Bool × String :=
  match verifyDecoded env node dataSize v username seq with
  | .error errmsg => (false, errmsg)
  | .ok (_, post) => post.checkQuotes env node

/-- The message is longer than `errbuf`. -/
def overrunsErrbuf (errmsg : String) : Bool := errmsg.length ≥ 200

/-! ## Posts that were encoded -/

section Encoded

variable {members : List (Bytes × Entry)} {name : String}

theorem dictFindDict_lazy :
    (Entry.lazy (.dict members)).dictFindDict name =
      (Entry.findDict members name).map fun inner => Entry.lazy (.dict inner) := by
  rw [LazyEntry.dictFindDict, LazyEntry.dictFindType, Entry.dictFind_lazy, Entry.findDict]
  cases Entry.find members name with
  | none => rfl
  | some e => cases e <;> rfl

theorem dictFindStringValue_lazy :
    (Entry.lazy (.dict members)).dictFindStringValue name = Entry.findString members name := by
  rw [LazyEntry.dictFindStringValue, LazyEntry.dictFindString, LazyEntry.dictFindType,
    Entry.dictFind_lazy, Entry.findString]
  cases Entry.find members name with
  | none => rfl
  | some e => cases e <;> rfl

theorem dictFindIntOr_lazy (defaultVal : Int) :
    (Entry.lazy (.dict members)).dictFindIntOr name defaultVal =
      Entry.findInt members name defaultVal := by
  rw [LazyEntry.dictFindIntOr, LazyEntry.dictFindInt, LazyEntry.dictFindType, Entry.dictFind_lazy,
    Entry.findInt]
  cases Entry.find members name with
  | none => rfl
  | some e => cases e <;> rfl

end Encoded

section Checks

variable {env : Env} {node : PostNode} {dataSize : Nat} {v : Option LazyEntry} {username : Bytes}
variable {seq : Int}

/-- The messages about quotations fit. -/
theorem checkQuotes_fits (post : LazyEntry) :
    overrunsErrbuf (post.checkQuotes env node).2 = false := by
  have hquote : ∀ name sigName message before, overrunsErrbuf message = false →
      overrunsErrbuf before.2 = false →
      overrunsErrbuf (post.checkQuote env node name sigName message before).2 = false := by
    intro name sigName message before hmessage hbefore
    rw [LazyEntry.checkQuote]
    split
    · exact hbefore
    · split
      · exact hbefore
      · exact hmessage
  exact hquote _ _ _ _ (by decide) (hquote _ _ _ _ (by decide) (by decide))

/-- A post that is taken has passed the checks before its quotations. -/
theorem checkPost_true {errmsg : String}
    (h : checkPost env node dataSize v username seq = (true, errmsg)) :
    ∃ e post, verifyDecoded env node dataSize v username seq = .ok (e, post) := by
  rw [checkPost] at h
  cases hverify : verifyDecoded env node dataSize v username seq with
  | error errmsg =>
    rw [hverify] at h
    cases h
  | ok r => exact ⟨r.1, r.2, rfl⟩

end Checks

end CoMoNet
