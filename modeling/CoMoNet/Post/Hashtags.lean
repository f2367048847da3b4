import CoMoNet.Lib.TopRanked
import CoMoNet.Post.NewPost
import CoMoNet.Post.Sorted
import Mathlib.Order.WithBot

/-!
# Trending hashtags

Messages vote for their hashtags. `gettrendinghashtags` puts the tags into a map with
votes as keys, which keeps one of several tags with the same vote.
-/

namespace CoMoNet

open TopRanked (Highest TiesLate OnePerScore)

/-! ## Votes -/

/-- The hashtags of a token: the word after a `#`, or several. -/
def tokenHashtags (toLower : Bytes → Bytes) : Bytes → List Bytes
  | 35 :: c :: rest =>
    let word := toLower (c :: rest)
    if 35 ∉ word then [word] else (word.splitOnP (· == 35)).filter (· ≠ [])
  | _ => []

/-- The set `hashtags` of a message; empty tokens have none. -/
def messageHashtags (toLower : Bytes → Bytes) (message : Bytes) : List Bytes :=
  if 35 ∉ message then []
  else
    ((message.splitOnP (· ∈ msgTokensDelimiter)).flatMap (tokenHashtags toLower)).foldl
      (fun hashtags word => setInsert word hashtags) []

/-- A message and its times. -/
structure TagMessage where
  message : Bytes
  msgTime : Int
  /-- `GetAdjustedTime()` at the call. -/
  curTime : Int

/-- The node: how it writes in lower case, and the vote for a difference of times. -/
structure TagNode (V : Type) where
  toLower : Bytes → Bytes
  /-- `pow(0.5, timeDiff/hashtagHalfLife)`. -/
  vote : Int → V

section Votes

variable {V : Type} [Add V]

/-- The hashtags of a message. -/
def TagNode.hashtags (node : TagNode V) (m : TagMessage) : List Bytes :=
  messageHashtags node.toLower m.message

/-- The vote of a message.  A message is not later than now. -/
def TagNode.voteOf (node : TagNode V) (m : TagMessage) : V :=
  node.vote (m.curTime - if m.msgTime > m.curTime then m.curTime else m.msgTime)

/-- Adds a vote. -/
def addTo (vote : V) : Option V → V
  | none => vote
  | some votes => votes + vote

/-- The loop over the hashtags.  `seen` is `m_seenHashtags`. -/
def castVote (vote : V) (seen : List (Bytes × V)) (word : Bytes) : List (Bytes × V) :=
  mapSet keyLt word (addTo vote (seen.lookup word)) seen

/-- `updateSeenHashtags`. -/
def updateSeenHashtags (node : TagNode V) (seen : List (Bytes × V)) (m : TagMessage) :
    List (Bytes × V) :=
  (node.hashtags m).foldl (castVote (node.voteOf m)) seen

/-- The map after these messages. -/
def seenHashtags (node : TagNode V) (messages : List TagMessage) : List (Bytes × V) :=
  messages.foldl (updateSeenHashtags node) []

/-- What a message does to the votes of a tag. -/
def voteFor (node : TagNode V) (tag : Bytes) (votes : Option V) (m : TagMessage) : Option V :=
  if (node.hashtags m).contains tag then some (addTo (node.voteOf m) votes) else votes

/-- The accumulated vote of a tag; `⊥` if no message has it. -/
def accumulated (node : TagNode V) (messages : List TagMessage) (tag : Bytes) : WithBot V :=
  messages.foldl (voteFor node tag) none

/-- The tags of the messages. -/
def seenTags (node : TagNode V) (messages : List TagMessage) : List Bytes :=
  (messages.flatMap node.hashtags).dedup

theorem nodup_setInsert {word : Bytes} {set : List Bytes} (h : set.Nodup) :
    (setInsert word set).Nodup := by
  rw [setInsert]
  split
  · exact h
  · next hnew => simpa [List.nodup_append] using ⟨h, fun a ha hword => hnew (hword ▸ ha)⟩

theorem nodup_messageHashtags (toLower : Bytes → Bytes) (message : Bytes) :
    (messageHashtags toLower message).Nodup := by
  rw [messageHashtags]
  split
  · exact .nil
  · exact List.foldlRecOn _ _ (motive := List.Nodup) .nil fun _ h _ _ => nodup_setInsert h

variable {node : TagNode V} {seen : List (Bytes × V)} {messages : List TagMessage} {tag : Bytes}
  {votes : Option V}

theorem lookup_castVote (vote : V) (seen : List (Bytes × V)) (word tag : Bytes) :
    (castVote vote seen word).lookup tag =
      if tag = word then some (addTo vote (seen.lookup tag)) else seen.lookup tag := by
  rw [castVote, lookup_mapSet]
  split
  · next h => rw [h]
  · rfl

theorem lookup_foldl_castVote {vote : V} {words : List Bytes} (h : words.Nodup) :
    (words.foldl (castVote vote) seen).lookup tag =
      if tag ∈ words then some (addTo vote (seen.lookup tag)) else seen.lookup tag := by
  induction words generalizing seen with
  | nil => simp
  | cons word words ih =>
    obtain ⟨hword, hwords⟩ := List.nodup_cons.mp h
    rw [List.foldl_cons, ih hwords, lookup_castVote]
    by_cases htag : tag = word
    · simp [htag, hword]
    · simp [htag]

theorem lookup_updateSeenHashtags (m : TagMessage) :
    (updateSeenHashtags node seen m).lookup tag = voteFor node tag (seen.lookup tag) m := by
  have hnodup : (node.hashtags m).Nodup := nodup_messageHashtags _ _
  rw [updateSeenHashtags, lookup_foldl_castVote hnodup, voteFor]
  simp only [List.contains_iff_mem]

theorem lookup_foldl_updateSeenHashtags (messages : List TagMessage) (seen : List (Bytes × V)) :
    (messages.foldl (updateSeenHashtags node) seen).lookup tag =
      messages.foldl (voteFor node tag) (seen.lookup tag) := by
  induction messages generalizing seen with
  | nil => rfl
  | cons m messages ih => rw [List.foldl_cons, List.foldl_cons, ih, lookup_updateSeenHashtags]

/-- The votes after all messages. -/
theorem lookup_seenHashtags (node : TagNode V) (messages : List TagMessage) (tag : Bytes) :
    (seenHashtags node messages).lookup tag = accumulated node messages tag :=
  lookup_foldl_updateSeenHashtags messages []

theorem keysSorted_updateSeenHashtags (h : KeysSorted seen) (m : TagMessage) :
    KeysSorted (updateSeenHashtags node seen m) :=
  List.foldlRecOn _ _ (motive := KeysSorted) h fun _ h _ _ => sortsKeys_keyLt.mapSet h _ _

theorem keysSorted_seenHashtags (node : TagNode V) (messages : List TagMessage) :
    KeysSorted (seenHashtags node messages) :=
  List.foldlRecOn _ _ (motive := KeysSorted) .nil
    fun _ h m _ => keysSorted_updateSeenHashtags h m

theorem isSome_foldl_voteFor : (messages.foldl (voteFor node tag) votes).isSome ↔
    votes.isSome ∨ ∃ m ∈ messages, tag ∈ node.hashtags m := by
  induction messages generalizing votes with
  | nil => simp
  | cons m messages ih =>
    rw [List.foldl_cons, ih, voteFor]
    by_cases htag : tag ∈ node.hashtags m
    · simp [htag]
    · simp [htag]

theorem mem_seenTags_iff : tag ∈ seenTags node messages ↔
    ∃ vote, (tag, vote) ∈ seenHashtags node messages := by
  have hlookup : (seenHashtags node messages).lookup tag =
    messages.foldl (voteFor node tag) none := lookup_foldl_updateSeenHashtags messages []
  have hsome : ((seenHashtags node messages).lookup tag).isSome ↔
      ∃ m ∈ messages, tag ∈ node.hashtags m := by
    rw [hlookup, isSome_foldl_voteFor]
    simp
  rw [seenTags, List.mem_dedup, List.mem_flatMap, ← hsome, Option.isSome_iff_exists]
  exact exists_congr fun vote =>
    ⟨mem_of_lookup, sortsKeys_keyLt.lookup_of_mem (keysSorted_seenHashtags node messages)⟩

theorem accumulated_of_mem {vote : V} (h : (tag, vote) ∈ seenHashtags node messages) :
    accumulated node messages tag = vote := by
  rw [← lookup_seenHashtags]
  exact sortsKeys_keyLt.lookup_of_mem (keysSorted_seenHashtags node messages) h

end Votes

/-! ## gettrendinghashtags -/

section Trending

variable {V : Type} [LinearOrder V]

/-- `sortedHashtags`, from the tags in the order of the map. -/
def sortedHashtags (seen : List (Bytes × V)) : List (V × Bytes) :=
  seen.foldl (fun sorted item => mapSet (· < ·) item.2 item.1 sorted) []

/-- The last tags of the map sorted by votes. -/
def trendingTags (seen : List (Bytes × V)) (count : Nat) : List Bytes :=
  ((sortedHashtags seen).reverse.take count).map Prod.snd

/-- A number from the interface as a `size_t`. -/
def toSizeT (count : Int) : Nat := (count % 2 ^ 64).toNat

/-- `gettrendinghashtags`. -/
def gettrendinghashtags (seen : List (Bytes × V)) (params : List Json) : Except Exn Json :=
  match params with
  | [count] => do
    let count ← count.getInt
    .ok (.array ((trendingTags seen (toSizeT count)).map .str))
  | _ => .error (.runtime
      ("gettrendinghashtags <count>\n" ++ "obtain list of trending hashtags"))

theorem mem_foldl_sorted {seen : List (Bytes × V)} {sorted : List (V × Bytes)} {x : V × Bytes}
    (h : x ∈ seen.foldl (fun sorted item => mapSet (· < ·) item.2 item.1 sorted) sorted) :
    (x.2, x.1) ∈ seen ∨ x ∈ sorted := by
  induction seen generalizing sorted with
  | nil => exact .inr h
  | cons item seen ih =>
    rcases ih h with h | h
    · exact .inl (List.mem_cons_of_mem _ h)
    · rcases mem_mapSet h with rfl | h
      · exact .inl List.mem_cons_self
      · exact .inr h

theorem mem_of_mem_sortedHashtags {seen : List (Bytes × V)} {x : V × Bytes}
    (h : x ∈ sortedHashtags seen) : (x.2, x.1) ∈ seen :=
  (mem_foldl_sorted h).resolve_right List.not_mem_nil

theorem mem_keys_foldl_sorted {seen : List (Bytes × V)} {sorted : List (V × Bytes)} {vote : V} :
    vote ∈ (seen.foldl (fun sorted item => mapSet (· < ·) item.2 item.1 sorted) sorted).map
      Prod.fst ↔ vote ∈ seen.map Prod.snd ∨ vote ∈ sorted.map Prod.fst := by
  induction seen generalizing sorted with
  | nil => simp
  | cons item seen ih =>
    rw [List.foldl_cons, ih, mem_keys_mapSet, List.map_cons, List.mem_cons]
    tauto

theorem sortedHashtags_sorted (seen : List (Bytes × V)) :
    (sortedHashtags seen).Pairwise fun x y => x.1 < y.1 := by
  have h : (sortedHashtags seen).Pairwise fun x y => decide (x.1 < y.1) = true :=
    List.foldlRecOn _ _ (motive := List.Pairwise fun x y : V × Bytes => decide (x.1 < y.1) = true)
      .nil fun _ h _ _ => sortsKeys_lt.mapSet h _ _
  simpa using h

variable [Add V] {node : TagNode V} {messages : List TagMessage}

/-- The map has one tag for each vote. -/
theorem onePerScore_sortedHashtags (node : TagNode V) (messages : List TagMessage) :
    OnePerScore (accumulated node messages) (seenTags node messages)
      ((sortedHashtags (seenHashtags node messages)).reverse.map Prod.snd) where
  strict := by
    rw [List.pairwise_map, List.pairwise_reverse]
    refine (sortedHashtags_sorted _).imp_of_mem fun {x y} hx hy hlt => ?_
    rw [accumulated_of_mem (mem_of_mem_sortedHashtags hx),
      accumulated_of_mem (mem_of_mem_sortedHashtags hy)]
    exact WithBot.coe_lt_coe.mpr hlt
  mem tag htag := by
    obtain ⟨x, hx, rfl⟩ := List.mem_map.mp htag
    exact mem_seenTags_iff.mpr ⟨x.1, mem_of_mem_sortedHashtags (List.mem_reverse.mp hx)⟩
  scores tag htag := by
    obtain ⟨vote, hvote⟩ := mem_seenTags_iff.mp htag
    have hkey : vote ∈ (sortedHashtags (seenHashtags node messages)).map Prod.fst :=
      mem_keys_foldl_sorted.mpr (.inl (List.mem_map.mpr ⟨_, hvote, rfl⟩))
    obtain ⟨x, hx, rfl⟩ := List.mem_map.mp hkey
    refine ⟨x.2, List.mem_map.mpr ⟨x, List.mem_reverse.mpr hx, rfl⟩, ?_⟩
    rw [accumulated_of_mem (mem_of_mem_sortedHashtags hx), accumulated_of_mem hvote]

/-- `gettrendinghashtags` returns the tags of the highest votes iff ties come late: two tags of
one vote have enough higher votes before them. -/
theorem gettrendinghashtags_iff (node : TagNode V) (messages : List TagMessage) (count : Int) :
    (∃ answer : List Bytes,
      gettrendinghashtags (seenHashtags node messages) [.int count] =
        .ok (.array (answer.map .str)) ∧
      Highest (toSizeT (toInt32 count)) (accumulated node messages)
        (seenTags node messages) answer) ↔
    TiesLate (toSizeT (toInt32 count)) (accumulated node messages) (seenTags node messages) := by
  have hiff := (onePerScore_sortedHashtags node messages).highest_take_iff
      (n := toSizeT (toInt32 count))
    (List.nodup_dedup _)
  have hanswer : ∀ answer : List Bytes,
      gettrendinghashtags (seenHashtags node messages) [.int count] =
        .ok (.array (answer.map .str)) ↔
      ((sortedHashtags (seenHashtags node messages)).reverse.map Prod.snd).take
        (toSizeT (toInt32 count)) = answer := by
    intro answer
    have hinj : Function.Injective (List.map Json.str) :=
      List.map_injective_iff.mpr fun _ _ h => Json.str.inj h
    rw [← hinj.eq_iff, ← List.map_take]
    simp [gettrendinghashtags, Json.getInt, trendingTags, bind, Except.bind]
  simp only [hanswer, exists_eq_left', hiff]

end Trending

/-- Every message has one vote. -/
def tieNode : TagNode Nat := ⟨id, fun _ => 1⟩

/-- Two tags with one vote. -/
def tieMessages : List TagMessage := [⟨ascii "#a #b", 0, 0⟩]

/-- Both tags have been seen, and only one of them is trending. -/
theorem gettrendinghashtags_tie :
    seenTags tieNode tieMessages = [ascii "a", ascii "b"] ∧
    gettrendinghashtags (seenHashtags tieNode tieMessages) [.int 2] =
      .ok (.array [.str (ascii "b")]) :=
  ⟨by decide, rfl⟩

end CoMoNet
