import Mathlib.Data.List.Nodup
import Mathlib.Data.List.Perm.Subperm
import Mathlib.Logic.Function.Basic
import Mathlib.Tactic.Push

/-!
# Undo stacks kept in a log

A *log* keeps a stack: the newest entry in `head`, and each covered entry under the slot
of the one that covered it. Nothing is ever removed, so stale entries stay. `Log.walk`
looks an entry up and returns the highest one within its bound (`Log.Tracks.walk_eq`),
unless a stale entry under the lowest slot sends it round
(`Log.Tracks.walk_returns_iff`).
-/

namespace UndoStack

/-- A stack kept as its top and, for each slot, the entry that was covered
there. -/
structure Log (E : Type*) where
  head : Option E
  /-- The entry covered by the one with this slot. -/
  saved : Nat → Option E

namespace Log

variable {E : Type*} {slot : E → Nat} {l : Log E} {st : List E} {e x : E}

/-- The entry is the head or saved. -/
def Has (l : Log E) (e : E) : Prop := l.head = some e ∨ ∃ k, l.saved k = some e

/-- Read the covered entry back; without one the head stays. -/
def pop (slot : E → Nat) (l : Log E) (e : E) : Log E :=
  match l.saved (slot e) with
  | none => l
  | some f => { l with head := some f }

/-- Drops the head. -/
def forget (l : Log E) : Log E := { l with head := none }

theorem Has.of_forget (h : l.forget.Has x) : l.Has x := by
  rcases h with h | ⟨k, h⟩
  · cases h
  · exact .inr ⟨k, h⟩

section Push

variable [DecidableEq E]

/-- Make `e` the newest entry and save the one it covers, if it is another. -/
def push (slot : E → Nat) (l : Log E) (e : E) : Log E where
  head := some e
  saved :=
    match l.head with
    | none => l.saved
    | some f => if f = e then l.saved else Function.update l.saved (slot e) (some f)

/-- Pushing saves at most the old head, under the new slot. -/
theorem saved_push (slot : E → Nat) (l : Log E) (e : E) (k : Nat) :
    (l.push slot e).saved k = l.saved k ∨
      k = slot e ∧ ∃ f, f ≠ e ∧ l.head = some f ∧ (l.push slot e).saved k = some f := by
  rw [push]
  cases hh : l.head with
  | none => exact .inl rfl
  | some f =>
    by_cases hf : f = e
    · simp [hf]
    · by_cases hk : k = slot e
      · refine .inr ⟨hk, f, hf, rfl, ?_⟩
        simp [hf, hk]
      · simp [hf, hk]

/-- A pushed log has no other new entries. -/
theorem Has.of_push (h : (l.push slot e).Has x) : x = e ∨ l.Has x := by
  rcases h with h | ⟨k, h⟩
  · exact .inl (Option.some.inj h).symm
  · rcases saved_push slot l e k with hk | ⟨-, f, -, hf, hk⟩
    · exact .inr (.inr ⟨k, hk ▸ h⟩)
    · rw [hk] at h
      exact .inr (.inl (hf.trans h))

end Push

/-! ## The stack of a log -/

/-- Each entry of the stack is saved under the slot of the one above it. -/
def Links (slot : E → Nat) (saved : Nat → Option E) : List E → Prop
  | [] => True
  | [_] => True
  | e :: f :: st => saved (slot e) = some f ∧ Links slot saved (f :: st)

/-- The log stands for the stack `st`, topmost entry first. -/
structure Tracks (slot : E → Nat) (l : Log E) (st : List E) : Prop where
  top : ∀ e, st.head? = some e → l.head = some e
  links : Links slot l.saved st
  sorted : st.Pairwise fun e f => slot f < slot e

theorem Tracks.nil : l.Tracks slot [] where
  top := by simp
  links := trivial
  sorted := List.Pairwise.nil

theorem Links.tail : ∀ {st : List E}, Links slot l.saved (e :: st) → Links slot l.saved st
  | [], _ => trivial
  | _ :: _, h => h.2

theorem Links.congr {saved saved' : Nat → Option E} : ∀ {st : List E},
    (∀ e ∈ st, saved' (slot e) = saved (slot e)) → Links slot saved st → Links slot saved' st
  | [], _, _ => trivial
  | [_], _, _ => trivial
  | e :: f :: st, hs, h => by
    refine ⟨(hs e List.mem_cons_self).trans h.1, ?_⟩
    exact Links.congr (fun x hx => hs x (List.mem_cons_of_mem _ hx)) h.2

theorem saved_pop (slot : E → Nat) (l : Log E) (e : E) : (l.pop slot e).saved = l.saved := by
  rw [pop]
  cases l.saved (slot e) <;> rfl

/-- Popping keeps the relation. -/
theorem Tracks.pop (h : l.Tracks slot (e :: st)) : (l.pop slot e).Tracks slot st := by
  refine ⟨?_, ?_, h.sorted.of_cons⟩
  · intro f hf
    cases st with
    | nil => cases hf
    | cons g st =>
      rw [List.head?_cons, Option.some.injEq] at hf
      subst hf
      rw [Log.pop, h.links.1]
  · rw [saved_pop]
    exact h.links.tail

/-- Popping several entries reads back what the lowest covered, or leaves that one. -/
theorem Tracks.foldl_pop {ds : List E} (h : l.Tracks slot (ds ++ st)) :
    (ds.foldl (Log.pop slot) l).saved = l.saved ∧
      ∀ low, ds.getLast? = some low →
        (ds.foldl (Log.pop slot) l).head = some ((l.saved (slot low)).getD low) := by
  induction ds generalizing l with
  | nil => exact ⟨rfl, nofun⟩
  | cons d ds ih =>
    obtain ⟨hsaved, hlow⟩ := ih h.pop
    rw [saved_pop] at hsaved hlow
    refine ⟨hsaved, fun low hlast => ?_⟩
    cases ds with
    | nil =>
      rw [List.getLast?_singleton, Option.some.injEq] at hlast
      subst hlast
      show (l.pop slot d).head = _
      rw [Log.pop]
      cases hs : l.saved (slot d) with
      | none => exact h.top d rfl
      | some f => rfl
    | cons d' ds => exact hlow low (by rw [List.getLast?_cons_cons] at hlast; exact hlast)

/-- Pushing an entry of a higher slot keeps the relation. -/
theorem Tracks.push [DecidableEq E] (h : l.Tracks slot st) (he : ∀ f ∈ st, slot f < slot e) :
    (l.push slot e).Tracks slot (e :: st) := by
  refine ⟨fun f hf => hf, ?_, List.pairwise_cons.mpr ⟨he, h.sorted⟩⟩
  cases st with
  | nil => trivial
  | cons f st =>
    have hlt : slot f < slot e := he f List.mem_cons_self
    have hne : f ≠ e := fun hfe => absurd hlt (by rw [hfe]; exact Nat.lt_irrefl _)
    have hhead : l.head = some f := h.top f rfl
    refine ⟨by simp [Log.push, hhead, hne], h.links.congr fun x hx => ?_⟩
    have hx : slot x < slot e := he x hx
    rcases saved_push slot l e (slot x) with hs | ⟨hs, -⟩
    · exact hs
    · omega

theorem push_pop [DecidableEq E] (h : l.head = some e) : (l.pop slot e).push slot e = l := by
  obtain ⟨head, saved⟩ := l
  cases h
  cases hs : saved (slot e) with
  | none => simp [Log.pop, Log.push, hs]
  | some f =>
    by_cases hf : f = e
    · simp [Log.pop, Log.push, hs, hf]
    · have hsame : Function.update saved (slot e) (some f) = saved := by
        rw [← hs, Function.update_eq_self]
      simp [Log.pop, Log.push, hs, hf, hsame]

/-- Popping and pushing again, with the head dropped in between. -/
theorem push_forget_pop [DecidableEq E] (h : l.head = some e) :
    (l.pop slot e).forget.push slot e = l := by
  have hsaved := saved_pop slot l e
  obtain ⟨head, saved⟩ := l
  cases h
  rw [Log.push, Log.forget, hsaved]

/-! ## Looking an entry up -/

/-- Walks down to the first slot up to `bound`: `some none` gives up, `none` is out of fuel. -/
def walk (slot : E → Nat) (l : Log E) (live : E → Bool) (bound : Int) :
    Nat → Option E → Option (Option E)
  | 0, _ => none
  | _ + 1, none => some none
  | fuel + 1, some e =>
    if !live e then some none
    else if slot e > bound then
      if slot e > 1 then walk slot l live bound fuel (l.saved (slot e)) else some none
    else some (some e)

section Walk

variable {live : E → Bool} {bound : Int} {fuel : Nat} {cur : Option E} {r : Option E}

/-- What a walk returns is live, in the log and within the bound. -/
theorem walk_some (hcur : ∀ x, cur = some x → l.Has x)
    (h : l.walk slot live bound fuel cur = some (some e)) :
    l.Has e ∧ live e = true ∧ (slot e : Int) ≤ bound := by
  induction fuel generalizing cur with
  | zero => cases h
  | succ fuel ih =>
    cases cur with
    | none => cases h
    | some x =>
      rw [walk] at h
      by_cases hlive : live x = true
      · by_cases hb : (slot x : Int) > bound
        · by_cases hone : slot x > 1
          · simp only [hlive, hb, hone, Bool.not_true, Bool.false_eq_true, if_false,
              if_true] at h
            exact ih (fun y hy => .inr ⟨slot x, hy⟩) h
          · simp [hlive, hb, hone] at h
        · simp only [hlive, hb, Bool.not_true, Bool.false_eq_true, if_false, Option.some.injEq]
            at h
          subst h
          exact ⟨hcur x rfl, hlive, Int.not_lt.mp hb⟩
      · simp [hlive] at h

/-- With no entry of the stack within the bound a walk finds nothing. -/
theorem walk_none (hlive : ∀ x, l.Has x → live x = true → x ∈ st)
    (hhigh : ∀ x ∈ st, bound < slot x) (hcur : ∀ x, cur = some x → l.Has x)
    (h : l.walk slot live bound fuel cur = some r) : r = none := by
  cases r with
  | none => rfl
  | some x =>
    obtain ⟨hx, hxlive, hle⟩ := walk_some hcur h
    have := hhigh x (hlive x hx hxlive)
    omega

theorem walk_succ_some (hlive : live e = true) (hle : (slot e : Int) ≤ bound) :
    l.walk slot live bound (fuel + 1) (some e) = some (some e) := by
  rw [walk, hlive, if_neg (by simp), if_neg (Int.not_lt.mpr hle)]

theorem walk_succ_dead (hdead : live e = false) :
    l.walk slot live bound (fuel + 1) (some e) = some none := by
  rw [walk, hdead, if_pos (by simp)]

/-- A walk that starts at the top of a linked part of the stack. -/
theorem walk_links (hst : ∀ x, l.Has x → live x = true → x ∈ st) {rest : List E}
    (hrest : ∀ x ∈ rest, live x = true ∧ 1 ≤ slot x) (hlinks : Links slot l.saved rest)
    (hsorted : rest.Pairwise fun e f => slot f < slot e)
    (hhigh : ∀ x ∈ st, x ∉ rest → bound < slot x)
    (htop : ∀ x, rest.head? = some x → cur = some x) (hcur : ∀ x, cur = some x → l.Has x)
    (h : l.walk slot live bound fuel cur = some r) :
    r = rest.find? fun x => decide ((slot x : Int) ≤ bound) := by
  induction rest generalizing cur fuel with
  | nil => exact walk_none hst (fun x hx => hhigh x hx List.not_mem_nil) hcur h
  | cons e rest ih =>
    obtain ⟨hlive, hpos⟩ := hrest e List.mem_cons_self
    have hcure : cur = some e := htop e rfl
    subst hcure
    cases fuel with
    | zero => cases h
    | succ fuel =>
      by_cases hle : (slot e : Int) ≤ bound
      · rw [walk_succ_some hlive hle, Option.some.injEq] at h
        simp [hle, ← h]
      · rw [List.find?_cons_of_neg (by simpa using hle)]
        rw [walk, hlive, if_neg (by simp), if_pos (Int.not_le.mp hle)] at h
        have hrest' := fun x hx => hrest x (List.mem_cons_of_mem _ hx)
        by_cases hone : slot e > 1
        · rw [if_pos hone] at h
          refine ih hrest' hlinks.tail hsorted.of_cons ?_ ?_ (fun x hx => .inr ⟨slot e, hx⟩) h
          · intro x hx hxr
            by_cases hxe : x = e
            · rw [hxe]
              exact Int.not_le.mp hle
            · exact hhigh x hx (by simp [hxe, hxr])
          · intro x hx
            cases rest with
            | nil => cases hx
            | cons f rest => exact hlinks.1.trans hx
        · rw [if_neg hone, Option.some.injEq] at h
          cases rest with
          | nil => exact h.symm
          | cons f rest =>
            have hfe := (List.pairwise_cons.mp hsorted).1 f List.mem_cons_self
            have hf := (hrest' f List.mem_cons_self).2
            omega

/-- With the live entries those of the stack, a walk returns the highest one within the bound. -/
theorem Tracks.walk_eq (h : l.Tracks slot st) (hst : ∀ x, l.Has x → live x = true → x ∈ st)
    (hlive : ∀ x ∈ st, live x = true ∧ 1 ≤ slot x)
    (hw : l.walk slot live bound fuel l.head = some r) :
    r = st.find? fun x => decide ((slot x : Int) ≤ bound) :=
  walk_links hst hlive h.links h.sorted (fun _ hx hx' => absurd hx hx') h.top
    (fun _ hx => .inl hx) hw

/-! ## Walks that return -/

/-- The entries a walk passes. -/
def trail (slot : E → Nat) (l : Log E) (live : E → Bool) (bound : Int) : Nat → Option E → List E
  | 0, _ => []
  | _ + 1, none => []
  | fuel + 1, some e =>
    if !live e then []
    else if slot e > bound ∧ slot e > 1 then
      e :: trail slot l live bound fuel (l.saved (slot e))
    else [e]

/-- A live entry is saved under the lowest one, which is above the bound. -/
def Trapped (slot : E → Nat) (l : Log E) (live : E → Bool) (bound : Int) (st : List E) : Prop :=
  ∃ b x, st.getLast? = some b ∧ 1 < slot b ∧ bound < slot b ∧ l.saved (slot b) = some x ∧
    live x = true

/-- Every entry but the lowest has the next one saved under it. -/
theorem Links.next {saved : Nat → Option E} : ∀ {st : List E}, Links slot saved st → e ∈ st →
    st.getLast? = some e ∨ ∃ f ∈ st, saved (slot e) = some f
  | [_], _, he => by
    rw [List.mem_singleton] at he
    exact .inl (by rw [he]; rfl)
  | a :: f :: st, h, he => by
    rcases List.mem_cons.mp he with rfl | he
    · exact .inr ⟨f, by simp, h.1⟩
    · rcases Links.next h.2 he with hlast | ⟨g, hg, hsaved⟩
      · exact .inl (by rw [List.getLast?_cons_cons, hlast])
      · exact .inr ⟨g, List.mem_cons_of_mem _ hg, hsaved⟩

theorem Tracks.le_of_getLast? (h : l.Tracks slot st) {b : E} (hb : st.getLast? = some b)
    (he : e ∈ st) : slot b ≤ slot e := by
  obtain ⟨above, rfl⟩ := List.getLast?_eq_some_iff.mp hb
  rcases List.mem_append.mp he with he | he
  · exact Nat.le_of_lt ((List.pairwise_append.mp h.sorted).2.2 e he b List.mem_cons_self)
  · obtain rfl := List.mem_singleton.mp he
    exact Nat.le_refl _

section Trapped

variable (h : l.Tracks slot st) (hst : ∀ x, l.Has x → live x = true → x ∈ st)
variable (hlive : ∀ x ∈ st, live x = true)

include h hst in
/-- In a trap a walk goes from each entry of the stack to another one. -/
theorem Trapped.next (htrap : l.Trapped slot live bound st) :
    ∀ e ∈ st, bound < slot e ∧ 1 < slot e ∧ ∃ f ∈ st, l.saved (slot e) = some f := by
  obtain ⟨b, x, hb, hone, hbound, hsaved, hx⟩ := htrap
  intro e he
  have hle : slot b ≤ slot e := h.le_of_getLast? hb he
  refine ⟨by omega, by omega, ?_⟩
  rcases h.links.next he with hlast | hnext
  · rw [hb, Option.some.injEq] at hlast
    subst hlast
    exact ⟨x, hst x (.inr ⟨slot b, hsaved⟩) hx, hsaved⟩
  · exact hnext

include h hst hlive in
/-- A trapped walk does not return. -/
theorem Trapped.walk_stuck (htrap : l.Trapped slot live bound st) (fuel : Nat) :
    ∀ e ∈ st, l.walk slot live bound fuel (some e) = none := by
  induction fuel with
  | zero => exact fun _ _ => rfl
  | succ fuel ih =>
    intro e he
    obtain ⟨hbound, hone, f, hf, hsaved⟩ := htrap.next h hst e he
    rw [walk, hlive e he, if_neg (by simp), if_pos hbound, if_pos hone, hsaved]
    exact ih f hf

include h hst hlive in
theorem Trapped.trail_length (htrap : l.Trapped slot live bound st) (fuel : Nat) :
    ∀ e ∈ st, (l.trail slot live bound fuel (some e)).length = fuel ∧
      l.trail slot live bound fuel (some e) ⊆ st := by
  induction fuel with
  | zero => exact fun _ _ => ⟨rfl, List.nil_subset _⟩
  | succ fuel ih =>
    intro e he
    obtain ⟨hbound, hone, f, hf, hsaved⟩ := htrap.next h hst e he
    obtain ⟨hlen, hsub⟩ := ih f hf
    rw [trail, hlive e he, if_neg (by simp), if_pos ⟨hbound, hone⟩, hsaved]
    exact ⟨congrArg (· + 1) hlen, List.cons_subset.mpr ⟨he, hsub⟩⟩

end Trapped

/-- With nothing live saved under the lowest entry a walk returns and passes entries in order. -/
theorem walk_returns {rest : List E} (hrest : ∀ x ∈ rest, live x = true)
    (hlinks : Links slot l.saved rest)
    (hbottom : ∀ b x, rest.getLast? = some b → 1 < slot b → bound < slot b →
      l.saved (slot b) = some x → live x = false)
    (htop : ∀ x, rest.head? = some x → cur = some x)
    (hnil : rest = [] → ∀ x, cur = some x → live x = false) :
    (∃ r, l.walk slot live bound (rest.length + 1) cur = some r) ∧
      ∀ fuel, l.trail slot live bound fuel cur <+: rest := by
  induction rest generalizing cur with
  | nil =>
    cases cur with
    | none => exact ⟨⟨none, rfl⟩, fun fuel => by cases fuel <;> exact List.nil_prefix⟩
    | some x =>
      have hdead := hnil rfl x rfl
      refine ⟨⟨none, walk_succ_dead hdead⟩, fun fuel => ?_⟩
      cases fuel with
      | zero => exact List.nil_prefix
      | succ fuel =>
        have hnone : l.trail slot live bound (fuel + 1) (some x) = [] := by
          rw [trail, hdead, if_pos (by simp)]
        exact hnone ▸ List.nil_prefix
  | cons e rest ih =>
    have hcur : cur = some e := htop e rfl
    subst hcur
    have hlive := hrest e List.mem_cons_self
    by_cases hgo : slot e > bound ∧ slot e > 1
    · obtain ⟨⟨r, hr⟩, htrail⟩ : (∃ r, l.walk slot live bound (rest.length + 1)
          (l.saved (slot e)) = some r) ∧
          ∀ fuel, l.trail slot live bound fuel (l.saved (slot e)) <+: rest := by
        refine ih (fun x hx => hrest x (List.mem_cons_of_mem _ hx)) hlinks.tail ?_ ?_ ?_
        · intro b x hb
          refine hbottom b x ?_
          cases rest with
          | nil => cases hb
          | cons f rest => rwa [List.getLast?_cons_cons]
        · intro x hx
          cases rest with
          | nil => cases hx
          | cons f rest => exact hlinks.1.trans hx
        · rintro rfl x hx
          exact hbottom e x rfl hgo.2 hgo.1 hx
      refine ⟨⟨r, ?_⟩, fun fuel => ?_⟩
      · rw [List.length_cons, walk, hlive, if_neg (by simp), if_pos hgo.1, if_pos hgo.2, hr]
      · cases fuel with
        | zero => exact List.nil_prefix
        | succ fuel =>
          rw [trail, hlive, if_neg (by simp), if_pos hgo]
          exact (List.cons_prefix_cons).mpr ⟨rfl, htrail fuel⟩
    · refine ⟨?_, fun fuel => ?_⟩
      · rw [walk, hlive, if_neg (by simp)]
        split
        · rw [if_neg (fun hone => hgo ⟨‹_›, hone⟩)]
          exact ⟨_, rfl⟩
        · exact ⟨_, rfl⟩
      · cases fuel with
        | zero => exact List.nil_prefix
        | succ fuel =>
          rw [trail, hlive, if_neg (by simp), if_neg hgo]
          exact (List.cons_prefix_cons).mpr ⟨rfl, List.nil_prefix⟩

/-- With the live entries those of the stack, a walk returns unless it is trapped. -/
theorem Tracks.walk_returns_iff (h : l.Tracks slot st) (bound : Int)
    (hst : ∀ x, l.Has x → live x = true → x ∈ st) (hlive : ∀ x ∈ st, live x = true) :
    ((∃ fuel r, l.walk slot live bound fuel l.head = some r) ↔
        ¬l.Trapped slot live bound st) ∧
      ((∀ fuel, (l.trail slot live bound fuel l.head).Pairwise fun e f => slot f < slot e) ↔
        ¬l.Trapped slot live bound st) := by
  by_cases htrap : l.Trapped slot live bound st
  · obtain ⟨e, he⟩ : ∃ e, st.head? = some e := by
      obtain ⟨b, -, hb, -⟩ := htrap
      cases st with
      | nil => cases hb
      | cons e st => exact ⟨e, rfl⟩
    have hmem : e ∈ st := List.mem_of_mem_head? he
    rw [h.top e he]
    refine ⟨iff_of_false ?_ (not_not.mpr htrap), iff_of_false ?_ (not_not.mpr htrap)⟩
    · rintro ⟨fuel, r, hr⟩
      rw [htrap.walk_stuck h hst hlive fuel e hmem] at hr
      cases hr
    · intro hdown
      obtain ⟨hlen, hsub⟩ := htrap.trail_length h hst hlive (st.length + 1) e hmem
      have hnodup : (l.trail slot live bound (st.length + 1) (some e)).Nodup :=
        (hdown (st.length + 1)).imp fun hlt heq => absurd hlt (by rw [heq]; exact Nat.lt_irrefl _)
      have := hnodup.subperm hsub
      have := this.length_le
      omega
  · obtain ⟨hret, htrail⟩ : (∃ r, l.walk slot live bound (st.length + 1) l.head = some r) ∧
        ∀ fuel, l.trail slot live bound fuel l.head <+: st := by
      refine walk_returns hlive h.links ?_ h.top ?_
      · intro b x hb hone hbound hsaved
        by_contra hx
        exact htrap ⟨b, x, hb, hone, hbound, hsaved, by simpa using hx⟩
      · rintro rfl x hx
        by_contra hx'
        exact List.not_mem_nil (hst x (.inl hx) (by simpa using hx'))
    refine ⟨iff_of_true ⟨_, hret⟩ htrap, iff_of_true (fun fuel => ?_) htrap⟩
    exact h.sorted.sublist (htrail fuel).sublist

end Walk
end Log
end UndoStack
