import CoMoNet.Post.Users

/-!
# Sorted maps

A `std::map` is a list sorted by key, and rebuilding it from its members in order gives
it back. So does copying what `lazy_bdecode` reads of a sorted entry (`assign_lazy`).
-/

namespace CoMoNet

/-! ## The order of the keys -/

theorem keyLt_irrefl (a : Bytes) : keyLt a a = false := by
  induction a with
  | nil => rfl
  | cons x a ih => simp [keyLt, ih]

theorem keyLt_asymm {a b : Bytes} (h : keyLt a b = true) : keyLt b a = false := by
  induction a, b using keyLt.induct with
  | case1 a => simp [keyLt] at h
  | case2 x b => rfl
  | case3 x a y b ih =>
    simp only [keyLt, Bool.or_eq_true, decide_eq_true_eq, Bool.and_eq_true, beq_iff_eq] at h
    simp only [keyLt, Bool.or_eq_false_iff, decide_eq_false_iff_not, Bool.and_eq_false_iff,
      beq_eq_false_iff_ne]
    rcases h with h | ⟨rfl, h⟩
    · exact ⟨fun h' => absurd (UInt8.lt_trans h h') (UInt8.lt_irrefl _),
        .inl fun h' => UInt8.lt_irrefl _ (h' ▸ h)⟩
    · exact ⟨UInt8.lt_irrefl _, .inr (ih h)⟩

theorem ne_of_keyLt {a b : Bytes} (h : keyLt a b = true) : a ≠ b := by
  rintro rfl
  rw [keyLt_irrefl] at h
  cases h

/-- The order of keys is transitive. -/
theorem keyLt_trans {a b c : Bytes} (hab : keyLt a b = true) (hbc : keyLt b c = true) :
    keyLt a c = true := by
  induction a, b using keyLt.induct generalizing c with
  | case1 a => simp [keyLt] at hab
  | case2 x b =>
    cases c with
    | nil => simp [keyLt] at hbc
    | cons z c => rfl
  | case3 x a y b ih =>
    cases c with
    | nil => simp [keyLt] at hbc
    | cons z c =>
      simp only [keyLt, Bool.or_eq_true, decide_eq_true_eq, Bool.and_eq_true,
        beq_iff_eq] at hab hbc ⊢
      rcases hab with hxy | ⟨rfl, hab⟩
      · rcases hbc with hyz | ⟨rfl, -⟩
        · exact .inl (UInt8.lt_trans hxy hyz)
        · exact .inl hxy
      · exact hbc.imp_right fun hbc => ⟨hbc.1, ih hab hbc.2⟩

theorem keyLt_total {a b : Bytes} (hne : a ≠ b) (h : keyLt a b = false) : keyLt b a = true := by
  induction a, b using keyLt.induct with
  | case1 a =>
    cases a with
    | nil => exact absurd rfl hne
    | cons x a => rfl
  | case2 x b => cases h
  | case3 x a y b ih =>
    simp only [keyLt, Bool.or_eq_false_iff, decide_eq_false_iff_not, Bool.and_eq_false_iff,
      beq_eq_false_iff_ne] at h
    simp only [keyLt, Bool.or_eq_true, decide_eq_true_eq, Bool.and_eq_true, beq_iff_eq]
    rcases eq_or_ne y x with rfl | hyx
    · exact .inr ⟨rfl, ih (fun hab => hne (hab ▸ rfl)) (h.2.resolve_left fun hyy => hyy rfl)⟩
    · exact .inl (UInt8.lt_of_le_of_ne (UInt8.not_lt.mp h.1) hyx)

/-! ## Maps -/

/-- What a `std::map` needs of the order of its keys. -/
structure SortsKeys {κ : Type} (lt : κ → κ → Bool) : Prop where
  irrefl : ∀ a, lt a a = false
  trans : ∀ {a b c}, lt a b = true → lt b c = true → lt a c = true
  total : ∀ {a b}, a ≠ b → lt a b = false → lt b a = true

theorem sortsKeys_keyLt : SortsKeys keyLt := ⟨keyLt_irrefl, keyLt_trans, keyLt_total⟩

theorem sortsKeys_lt {κ : Type} [LinearOrder κ] : SortsKeys fun a b : κ => decide (a < b) where
  irrefl a := by simp
  trans h h' := by
    rw [decide_eq_true_iff] at *
    exact h.trans h'
  total hne h := by
    rw [decide_eq_false_iff_not] at h
    exact decide_eq_true (lt_of_le_of_ne (not_lt.mp h) hne.symm)

section Sorts

variable {κ α : Type} [DecidableEq κ] {lt : κ → κ → Bool} {key k : κ} {value : α}
  {m : List (κ × α)} {x : κ × α}

theorem mem_mapSet (h : x ∈ mapSet lt key value m) : x = (key, value) ∨ x ∈ m := by
  induction m with
  | nil => exact .inl (by simpa [mapSet] using h)
  | cons y m ih =>
    rw [mapSet] at h
    split at h
    · rcases List.mem_cons.mp h with h | h
      · exact .inl h
      · exact .inr (List.mem_cons_of_mem y h)
    split at h
    · exact List.mem_cons.mp h
    · rcases List.mem_cons.mp h with h | h
      · exact .inr (h ▸ List.mem_cons_self)
      · exact (ih h).imp_right (List.mem_cons_of_mem y)

/-- The keys after an assignment. -/
theorem mem_keys_mapSet (value : α) (k : κ) :
    k ∈ (mapSet lt key value m).map Prod.fst ↔ k = key ∨ k ∈ m.map Prod.fst := by
  induction m with
  | nil => simp [mapSet]
  | cons x m ih =>
    rw [mapSet]
    split
    · next hx => simp [hx]
    split
    · simp
    · simp only [List.map_cons, List.mem_cons, ih]
      tauto

/-- An assignment keeps the order. -/
theorem SortsKeys.mapSet (hlt : SortsKeys lt) (h : m.Pairwise fun x y => lt x.1 y.1 = true)
    (key : κ) (value : α) :
    (mapSet lt key value m).Pairwise fun x y => lt x.1 y.1 = true := by
  induction m with
  | nil => exact List.pairwise_singleton _ _
  | cons x m ih =>
    obtain ⟨hx, hm⟩ := List.pairwise_cons.mp h
    rw [CoMoNet.mapSet]
    split
    · next heq => exact List.pairwise_cons.mpr ⟨fun y hy => heq ▸ hx y hy, hm⟩
    split
    · next hbelow =>
        refine List.pairwise_cons.mpr ⟨?_, h⟩
        intro y hy
        rcases List.mem_cons.mp hy with rfl | hy
        · exact hbelow
        · exact hlt.trans hbelow (hx y hy)
    · next hne hbelow =>
        refine List.pairwise_cons.mpr ⟨?_, ih hm⟩
        intro y hy
        rcases mem_mapSet hy with rfl | hy
        · exact hlt.total (Ne.symm hne) (Bool.eq_false_iff.mpr hbelow)
        · exact hx y hy

omit [DecidableEq κ] in
theorem SortsKeys.lookup_of_mem [BEq κ] [LawfulBEq κ] (hlt : SortsKeys lt)
    (h : m.Pairwise fun x y => lt x.1 y.1 = true) (hmem : (k, value) ∈ m) :
    m.lookup k = some value := by
  induction m with
  | nil => cases hmem
  | cons x m ih =>
    obtain ⟨hx, hm⟩ := List.pairwise_cons.mp h
    rcases List.mem_cons.mp hmem with rfl | hmem
    · simp
    · have hne : k ≠ x.1 := by
        rintro rfl
        have hself := hx _ hmem
        rw [hlt.irrefl] at hself
        cases hself
      rw [List.lookup_cons, beq_false_of_ne hne]
      exact ih hm hmem

end Sorts

section Map

variable {α γ : Type} {key : Bytes} {m : List (Bytes × α)}

/-- Keys go up. -/
def KeysSorted (m : List (Bytes × α)) : Prop :=
  m.Pairwise fun x y => keyLt x.1 y.1 = true

instance (m : List (Bytes × α)) : Decidable (KeysSorted m) :=
  inferInstanceAs (Decidable (m.Pairwise fun x y => keyLt x.1 y.1 = true))

theorem KeysSorted.of_keys {m' : List (Bytes × γ)} (h : KeysSorted m)
    (hkeys : m.map Prod.fst = m'.map Prod.fst) : KeysSorted m' := by
  have hpair : (m.map Prod.fst).Pairwise fun a b => keyLt a b = true := List.pairwise_map.mpr h
  rw [hkeys] at hpair
  exact List.pairwise_map.mp hpair

section Lookup

variable {κ : Type} [BEq κ] [LawfulBEq κ] [DecidableEq κ]

omit [DecidableEq κ] in
theorem mem_of_lookup {m : List (κ × α)} {k : κ} {value : α} (h : m.lookup k = some value) :
    (k, value) ∈ m := by
  obtain ⟨l₁, l₂, rfl, -⟩ := List.lookup_eq_some_iff.mp h
  simp

/-- What is found after an assignment. -/
theorem lookup_mapSet (lt : κ → κ → Bool) (m : List (κ × α)) (key k : κ) (value : α) :
    (mapSet lt key value m).lookup k = if k = key then some value else m.lookup k := by
  induction m with
  | nil => rw [mapSet, lookup_cons_ite]
  | cons x m ih =>
    rw [mapSet, lookup_cons_ite x.1]
    split
    · next hx =>
        rw [lookup_cons_ite, hx]
        grind
    split
    · rw [lookup_cons_ite, lookup_cons_ite]
    · rw [lookup_cons_ite, ih]
      grind

end Lookup

/-- The key is above all others. -/
def KeysBelow (m : List (Bytes × α)) (key : Bytes) : Prop := ∀ x ∈ m, keyLt x.1 key = true

/-- A key above all others goes to the end. -/
theorem mapSet_above (h : KeysBelow m key) (value : α) :
    mapSet keyLt key value m = m ++ [(key, value)] := by
  induction m with
  | nil => rfl
  | cons x m ih =>
    have hx := h x List.mem_cons_self
    have hm : KeysBelow m key := fun y hy => h y (List.mem_cons_of_mem _ hy)
    rw [mapSet, if_neg (ne_of_keyLt hx), keyLt_asymm hx, ih hm]
    rfl

theorem mapSet_last (h : KeysBelow m key) (old value : α) :
    mapSet keyLt key value (m ++ [(key, old)]) = m ++ [(key, value)] := by
  induction m with
  | nil => simp [mapSet]
  | cons x m ih =>
    have hx := h x List.mem_cons_self
    have hm : KeysBelow m key := fun y hy => h y (List.mem_cons_of_mem _ hy)
    rw [List.cons_append, mapSet, if_neg (ne_of_keyLt hx), keyLt_asymm hx, ih hm]
    rfl

theorem lookup_of_keysBelow (h : KeysBelow m key) : m.lookup key = none := by
  rw [List.lookup_eq_none_iff]
  intro x hx
  exact bne_iff_ne.mpr (ne_of_keyLt (h x hx)).symm

theorem mapSet_ne_nil (value : α) : mapSet keyLt key value m ≠ [] := by
  cases m with
  | nil => simp [mapSet]
  | cons x m =>
    rw [mapSet]
    split
    · simp
    split <;> simp

/-- A map filled from a sorted list: each member goes behind the others. -/
theorem foldl_mapSet {p : Bytes × α → Bool} {f : Bytes × α → γ} {acc : List (Bytes × γ)}
    (hsorted : KeysSorted m) (hbelow : ∀ x ∈ m, KeysBelow acc x.1) :
    m.foldl (fun acc x => if p x then mapSet keyLt x.1 (f x) acc else acc) acc =
      acc ++ (m.filter p).map fun x => (x.1, f x) := by
  induction m generalizing acc with
  | nil => simp
  | cons x m ih =>
    obtain ⟨hfirst, hrest⟩ := List.pairwise_cons.mp hsorted
    rw [List.foldl_cons]
    by_cases hp : p x = true
    · have hbelow' : ∀ y ∈ m, KeysBelow (acc ++ [(x.1, f x)]) y.1 := by
        intro y hy z hz
        rcases List.mem_append.mp hz with hz | hz
        · exact hbelow y (List.mem_cons_of_mem _ hy) z hz
        · rw [List.mem_singleton.mp hz]
          exact hfirst y hy
      rw [if_pos hp, mapSet_above (hbelow x List.mem_cons_self), ih hrest hbelow',
        List.filter_cons_of_pos hp, List.append_assoc]
      rfl
    · rw [if_neg hp, ih hrest fun y hy => hbelow y (List.mem_cons_of_mem _ hy),
        List.filter_cons_of_neg hp]

theorem Entry.insert_eq (key : Bytes) (value : Entry) (m : List (Bytes × Entry)) :
    Entry.insert key value m = mapSet keyLt key value m := by
  induction m with
  | nil => rfl
  | cons x m ih => simp [Entry.insert, mapSet, ih]

end Map

/-! ## Entries -/

namespace Entry

mutual

/-- The dictionaries are sorted. -/
def sorted : Entry → Bool
  | .int _ => true
  | .str _ => true
  | .list values => sortedList values
  | .dict members => decide (KeysSorted members) && sortedDict members

/-- `sorted` of a list. -/
def sortedList : List Entry → Bool
  | [] => true
  | value :: values => sorted value && sortedList values

/-- `sorted` of the members. -/
def sortedDict : List (Bytes × Entry) → Bool
  | [] => true
  | (_, value) :: members => sorted value && sortedDict members

end

mutual

/-- An entry is copied from what is read of its encoding. -/
theorem assign_lazy (e : Entry) (h : e.sorted = true) : assign none (lazy e) = some e := by
  cases e with
  | int n => rfl
  | str s => rfl
  | list values =>
    rw [sorted] at h
    rw [lazy, assign, assignList_lazy values h [], List.nil_append, Option.map_some]
  | dict members =>
    rw [sorted, Bool.and_eq_true, decide_eq_true_eq] at h
    rw [lazy, assign, assignDict_lazy members h.2 [] h.1, List.nil_append, Option.map_some]

theorem assignList_lazy (values : List Entry) (h : sortedList values = true) (old : List Entry) :
    assignList old (lazyList values) = some (old ++ values) := by
  cases values with
  | nil => rw [lazyList, assignList, List.append_nil]
  | cons value values =>
    rw [sortedList, Bool.and_eq_true] at h
    rw [lazyList, assignList, assign_lazy value h.1, Option.bind_some,
      assignList_lazy values h.2, List.append_assoc]
    rfl

theorem assignDict_lazy (members : List (Bytes × Entry)) (h : sortedDict members = true)
    (old : List (Bytes × Entry)) (hkeys : KeysSorted (old ++ members)) :
    assignDict old (lazyDict members) = some (old ++ members) := by
  cases members with
  | nil => rw [lazyDict, assignDict, List.append_nil]
  | cons m members =>
    obtain ⟨key, value⟩ := m
    rw [sortedDict, Bool.and_eq_true] at h
    have hbelow : KeysBelow old key := fun x hx =>
      (List.pairwise_append.mp hkeys).2.2 x hx (key, value) List.mem_cons_self
    have hkeys' : KeysSorted ((old ++ [(key, value)]) ++ members) := by
      rwa [List.append_assoc]
    rw [lazyDict, assignDict, lookup_of_keysBelow hbelow, assign_lazy value h.1,
      Option.bind_some, insert_eq, mapSet_above hbelow, assignDict_lazy members h.2 _ hkeys',
      List.append_assoc]
    rfl

end

end Entry
end CoMoNet
