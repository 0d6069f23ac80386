import EjsBoundary.Lib.Bytes

/-!
# `EjsBoundary.Lib.StringMap`: ordered maps built by assignment

`std::map` keeps its entries in increasing key order and `m[k] = v` overwrites. The model
of it is `Std.ExtTreeMap`, whose equality is equality of the lookups. This module adds
what a parser that fills a map in a loop needs:

* `ofEntries l` assigns the pairs of `l` one after the other; `getElem?_ofEntries` reads
  a lookup in the result as "the last pair with that key".
* `lookup_reverse_toList`: the entries of a map, listed in key order, give back its
  lookups.
* `rekey f g m` sends every entry through `f` on the key and `g` on the value, in key
  order. Two keys can meet; then the later one wins. `rekey_getElem?_eq_some_iff` names
  the winner.
-/

set_option autoImplicit false

namespace EjsBoundary.Lib

open Std (ExtTreeMap TransOrd LawfulEqOrd)

variable {α β γ δ : Type}

/-! ### Lookups in a list of pairs -/

/-- In a list with pairwise different keys, a lookup finds a pair exactly when the pair
is in the list. -/
theorem lookup_eq_some_iff_mem [BEq α] [LawfulBEq α] {l : List (α × β)} {k : α} {v : β}
    (hd : l.Pairwise (fun x y => x.1 ≠ y.1)) : l.lookup k = some v ↔ (k, v) ∈ l := by
  induction l with
  | nil => simp
  | cons kv l ih =>
    obtain ⟨a, b⟩ := kv
    rw [List.pairwise_cons] at hd
    rw [List.lookup_cons, List.mem_cons, Prod.mk.injEq]
    by_cases hk : k = a
    · subst hk
      have hnot : (k, v) ∉ l := fun h => hd.1 _ h rfl
      simp [hnot, eq_comm]
    · rw [beq_false_of_ne hk]
      simp [hk, ih hd.2]

/-- A pair is found when every pair with its key has its value. -/
theorem lookup_eq_some_of_mem [BEq α] [LawfulBEq α] {l : List (α × β)} {k : α} {v : β}
    (hmem : (k, v) ∈ l) (h : ∀ kv ∈ l, kv.1 = k → kv.2 = v) : l.lookup k = some v := by
  induction l with
  | nil => cases hmem
  | cons kv l ih =>
    rw [List.lookup_cons]
    by_cases hk : k = kv.1
    · rw [hk, beq_self_eq_true, ← h kv List.mem_cons_self hk.symm]
    · rw [beq_false_of_ne hk]
      refine ih ?_ fun kv' hkv' => h kv' (List.mem_cons_of_mem kv hkv')
      exact (List.mem_cons.mp hmem).resolve_left fun heq => hk (congrArg Prod.fst heq)

/-- When the pairs with one key all have the same value, a lookup finds every pair. -/
theorem lookup_eq_some_iff_mem_of_agree [BEq α] [LawfulBEq α] {l : List (α × β)} {k : α} {v : β}
    (h : ∀ a ∈ l, ∀ b ∈ l, a.1 = b.1 → a.2 = b.2) : l.lookup k = some v ↔ (k, v) ∈ l := by
  constructor
  · intro hlookup
    obtain ⟨l₁, l₂, rfl, -⟩ := List.lookup_eq_some_iff.mp hlookup
    exact List.mem_append_right l₁ List.mem_cons_self
  · intro hmem
    exact lookup_eq_some_of_mem hmem fun kv hkv hk => h kv hkv (k, v) hmem hk

/-- Then the order of the pairs does not matter. -/
theorem lookup_eq_of_perm [BEq α] [LawfulBEq α] {l l' : List (α × β)} (hperm : l.Perm l')
    (h : ∀ a ∈ l, ∀ b ∈ l, a.1 = b.1 → a.2 = b.2) (k : α) : l.lookup k = l'.lookup k := by
  refine Option.ext fun v => ?_
  have h' : ∀ a ∈ l', ∀ b ∈ l', a.1 = b.1 → a.2 = b.2 := fun a ha b hb =>
    h a (hperm.mem_iff.mpr ha) b (hperm.mem_iff.mpr hb)
  rw [lookup_eq_some_iff_mem_of_agree h, lookup_eq_some_iff_mem_of_agree h', hperm.mem_iff]

/-- A lookup from the end of a mapped list: the last element whose image has the key. -/
theorem lookup_reverse_map_eq_some_iff [BEq γ] [LawfulBEq γ] (f : α → γ) (g : β → δ)
    (l : List (α × β)) (c : γ) (d : δ) :
    (l.map (Prod.map f g)).reverse.lookup c = some d ↔
      ∃ pre k v post, l = pre ++ (k, v) :: post ∧ f k = c ∧ g v = d ∧
        ∀ x ∈ post, f x.1 ≠ c := by
  induction l with
  | nil => simp
  | cons kv l ih =>
    obtain ⟨a, b⟩ := kv
    rw [List.map_cons, List.reverse_cons, List.lookup_append, Option.or_eq_some_iff, ih]
    constructor
    · rintro (⟨pre, k, v, post, rfl, hk, hv, hpost⟩ | ⟨hnone, hhead⟩)
      · exact ⟨(a, b) :: pre, k, v, post, rfl, hk, hv, hpost⟩
      · have hac : c = f a ∧ g b = d := by
          rw [Prod.map, List.lookup_cons, List.lookup_nil] at hhead
          by_cases hc : c = f a
          · subst hc
            simpa using hhead
          · rw [beq_false_of_ne hc] at hhead
            cases hhead
        refine ⟨[], a, b, l, rfl, hac.1.symm, hac.2, fun x hx heq => ?_⟩
        have := List.lookup_eq_none_iff.mp hnone (Prod.map f g x)
          (List.mem_reverse.mpr (List.mem_map_of_mem hx))
        simp [heq] at this
    · rintro ⟨pre, k, v, post, hl, hk, hv, hpost⟩
      cases pre with
      | nil =>
        rw [List.nil_append, List.cons.injEq, Prod.mk.injEq] at hl
        obtain ⟨⟨rfl, rfl⟩, rfl⟩ := hl
        refine Or.inr ⟨?_, ?_⟩
        · rw [List.lookup_eq_none_iff]
          intro p hp
          obtain ⟨x, hx, rfl⟩ := List.mem_map.mp (List.mem_reverse.mp hp)
          simpa using Ne.symm (hpost x hx)
        · simp [Prod.map, hk, hv]
      | cons p pre =>
        rw [List.cons_append, List.cons.injEq] at hl
        exact Or.inl ⟨pre, k, v, post, hl.2, hk, hv, hpost⟩

/-! ### Maps filled by assignment -/

variable [Ord α] [TransOrd α] [LawfulEqOrd α]
variable [Ord γ] [TransOrd γ] [LawfulEqOrd γ]

/-- The map after the assignments `m[k] = v`, one for each pair, in list order. -/
def ofEntries (l : List (α × β)) : ExtTreeMap α β :=
  l.foldl (fun m kv => m.insert kv.1 kv.2) ∅

/-- An insert leaves the other keys alone. -/
theorem getElem?_insert_of_ne {k a : α} (h : k ≠ a) (m : ExtTreeMap α β) (v : β) :
    (m.insert k v)[a]? = m[a]? := by
  simp [ExtTreeMap.getElem?_insert, h]

/-- What holds of every entry and of the new one holds of every entry after an insert. -/
theorem forall_getElem?_insert {P : α → β → Prop} {m : ExtTreeMap α β} {k : α} {v : β}
    (hm : ∀ a w, m[a]? = some w → P a w) (hk : P k v) :
    ∀ a w, (m.insert k v)[a]? = some w → P a w := by
  intro a w h
  by_cases hka : k = a
  · subst hka
    rw [ExtTreeMap.getElem?_insert_self, Option.some.injEq] at h
    exact h ▸ hk
  · rw [getElem?_insert_of_ne hka] at h
    exact hm a w h

/-- An insert that agrees with the entry already there keeps every entry. -/
theorem getElem?_insert_of_agree {m : ExtTreeMap α β} {k : α} {v : β}
    (hk : ∀ w, m[k]? = some w → v = w) :
    ∀ (a : α) (w : β), m[a]? = some w → (m.insert k v)[a]? = some w := by
  intro a w h
  by_cases hka : k = a
  · subst hka
    rw [ExtTreeMap.getElem?_insert_self, hk w h]
  · rwa [getElem?_insert_of_ne hka]

/-- A lookup after a list of assignments: the last pair with that key, else what the map held
before. -/
theorem getElem?_foldl_insert [BEq α] [LawfulBEq α] (l : List (α × β)) (m : ExtTreeMap α β)
    (k : α) :
    (l.foldl (fun m kv => m.insert kv.1 kv.2) m)[k]? = (l.reverse.lookup k).or m[k]? := by
  induction l generalizing m with
  | nil => simp
  | cons kv l ih =>
    rw [List.foldl_cons, ih, List.reverse_cons, List.lookup_append, Option.or_assoc,
      List.lookup_cons, List.lookup_nil]
    by_cases hk : kv.1 = k
    · subst hk
      simp
    · rw [getElem?_insert_of_ne hk, beq_false_of_ne (Ne.symm hk)]
      simp

/-- A lookup in a map that was filled from nothing reads the last pair with that key. -/
theorem getElem?_ofEntries [BEq α] [LawfulBEq α] (l : List (α × β)) (k : α) :
    (ofEntries l)[k]? = l.reverse.lookup k := by
  rw [ofEntries, getElem?_foldl_insert, ExtTreeMap.getElem?_empty, Option.or_none]

/-- Every entry of such a map was one of the assignments. -/
theorem mem_of_mem_toList_ofEntries [BEq α] [LawfulBEq α] {l : List (α × β)} {kv : α × β}
    (h : kv ∈ (ofEntries l).toList) : kv ∈ l := by
  have hlookup : l.reverse.lookup kv.1 = some kv.2 := by
    rw [← getElem?_ofEntries]
    exact ExtTreeMap.mem_toList_iff_getElem?_eq_some.mp h
  obtain ⟨l₁, l₂, hl, -⟩ := List.lookup_eq_some_iff.mp hlookup
  rw [← List.mem_reverse, hl]
  exact List.mem_append_right _ List.mem_cons_self

/-- The keys in the entry list of a map are pairwise different. -/
theorem pairwise_ne_toList (m : ExtTreeMap α β) :
    m.toList.Pairwise (fun x y => x.1 ≠ y.1) :=
  ExtTreeMap.ordered_keys_toList.imp fun {x y} hlt heq => by
    rw [heq, LawfulEqOrd.compare_eq_iff_eq.mpr rfl] at hlt
    cases hlt

/-- The entry list of a map, read from its end, gives the lookups of the map. -/
theorem lookup_reverse_toList [BEq α] [LawfulBEq α] (m : ExtTreeMap α β) (k : α) :
    m.toList.reverse.lookup k = m[k]? := by
  have hd : m.toList.reverse.Pairwise (fun x y => x.1 ≠ y.1) :=
    List.pairwise_reverse.mpr ((pairwise_ne_toList m).imp Ne.symm)
  refine Option.ext fun v => ?_
  rw [lookup_eq_some_iff_mem hd, List.mem_reverse,
    ExtTreeMap.mem_toList_iff_getElem?_eq_some]

/-- Assigning the entries of a map in key order rebuilds the map. -/
theorem ofEntries_toList [BEq α] [LawfulBEq α] (m : ExtTreeMap α β) : ofEntries m.toList = m :=
  ExtTreeMap.ext_getElem? fun k => by rw [getElem?_ofEntries, lookup_reverse_toList]

/-- Assigning entries with different keys, in any order, gives the entries in key order. -/
theorem toList_ofEntries_of_perm [BEq α] [LawfulBEq α] {l sorted : List (α × β)}
    (hsorted : sorted.Pairwise (fun x y => compare x.1 y.1 = .lt)) (hperm : l.Perm sorted) :
    (ofEntries l).toList = sorted := by
  have hne : sorted.Pairwise (fun x y => x.1 ≠ y.1) :=
    hsorted.imp fun {x y} hlt heq => by
      rw [heq, LawfulEqOrd.compare_eq_iff_eq.mpr rfl] at hlt
      cases hlt
  have hback : l.reverse.Perm sorted := (List.reverse_perm l).trans hperm
  have hlookups : l.reverse.Pairwise (fun x y => x.1 ≠ y.1) :=
    hne.perm hback.symm fun h => Ne.symm h
  have hmem : ∀ x, x ∈ (ofEntries l).toList ↔ x ∈ sorted := by
    intro x
    rw [← hback.mem_iff, ← lookup_eq_some_iff_mem hlookups, ← getElem?_ofEntries]
    exact ExtTreeMap.mem_toList_iff_getElem?_eq_some
  have hsame : (ofEntries l).toList.Perm sorted :=
    (List.perm_ext_iff_of_nodup ((pairwise_ne_toList _).imp fun h heq => h (congrArg Prod.fst heq))
      (hne.imp fun h heq => h (congrArg Prod.fst heq))).mpr hmem
  refine List.Perm.eq_of_pairwise (fun x y _ _ hxy hyx => ?_)
    (ExtTreeMap.ordered_keys_toList (t := ofEntries l)) hsorted hsame
  exact absurd (Std.TransCmp.lt_trans hxy hyx) (by simp)

/-! ### Sending the entries of a map through a function -/

/-- Every entry through `f` on its key and `g` on its value, assigned in key order. -/
def rekey (f : α → γ) (g : β → δ) (m : ExtTreeMap α β) : ExtTreeMap γ δ :=
  ofEntries (m.toList.map (Prod.map f g))

/-- The winner under a key of the image: the last entry of the map, in key order, that
`f` sends there. -/
theorem rekey_getElem?_eq_some_iff [BEq γ] [LawfulBEq γ] (f : α → γ) (g : β → δ)
    (m : ExtTreeMap α β) (c : γ) (d : δ) :
    (rekey f g m)[c]? = some d ↔
      ∃ k v, m[k]? = some v ∧ f k = c ∧ g v = d ∧
        ∀ k' v', m[k']? = some v' → compare k k' = .lt → f k' ≠ c := by
  rw [rekey, getElem?_ofEntries, lookup_reverse_map_eq_some_iff]
  have hsorted : m.toList.Pairwise (fun a b => compare a.1 b.1 = .lt) :=
    ExtTreeMap.ordered_keys_toList
  constructor
  · rintro ⟨pre, k, v, post, hl, hk, hv, hpost⟩
    have hmem : (k, v) ∈ m.toList := by rw [hl]; simp
    refine ⟨k, v, ExtTreeMap.mem_toList_iff_getElem?_eq_some.mp hmem, hk, hv, ?_⟩
    intro k' v' hv' hlt heq
    have hmem' := ExtTreeMap.mem_toList_iff_getElem?_eq_some.mpr hv'
    rw [hl, List.mem_append, List.mem_cons] at hmem'
    rw [hl, List.pairwise_append] at hsorted
    rcases hmem' with hpre | hself | hafter
    · -- An entry before `k` is smaller, so it is not above `k`.
      have hgt := hsorted.2.2 _ hpre (k, v) List.mem_cons_self
      exact absurd (Std.TransCmp.lt_trans hlt hgt) (by simp)
    · rw [Prod.mk.injEq] at hself
      rw [hself.1] at hlt
      simp at hlt
    · exact hpost _ hafter heq
  · rintro ⟨k, v, hget, hk, hv, hlast⟩
    have hmem := ExtTreeMap.mem_toList_iff_getElem?_eq_some.mpr hget
    obtain ⟨pre, post, hl⟩ := List.append_of_mem hmem
    refine ⟨pre, k, v, post, hl, hk, hv, fun x hx => ?_⟩
    have hxm : x ∈ m.toList := by rw [hl]; simp [hx]
    have hx' : m[x.1]? = some x.2 := ExtTreeMap.mem_toList_iff_getElem?_eq_some.mp hxm
    rw [hl, List.pairwise_append, List.pairwise_cons] at hsorted
    exact hlast x.1 x.2 hx' (hsorted.2.1.1 x hx)

/-- An assignment changes the image only under the image of its key. -/
theorem rekey_insert_getElem?_of_ne [BEq γ] [LawfulBEq γ] {f : α → γ} {g : β → δ} {key : α} {c : γ}
    (h : f key ≠ c) (m : ExtTreeMap α β) (value : β) :
    (rekey f g (m.insert key value))[c]? = (rekey f g m)[c]? := by
  -- An entry that reaches `c` is not the assigned one.
  have hkeep : ∀ k, f k = c → (m.insert key value)[k]? = m[k]? := by
    intro k hk
    refine getElem?_insert_of_ne ?_ m value
    rintro rfl
    exact h hk
  refine Option.ext fun d => ?_
  rw [rekey_getElem?_eq_some_iff, rekey_getElem?_eq_some_iff]
  constructor
  · rintro ⟨k, v, hget, hk, hv, hlast⟩
    refine ⟨k, v, hkeep k hk ▸ hget, hk, hv, fun k' v' hget' hlt heq => ?_⟩
    exact hlast k' v' (hkeep k' heq ▸ hget') hlt heq
  · rintro ⟨k, v, hget, hk, hv, hlast⟩
    refine ⟨k, v, (hkeep k hk).symm ▸ hget, hk, hv, fun k' v' hget' hlt heq => ?_⟩
    exact hlast k' v' ((hkeep k' heq).symm ▸ hget') hlt heq

/-- An assigned key that no key above it shares its image with decides what stands there. -/
theorem rekey_insert_getElem?_of_last [BEq γ] [LawfulBEq γ] {f : α → γ} {key : α}
    (h : ∀ k, f k = f key → compare key k ≠ .lt) (g : β → δ) (m : ExtTreeMap α β) (value : β) :
    (rekey f g (m.insert key value))[f key]? = some (g value) :=
  (rekey_getElem?_eq_some_iff f g _ _ _).mpr
    ⟨key, value, ExtTreeMap.getElem?_insert_self, rfl, rfl, fun k _ _ hlt heq => h k heq hlt⟩

/-- Maps that are fixed entry by entry are fixed as a whole. -/
theorem rekey_eq_self [BEq α] [LawfulBEq α] {f : α → α} {g : β → β} {m : ExtTreeMap α β}
    (h : ∀ k v, m[k]? = some v → f k = k ∧ g v = v) : rekey f g m = m := by
  have hmap : m.toList.map (Prod.map f g) = m.toList := by
    conv_rhs => rw [← List.map_id m.toList]
    refine List.map_congr_left ?_
    rintro ⟨k, v⟩ hkv
    obtain ⟨hk, hv⟩ := h k v (ExtTreeMap.mem_toList_iff_getElem?_eq_some.mp hkv)
    rw [Prod.map, hk, hv, id]
  rw [rekey, hmap, ofEntries_toList]

end EjsBoundary.Lib
