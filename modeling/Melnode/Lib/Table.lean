import Mathlib

/-!
# Tables with a primary key

A table is an extensional tree map from primary keys to rows. `insertNew` is an `insert` statement:
it fails on a key that is there. `insertAllNew` is a list of them in one transaction. `overlay`
writes selected rows of a table over a map, and `keep` deletes the rows that fail a test.
-/

namespace Melnode.Lib

universe u v w

variable {κ : Type u} [Ord κ] [Std.TransOrd κ] [Std.LawfulEqOrd κ] {ρ : Type v} {β : Type w}

/-- A table: rows of type `ρ` by primary key. -/
abbrev Table (κ : Type u) [Ord κ] (ρ : Type v) := Std.ExtTreeMap κ ρ

namespace Table

/-- `insert into t values (k, v)`: fails when the primary key exists. -/
def insertNew (t : Table κ ρ) (k : κ) (v : ρ) : Option (Table κ ρ) :=
  if k ∈ t then none else some (t.insert k v)

/-- The rows satisfying `p`. -/
def keep (t : Table κ ρ) (p : κ → ρ → Bool) : Table κ ρ := t.filter p

/-- Inserts a row if there is one. -/
def insertOption (t : Table κ ρ) : Option (κ × ρ) → Option (Table κ ρ)
  | some kv => insertNew t kv.1 kv.2
  | none => some t

/-- Inserts several rows; one conflict fails them all. -/
def insertAllNew (t : Table κ ρ) (rows : List (κ × ρ)) : Option (Table κ ρ) :=
  rows.foldlM (fun t kv => insertNew t kv.1 kv.2) t

/-- Writes `f row` over `m` for every row of `t` that satisfies `p`. -/
def overlay (t : Table κ ρ) (p : ρ → Bool) (f : ρ → β) (m : Table κ β) : Table κ β :=
  (t.toList.filter fun kv => p kv.2).foldl (fun acc kv => acc.insert kv.1 (f kv.2)) m

/-- `insert .. on conflict do nothing`, for every item of `m`. -/
def insertMissing (t : Table κ ρ) (m : Table κ β) (f : β → ρ) : Table κ ρ :=
  m.toList.foldl (fun acc kv => acc.insertIfNew kv.1 (f kv.2)) t

omit [Std.LawfulEqOrd κ] in
theorem getElem?_empty_ne {k : κ} {v : ρ} : (∅ : Table κ ρ)[k]? ≠ some v := by
  rw [Std.ExtTreeMap.getElem?_empty]
  exact (Option.some_ne_none v).symm

/-- What is found after an insert is what was inserted, or was there before. -/
theorem of_getElem?_insert {t : Table κ ρ} {k j : κ} {v u : ρ} (h : (t.insert k v)[j]? = some u) :
    k = j ∧ v = u ∨ t[j]? = some u := by
  rw [Std.ExtTreeMap.getElem?_insert] at h
  split at h
  · next heq => exact Or.inl ⟨Std.LawfulEqCmp.eq_of_compare heq, Option.some.inj h⟩
  · exact Or.inr h

omit [Std.LawfulEqOrd κ] in
theorem of_getElem?_erase {t : Table κ ρ} {k j : κ} {u : ρ} (h : (t.erase k)[j]? = some u) :
    t[j]? = some u := by
  rw [Std.ExtTreeMap.getElem?_erase] at h
  split at h
  · cases h
  · exact h

/-! ## Inserting -/

omit [Std.LawfulEqOrd κ] in
theorem insertNew_eq_some {t t' : Table κ ρ} {k : κ} {v : ρ} :
    insertNew t k v = some t' ↔ t[k]? = none ∧ t' = t.insert k v := by
  unfold insertNew
  split
  · next h => simp [h]
  · next h => simp [Std.ExtTreeMap.getElem?_eq_none h, eq_comm]

theorem getElem?_of_insertNew [DecidableEq κ] {t t' : Table κ ρ} {k : κ} {v : ρ} (h : insertNew t k v = some t')
    (j : κ) : t'[j]? = if k = j then some v else t[j]? := by
  obtain ⟨-, rfl⟩ := insertNew_eq_some.mp h
  simp [Std.ExtTreeMap.getElem?_insert]

/-- A table after a successful batch: the old rows and the new ones, under keys that were free. -/
theorem insertAllNew_spec [DecidableEq κ] : ∀ {rows : List (κ × ρ)} {t t' : Table κ ρ},
    insertAllNew t rows = some t' →
      (rows.map Prod.fst).Nodup ∧ (∀ kv ∈ rows, t[kv.1]? = none) ∧
        ∀ k v, t'[k]? = some v ↔ t[k]? = some v ∨ (k, v) ∈ rows
  | [], t, t', h => by
    cases h
    simp
  | (k, v) :: rows, t, t', h => by
    unfold insertAllNew at h
    rw [List.foldlM_cons] at h
    obtain ⟨t₁, h₁, h⟩ := Option.bind_eq_some_iff.mp h
    obtain ⟨hnodup, hfree, hmem⟩ := insertAllNew_spec h
    have hk := (insertNew_eq_some.mp h₁).1
    have hget := getElem?_of_insertNew h₁
    have hnotin : ∀ kv ∈ rows, kv.1 ≠ k := by
      intro kv hkv heq
      have := hfree kv hkv
      rw [hget, if_pos heq.symm] at this
      cases this
    refine ⟨?_, ?_, ?_⟩
    · refine List.nodup_cons.mpr ⟨?_, hnodup⟩
      intro hin
      obtain ⟨kv, hkv, heq⟩ := List.mem_map.mp hin
      exact hnotin kv hkv heq
    · intro kv hkv
      rcases List.mem_cons.mp hkv with rfl | hkv
      · exact hk
      · have := hfree kv hkv
        rwa [hget, if_neg (hnotin kv hkv).symm] at this
    · intro j u
      rw [hmem, hget]
      by_cases hj : k = j
      · subst hj
        simp only [if_true, Option.some.injEq, hk, reduceCtorEq, false_or, List.mem_cons,
          Prod.mk.injEq, true_and]
        constructor
        · rintro (rfl | hin)
          · exact Or.inl rfl
          · exact Or.inr hin
        · rintro (rfl | hin)
          · exact Or.inl rfl
          · exact Or.inr hin
      · simp [hj, Ne.symm hj]

/-- A batch with pairwise different, free keys goes through. -/
theorem insertAllNew_isSome [DecidableEq κ] : ∀ {rows : List (κ × ρ)} {t : Table κ ρ},
    (rows.map Prod.fst).Nodup → (∀ kv ∈ rows, t[kv.1]? = none) →
      ∃ t', insertAllNew t rows = some t'
  | [], t, _, _ => ⟨t, rfl⟩
  | (k, v) :: rows, t, hnodup, hfree => by
    obtain ⟨hk, hnodup⟩ := List.nodup_cons.mp hnodup
    have h₁ : insertNew t k v = some (t.insert k v) :=
      insertNew_eq_some.mpr ⟨hfree _ List.mem_cons_self, rfl⟩
    have hfree' : ∀ kv ∈ rows, (t.insert k v)[kv.1]? = none := by
      intro kv hkv
      have hne : k ≠ kv.1 := by
        rintro rfl
        exact hk (List.mem_map.mpr ⟨kv, hkv, rfl⟩)
      rw [getElem?_of_insertNew h₁, if_neg hne]
      exact hfree kv (List.mem_cons_of_mem _ hkv)
    obtain ⟨t', ht'⟩ := insertAllNew_isSome hnodup hfree'
    refine ⟨t', ?_⟩
    unfold insertAllNew
    rw [List.foldlM_cons, h₁]
    exact ht'

omit [Std.LawfulEqOrd κ] in
/-- A loop that inserts at most one row per item is a batch. -/
theorem foldlM_insert_eq {α : Type w} (row : α → Option (κ × ρ)) (items : List α) (t : Table κ ρ) :
    items.foldlM (fun t x => insertOption t (row x)) t =
      insertAllNew t (items.filterMap row) := by
  induction items generalizing t with
  | nil => rfl
  | cons x items ih =>
    rw [List.foldlM_cons]
    cases hx : row x with
    | none =>
      rw [List.filterMap_cons_none hx]
      exact ih t
    | some kv =>
      rw [List.filterMap_cons_some hx, insertAllNew, List.foldlM_cons]
      unfold insertOption
      dsimp only
      cases insertNew t kv.1 kv.2 with
      | none => rfl
      | some t' => exact ih t'

section Keys

variable {α : Type w} {f : α → Option (κ × ρ)} {l : List α}

omit [Std.TransOrd κ] [Std.LawfulEqOrd κ] [Ord κ] in
/-- In a batch with pairwise different keys, a key has one origin. -/
theorem eq_of_key_eq (hnodup : ((l.filterMap f).map Prod.fst).Nodup) {x y : α} (hx : x ∈ l)
    (hy : y ∈ l) {k : κ} {a b : ρ} (hfx : f x = some (k, a)) (hfy : f y = some (k, b)) : x = y := by
  have hkey : ∀ {z : α} {l' : List α} {c : ρ}, z ∈ l' → f z = some (k, c) →
      k ∈ (l'.filterMap f).map Prod.fst := by
    intro z l' c hz hfz
    exact List.mem_map.mpr ⟨(k, c), List.mem_filterMap.mpr ⟨z, hz, hfz⟩, rfl⟩
  induction l with
  | nil => cases hx
  | cons z l ih =>
    rcases List.mem_cons.mp hx with rfl | hx'
    · rcases List.mem_cons.mp hy with rfl | hy'
      · rfl
      · rw [List.filterMap_cons_some hfx, List.map_cons, List.nodup_cons] at hnodup
        exact absurd (hkey hy' hfy) hnodup.1
    · rcases List.mem_cons.mp hy with rfl | hy'
      · rw [List.filterMap_cons_some hfy, List.map_cons, List.nodup_cons] at hnodup
        exact absurd (hkey hx' hfx) hnodup.1
      · refine ih ?_ hx' hy'
        cases hz : f z with
        | none => rwa [List.filterMap_cons_none hz] at hnodup
        | some kv =>
          rw [List.filterMap_cons_some hz, List.map_cons, List.nodup_cons] at hnodup
          exact hnodup.2

omit [Std.TransOrd κ] [Std.LawfulEqOrd κ] [Ord κ] in
/-- A batch that takes fewer items under the same keys has a sublist of the keys. -/
theorem keys_sublist {g : α → Option (κ × β)}
    (h : ∀ x k b, g x = some (k, b) → ∃ a, f x = some (k, a)) (l : List α) :
    ((l.filterMap g).map Prod.fst).Sublist ((l.filterMap f).map Prod.fst) := by
  induction l with
  | nil => exact List.Sublist.refl _
  | cons z l ih =>
    cases hg : g z with
    | none =>
      rw [List.filterMap_cons_none hg]
      cases hf : f z with
      | none => rwa [List.filterMap_cons_none hf]
      | some kv =>
        rw [List.filterMap_cons_some hf, List.map_cons]
        exact ih.cons kv.1
    | some kv =>
      obtain ⟨a, hf⟩ := h z kv.1 kv.2 hg
      rw [List.filterMap_cons_some hg, List.filterMap_cons_some hf, List.map_cons, List.map_cons]
      exact ih.cons_cons kv.1

end Keys

/-! ## Selecting -/

theorem getElem?_keep (t : Table κ ρ) (p : κ → ρ → Bool) (k : κ) :
    (t.keep p)[k]? = t[k]?.filter (p k) := by
  unfold keep
  rw [Std.ExtTreeMap.getElem?_filter]
  simp

/-- A test on the key alone. -/
theorem getElem?_keep_key (t : Table κ ρ) (p : κ → Bool) (k : κ) :
    (t.keep fun k _ => p k)[k]? = if p k then t[k]? else none := by
  rw [getElem?_keep]
  by_cases hp : p k = true
  · rw [hp, if_pos rfl]
    cases t[k]? <;> rfl
  · simp [hp]

/-- Writing the rows of a list with pairwise different keys over a map. -/
theorem getElem?_foldl_insert (f : ρ → β) : ∀ {l : List (κ × ρ)} {m : Table κ β},
    (l.map Prod.fst).Nodup → ∀ k,
      (∀ v, (k, v) ∈ l →
        (l.foldl (fun acc kv => acc.insert kv.1 (f kv.2)) m : Table κ β)[k]? = some (f v)) ∧
      (k ∉ l.map Prod.fst →
        (l.foldl (fun acc kv => acc.insert kv.1 (f kv.2)) m : Table κ β)[k]? = m[k]?)
  | [], m, _, k => by simp
  | (j, u) :: l, m, hnodup, k => by
    obtain ⟨hj, hnodup⟩ := List.nodup_cons.mp hnodup
    obtain ⟨hin, hout⟩ := getElem?_foldl_insert f (m := m.insert j (f u)) hnodup k
    rw [List.foldl_cons]
    refine ⟨?_, ?_⟩
    · intro v hv
      rcases List.mem_cons.mp hv with heq | hv
      · cases heq
        rw [hout hj]
        simp
      · exact hin v hv
    · intro hk
      rw [List.map_cons, List.mem_cons, not_or] at hk
      rw [hout hk.2, Std.ExtTreeMap.getElem?_insert]
      simp [Ne.symm hk.1]

omit [Std.LawfulEqOrd κ] in
theorem nodup_keys_toList (t : Table κ ρ) : (t.toList.map Prod.fst).Nodup := by
  rw [Std.ExtTreeMap.map_fst_toList_eq_keys]
  exact Std.ExtTreeMap.nodup_keys

/-- A table made of rows with pairwise different keys holds these. -/
theorem toList_foldl_insert [DecidableEq κ] {l : List (κ × β)} (hnodup : (l.map Prod.fst).Nodup) :
    (l.foldl (fun acc kv => acc.insert kv.1 kv.2) (∅ : Table κ β)).toList.Perm l := by
  have hrows : (l.foldl (fun acc kv => acc.insert kv.1 kv.2) (∅ : Table κ β)).toList.Nodup :=
    .of_map Prod.fst (nodup_keys_toList _)
  refine (List.perm_ext_iff_of_nodup hrows (.of_map Prod.fst hnodup)).mpr ?_
  rintro ⟨k, v⟩
  obtain ⟨hin, hout⟩ := getElem?_foldl_insert id (m := (∅ : Table κ β)) hnodup k
  rw [Std.ExtTreeMap.mem_toList_iff_getElem?_eq_some]
  constructor
  · intro hv
    by_cases hk : k ∈ l.map Prod.fst
    · obtain ⟨⟨k', v'⟩, hmem, rfl⟩ := List.mem_map.mp hk
      cases (hin v' hmem).symm.trans hv
      exact hmem
    · exact absurd ((hout hk).symm.trans hv) getElem?_empty_ne
  · exact hin v

/-- A table has no more rows than there are keys for. -/
theorem size_le_card [DecidableEq κ] {t : Table κ ρ} {s : Finset κ} (h : ∀ k ∈ t, k ∈ s) :
    t.size ≤ s.card := by
  have hnodup : t.keys.Nodup := Std.ExtTreeMap.nodup_keys
  rw [← Std.ExtTreeMap.length_keys, ← List.toFinset_card_of_nodup hnodup]
  apply Finset.card_le_card
  intro k hk
  exact h k (Std.ExtTreeMap.mem_keys.mp (List.mem_toFinset.mp hk))

/-- A table with one row. -/
theorem toList_insert_empty (k : κ) (v : ρ) : ((∅ : Table κ ρ).insert k v).toList = [(k, v)] := by
  have hlength : ((∅ : Table κ ρ).insert k v).toList.length = 1 := by
    rw [Std.ExtTreeMap.length_toList, Std.ExtTreeMap.size_insert]
    simp
  obtain ⟨kv, hkv⟩ := List.length_eq_one_iff.mp hlength
  have hmem : (k, v) ∈ ((∅ : Table κ ρ).insert k v).toList := by
    rw [Std.ExtTreeMap.mem_toList_iff_getElem?_eq_some]
    simp
  rw [hkv, List.mem_singleton] at hmem
  rw [hkv, hmem]

/-- A selected row wins over the map; elsewhere the map shows through. -/
theorem getElem?_overlay (t : Table κ ρ) (p : ρ → Bool) (f : ρ → β) (m : Table κ β) (k : κ) :
    (overlay t p f m)[k]? = ((t[k]?.filter p).map f).or m[k]? := by
  have hnodup : ((t.toList.filter fun kv => p kv.2).map Prod.fst).Nodup :=
    (nodup_keys_toList t).sublist (List.filter_sublist.map Prod.fst)
  obtain ⟨hin, hout⟩ := getElem?_foldl_insert f (m := m) hnodup k
  unfold overlay
  by_cases hsel : ∃ v, t[k]? = some v ∧ p v = true
  · obtain ⟨v, hv, hp⟩ := hsel
    have hmem : (k, v) ∈ t.toList := Std.ExtTreeMap.mem_toList_iff_getElem?_eq_some.mpr hv
    rw [hin v (List.mem_filter.mpr ⟨hmem, hp⟩), hv]
    simp only [Option.filter_some, hp, if_true, Option.map_some, Option.some_or]
  · have hnone : t[k]?.filter p = none := by
      rw [Option.filter_eq_none_iff]
      intro v hv hp
      exact hsel ⟨v, hv, hp⟩
    rw [hout, hnone]
    · rfl
    · intro hk
      obtain ⟨⟨k', v⟩, hkv, rfl⟩ := List.mem_map.mp hk
      obtain ⟨hmem, hp⟩ := List.mem_filter.mp hkv
      exact hsel ⟨v, Std.ExtTreeMap.mem_toList_iff_getElem?_eq_some.mp hmem, hp⟩

theorem getElem?_foldl_insertIfNew [DecidableEq κ] (f : β → ρ) (k : κ) :
    ∀ {l : List (κ × β)} {t : Table κ ρ},
      (l.foldl (fun acc kv => acc.insertIfNew kv.1 (f kv.2)) t : Table κ ρ)[k]? =
        t[k]?.or ((l.find? fun kv => decide (k = kv.1)).map fun kv => f kv.2)
  | [], t => by simp
  | (j, u) :: l, t => by
    rw [List.foldl_cons, getElem?_foldl_insertIfNew f k, Std.ExtTreeMap.getElem?_insertIfNew,
      List.find?_cons]
    by_cases hj : k = j
    · subst hj
      by_cases ht : k ∈ t
      · simp [ht]
      · simp [ht]
    · simp [hj, Ne.symm hj]

/-- A row that is there stays; elsewhere the item is inserted. -/
theorem getElem?_insertMissing [DecidableEq κ] (t : Table κ ρ) (m : Table κ β) (f : β → ρ)
    (k : κ) : (insertMissing t m f)[k]? = t[k]?.or (m[k]?.map f) := by
  unfold insertMissing
  rw [getElem?_foldl_insertIfNew]
  congr 1
  cases hm : m[k]? with
  | none =>
    have hfind : m.toList.find? (fun kv => decide (k = kv.1)) = none := by
      rw [List.find?_eq_none]
      rintro ⟨j, v⟩ hkv hj
      obtain rfl : k = j := of_decide_eq_true hj
      rw [Std.ExtTreeMap.mem_toList_iff_getElem?_eq_some, hm] at hkv
      cases hkv
    rw [hfind]
    rfl
  | some v =>
    have hmem : (k, v) ∈ m.toList := Std.ExtTreeMap.mem_toList_iff_getElem?_eq_some.mpr hm
    cases hfind : m.toList.find? (fun kv => decide (k = kv.1)) with
    | none =>
      have hne := List.find?_eq_none.mp hfind _ hmem
      simp at hne
    | some kv =>
      obtain ⟨j, u⟩ := kv
      have hkj := List.find?_some hfind
      simp only [decide_eq_true_eq] at hkj
      subst hkj
      have hu := Std.ExtTreeMap.mem_toList_iff_getElem?_eq_some.mp (List.mem_of_find?_eq_some hfind)
      rw [hm] at hu
      cases hu
      rfl

end Table

end Melnode.Lib
