import Mathlib.Data.Finmap

/-!
# Finite maps

A key-value container seen from outside: `get`, `set` and `erase` on a finite
partial function, with extensional equality.
-/

namespace KeyValue

variable {K V : Type} [DecidableEq K]

/-- A finite map from `K` to `V`. -/
def Map (K V : Type) : Type := Finmap fun _ : K => V

namespace Map

instance : EmptyCollection (Map K V) := inferInstanceAs (EmptyCollection (Finmap _))
instance [DecidableEq V] : DecidableEq (Map K V) := inferInstanceAs (DecidableEq (Finmap _))

def get (m : Map K V) (k : K) : Option V := Finmap.lookup k m

def set (m : Map K V) (k : K) (v : V) : Map K V := Finmap.insert k v m

def erase (m : Map K V) (k : K) : Map K V := Finmap.erase k m

/-- The keys, each once. -/
def keys (m : Map K V) : Finset K := Finmap.keys m

@[ext] theorem ext {m m' : Map K V} (h : ∀ k, m.get k = m'.get k) : m = m' :=
  Finmap.ext_lookup h

@[simp] theorem get_empty (k : K) : (∅ : Map K V).get k = none := Finmap.lookup_empty k

theorem get_set (m : Map K V) (k k' : K) (v : V) :
    (m.set k v).get k' = if k' = k then some v else m.get k' := by
  split_ifs with h
  · subst h
    exact Finmap.lookup_insert m
  · exact Finmap.lookup_insert_of_ne m h

@[simp] theorem get_set_self (m : Map K V) (k : K) (v : V) : (m.set k v).get k = some v := by
  simp [get_set]

theorem get_set_of_ne (m : Map K V) {k k' : K} (v : V) (h : k' ≠ k) :
    (m.set k v).get k' = m.get k' := by
  simp [get_set, h]

theorem get_erase (m : Map K V) (k k' : K) :
    (m.erase k).get k' = if k' = k then none else m.get k' := by
  split_ifs with h
  · subst h
    exact Finmap.lookup_erase k' m
  · exact Finmap.lookup_erase_ne h

@[simp] theorem get_erase_self (m : Map K V) (k : K) : (m.erase k).get k = none := by
  simp [get_erase]

theorem get_erase_of_ne (m : Map K V) {k k' : K} (h : k' ≠ k) :
    (m.erase k).get k' = m.get k' := by
  simp [get_erase, h]

theorem mem_keys {m : Map K V} {k : K} : k ∈ m.keys ↔ ∃ v, m.get k = some v :=
  Finmap.mem_keys.trans Finmap.mem_iff

/-- The entries whose value passes `p`. -/
def filter (m : Map K V) (p : V → Bool) : Map K V where
  entries := (Finmap.entries m).filter fun e => p e.2
  nodupKeys := by
    obtain ⟨s, hs⟩ := m
    induction s using Quotient.inductionOn with
    | h l => exact List.NodupKeys.sublist List.filter_sublist hs

theorem get_filter (m : Map K V) (p : V → Bool) (k : K) :
    (m.filter p).get k = (m.get k).filter p := by
  refine Option.ext fun v => ?_
  have h : ∀ m' : Map K V, m'.get k = some v ↔ (⟨k, v⟩ : Σ _ : K, V) ∈ Finmap.entries m' :=
    fun m' => Finmap.mem_lookup_iff
  rw [h, Option.filter_eq_some_iff, h]
  exact Multiset.mem_filter

/-- Erasing a key that was absent before it was written undoes the write. -/
theorem erase_set_of_get_none {m : Map K V} {k : K} (v : V) (h : m.get k = none) :
    (m.set k v).erase k = m := by
  refine ext fun k' => ?_
  rw [get_erase, get_set]
  split_ifs with hk
  · rw [hk, h]
  · rfl

/-- Write `v` under every key of a list. -/
def setAll (m : Map K V) (ks : List K) (v : V) : Map K V := ks.foldl (fun m k => m.set k v) m

def eraseAll (m : Map K V) (ks : List K) : Map K V := ks.foldl erase m

theorem get_setAll (m : Map K V) (ks : List K) (v : V) (k : K) :
    (m.setAll ks v).get k = if k ∈ ks then some v else m.get k := by
  induction ks generalizing m with
  | nil => simp [setAll]
  | cons a l ih =>
    have h := ih (m.set a v)
    rw [get_set] at h
    simp only [setAll, List.foldl_cons] at h ⊢
    rw [h]
    by_cases hl : k ∈ l <;> simp [hl]

theorem get_eraseAll (m : Map K V) (ks : List K) (k : K) :
    (m.eraseAll ks).get k = if k ∈ ks then none else m.get k := by
  induction ks generalizing m with
  | nil => simp [eraseAll]
  | cons a l ih =>
    have h := ih (m.erase a)
    rw [get_erase] at h
    simp only [eraseAll, List.foldl_cons] at h ⊢
    rw [h]
    by_cases hl : k ∈ l <;> simp [hl]

/-- Erasing keys that were absent before they were written undoes the writes. -/
theorem eraseAll_setAll {m : Map K V} {ks : List K} (v : V) (h : ∀ k ∈ ks, m.get k = none) :
    (m.setAll ks v).eraseAll ks = m := by
  refine ext fun k => ?_
  rw [get_eraseAll, get_setAll]
  split_ifs with hk
  · exact (h k hk).symm
  · rfl

theorem eraseAll_cons (m : Map K V) (k : K) (ks : List K) :
    m.eraseAll (k :: ks) = (m.erase k).eraseAll ks := rfl

/-- Enter a key unless it is there. -/
def insertNew (m : Map K V) (k : K) (v : V) : Map K V :=
  if (m.get k).isSome then m else m.set k v

theorem get_insertNew (m : Map K V) (k k' : K) (v : V) :
    (m.insertNew k v).get k' = if k' = k then some ((m.get k).getD v) else m.get k' := by
  unfold insertNew
  cases hm : m.get k with
  | none => rw [if_neg (by simp), get_set, Option.getD_none]
  | some w =>
    rw [if_pos (by simp), Option.getD_some]
    split_ifs with h
    · rw [h, hm]
    · rfl

/-- Entering a list with distinct keys into the empty map gives a map with just these entries. -/
theorem get_foldl_insertNew {W : Type} (g : W → V) {l : List (K × W)} (h : (l.map Prod.fst).Nodup)
    (k : K) (v : V) :
    (l.foldl (fun m e => m.insertNew e.1 (g e.2)) (∅ : Map K V)).get k = some v ↔
      ∃ w, (k, w) ∈ l ∧ g w = v := by
  induction l using List.reverseRecOn generalizing k v with
  | nil => simp
  | append_singleton l e ih =>
    obtain ⟨a, w₀⟩ := e
    rw [List.map_append, List.nodup_append] at h
    obtain ⟨hl, -, hne⟩ := h
    have hnew : ∀ w, (a, w) ∉ l := fun w hw =>
      hne a (List.mem_map.mpr ⟨_, hw, rfl⟩) a (by simp) rfl
    rw [List.foldl_append, List.foldl_cons, List.foldl_nil, get_insertNew]
    split_ifs with hk
    · -- the new key is not among the ones before it
      subst hk
      have hnone : (l.foldl (fun m e => m.insertNew e.1 (g e.2)) (∅ : Map K V)).get k = none := by
        refine Option.eq_none_iff_forall_not_mem.mpr fun v hv => ?_
        obtain ⟨w, hw, -⟩ := (ih hl k v).mp hv
        exact hnew w hw
      rw [hnone, Option.getD_none]
      simp [hnew]
    · rw [ih hl]
      simp [hk]

/-- The list has the entries of the map, each once. -/
def Enumerates (m : Map K V) (l : List (K × V)) : Prop :=
  (l.map Prod.fst).Nodup ∧ ∀ k v, (k, v) ∈ l ↔ m.get k = some v

theorem exists_enumerates (m : Map K V) : ∃ l, m.Enumerates l := by
  refine ⟨m.keys.toList.filterMap fun k => (m.get k).map fun v => (k, v), ?_, fun k v => ?_⟩
  · have hkeys : (m.keys.toList.filterMap fun k => (m.get k).map fun v => (k, v)).map Prod.fst =
        m.keys.toList := by
      rw [List.map_filterMap]
      refine (List.filterMap_congr (g := some) fun k hk => ?_).trans List.filterMap_some
      obtain ⟨v, hv⟩ := mem_keys.mp (Finset.mem_toList.mp hk)
      simp [hv]
    rw [hkeys]
    exact m.keys.nodup_toList
  · simp only [List.mem_filterMap, Finset.mem_toList, mem_keys, Option.map_eq_some_iff,
      Prod.mk.injEq]
    constructor
    · rintro ⟨k', -, v', hv, rfl, rfl⟩
      exact hv
    · intro hv
      exact ⟨k, ⟨v, hv⟩, v, hv, rfl, rfl⟩

theorem Enumerates.foldl_insertNew {m : Map K V} {l : List (K × V)} (h : m.Enumerates l) :
    l.foldl (fun m e => m.insertNew e.1 e.2) ∅ = m := by
  refine ext fun k => Option.ext fun v => ?_
  refine (get_foldl_insertNew id h.1 k v).trans ?_
  simp [h.2]

theorem card_keys_foldl_insertNew {l : List (K × V)} (h : (l.map Prod.fst).Nodup) :
    (l.foldl (fun m e => m.insertNew e.1 e.2) (∅ : Map K V)).keys.card = l.length := by
  have hkeys : (l.foldl (fun m e => m.insertNew e.1 e.2) (∅ : Map K V)).keys =
      (l.map Prod.fst).toFinset := by
    ext k
    rw [mem_keys, List.mem_toFinset, List.mem_map]
    constructor
    · rintro ⟨v, hv⟩
      obtain ⟨w, hw, -⟩ := (get_foldl_insertNew id h k v).mp hv
      exact ⟨(k, w), hw, rfl⟩
    · rintro ⟨e, he, rfl⟩
      exact ⟨e.2, (get_foldl_insertNew id h e.1 e.2).mpr ⟨e.2, he, rfl⟩⟩
  rw [hkeys, List.toFinset_card_of_nodup h, List.length_map]

theorem Enumerates.card_keys {m : Map K V} {l : List (K × V)} (h : m.Enumerates l) : m.keys.card = l.length := by
  rw [← card_keys_foldl_insertNew h.1, h.foldl_insertNew]

end Map
end KeyValue
