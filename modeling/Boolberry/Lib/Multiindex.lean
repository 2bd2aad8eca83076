import Mathlib.Data.List.Perm.Basic
import Mathlib.Data.List.Nodup
import Mathlib.Order.Lattice

/-!
# Containers with a unique key and an order

Entries with one key each, listed in the order of their stamps. An entry goes behind
those with the same stamp; an entry that is replaced keeps its place where the order
allows it. The oldest entries go when there are too many.
-/

namespace KeyValue

variable {α κ τ : Type} [LinearOrder τ] (key : α → κ) (stamp : α → τ)

/-- Put an entry behind those with an earlier or the same stamp. -/
def insertByStamp (x : α) : List α → List α
  | [] => [x]
  | y :: l => if stamp y ≤ stamp x then y :: insertByStamp x l else x :: y :: l

theorem insertByStamp_perm (x : α) (l : List α) : (insertByStamp stamp x l).Perm (x :: l) := by
  induction l with
  | nil => exact .refl _
  | cons y l ih =>
    unfold insertByStamp
    split_ifs
    · exact (ih.cons y).trans (.swap x y l)
    · exact .refl _

theorem sorted_insertByStamp (x : α) {l : List α}
    (h : l.Pairwise fun a b => stamp a ≤ stamp b) :
    (insertByStamp stamp x l).Pairwise fun a b => stamp a ≤ stamp b := by
  induction l with
  | nil => simp [insertByStamp]
  | cons y l ih =>
    obtain ⟨hy, hl⟩ := List.pairwise_cons.mp h
    unfold insertByStamp
    split_ifs with hle
    · refine List.pairwise_cons.mpr ⟨fun z hz => ?_, ih hl⟩
      rcases List.mem_cons.mp ((insertByStamp_perm stamp x l).mem_iff.mp hz) with rfl | hz
      · exact hle
      · exact hy z hz
    · have hlt := not_le.mp hle
      refine List.pairwise_cons.mpr ⟨fun z hz => ?_, h⟩
      rcases List.mem_cons.mp hz with rfl | hz
      · exact le_of_lt hlt
      · exact le_trans (le_of_lt hlt) (hy z hz)

/-- Put `x` in the place of the entry between `l₁` and `l₂`, or where its stamp belongs. -/
def replaceBetween (x : α) (l₁ l₂ : List α) : List α :=
  if (l₁.getLast?.all fun y => decide (stamp y ≤ stamp x)) &&
      (l₂.head?.all fun y => decide (stamp x ≤ stamp y)) then l₁ ++ x :: l₂
  else insertByStamp stamp x (l₁ ++ l₂)

theorem replaceBetween_perm (x : α) (l₁ l₂ : List α) :
    (replaceBetween stamp x l₁ l₂).Perm (x :: (l₁ ++ l₂)) := by
  unfold replaceBetween
  split_ifs
  · exact List.perm_middle
  · exact insertByStamp_perm stamp x _

theorem sorted_replaceBetween (x : α) {l₁ l₂ : List α}
    (h : (l₁ ++ l₂).Pairwise fun a b => stamp a ≤ stamp b) :
    (replaceBetween stamp x l₁ l₂).Pairwise fun a b => stamp a ≤ stamp b := by
  unfold replaceBetween
  split_ifs with hplace
  · rw [Bool.and_eq_true] at hplace
    obtain ⟨h₁, h₂, hcross⟩ := List.pairwise_append.mp h
    have hbelow : ∀ y ∈ l₁, stamp y ≤ stamp x := by
      intro y hy
      rcases List.eq_nil_or_concat' l₁ with rfl | ⟨l, z, rfl⟩
      · cases hy
      · have hz : stamp z ≤ stamp x := by simpa using hplace.1
        rcases List.mem_append.mp hy with hy | hy
        · exact le_trans ((List.pairwise_append.mp h₁).2.2 y hy z (by simp)) hz
        · rwa [List.mem_singleton.mp hy]
    have habove : ∀ y ∈ l₂, stamp x ≤ stamp y := by
      intro y hy
      cases l₂ with
      | nil => cases hy
      | cons z l =>
        have hz : stamp x ≤ stamp z := by simpa using hplace.2
        rcases List.mem_cons.mp hy with rfl | hy
        · exact hz
        · exact le_trans hz ((List.pairwise_cons.mp h₂).1 y hy)
    refine List.pairwise_append.mpr ⟨h₁, List.pairwise_cons.mpr ⟨habove, h₂⟩, fun a ha b hb => ?_⟩
    rcases List.mem_cons.mp hb with rfl | hb
    · exact hbelow a ha
    · exact hcross a ha b hb
  · exact sorted_insertByStamp stamp x h

section Replace

variable [DecidableEq κ]

/-- Replace the entry with the key of `x`, if there is one; `before` was passed already. -/
def replaceByKey (x : α) (before : List α) : List α → List α
  | [] => before
  | y :: l =>
      if key y = key x then replaceBetween stamp x before l
      else replaceByKey x (before ++ [y]) l

theorem replaceByKey_of_mem {x : α} (before : List α) {l : List α} (h : key x ∈ l.map key) :
    ∃ l₁ y l₂, l = l₁ ++ y :: l₂ ∧ key y = key x ∧
      replaceByKey key stamp x before l = replaceBetween stamp x (before ++ l₁) l₂ := by
  induction l generalizing before with
  | nil => simp at h
  | cons y l ih =>
    unfold replaceByKey
    split_ifs with hy
    · exact ⟨[], y, l, rfl, hy, by rw [List.append_nil]⟩
    · rw [List.map_cons, List.mem_cons] at h
      obtain ⟨l₁, z, l₂, rfl, hz, hr⟩ := ih (before ++ [y]) (h.resolve_left (Ne.symm hy))
      exact ⟨y :: l₁, z, l₂, rfl, hz, by rw [hr, List.append_assoc, List.singleton_append]⟩

theorem replaceByKey_of_notMem {x : α} (before : List α) {l : List α} (h : key x ∉ l.map key) :
    replaceByKey key stamp x before l = before ++ l := by
  induction l generalizing before with
  | nil => rw [List.append_nil, replaceByKey]
  | cons y l ih =>
    rw [List.map_cons, List.mem_cons, not_or] at h
    unfold replaceByKey
    rw [if_neg (Ne.symm h.1), ih (before ++ [y]) h.2, ← List.append_cons]

theorem sorted_replaceByKey (x : α) {l : List α}
    (h : l.Pairwise fun a b => stamp a ≤ stamp b) :
    (replaceByKey key stamp x [] l).Pairwise fun a b => stamp a ≤ stamp b := by
  by_cases hx : key x ∈ l.map key
  · obtain ⟨l₁, y, l₂, rfl, -, hr⟩ := replaceByKey_of_mem key stamp [] hx
    rw [hr]
    exact sorted_replaceBetween stamp x
      (h.sublist ((List.Sublist.refl l₁).append (List.sublist_cons_self y l₂)))
  · rwa [replaceByKey_of_notMem key stamp [] hx]

theorem replaceByKey_keys (x : α) (l : List α) :
    ((replaceByKey key stamp x [] l).map key).Perm (l.map key) := by
  by_cases hx : key x ∈ l.map key
  · obtain ⟨l₁, y, l₂, rfl, hy, hr⟩ := replaceByKey_of_mem key stamp [] hx
    rw [hr]
    refine ((replaceBetween_perm stamp x l₁ l₂).map key).trans ?_
    rw [List.map_cons, ← hy, ← List.map_cons (f := key)]
    exact (List.perm_middle.map key).symm
  · rw [replaceByKey_of_notMem key stamp [] hx, List.nil_append]

end Replace

/-- Drop the first entries while there are more than `limit`. -/
def trimOldest (limit : ℕ) : List α → List α
  | [] => []
  | x :: l => if limit < (x :: l).length then trimOldest limit l else x :: l

theorem trimOldest_eq_drop (limit : ℕ) (l : List α) :
    trimOldest limit l = l.drop (l.length - limit) := by
  induction l with
  | nil => rw [trimOldest, List.drop_nil]
  | cons x l ih =>
    unfold trimOldest
    split_ifs with h
    · rw [ih, show (x :: l).length - limit = (l.length - limit) + 1 by
        rw [List.length_cons] at h ⊢
        omega, List.drop_succ_cons]
    · rw [Nat.sub_eq_zero_of_le (Nat.le_of_not_lt h), List.drop_zero]

theorem trimOldest_suffix (limit : ℕ) (l : List α) : trimOldest limit l <:+ l := by
  rw [trimOldest_eq_drop]
  exact List.drop_suffix _ _

/-- One entry a key, in the order of the stamps. -/
structure Multiindex where
  entries : List α
  sorted : entries.Pairwise fun a b => stamp a ≤ stamp b
  nodup : (entries.map key).Nodup

namespace Multiindex

variable {key : α → κ} {stamp : α → τ}

def empty : Multiindex key stamp := ⟨[], List.Pairwise.nil, List.nodup_nil⟩

def keys (m : Multiindex key stamp) : List κ := m.entries.map key

def size (m : Multiindex key stamp) : ℕ := m.entries.length

theorem keys_length (m : Multiindex key stamp) : m.keys.length = m.size := List.length_map _

theorem nodup_trim (m : Multiindex key stamp) (limit : ℕ) :
    ((trimOldest limit m.entries).map key).Nodup :=
  m.nodup.sublist ((trimOldest_suffix limit m.entries).sublist.map key)

theorem sorted_trim (m : Multiindex key stamp) (limit : ℕ) :
    (trimOldest limit m.entries).Pairwise fun a b => stamp a ≤ stamp b :=
  m.sorted.sublist (trimOldest_suffix limit m.entries).sublist

def trim (limit : ℕ) (m : Multiindex key stamp) : Multiindex key stamp :=
  ⟨trimOldest limit m.entries, m.sorted_trim limit, m.nodup_trim limit⟩

variable (m : Multiindex key stamp)

theorem trim_entries (limit : ℕ) : (m.trim limit).entries = m.entries.drop (m.size - limit) :=
  trimOldest_eq_drop limit m.entries

theorem trim_of_le {limit : ℕ} (h : m.size ≤ limit) : m.trim limit = m := by
  have hentries := m.trim_entries limit
  rw [Nat.sub_eq_zero_of_le h, List.drop_zero] at hentries
  obtain ⟨entries, sorted, nodup⟩ := m
  simp only [trim, Multiindex.mk.injEq]
  exact hentries

theorem trim_size (limit : ℕ) : (m.trim limit).size = min m.size limit := by
  rw [size, trim_entries, List.length_drop, ← size]
  omega

theorem trim_keys_subset (limit : ℕ) : ∀ k ∈ (m.trim limit).keys, k ∈ m.keys :=
  ((trimOldest_suffix limit m.entries).sublist.map key).subset

/-- What a trim takes out is older than what it leaves, and the container was over the limit. -/
theorem trim_oldest {limit : ℕ} {x : α} (hx : x ∈ m.entries) (hout : key x ∉ (m.trim limit).keys) :
    limit < m.size ∧ ∀ y ∈ (m.trim limit).entries, stamp x ≤ stamp y := by
  rw [keys, trim_entries] at hout
  have hnot : x ∉ m.entries.drop (m.size - limit) := fun hmem => hout (List.mem_map_of_mem hmem)
  have hsplit := List.take_append_drop (m.size - limit) m.entries
  have hsorted := m.sorted
  rw [← hsplit] at hx hsorted
  have htake := (List.mem_append.mp hx).resolve_right hnot
  refine ⟨?_, fun y hy => ?_⟩
  · by_contra hle
    rw [Nat.sub_eq_zero_of_le (Nat.le_of_not_lt hle)] at htake
    simp at htake
  · rw [trim_entries] at hy
    exact (List.pairwise_append.mp hsorted).2.2 x htake y hy

theorem nodup_insert {x : α} (h : key x ∉ m.keys) :
    ((insertByStamp stamp x m.entries).map key).Nodup := by
  rw [((insertByStamp_perm stamp x m.entries).map key).nodup_iff, List.map_cons]
  exact List.nodup_cons.mpr ⟨h, m.nodup⟩

section Keys

variable [DecidableEq κ]

/-- An entry whose key is there already is not put in. -/
def insert (x : α) : Multiindex key stamp :=
  if h : key x ∈ m.keys then m
  else ⟨insertByStamp stamp x m.entries, sorted_insertByStamp stamp x m.sorted, m.nodup_insert h⟩

theorem nodup_replace (x : α) :
    ((replaceByKey key stamp x [] m.entries).map key).Nodup :=
  (replaceByKey_keys key stamp x m.entries).nodup_iff.mpr m.nodup

def replace (x : α) : Multiindex key stamp :=
  ⟨replaceByKey key stamp x [] m.entries, sorted_replaceByKey key stamp x m.sorted, m.nodup_replace x⟩

theorem nodup_erase (k : κ) :
    ((m.entries.filter fun x => decide (key x ≠ k)).map key).Nodup :=
  m.nodup.sublist (List.filter_sublist.map key)

theorem sorted_erase (k : κ) : (m.entries.filter fun x => decide (key x ≠ k)).Pairwise
    fun a b => stamp a ≤ stamp b :=
  m.sorted.filter _

def erase (k : κ) : Multiindex key stamp :=
  ⟨m.entries.filter fun x => decide (key x ≠ k), m.sorted_erase k, m.nodup_erase k⟩

theorem insert_keys {x : α} (h : key x ∉ m.keys) : (m.insert x).keys.Perm (key x :: m.keys) := by
  rw [insert, dif_neg h]
  exact (insertByStamp_perm stamp x m.entries).map key

theorem insert_size {x : α} (h : key x ∉ m.keys) : (m.insert x).size = m.size + 1 := by
  rw [← keys_length, (m.insert_keys h).length_eq, List.length_cons, keys_length]

theorem replace_keys (x : α) : (m.replace x).keys.Perm m.keys :=
  replaceByKey_keys key stamp x m.entries

theorem replace_size (x : α) : (m.replace x).size = m.size := by
  rw [← keys_length, (m.replace_keys x).length_eq, keys_length]

theorem mem_keys_erase {k k' : κ} : k' ∈ (m.erase k).keys ↔ k' ∈ m.keys ∧ k' ≠ k := by
  simp only [keys, erase, List.mem_map, List.mem_filter, decide_eq_true_eq]
  constructor
  · rintro ⟨x, ⟨hx, hne⟩, rfl⟩
    exact ⟨⟨x, hx, rfl⟩, hne⟩
  · rintro ⟨⟨x, hx, rfl⟩, hne⟩
    exact ⟨x, ⟨hx, hne⟩, rfl⟩

theorem erase_size_le (k : κ) : (m.erase k).size ≤ m.size := List.length_filter_le _ _

end Keys

end Multiindex

end KeyValue
