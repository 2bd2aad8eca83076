import Boolberry.Lib.FiniteMap

/-!
# The index of a list

A map from the keys that stand in a list to the positions where they stand. Some values
are not keys, and may stand anywhere in the list without being in the map.
-/

namespace KeyValue

variable {K : Type} [DecidableEq K]

/-- `m` has the keys in `l` and sends each to the one position where it stands. -/
def Indexes (isKey : K → Prop) (m : Map K ℕ) (l : List K) : Prop :=
  ∀ k p, m.get k = some p ↔ isKey k ∧ l[p]? = some k

section Indexes

variable {isKey : K → Prop} {m : Map K ℕ} {l : List K} {k : K} {p : ℕ}

theorem Indexes.nil : Indexes isKey ∅ [] := fun k p => by simp

theorem Indexes.unique (h : Indexes isKey m l) {q : ℕ} (hk : isKey k) (hp : l[p]? = some k)
    (hq : l[q]? = some k) : p = q :=
  Option.some.inj (((h k p).mpr ⟨hk, hp⟩).symm.trans ((h k q).mpr ⟨hk, hq⟩))

theorem Indexes.append_other (h : Indexes isKey m l) (hk : ¬isKey k) : Indexes isKey m (l ++ [k]) := by
  intro k' p
  rw [h k' p]
  constructor
  · rintro ⟨hk', hp⟩
    have := (List.getElem?_eq_some_iff.mp hp).1
    exact ⟨hk', by rw [List.getElem?_append_left this, hp]⟩
  · rintro ⟨hk', hp⟩
    rcases Nat.lt_or_ge p l.length with hlt | hge
    · exact ⟨hk', by rwa [List.getElem?_append_left hlt] at hp⟩
    · -- the new position does not hold a key
      rw [List.getElem?_append_right hge] at hp
      obtain rfl := List.mem_singleton.mp (List.mem_of_getElem? hp)
      exact absurd hk' hk

theorem Indexes.append_key (h : Indexes isKey m l) (hk : isKey k) (hnew : m.get k = none) :
    Indexes isKey (m.set k l.length) (l ++ [k]) := by
  intro k' p
  rw [Map.get_set]
  split_ifs with heq
  · subst heq
    rw [Option.some.injEq]
    constructor
    · rintro rfl
      exact ⟨hk, List.getElem?_concat_length⟩
    · rintro ⟨-, hp⟩
      rcases Nat.lt_or_ge p l.length with hlt | hge
      · rw [List.getElem?_append_left hlt] at hp
        exact absurd ((h k' p).mpr ⟨hk, hp⟩) (by simp [hnew])
      · have hlen := (List.getElem?_eq_some_iff.mp hp).1
        rw [List.length_append, List.length_singleton] at hlen
        omega
  · rw [h k' p]
    refine and_congr_right fun _ => ⟨fun hp => ?_, fun hp => ?_⟩
    · rw [List.getElem?_append_left (List.getElem?_eq_some_iff.mp hp).1, hp]
    · rcases Nat.lt_or_ge p l.length with hlt | hge
      · rwa [List.getElem?_append_left hlt] at hp
      · rw [List.getElem?_append_right hge] at hp
        exact absurd (List.mem_singleton.mp (List.mem_of_getElem? hp)) heq

/-- A key takes the place of a value that is none, or of itself. -/
theorem Indexes.set (h : Indexes isKey m l) (hk : isKey k) (hp : p < l.length)
    (hold : ∀ k', l[p]? = some k' → ¬isKey k' ∨ k' = k) (hfree : ∀ q, m.get k = some q → q = p) :
    Indexes isKey (m.set k p) (l.set p k) := by
  intro k' q
  rw [Map.get_set, List.getElem?_set]
  split_ifs with heq hpq hpq
  · simp [heq, hk, hpq]
  · rw [heq]
    refine ⟨fun hq => absurd (Option.some.inj hq) hpq, fun hq => ?_⟩
    exact absurd (hfree q ((h k q).mpr ⟨hk, hq.2⟩)).symm hpq
  · -- the value that gives way is no other key
    subst hpq
    rw [h k' p]
    refine and_congr_right fun hk' => ⟨fun hq => ?_, fun hq => ?_⟩
    · rcases hold k' hq with hno | rfl
      · exact absurd hk' hno
      · exact absurd rfl heq
    · exact absurd (Option.some.inj hq).symm heq
  · exact h k' q

/-- The first `n` positions, and the map without the keys behind them. -/
theorem Indexes.take (h : Indexes isKey m l) (n : ℕ) :
    Indexes isKey (m.eraseAll (l.drop n)) (l.take n) := by
  intro k p
  rw [Map.get_eraseAll]
  have hbehind : k ∈ l.drop n ↔ ∃ q, n ≤ q ∧ l[q]? = some k := by
    rw [List.mem_iff_getElem?]
    constructor
    · rintro ⟨i, hi⟩
      exact ⟨n + i, Nat.le_add_right n i, by rwa [List.getElem?_drop] at hi⟩
    · rintro ⟨q, hq, hk⟩
      exact ⟨q - n, by rw [List.getElem?_drop, Nat.add_sub_cancel' hq, hk]⟩
  split_ifs with hmem
  · obtain ⟨q, hq, hkq⟩ := hbehind.mp hmem
    refine ⟨fun hnone => absurd hnone (by simp), ?_⟩
    rintro ⟨hk, hp⟩
    rw [List.getElem?_take] at hp
    split_ifs at hp with hlt
    have := h.unique hk hp hkq
    omega
  · rw [h k p, List.getElem?_take]
    refine and_congr_right fun _ => ⟨fun hp => ?_, fun hp => ?_⟩
    · rw [if_pos, hp]
      by_contra hge
      exact hmem (hbehind.mpr ⟨p, Nat.le_of_not_lt hge, hp⟩)
    · split_ifs at hp
      exact hp

/-- Positions behind which only keys stand hold different ones. -/
theorem Indexes.nodup_drop (h : Indexes isKey m l) {n : ℕ} (hkeys : ∀ k ∈ l.drop n, isKey k) :
    (l.drop n).Nodup := by
  rw [List.nodup_iff_getElem?_ne_getElem?]
  intro i j hij hj heq
  have hk := hkeys _ (List.getElem_mem hj)
  have hpj : l[n + j]? = some (l.drop n)[j] := by
    rw [← List.getElem?_drop]
    exact List.getElem?_eq_getElem hj
  have hpi : l[n + i]? = some (l.drop n)[j] := by
    rw [← List.getElem?_drop, heq]
    exact List.getElem?_eq_getElem hj
  have := h.unique hk hpi hpj
  omega

end Indexes

end KeyValue
