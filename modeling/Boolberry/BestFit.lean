import Boolberry.WalletSelection

/-!
# The amounts that are selected

`select_indices_for_transfer` takes the smallest amount that covers what is still
needed, and as long as there is none the largest one. What it finds is the exact sum
of the amounts it selects, it is enough whenever everything together is, and the last
amount is always needed.
-/

namespace Boolberry

namespace FreeAmounts

/-- A `std::map` from amounts to the distinct positions that hold them. -/
structure IsMap (free : FreeAmounts) : Prop where
  ascending : free.Pairwise fun a b => a.1 < b.1
  full : ∀ e ∈ free, e.2 ≠ []
  distinct : free.indices.Nodup

/-- The positions with their amounts. -/
def entries (free : FreeAmounts) : List (UInt64 × ℕ) := free.flatMap fun e => e.2.map (e.1, ·)

/-- The amount that a position holds. -/
def amountOf (free : FreeAmounts) (i : ℕ) : ℕ :=
  ((free.find? fun e => decide (i ∈ e.2)).map fun e => e.1.toNat).getD 0

def sumOf (l : List (UInt64 × ℕ)) : ℕ := (l.map fun p => p.1.toNat).sum

/-- All the money in the map. -/
def total (free : FreeAmounts) : ℕ := (free.map fun e => e.1.toNat * e.2.length).sum

variable {free : FreeAmounts}

theorem entries_indices : free.entries.map Prod.snd = free.indices := by
  unfold entries indices
  rw [List.map_flatMap]
  congr 1
  funext e
  rw [List.map_map]
  exact List.map_id _

theorem sumOf_entries : sumOf free.entries = free.total := by
  induction free with
  | nil => rfl
  | cons e free ih =>
    have hsum : sumOf (e.2.map (e.1, ·)) = e.1.toNat * e.2.length := by
      unfold sumOf
      rw [List.map_map, mul_comm]
      simp [Function.comp_def]
    unfold entries total
    rw [List.flatMap_cons, sumOf, List.map_append, List.sum_append, List.map_cons, List.sum_cons]
    exact congrArg₂ _ hsum ih

theorem total_of_perm {a : UInt64} {i : ℕ} {rest : List (UInt64 × ℕ)}
    (h : free.entries.Perm ((a, i) :: rest)) : free.total = a.toNat + sumOf rest := by
  rw [← sumOf_entries]
  exact (h.map _).sum_eq

theorem amountOf_entries (hdistinct : free.indices.Nodup) {p : UInt64 × ℕ} (hp : p ∈ free.entries) :
    free.amountOf p.2 = p.1.toNat := by
  induction free with
  | nil => cases hp
  | cons e free ih =>
    unfold indices at hdistinct
    rw [List.flatMap_cons, List.nodup_append] at hdistinct
    obtain ⟨-, hrest, hne⟩ := hdistinct
    unfold entries at hp
    rw [List.flatMap_cons, List.mem_append] at hp
    unfold amountOf
    rcases hp with hp | hp
    · obtain ⟨i, hi, rfl⟩ := List.mem_map.mp hp
      rw [List.find?_cons_of_pos (by simpa using hi)]
      rfl
    · -- the positions of the first amount are not among the others
      have hi : p.2 ∈ FreeAmounts.indices free := by
        rw [← entries_indices]
        exact List.mem_map_of_mem hp
      rw [List.find?_cons_of_neg (by simpa using fun h => hne _ h _ hi rfl)]
      exact ih hrest hp

theorem lowerBound_entries {amount a : UInt64} {i : ℕ} (h : free.lowerBound amount = some (a, i)) :
    (a, i) ∈ free.entries ∧ amount ≤ a := by
  obtain ⟨e, he, h⟩ := Option.bind_eq_some_iff.mp h
  obtain ⟨j, hj, h⟩ := Option.map_eq_some_iff.mp h
  cases h
  refine ⟨List.mem_flatMap.mpr ⟨e, List.mem_of_find?_eq_some he, ?_⟩, ?_⟩
  · exact List.mem_map_of_mem (List.mem_of_getLast? hj)
  · simpa using List.find?_some he

theorem popBack_entries {a : UInt64} {l : List ℕ} {i : ℕ} (h : free.getLast? = some (a, l))
    (hi : l.getLast? = some i) : free.entries.Perm ((a, i) :: free.popBack.entries) := by
  have hfree : free = free.dropLast ++ [(a, l)] := (List.dropLast_append_getLast? _ h).symm
  have hl : l = l.dropLast ++ [i] := (List.dropLast_append_getLast? _ hi).symm
  have hpop : free.popBack.entries =
      (free.dropLast.flatMap fun e => e.2.map (e.1, ·)) ++ l.dropLast.map (a, ·) := by
    unfold popBack entries
    rw [h]
    simp only [List.flatMap_append]
    congr 1
    split_ifs with hnil
    · rw [hnil]
      rfl
    · simp
  rw [hpop]
  conv_lhs => rw [hfree]
  simp only [entries, List.flatMap_append, List.flatMap_cons, List.flatMap_nil, List.append_nil]
  conv_lhs => rw [hl, List.map_append, ← List.append_assoc]
  exact List.perm_append_singleton _ _

theorem pushBack_keys {amount : UInt64} {i : ℕ} {e : UInt64 × List ℕ}
    (h : e ∈ free.pushBack amount i) : e.1 = amount ∨ ∃ e' ∈ free, e'.1 = e.1 := by
  induction free with
  | nil => exact .inl (by rw [List.mem_singleton.mp h])
  | cons e' free ih =>
    obtain ⟨a, l⟩ := e'
    unfold pushBack at h
    split_ifs at h with hlt heq
    · rcases List.mem_cons.mp h with rfl | h
      · exact .inl rfl
      · exact .inr ⟨e, h, rfl⟩
    · rcases List.mem_cons.mp h with rfl | h
      · exact .inr ⟨(a, l), by simp, rfl⟩
      · exact .inr ⟨e, by simp [h], rfl⟩
    · rcases List.mem_cons.mp h with rfl | h
      · exact .inr ⟨(a, l), by simp, rfl⟩
      · rcases ih h with h | ⟨e', he', h⟩
        · exact .inl h
        · exact .inr ⟨e', by simp [he'], h⟩

theorem pushBack_ascending (amount : UInt64) (i : ℕ)
    (h : free.Pairwise fun a b => a.1 < b.1) :
    (free.pushBack amount i).Pairwise fun a b => a.1 < b.1 := by
  induction free with
  | nil => exact List.pairwise_singleton _ _
  | cons e free ih =>
    obtain ⟨a, l⟩ := e
    obtain ⟨hfirst, hrest⟩ := List.pairwise_cons.mp h
    unfold pushBack
    split_ifs with hlt heq
    · refine List.pairwise_cons.mpr ⟨fun e he => ?_, h⟩
      rcases List.mem_cons.mp he with rfl | he
      · exact hlt
      · exact UInt64.lt_trans hlt (hfirst e he)
    · exact List.pairwise_cons.mpr ⟨hfirst, hrest⟩
    · refine List.pairwise_cons.mpr ⟨fun e he => ?_, ih hrest⟩
      rcases pushBack_keys he with he | ⟨e', he', he⟩
      · rw [he]
        exact UInt64.lt_of_le_of_ne (UInt64.not_lt.mp hlt) (Ne.symm heq)
      · rw [← he]
        exact hfirst e' he'

end FreeAmounts

open FreeAmounts

namespace Wallet2

variable {now fakeOutsCount : ℕ} {w : Wallet2} {l : List ℕ} {free start : FreeAmounts}

theorem collectFree_ascending (hstart : start.Pairwise fun a b => a.1 < b.1)
    (h : w.collectFree now fakeOutsCount l start = some free) :
    free.Pairwise fun a b => a.1 < b.1 := by
  induction l generalizing start with
  | nil =>
    cases h
    exact hstart
  | cons i l ih =>
    unfold collectFree at h
    split at h
    · cases h
    · exact ih hstart h
    · exact ih (pushBack_ascending _ _ hstart) h

theorem collectFree_isMap (h : w.collectFree now fakeOutsCount l [] = some free)
    (honce : (l.filter (w.isSpendable now fakeOutsCount)).Nodup) : free.IsMap where
  ascending := collectFree_ascending List.Pairwise.nil h
  full := collectFree_full (by simp) h
  distinct := (collectFree_indices h).nodup_iff.mpr (by simpa [FreeAmounts.indices] using honce)

end Wallet2

/-- What the loop has picked when it began with `found`. -/
structure Picked (needed found : UInt64) (free : FreeAmounts) (picks : List (UInt64 × ℕ))
    (money : UInt64) : Prop where
  among : picks.Subperm free.entries
  exact : money.toNat = found.toNat + sumOf picks
  reaches : needed ≤ money ↔ needed.toNat ≤ found.toNat + free.total
  minimal : ∀ l p, picks = l ++ [p] → found.toNat + sumOf l < needed.toNat

theorem add_exact {a b : UInt64} (h : a.toNat + b.toNat < 2 ^ 64) :
    (a + b).toNat = a.toNat + b.toNat := by
  rw [UInt64.toNat_add]
  exact Nat.mod_eq_of_lt h

theorem Picked.none {needed found : UInt64} {free : FreeAmounts}
    (h : needed ≤ found ∨ free = []) : Picked needed found free [] found where
  among := List.nil_subperm
  exact := by simp [sumOf]
  reaches := by
    rw [UInt64.le_iff_toNat_le]
    rcases h with h | rfl
    · rw [UInt64.le_iff_toNat_le] at h
      omega
    · simp [total]
  minimal l p hp := by cases l <;> simp at hp

theorem Picked.cons {needed found a money : UInt64} {free rest : FreeAmounts} {i : ℕ}
    {picks : List (UInt64 × ℕ)} (hperm : free.entries.Perm ((a, i) :: rest.entries))
    (hfound : found < needed) (hadd : (found + a).toNat = found.toNat + a.toNat)
    (h : Picked needed (found + a) rest picks money) : Picked needed found free ((a, i) :: picks) money := by
  have htotal : free.total = a.toNat + rest.total := by
    have hsum : sumOf rest.entries = rest.total := sumOf_entries
    rw [← hsum]
    exact total_of_perm hperm
  refine ⟨((List.subperm_cons _).mpr h.among).trans hperm.symm.subperm, ?_, ?_, ?_⟩
  · rw [h.exact, hadd]
    simp [sumOf, Nat.add_assoc]
  · rw [h.reaches, hadd, htotal, Nat.add_assoc]
  · intro l p hp
    cases l with
    | nil => simpa [sumOf, ← UInt64.lt_iff_toNat_lt] using hfound
    | cons q l =>
      rw [List.cons_append] at hp
      obtain ⟨rfl, rfl⟩ := List.cons.inj hp
      have := h.minimal l p rfl
      rw [hadd] at this
      simpa [sumOf, Nat.add_assoc] using this

theorem selectIndicesGo_picked {needed found : UInt64} {n : ℕ} {free : FreeAmounts}
    {selected : List ℕ} (hfull : ∀ e ∈ free, e.2 ≠ []) (hn : free.indices.length ≤ n)
    (hbound : found.toNat + free.total < 2 ^ 64) :
    ∃ picks, (selectIndicesGo needed n free found selected).2 = selected ++ picks.map Prod.snd ∧
      Picked needed found free picks (selectIndicesGo needed n free found selected).1 := by
  induction n generalizing free found selected with
  | zero =>
    have hnil : free = [] := by
      cases free with
      | nil => rfl
      | cons e free =>
        have := List.length_pos_iff.mpr (hfull e (by simp))
        simp only [FreeAmounts.indices, List.flatMap_cons, List.length_append] at hn
        omega
    exact ⟨[], by simp [selectIndicesGo], .none (.inr hnil)⟩
  | succ n ih =>
    unfold selectIndicesGo
    split_ifs with hfound
    · split
      · next a i hlower =>
        -- one amount covers all that is missing
        obtain ⟨hmem, hle⟩ := lowerBound_entries hlower
        have htotal := total_of_perm (List.perm_cons_erase hmem)
        have hadd : (found + a).toNat = found.toNat + a.toNat := add_exact (by omega)
        have henough : needed.toNat ≤ found.toNat + a.toNat := by
          rw [UInt64.le_iff_toNat_le, UInt64.toNat_sub_of_le _ _ (UInt64.le_of_lt hfound)] at hle
          omega
        refine ⟨[(a, i)], rfl, List.singleton_subperm_iff.mpr hmem, by simp [sumOf, hadd], ?_, ?_⟩
        · rw [UInt64.le_iff_toNat_le, hadd]
          omega
        · intro l p hp
          obtain rfl : l = [] := by
            cases l with
            | nil => rfl
            | cons q l => simp at hp
          simpa [sumOf, ← UInt64.lt_iff_toNat_lt] using hfound
      · split
        · next hlast => exact ⟨[], by simp, .none (.inr (List.getLast?_eq_none_iff.mp hlast))⟩
        · next a l hlast =>
          have hl : l ≠ [] := hfull _ (List.mem_of_getLast? hlast)
          obtain ⟨i, hi⟩ : ∃ i, l.getLast? = some i := ⟨_, List.getLast?_eq_some_getLast hl⟩
          have hperm := popBack_entries hlast hi
          have hlen := (indices_popBack hlast hi).length_eq
          rw [List.length_cons] at hlen
          have htotal := total_of_perm hperm
          rw [sumOf_entries] at htotal
          have hadd : (found + a).toNat = found.toNat + a.toNat := add_exact (by omega)
          obtain ⟨picks, hpicks, h⟩ := @ih (found + a) _ (selected ++ [i])
            (popBack_full hfull) (by omega) (by omega)
          simp only [hi]
          exact ⟨(a, i) :: picks, by simpa using hpicks, h.cons hperm hfound hadd⟩
    · exact ⟨[], by simp, .none (.inl (UInt64.not_lt.mp hfound))⟩

theorem selectIndices_best {free : FreeAmounts} (hmap : free.IsMap) (htotal : free.total < 2 ^ 64)
    (needed : UInt64) :
    let r := selectIndicesForTransfer free needed
    (∀ k, selectIndicesGo needed (free.indices.length + k) free 0 [] = r) ∧
      r.1.toNat = (r.2.map free.amountOf).sum ∧
      r.2.Nodup ∧ (∀ i ∈ r.2, i ∈ free.indices) ∧
      (needed ≤ r.1 ↔ needed.toNat ≤ free.total) ∧
      ∀ l i, r.2 = l ++ [i] → (l.map free.amountOf).sum < needed.toNat := by
  intro r
  obtain ⟨picks, hpicks, h⟩ := @selectIndicesGo_picked needed 0 _ _ [] hmap.full le_rfl
    (by simpa using htotal)
  replace hpicks : r.2 = picks.map Prod.snd := hpicks
  have hsub : (picks.map Prod.snd).Subperm free.indices := by
    rw [← entries_indices]
    obtain ⟨l, hl, hsubl⟩ := h.among
    exact ⟨l.map Prod.snd, hl.map _, hsubl.map _⟩
  have hamount : ∀ l, l ⊆ picks → ((l.map Prod.snd).map free.amountOf).sum = sumOf l := by
    intro l hl
    rw [List.map_map, sumOf]
    congr 1
    exact List.map_congr_left fun p hp =>
      amountOf_entries hmap.distinct (h.among.subset (hl hp))
  refine ⟨fun k => selectIndicesGo_bound hmap.full le_rfl, ?_, ?_, ?_, ?_, ?_⟩
  · rw [hpicks, hamount _ (List.Subset.refl _)]
    exact h.exact.trans (by simp)
  · rw [hpicks]
    obtain ⟨l, hl, hsubl⟩ := hsub
    exact hl.nodup_iff.mp (hsubl.nodup hmap.distinct)
  · rw [hpicks]
    exact fun i hi => hsub.subset hi
  · exact h.reaches.trans (by simp)
  · intro l i hl
    rw [hpicks] at hl
    obtain ⟨l', l'', rfl, rfl, hlast⟩ := List.map_eq_append_iff.mp hl
    obtain ⟨p, rfl, -⟩ := List.map_eq_singleton_iff.mp hlast
    rw [hamount _ (by simp)]
    simpa using h.minimal l' p rfl

/-- A wallet of twenty blocks with five outputs of one transaction, the fourth of them spent. -/
def samplePurse : Wallet2 :=
  { sampleWallet false with
    blockchain := (List.range 20).map (BitVec.ofNat 256)
    transfers := (List.range 5).map fun o =>
      { blockHeight := 1
        tx := sampleTx 3 [] ([1, 3, 8, 5, 3].map fun a => sampleOut a 3)
        internalOutputIndex := o, globalOutputIndex := UInt64.ofNat o
        spent := o == 3, keyImage := BitVec.ofNat 256 o } }

theorem selectIndices_best_sample :
    let free : FreeAmounts := [(1, [0]), (3, [1, 4]), (8, [2])]
    let r := selectIndicesForTransfer free 10
    samplePurse.collectFree 0 0 (List.range 5) [] = some free ∧ r = (11, [2, 4]) ∧
      (∀ k, selectIndicesGo 10 (free.indices.length + k) free 0 [] = r) ∧
      r.1.toNat = (r.2.map free.amountOf).sum ∧
      r.2.Nodup ∧ (∀ i ∈ r.2, i ∈ free.indices) ∧
      (10 ≤ r.1 ↔ (10 : UInt64).toNat ≤ free.total) ∧
      ∀ l i, r.2 = l ++ [i] → (l.map free.amountOf).sum < (10 : UInt64).toNat := by
  intro free r
  have hfree : samplePurse.collectFree 0 0 (List.range 5) [] = some free := by decide +kernel
  have hmap : free.IsMap := Wallet2.collectFree_isMap hfree (List.nodup_range.filter _)
  exact ⟨hfree, by decide, selectIndices_best hmap (by decide) 10⟩

end Boolberry
