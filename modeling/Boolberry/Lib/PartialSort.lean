import Mathlib.Data.List.Sort
import Mathlib.Order.Lattice.Nat

/-!
# Sorting only the front

A sort that brings the smallest `k` elements to the front, in order, and leaves the rest as it likes. Up to
`k`, its result agrees with one of the full orderings of the list.
-/

namespace PartialSort

variable {α : Type} (key : α → ℕ)

/-- What a partial sort promises, for every front that fits. -/
structure SortsFront (sort : List α → ℕ → List α) : Prop where
  perm : ∀ l k, k ≤ l.length → (sort l k).Perm l
  sorted : ∀ l k, k ≤ l.length → ((sort l k).take k).Pairwise fun a b => key a ≤ key b
  least : ∀ l k, k ≤ l.length → ∀ a ∈ (sort l k).take k, ∀ b ∈ (sort l k).drop k, key a ≤ key b

/-- `page` is what stands from `start` on in some ordering of `l`, `count` elements of it. -/
def IsPage (l : List α) (start count : ℕ) (page : List α) : Prop :=
  ∃ ordering : List α, ordering.Perm l ∧ ordering.Pairwise (fun a b => key a ≤ key b) ∧
    page = (ordering.drop start).take count

variable {key}

theorem IsPage.length_eq {l page : List α} {start count : ℕ} (h : IsPage key l start count page) :
    page.length = min count (l.length - start) := by
  obtain ⟨ordering, hperm, -, rfl⟩ := h
  rw [List.length_take, List.length_drop, hperm.length_eq]

theorem pairwise_mergeSort (l : List α) :
    (l.mergeSort fun a b => decide (key a ≤ key b)).Pairwise fun a b => key a ≤ key b := by
  refine (List.pairwise_mergeSort (fun a b c hab hbc => ?_) (fun a b => ?_) l).imp fun h => of_decide_eq_true h
  · exact decide_eq_true ((of_decide_eq_true hab).trans (of_decide_eq_true hbc))
  · rw [Bool.or_eq_true, decide_eq_true_eq, decide_eq_true_eq]
    exact le_total _ _

theorem SortsFront.exists_ordering {sort : List α → ℕ → List α} (hsort : SortsFront key sort) {l : List α}
    {k : ℕ} (hk : k ≤ l.length) :
    ∃ ordering : List α, ordering.Perm l ∧ ordering.Pairwise (fun a b => key a ≤ key b) ∧
      ordering.take k = (sort l k).take k := by
  have hback := ((sort l k).drop k).mergeSort_perm fun a b => decide (key a ≤ key b)
  have hfront : ((sort l k).take k).length = k := by
    rw [List.length_take, (hsort.perm l k hk).length_eq, Nat.min_eq_left hk]
  refine ⟨(sort l k).take k ++ ((sort l k).drop k).mergeSort fun a b => decide (key a ≤ key b), ?_, ?_, ?_⟩
  · have hall := hback.append_left ((sort l k).take k)
    rw [List.take_append_drop] at hall
    exact hall.trans (hsort.perm l k hk)
  · rw [List.pairwise_append]
    exact ⟨hsort.sorted l k hk, pairwise_mergeSort _,
      fun a ha b hb => hsort.least l k hk a ha b (hback.mem_iff.mp hb)⟩
  · rw [List.take_append_of_le_length hfront.ge, List.take_of_length_le hfront.le]

theorem SortsFront.isPage {sort : List α → ℕ → List α} (hsort : SortsFront key sort) {l : List α}
    {start count : ℕ} (hk : start + count ≤ l.length) :
    IsPage key l start count (((sort l (start + count)).drop start).take count) := by
  obtain ⟨ordering, hperm, hsorted, htake⟩ := hsort.exists_ordering hk
  refine ⟨ordering, hperm, hsorted, ?_⟩
  rw [List.take_drop, List.take_drop, htake]

theorem sortsFront_mergeSort :
    SortsFront key fun l _ => l.mergeSort fun a b => decide (key a ≤ key b) := by
  refine ⟨fun l _ _ => List.mergeSort_perm l _, fun l k _ => (pairwise_mergeSort l).sublist (List.take_sublist k _), ?_⟩
  intro l k _ a ha b hb
  have hall := @pairwise_mergeSort α key l
  rw [← List.take_append_drop k (l.mergeSort _), List.pairwise_append] at hall
  exact hall.2.2 a ha b hb

end PartialSort
