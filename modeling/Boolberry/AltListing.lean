import Boolberry.BranchTimestamps
import Boolberry.Lib.PartialSort

/-!
# Pages of alternative blocks

`get_alt_blocks_rpc_details` sorts as many alternative blocks as the page needs and cuts the page out. The
end of the page is summed up in 64 bits.
-/

namespace Boolberry
namespace AltListing

open KeyValue PartialSort

/-- The blocks in the order in which the hash map runs through them; their number is a `size_t`. -/
structure Listing (m : Map Hash BlockExtendedInfo) where
  its : List (Hash × BlockExtendedInfo)
  enumerates : m.Enumerates its
  length_lt : its.length < 2 ^ 64

def height (e : Hash × BlockExtendedInfo) : ℕ := e.2.height

-- `std::partial_sort` by height, and what `get_alt_block_rpc_details` fills in
variable (partialSort : List (Hash × BlockExtendedInfo) → ℕ → List (Hash × BlockExtendedInfo))
variable {Info : Type} (getAltBlockRpcDetails : BlockExtendedInfo → Hash → Info)

/-- `none` when an iterator leaves the list. -/
def getAltBlocksRpcDetails {m : Map Hash BlockExtendedInfo} (L : Listing m) (startOffset count : UInt64)
    (blocks : List Info) : Option (List Info) :=
  let size := UInt64.ofNat L.its.length
  if size ≤ startOffset ∨ count = 0 then some blocks
  else
    let count := if size ≤ startOffset + count then size - startOffset else count
    if L.its.length < startOffset.toNat + count.toNat then none
    else
      let blocksIts := (partialSort L.its (startOffset.toNat + count.toNat)).drop startOffset.toNat
      if blocksIts.length < count.toNat then none
      else some (blocks ++ (blocksIts.take count.toNat).map fun it => getAltBlockRpcDetails it.2 it.1)

/-- A page of the blocks in some order by height is appended. -/
def ReturnsPage {m : Map Hash BlockExtendedInfo} (L : Listing m) (startOffset count : UInt64)
    (blocks : List Info) : Prop :=
  ∃ page, getAltBlocksRpcDetails partialSort getAltBlockRpcDetails L startOffset count blocks =
      some (blocks ++ page.map fun it => getAltBlockRpcDetails it.2 it.1) ∧
    page.length = min count.toNat (L.its.length - startOffset.toNat) ∧
    IsPage height L.its startOffset.toNat count.toNat page

variable {partialSort} {getAltBlockRpcDetails}

theorem isPage_past {l page : List (Hash × BlockExtendedInfo)} {start count count' : ℕ}
    (h : IsPage height l start count page) (hcount : l.length - start ≤ count) (hcount' : l.length - start ≤ count') :
    IsPage height l start count' page := by
  obtain ⟨ordering, hperm, hsorted, rfl⟩ := h
  refine ⟨ordering, hperm, hsorted, ?_⟩
  rw [List.take_of_length_le (by rwa [List.length_drop, hperm.length_eq]),
    List.take_of_length_le (by rwa [List.length_drop, hperm.length_eq])]

theorem isPage_nil {l : List (Hash × BlockExtendedInfo)} {start count : ℕ} (h : l.length ≤ start ∨ count = 0) :
    IsPage height l start count [] := by
  refine ⟨l.mergeSort fun a b => decide (height a ≤ height b), List.mergeSort_perm l _, pairwise_mergeSort l, ?_⟩
  rcases h with h | rfl
  · rw [List.drop_of_length_le (by rwa [List.length_mergeSort]), List.take_nil]
  · rw [List.take_zero]

theorem cut_page (hsort : SortsFront height partialSort) {l : List (Hash × BlockExtendedInfo)} {start count : ℕ}
    (hfits : start + count ≤ l.length) :
    ¬((partialSort l (start + count)).drop start).length < count ∧
      IsPage height l start count (((partialSort l (start + count)).drop start).take count) := by
  refine ⟨?_, hsort.isPage hfits⟩
  rw [List.length_drop, (hsort.perm _ _ hfits).length_eq]
  omega

theorem returnsPage_of_isPage {m : Map Hash BlockExtendedInfo} {L : Listing m} {startOffset count : UInt64}
    {blocks : List Info} {page : List (Hash × BlockExtendedInfo)}
    (hpage : IsPage height L.its startOffset.toNat count.toNat page)
    (h : getAltBlocksRpcDetails partialSort getAltBlockRpcDetails L startOffset count blocks =
      some (blocks ++ page.map fun it => getAltBlockRpcDetails it.2 it.1)) :
    ReturnsPage partialSort getAltBlockRpcDetails L startOffset count blocks :=
  ⟨page, h, hpage.length_eq, hpage⟩

/-- When the sum wraps it is a place before the start, so the count stays as it came and the page leaves the list. -/
theorem page_leaves_list {m : Map Hash BlockExtendedInfo} {L : Listing m} {startOffset count : UInt64}
    {blocks : List Info} (hinside : startOffset.toNat < L.its.length)
    (hend : 2 ^ 64 ≤ startOffset.toNat + count.toNat) :
    getAltBlocksRpcDetails partialSort getAltBlockRpcDetails L startOffset count blocks = none := by
  have hsize : (UInt64.ofNat L.its.length).toNat = L.its.length := Nat.mod_eq_of_lt L.length_lt
  have hstart := startOffset.toNat_lt
  have hcount := count.toNat_lt
  have hlen := L.length_lt
  have hempty : ¬(UInt64.ofNat L.its.length ≤ startOffset ∨ count = 0) := by
    rw [UInt64.le_iff_toNat_le, hsize]
    rintro (h | rfl)
    · exact absurd hinside (Nat.not_lt.mpr h)
    · rw [UInt64.toNat_zero] at hend
      omega
  have hsum : (startOffset + count).toNat < startOffset.toNat := by
    rw [UInt64.toNat_add]
    omega
  have hshort : ¬UInt64.ofNat L.its.length ≤ startOffset + count := by
    rw [UInt64.le_iff_toNat_le, hsize]
    omega
  rw [getAltBlocksRpcDetails]
  simp only [if_neg hempty, if_neg hshort, if_pos (show L.its.length < startOffset.toNat + count.toNat by omega)]

/-- The page is right exactly if it starts past the end or its end is a 64-bit number. -/
theorem returnsPage_iff (hsort : SortsFront height partialSort) {m : Map Hash BlockExtendedInfo} (L : Listing m)
    (startOffset count : UInt64) (blocks : List Info) :
    ReturnsPage partialSort getAltBlockRpcDetails L startOffset count blocks ↔
      L.its.length ≤ startOffset.toNat ∨ startOffset.toNat + count.toNat < 2 ^ 64 := by
  have hsize : (UInt64.ofNat L.its.length).toNat = L.its.length := Nat.mod_eq_of_lt L.length_lt
  have hrange := startOffset.toNat_lt
  by_cases hempty : UInt64.ofNat L.its.length ≤ startOffset ∨ count = 0
  · have hcase : L.its.length ≤ startOffset.toNat ∨ count.toNat = 0 := by
      rw [UInt64.le_iff_toNat_le, hsize] at hempty
      exact hempty.imp_right fun h => by rw [h, UInt64.toNat_zero]
    refine ⟨fun _ => hcase.imp_right fun h => by omega, fun _ => ?_⟩
    refine returnsPage_of_isPage (isPage_nil hcase) ?_
    rw [getAltBlocksRpcDetails]
    simp only [if_pos hempty, List.map_nil, List.append_nil]
  · have hinside : startOffset.toNat < L.its.length := by
      by_contra hout
      refine hempty (Or.inl ?_)
      rw [UInt64.le_iff_toNat_le, hsize]
      exact Nat.not_lt.mp hout
    rw [or_iff_right (Nat.not_le.mpr hinside)]
    by_cases hend : startOffset.toNat + count.toNat < 2 ^ 64
    · refine ⟨fun _ => hend, fun _ => ?_⟩
      have hsum : (startOffset + count).toNat = startOffset.toNat + count.toNat := by
        rw [UInt64.toNat_add]
        exact Nat.mod_eq_of_lt hend
      -- the count that is left fits, and asks for the same page
      obtain ⟨c, hc, hfits, hsame⟩ : ∃ c : UInt64, (if UInt64.ofNat L.its.length ≤ startOffset + count then
          UInt64.ofNat L.its.length - startOffset else count) = c ∧ startOffset.toNat + c.toNat ≤ L.its.length ∧
          ∀ page, IsPage height L.its startOffset.toNat c.toNat page →
            IsPage height L.its startOffset.toNat count.toNat page := by
        refine ⟨_, rfl, ?_⟩
        split_ifs with hlong
        · rw [UInt64.le_iff_toNat_le, hsize, hsum] at hlong
          have hsub : (UInt64.ofNat L.its.length - startOffset).toNat = L.its.length - startOffset.toNat := by
            rw [UInt64.toNat_sub_of_le _ _ (by rw [UInt64.le_iff_toNat_le, hsize]; omega), hsize]
          rw [hsub]
          exact ⟨by omega, fun page hpage => isPage_past hpage le_rfl (by omega)⟩
        · rw [UInt64.le_iff_toNat_le, hsize, hsum] at hlong
          exact ⟨by omega, fun page hpage => hpage⟩
      obtain ⟨hlen, hpage⟩ := cut_page hsort hfits
      refine returnsPage_of_isPage (hsame _ hpage) ?_
      rw [getAltBlocksRpcDetails]
      simp only [if_neg hempty, hc, if_neg (Nat.not_lt.mpr hfits), if_neg hlen]
    · refine ⟨?_, fun h => absurd h hend⟩
      rintro ⟨page, hpage, -⟩
      rw [page_leaves_list hinside (Nat.not_lt.mp hend)] at hpage
      cases hpage

def sampleChains : Map Hash BlockExtendedInfo := ((∅ : Map Hash BlockExtendedInfo).set 1 (stamped 1)).set 2 (stamped 2)

def sampleListing : Listing sampleChains where
  its := [(1, stamped 1), (2, stamped 2)]
  enumerates := by
    refine ⟨by decide, fun id bei => ?_⟩
    rw [sampleChains, Map.get_set, Map.get_set, Map.get_empty, List.mem_pair, Prod.mk.injEq, Prod.mk.injEq]
    by_cases htwo : id = 2
    · subst htwo
      rw [if_pos rfl, Option.some_inj, @eq_comm _ (stamped 2)]
      simp
    · rw [if_neg htwo, Option.ite_none_right_eq_some, Option.some_inj, @eq_comm _ (stamped 1)]
      exact or_iff_left fun h => htwo h.1
  length_lt := by decide

/-- The second of two blocks. -/
theorem second_page :
    ReturnsPage (fun l _ => l.mergeSort fun a b => decide (height a ≤ height b)) (fun _ id => id) sampleListing 1 5 [] :=
  (returnsPage_iff sortsFront_mergeSort sampleListing 1 5 []).mpr (by decide)

/-- From the second block on, as many as a 64-bit number can ask for. -/
theorem page_end_wraps : SortsFront height (fun l _ => l.mergeSort fun a b => decide (height a ≤ height b)) ∧
    ¬ReturnsPage (fun l _ => l.mergeSort fun a b => decide (height a ≤ height b)) (fun _ id => id) sampleListing 1
      18446744073709551615 [] := by
  refine ⟨sortsFront_mergeSort, ?_⟩
  rintro ⟨page, hpage, -⟩
  rw [page_leaves_list (by decide) (by simp)] at hpage
  cases hpage

end AltListing
end Boolberry
