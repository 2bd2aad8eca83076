import Mathlib.Data.Rat.Cast.Order
import Mathlib.Data.UInt
import Mathlib.Tactic.Positivity
import Boolberry.Difficulty
import Boolberry.IntUtil

/-!
# Retargeting

The retarget rule beside the 64-bit one it replaced: where both answer they answer the same, and neither
the order of the timestamps nor their origin matters.
-/

namespace Boolberry

/-- `next_difficulty_old`: the retarget rule with 64-bit difficulties. -/
def nextDifficultyOld (timestamps cumulativeDifficulties : List UInt64) : UInt64 :=
  let timestamps := timestamps.take DIFFICULTY_WINDOW
  let cumulativeDifficulties := cumulativeDifficulties.take DIFFICULTY_WINDOW
  let length := timestamps.length
  if length ≤ 1 then 1
  else
    let sorted := timestamps.insertionSort (· ≤ ·)
    let kept := DIFFICULTY_WINDOW - 2 * DIFFICULTY_CUT
    let cutBegin := if length ≤ kept then 0 else (length - kept + 1) / 2
    let cutEnd := if length ≤ kept then length else cutBegin + kept
    let span := sorted.getD (cutEnd - 1) 0 - sorted.getD cutBegin 0
    let timeSpan := if span = 0 then 1 else span
    let totalWork := cumulativeDifficulties.getD (cutEnd - 1) 0 - cumulativeDifficulties.getD cutBegin 0
    let product := mul128 totalWork (UInt64.ofNat DIFFICULTY_TARGET)
    if product.1 ≠ 0 ∨ product.2 + timeSpan - 1 < product.2 then 0
    else (product.2 + timeSpan - 1) / timeSpan

/-- `next_difficulty` with its assertions and every index checked. -/
def nextDifficultyChecked (timestamps : List UInt64) (cumulativeDifficulties : List WideDifficulty) :
    Option WideDifficulty :=
  let timestamps := timestamps.take DIFFICULTY_WINDOW
  let cumulativeDifficulties := cumulativeDifficulties.take DIFFICULTY_WINDOW
  let length := timestamps.length
  if length ≠ cumulativeDifficulties.length then none
  else if length ≤ 1 then some 1
  else if ¬length ≤ DIFFICULTY_WINDOW then none
  else
    let sorted := timestamps.insertionSort (· ≤ ·)
    let kept := DIFFICULTY_WINDOW - 2 * DIFFICULTY_CUT
    let cutBegin := if length ≤ kept then 0 else (length - kept + 1) / 2
    let cutEnd := if length ≤ kept then length else cutBegin + kept
    if ¬(cutBegin + 2 ≤ cutEnd ∧ cutEnd ≤ length) then none
    else do
      let latest ← sorted[cutEnd - 1]?
      let earliest ← sorted[cutBegin]?
      let timeSpan := if latest - earliest = 0 then 1 else (latest - earliest).toNat
      let workEnd ← cumulativeDifficulties[cutEnd - 1]?
      let workBegin ← cumulativeDifficulties[cutBegin]?
      let totalWork := workEnd - workBegin
      if ¬0 < totalWork then none
      else
        let res := (totalWork.toNat * DIFFICULTY_TARGET + timeSpan - 1) / timeSpan
        if 2 ^ 128 - 1 < res then some 0 else some (BitVec.ofNat 128 res)

/-- A 64-bit difficulty as a wide one. -/
def widenDifficulty (difficulty : UInt64) : WideDifficulty := BitVec.ofNat 128 difficulty.toNat

/-- The positions the rule keeps after sorting: from the first up to the second. -/
def difficultyCut (length : ℕ) : ℕ × ℕ :=
  let kept := DIFFICULTY_WINDOW - 2 * DIFFICULTY_CUT
  let cutBegin := if length ≤ kept then 0 else (length - kept + 1) / 2
  (cutBegin, if length ≤ kept then length else cutBegin + kept)

def sortedWindow (timestamps : List UInt64) : List UInt64 :=
  (timestamps.take DIFFICULTY_WINDOW).insertionSort (· ≤ ·)

/-- The time the kept part of the window took, at least a second. -/
def windowSpan (timestamps : List UInt64) : UInt64 :=
  let cut := difficultyCut (timestamps.take DIFFICULTY_WINDOW).length
  let span := (sortedWindow timestamps).getD (cut.2 - 1) 0 - (sortedWindow timestamps).getD cut.1 0
  if span = 0 then 1 else span

/-- The work between the ends of the kept part, for `length` entries. -/
def windowWork {α : Type} [Sub α] [Zero α] (length : ℕ) (cumulativeDifficulties : List α) : α :=
  let cut := difficultyCut length
  let entries := cumulativeDifficulties.take DIFFICULTY_WINDOW
  entries.getD (cut.2 - 1) 0 - entries.getD cut.1 0

/-- Work per target time, before any rounding. -/
def exactQuotient (timestamps : List UInt64) (cumulativeDifficulties : List WideDifficulty) : ℚ :=
  (windowWork (timestamps.take DIFFICULTY_WINDOW).length cumulativeDifficulties).toNat *
    DIFFICULTY_TARGET / (windowSpan timestamps).toNat

theorem difficultyCut_le {n : ℕ} (hn : 1 < n) (hle : n ≤ DIFFICULTY_WINDOW) :
    (difficultyCut n).1 + 2 ≤ (difficultyCut n).2 ∧ (difficultyCut n).2 ≤ n := by
  change n ≤ 720 at hle
  unfold difficultyCut
  change (if n ≤ 600 then 0 else (n - 600 + 1) / 2) + 2 ≤
      (if n ≤ 600 then n else (if n ≤ 600 then 0 else (n - 600 + 1) / 2) + 600) ∧
    (if n ≤ 600 then n else (if n ≤ 600 then 0 else (n - 600 + 1) / 2) + 600) ≤ n
  by_cases hkept : n ≤ 600
  · rw [if_pos hkept, if_pos hkept]
    omega
  · rw [if_neg hkept, if_neg hkept]
    omega

theorem nextDifficulty_window {ts : List UInt64} (cds : List WideDifficulty)
    (hlen : 1 < (ts.take DIFFICULTY_WINDOW).length) :
    nextDifficulty ts cds =
      let work := windowWork (ts.take DIFFICULTY_WINDOW).length cds
      let span := (windowSpan ts).toNat
      let res := (work.toNat * DIFFICULTY_TARGET + span - 1) / span
      if 2 ^ 128 - 1 < res then 0 else BitVec.ofNat 128 res := by
  have hspan : (windowSpan ts).toNat =
      let cut := difficultyCut (ts.take DIFFICULTY_WINDOW).length
      let span := (sortedWindow ts).getD (cut.2 - 1) 0 - (sortedWindow ts).getD cut.1 0
      if span = 0 then 1 else span.toNat := by
    unfold windowSpan
    exact apply_ite UInt64.toNat _ _ _
  unfold nextDifficulty
  dsimp only
  rw [if_neg (by omega), hspan]
  rfl

theorem nextDifficultyOld_window {ts : List UInt64} (cds : List UInt64)
    (hlen : 1 < (ts.take DIFFICULTY_WINDOW).length) :
    nextDifficultyOld ts cds =
      let work := windowWork (ts.take DIFFICULTY_WINDOW).length cds
      let product := mul128 work (UInt64.ofNat DIFFICULTY_TARGET)
      if product.1 ≠ 0 ∨ product.2 + windowSpan ts - 1 < product.2 then 0
      else (product.2 + windowSpan ts - 1) / windowSpan ts := by
  unfold nextDifficultyOld
  dsimp only
  rw [if_neg (by omega)]
  rfl

theorem windowSpan_pos (ts : List UInt64) : 0 < (windowSpan ts).toNat := by
  unfold windowSpan
  dsimp only
  split_ifs with hspan
  · exact Nat.one_pos
  · exact Nat.pos_of_ne_zero fun h0 => hspan (UInt64.toNat_inj.mp h0)

/-- Strictly increasing difficulties increase over the kept part of the window. -/
theorem windowWork_ends {α : Type} [Zero α] [LT α] {length : ℕ} {cds : List α}
    (hcds : cds.Pairwise (· < ·)) (hn : 1 < length)
    (hle : length ≤ (cds.take DIFFICULTY_WINDOW).length) :
    let entries := cds.take DIFFICULTY_WINDOW
    entries.getD (difficultyCut length).1 0 < entries.getD ((difficultyCut length).2 - 1) 0 := by
  have hcut := difficultyCut_le hn (hle.trans (by rw [List.length_take]; exact Nat.min_le_left _ _))
  have hpair : (cds.take DIFFICULTY_WINDOW).Pairwise (· < ·) :=
    hcds.sublist (List.take_sublist _ _)
  dsimp only
  rw [List.getD_eq_getElem _ _ (by omega), List.getD_eq_getElem _ _ (by omega)]
  exact List.pairwise_iff_getElem.mp hpair _ _ _ _ (by omega)

@[simp]
theorem toNat_widenDifficulty (d : UInt64) : (widenDifficulty d).toNat = d.toNat := by
  unfold widenDifficulty
  rw [BitVec.toNat_ofNat]
  exact Nat.mod_eq_of_lt (d.toNat_lt.trans (by decide))

theorem widenDifficulty_lt {a b : UInt64} : widenDifficulty a < widenDifficulty b ↔ a < b := by
  rw [BitVec.lt_def, toNat_widenDifficulty, toNat_widenDifficulty, UInt64.lt_iff_toNat_lt]

theorem toNat_sub_of_lt {a b : WideDifficulty} (h : a < b) : (b - a).toNat = b.toNat - a.toNat :=
  BitVec.toNat_sub_of_le (BitVec.le_of_lt h)

theorem getD_map_widen (cds : List UInt64) (i : ℕ) :
    (cds.map widenDifficulty).getD i 0 = widenDifficulty (cds.getD i 0) := by
  rw [List.getD_eq_getElem?_getD, List.getD_eq_getElem?_getD, List.getElem?_map]
  cases cds[i]? <;> rfl

theorem windowWork_widen (length : ℕ) {cds : List UInt64}
    (hcds : (cds.map widenDifficulty).Pairwise (· < ·)) (hn : 1 < length)
    (hle : length ≤ (cds.take DIFFICULTY_WINDOW).length) :
    (windowWork length (cds.map widenDifficulty)).toNat = (windowWork length cds).toNat := by
  have hold : cds.Pairwise (· < ·) :=
    (List.pairwise_map.mp hcds).imp fun h => widenDifficulty_lt.mp h
  have hends := windowWork_ends hold hn hle
  unfold windowWork
  dsimp only at hends ⊢
  rw [← List.map_take, getD_map_widen, getD_map_widen,
    toNat_sub_of_lt (widenDifficulty_lt.mpr hends), toNat_widenDifficulty, toNat_widenDifficulty,
    UInt64.toNat_sub_of_le _ _ (UInt64.le_of_lt hends)]

theorem nextDifficultyOld_exact {ts cds : List UInt64}
    (hn : 1 < (ts.take DIFFICULTY_WINDOW).length) (hne : nextDifficultyOld ts cds ≠ 0) :
    (nextDifficultyOld ts cds).toNat =
      ((windowWork (ts.take DIFFICULTY_WINDOW).length cds).toNat * DIFFICULTY_TARGET +
        (windowSpan ts).toNat - 1) / (windowSpan ts).toNat := by
  rw [nextDifficultyOld_window _ hn] at hne ⊢
  dsimp only at hne ⊢
  have hspan := windowSpan_pos ts
  have hexact := mul128_exact (windowWork (ts.take DIFFICULTY_WINDOW).length cds)
    (UInt64.ofNat DIFFICULTY_TARGET)
  generalize windowWork (ts.take DIFFICULTY_WINDOW).length cds = work at *
  generalize windowSpan ts = span at *
  change _ = work.toNat * DIFFICULTY_TARGET at hexact
  generalize mul128 work (UInt64.ofNat DIFFICULTY_TARGET) = product at *
  have hin : ¬(product.1 ≠ 0 ∨ product.2 + span - 1 < product.2) := fun h => hne (if_pos h)
  rw [if_neg hin]
  rw [not_or, not_not] at hin
  rw [hin.1] at hexact
  rw [UInt64.toNat_div]
  have hsum : (product.2 + span - 1).toNat = work.toNat * DIFFICULTY_TARGET + span.toNat - 1 := by
    have hlow := hin.2
    rw [← hexact]
    generalize product.2 = low at *
    rw [UInt64.lt_iff_toNat_lt, UInt64.toNat_sub, UInt64.toNat_add, UInt64.toNat_one] at hlow
    rw [UInt64.toNat_sub, UInt64.toNat_add, UInt64.toNat_one, UInt64.toNat_zero]
    have hl := low.toNat_lt
    have hs := span.toNat_lt
    omega
  rw [hsum]

/-- Where the 64-bit rule answers, the wide one gives the same answer. -/
theorem nextDifficulty_widen {ts cds : List UInt64} (hlen : ts.length = cds.length)
    (hcds : (cds.map widenDifficulty).Pairwise (· < ·)) (hne : nextDifficultyOld ts cds ≠ 0) :
    nextDifficulty ts (cds.map widenDifficulty) = widenDifficulty (nextDifficultyOld ts cds) := by
  have htake : (ts.take DIFFICULTY_WINDOW).length = (cds.take DIFFICULTY_WINDOW).length := by
    rw [List.length_take, List.length_take, hlen]
  by_cases hn : 1 < (ts.take DIFFICULTY_WINDOW).length
  · have hexact := nextDifficultyOld_exact hn hne
    have hlt := (nextDifficultyOld ts cds).toNat_lt
    rw [nextDifficulty_window _ hn]
    dsimp only
    rw [windowWork_widen _ hcds hn htake.le, ← hexact, if_neg (by omega)]
    rfl
  · have hshort : (ts.take DIFFICULTY_WINDOW).length ≤ 1 := by omega
    unfold nextDifficulty nextDifficultyOld
    dsimp only
    rw [if_pos hshort, if_pos hshort]
    rfl

theorem nextDifficulty_ne_zero {ts : List UInt64} {cds : List WideDifficulty}
    (hlen : ts.length = cds.length) (hcds : cds.Pairwise (· < ·))
    (hle : exactQuotient ts cds ≤ 2 ^ 128 - 1) : 1 ≤ (nextDifficulty ts cds).toNat := by
  have htake : (ts.take DIFFICULTY_WINDOW).length = (cds.take DIFFICULTY_WINDOW).length := by
    rw [List.length_take, List.length_take, hlen]
  by_cases hn : 1 < (ts.take DIFFICULTY_WINDOW).length
  · rw [nextDifficulty_window _ hn]
    have hspan := windowSpan_pos ts
    have hwork : 0 < (windowWork (ts.take DIFFICULTY_WINDOW).length cds).toNat := by
      have hends := windowWork_ends hcds hn htake.le
      unfold windowWork
      dsimp only at hends ⊢
      rw [toNat_sub_of_lt hends]
      exact Nat.sub_pos_of_lt hends
    have hquot : (windowWork (ts.take DIFFICULTY_WINDOW).length cds).toNat * DIFFICULTY_TARGET ≤
        (2 ^ 128 - 1) * (windowSpan ts).toNat := by
      unfold exactQuotient at hle
      rw [div_le_iff₀ (by exact_mod_cast hspan),
        show (2 ^ 128 - 1 : ℚ) = (2 ^ 128 - 1 : ℕ) by norm_num] at hle
      exact_mod_cast hle
    generalize windowWork (ts.take DIFFICULTY_WINDOW).length cds = work at *
    generalize (windowSpan ts).toNat = span at *
    have hres : (work.toNat * DIFFICULTY_TARGET + span - 1) / span ≤ 2 ^ 128 - 1 := by
      rw [Nat.div_le_iff_le_mul_add_pred hspan, Nat.mul_comm span]
      omega
    have hpos : 1 ≤ (work.toNat * DIFFICULTY_TARGET + span - 1) / span := by
      rw [Nat.one_le_div_iff hspan]
      have : 0 < work.toNat * DIFFICULTY_TARGET := Nat.mul_pos hwork (by decide)
      omega
    dsimp only
    rw [if_neg (by omega), BitVec.toNat_ofNat, Nat.mod_eq_of_lt (by omega)]
    exact hpos
  · have hshort : (ts.take DIFFICULTY_WINDOW).length ≤ 1 := by omega
    unfold nextDifficulty
    dsimp only
    rw [if_pos hshort]
    decide

/-- The answer depends on the timestamps through their number and the span of the kept part. -/
theorem nextDifficulty_congr {ts ts' : List UInt64} (cds : List WideDifficulty)
    (hlen : (ts'.take DIFFICULTY_WINDOW).length = (ts.take DIFFICULTY_WINDOW).length)
    (hspan : windowSpan ts' = windowSpan ts) : nextDifficulty ts' cds = nextDifficulty ts cds := by
  by_cases hn : 1 < (ts.take DIFFICULTY_WINDOW).length
  · rw [nextDifficulty_window _ hn, nextDifficulty_window _ (by omega), hspan, hlen]
  · unfold nextDifficulty
    dsimp only
    rw [if_pos (by omega), if_pos (by omega)]

/-- Sorting forgets the order the timestamps came in. -/
theorem sortedWindow_perm {ts ts' : List UInt64}
    (h : (ts'.take DIFFICULTY_WINDOW).Perm (ts.take DIFFICULTY_WINDOW)) :
    sortedWindow ts' = sortedWindow ts := by
  have hperm : (sortedWindow ts').Perm (sortedWindow ts) :=
    (List.perm_insertionSort _ _).trans (h.trans (List.perm_insertionSort _ _).symm)
  exact hperm.eq_of_pairwise' (List.pairwise_insertionSort _ _) (List.pairwise_insertionSort _ _)

theorem nextDifficulty_perm {ts ts' : List UInt64} (cds : List WideDifficulty)
    (h : (ts'.take DIFFICULTY_WINDOW).Perm (ts.take DIFFICULTY_WINDOW)) :
    nextDifficulty ts' cds = nextDifficulty ts cds := by
  refine nextDifficulty_congr cds h.length_eq ?_
  unfold windowSpan
  rw [sortedWindow_perm h, h.length_eq]

/-- Every timestamp of the window moved by the same amount, none past the ends of the word. -/
def ShiftedBy (c : ℤ) (ts ts' : List UInt64) : Prop :=
  List.Forall₂ (fun t t' => (t'.toNat : ℤ) = t.toNat + c) (ts.take DIFFICULTY_WINDOW)
    (ts'.take DIFFICULTY_WINDOW)

theorem forall₂_orderedInsert {α β : Type} {r : α → α → Prop} {s : β → β → Prop} [DecidableRel r]
    [DecidableRel s] {R : α → β → Prop} (hR : ∀ a b a' b', R a a' → R b b' → (r a b ↔ s a' b'))
    {a : α} {a' : β} (ha : R a a') {l : List α} {l' : List β} (h : List.Forall₂ R l l') :
    List.Forall₂ R (l.orderedInsert r a) (l'.orderedInsert s a') := by
  induction h with
  | nil => exact .cons ha .nil
  | @cons b b' l l' hb hl ih =>
    rw [List.orderedInsert_cons, List.orderedInsert_cons]
    by_cases hab : r a b
    · rw [if_pos hab, if_pos ((hR _ _ _ _ ha hb).mp hab)]
      exact .cons ha (.cons hb hl)
    · rw [if_neg hab, if_neg fun h' => hab ((hR _ _ _ _ ha hb).mpr h')]
      exact .cons hb ih

theorem forall₂_insertionSort {α β : Type} {r : α → α → Prop} {s : β → β → Prop} [DecidableRel r]
    [DecidableRel s] {R : α → β → Prop} (hR : ∀ a b a' b', R a a' → R b b' → (r a b ↔ s a' b'))
    {l : List α} {l' : List β} (h : List.Forall₂ R l l') :
    List.Forall₂ R (l.insertionSort r) (l'.insertionSort s) := by
  induction h with
  | nil => exact .nil
  | cons ha _ ih => exact forall₂_orderedInsert hR ha ih

theorem sortedWindow_shift {c : ℤ} {ts ts' : List UInt64} (h : ShiftedBy c ts ts') :
    List.Forall₂ (fun t t' => (t'.toNat : ℤ) = t.toNat + c) (sortedWindow ts) (sortedWindow ts') := by
  refine forall₂_insertionSort ?_ h
  intro a b a' b' ha hb
  rw [UInt64.le_iff_toNat_le, UInt64.le_iff_toNat_le]
  omega

theorem sub_eq_of_shift {c : ℤ} {a b a' b' : UInt64} (ha : (a'.toNat : ℤ) = a.toNat + c)
    (hb : (b'.toNat : ℤ) = b.toNat + c) : a' - b' = a - b := by
  apply UInt64.toNat_inj.mp
  rw [UInt64.toNat_sub, UInt64.toNat_sub]
  have := a.toNat_lt
  have := b.toNat_lt
  have := a'.toNat_lt
  have := b'.toNat_lt
  omega

theorem length_sortedWindow (ts : List UInt64) :
    (sortedWindow ts).length = (ts.take DIFFICULTY_WINDOW).length := List.length_insertionSort _ _

theorem nextDifficulty_shift {c : ℤ} {ts ts' : List UInt64} (cds : List WideDifficulty)
    (h : ShiftedBy c ts ts') : nextDifficulty ts' cds = nextDifficulty ts cds := by
  have hlen : (ts'.take DIFFICULTY_WINDOW).length = (ts.take DIFFICULTY_WINDOW).length :=
    h.length_eq.symm
  by_cases hn : 1 < (ts.take DIFFICULTY_WINDOW).length
  · refine nextDifficulty_congr cds hlen ?_
    have hcut := difficultyCut_le hn (by rw [List.length_take]; exact Nat.min_le_left _ _)
    have hsorted := sortedWindow_shift h
    have hat : ∀ i < (ts.take DIFFICULTY_WINDOW).length,
        (((sortedWindow ts').getD i 0).toNat : ℤ) = ((sortedWindow ts).getD i 0).toNat + c := by
      intro i hi
      rw [List.getD_eq_getElem _ _ (by rw [length_sortedWindow]; omega),
        List.getD_eq_getElem _ _ (by rw [length_sortedWindow]; omega)]
      exact hsorted.get _ _
    unfold windowSpan
    dsimp only
    rw [hlen, sub_eq_of_shift (hat _ (by omega)) (hat _ (by omega))]
  · unfold nextDifficulty
    dsimp only
    rw [if_pos (by omega), if_pos (by omega)]

theorem nextDifficultyChecked_window {ts : List UInt64} {cds : List WideDifficulty}
    (hlen : (ts.take DIFFICULTY_WINDOW).length = (cds.take DIFFICULTY_WINDOW).length)
    (hn : 1 < (ts.take DIFFICULTY_WINDOW).length) :
    nextDifficultyChecked ts cds =
      let cut := difficultyCut (ts.take DIFFICULTY_WINDOW).length
      if ¬(cut.1 + 2 ≤ cut.2 ∧ cut.2 ≤ (ts.take DIFFICULTY_WINDOW).length) then none
      else (do
        let latest ← (sortedWindow ts)[cut.2 - 1]?
        let earliest ← (sortedWindow ts)[cut.1]?
        let timeSpan := if latest - earliest = 0 then 1 else (latest - earliest).toNat
        let workEnd ← (cds.take DIFFICULTY_WINDOW)[cut.2 - 1]?
        let workBegin ← (cds.take DIFFICULTY_WINDOW)[cut.1]?
        let totalWork := workEnd - workBegin
        if ¬0 < totalWork then none
        else
          let res := (totalWork.toNat * DIFFICULTY_TARGET + timeSpan - 1) / timeSpan
          if 2 ^ 128 - 1 < res then some 0 else some (BitVec.ofNat 128 res)) := by
  have hwindow : (ts.take DIFFICULTY_WINDOW).length ≤ DIFFICULTY_WINDOW := by
    rw [List.length_take]
    exact Nat.min_le_left _ _
  unfold nextDifficultyChecked
  dsimp only
  rw [if_neg (by omega), if_neg (by omega), if_neg (by omega)]
  rfl

theorem getElem?_eq_getD {α : Type} (l : List α) (d : α) {i : ℕ} (hi : i < l.length) :
    l[i]? = some (l.getD i d) := by
  rw [List.getElem?_eq_getElem hi, List.getD_eq_getElem _ _ hi]

/-- The assertions hold and every index is in bounds. -/
theorem nextDifficultyChecked_eq {ts : List UInt64} {cds : List WideDifficulty}
    (hlen : ts.length = cds.length) (hcds : cds.Pairwise (· < ·)) :
    nextDifficultyChecked ts cds = some (nextDifficulty ts cds) := by
  have htake : (ts.take DIFFICULTY_WINDOW).length = (cds.take DIFFICULTY_WINDOW).length := by
    rw [List.length_take, List.length_take, hlen]
  by_cases hn : (ts.take DIFFICULTY_WINDOW).length ≤ 1
  · unfold nextDifficultyChecked nextDifficulty
    dsimp only
    rw [if_neg (by omega), if_pos hn, if_pos hn]
  · have hn' : 1 < (ts.take DIFFICULTY_WINDOW).length := by omega
    have hcut := difficultyCut_le hn' (by rw [List.length_take]; exact Nat.min_le_left _ _)
    have hends := windowWork_ends hcds hn' htake.le
    have hsorted := length_sortedWindow ts
    rw [nextDifficultyChecked_window htake hn', nextDifficulty_window _ hn']
    unfold windowSpan windowWork
    dsimp only at hends ⊢
    rw [if_neg (not_not.mpr hcut), getElem?_eq_getD (sortedWindow ts) 0 (by omega),
      getElem?_eq_getD (sortedWindow ts) 0 (by omega),
      getElem?_eq_getD (cds.take DIFFICULTY_WINDOW) 0 (by omega),
      getElem?_eq_getD (cds.take DIFFICULTY_WINDOW) 0 (by omega)]
    generalize (sortedWindow ts).getD _ 0 = earliest at *
    generalize (sortedWindow ts).getD _ 0 = latest at *
    generalize (cds.take DIFFICULTY_WINDOW).getD _ 0 = first at *
    generalize (cds.take DIFFICULTY_WINDOW).getD _ 0 = last at *
    have hwork : 0 < last - first := by
      rw [BitVec.lt_def, toNat_sub_of_lt hends]
      exact Nat.sub_pos_of_lt hends
    change (if ¬0 < last - first then none else _) = _
    rw [if_neg (not_not.mpr hwork), apply_ite some, apply_ite UInt64.toNat]
    rfl

/-- The retarget rule: the answer of the 64-bit rule where there is one, zero only for a quotient of more
than 128 bits, the same for any order and any origin of the timestamps, and no index out of bounds. -/
theorem nextDifficulty_spec (ts : List UInt64) (cds : List WideDifficulty)
    (hlen : ts.length = cds.length) (hcds : cds.Pairwise (· < ·)) :
    (∀ old : List UInt64, cds = old.map widenDifficulty → nextDifficultyOld ts old ≠ 0 →
      nextDifficulty ts cds = widenDifficulty (nextDifficultyOld ts old)) ∧
    (1 ≤ (nextDifficulty ts cds).toNat ∨ 2 ^ 128 - 1 < exactQuotient ts cds) ∧
    (∀ ts' : List UInt64, (ts'.take DIFFICULTY_WINDOW).Perm (ts.take DIFFICULTY_WINDOW) →
      nextDifficulty ts' cds = nextDifficulty ts cds) ∧
    (∀ (ts' : List UInt64) (c : ℤ), ShiftedBy c ts ts' →
      nextDifficulty ts' cds = nextDifficulty ts cds) ∧
    nextDifficultyChecked ts cds = some (nextDifficulty ts cds) := by
  refine ⟨?_, ?_, fun _ h => nextDifficulty_perm cds h, fun _ _ h => nextDifficulty_shift cds h,
    nextDifficultyChecked_eq hlen hcds⟩
  · rintro old rfl hne
    exact nextDifficulty_widen (hlen.trans (List.length_map _)) hcds hne
  · rcases le_or_gt (exactQuotient ts cds) (2 ^ 128 - 1) with hle | hgt
    · exact .inl (nextDifficulty_ne_zero hlen hcds hle)
    · exact .inr hgt

/-- Three blocks, the middle one with the latest timestamp. -/
theorem nextDifficulty_spec_three :
    nextDifficulty [1000, 1400, 1240] [10, 20, 50] =
      widenDifficulty (nextDifficultyOld [1000, 1400, 1240] [10, 20, 50]) ∧
    nextDifficulty [1240, 1000, 1400] [10, 20, 50] = nextDifficulty [1000, 1400, 1240] [10, 20, 50] ∧
    nextDifficultyChecked [1000, 1400, 1240] [10, 20, 50] =
      some (nextDifficulty [1000, 1400, 1240] [10, 20, 50]) := by
  have h := nextDifficulty_spec [1000, 1400, 1240] [10, 20, 50] rfl (by decide)
  exact ⟨h.1 [10, 20, 50] (by decide) (by decide), h.2.2.1 _ (by decide), h.2.2.2.2⟩

end Boolberry
