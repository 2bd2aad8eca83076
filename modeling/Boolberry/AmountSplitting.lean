import Mathlib.Algebra.Order.BigOperators.Group.List
import Boolberry.Reservations

/-!
# Splitting amounts

`decompose_amount_into_digits` loses nothing of an amount, and neither does a transfer: the sources pay
for the outputs, the fee and the dust left to it.
-/

namespace Boolberry
open Aborting

/-- A single decimal digit times a power of ten. -/
def IsDigitChunk (c : UInt64) : Prop := ∃ d k : ℕ, 1 ≤ d ∧ d ≤ 9 ∧ c.toNat = d * 10 ^ k

/-- The loop after `j` digits: `amount` is what is above them, `dust` what was kept of them. -/
structure DigitState (dustThreshold amount order dust : UInt64) (n j : ℕ) : Prop where
  digits : amount.toNat < 10 ^ n
  position : j + n = 20
  order : order.toNat = 10 ^ j % 2 ^ 64
  total : amount.toNat * 10 ^ j + dust.toNat < 2 ^ 64
  below : dust.toNat < 10 ^ j
  le : dust ≤ dustThreshold

namespace DigitState

variable {dustThreshold amount order dust : UInt64} {n j : ℕ}

theorem start (amount dustThreshold : UInt64) : DigitState dustThreshold amount 1 0 20 0 where
  digits := amount.toNat_lt.trans (by decide)
  position := rfl
  order := rfl
  total := by simpa using amount.toNat_lt
  below := by simp
  le := UInt64.zero_le

theorem amount_zero (h : DigitState dustThreshold amount order dust 0 j) : amount = 0 := by
  have := h.digits
  rw [pow_zero] at this
  exact UInt64.toNat_inj.mp (Nat.lt_one_iff.mp this)

theorem split_digit (a j : ℕ) : a * 10 ^ j = a / 10 * 10 ^ (j + 1) + a % 10 * 10 ^ j := by
  conv_lhs => rw [← Nat.div_add_mod a 10]
  ring

/-- While there are digits left the order does not wrap, so the next chunk is exact. -/
theorem chunk_exact (h : DigitState dustThreshold amount order dust n j) (hne : amount ≠ 0) :
    (amount % 10 * order).toNat = amount.toNat % 10 * 10 ^ j := by
  have hpos : 1 ≤ amount.toNat := Nat.pos_of_ne_zero fun h0 => hne (UInt64.toNat_inj.mp h0)
  have horder : 10 ^ j ≤ amount.toNat * 10 ^ j := Nat.le_mul_of_pos_left _ hpos
  have hdigit : amount.toNat % 10 * 10 ^ j ≤ amount.toNat * 10 ^ j :=
    Nat.mul_le_mul_right _ (Nat.mod_le _ _)
  have htotal := h.total
  rw [UInt64.toNat_mul, UInt64.toNat_mod, h.order]
  change amount.toNat % 10 * (10 ^ j % 2 ^ 64) % 2 ^ 64 = _
  rw [Nat.mod_eq_of_lt (show 10 ^ j < 2 ^ 64 by omega), Nat.mod_eq_of_lt (by omega)]

theorem sum_exact (h : DigitState dustThreshold amount order dust n j) (hne : amount ≠ 0) :
    (dust + amount % 10 * order).toNat = dust.toNat + amount.toNat % 10 * 10 ^ j := by
  have hdigit : amount.toNat % 10 * 10 ^ j ≤ amount.toNat * 10 ^ j :=
    Nat.mul_le_mul_right _ (Nat.mod_le _ _)
  have htotal := h.total
  rw [UInt64.toNat_add, h.chunk_exact hne]
  exact Nat.mod_eq_of_lt (by omega)

theorem next {dust' : UInt64} (h : DigitState dustThreshold amount order dust (n + 1) j)
    (hdust : dust'.toNat ≤ dust.toNat + amount.toNat % 10 * 10 ^ j) (hle : dust' ≤ dustThreshold) :
    DigitState dustThreshold (amount / 10) (order * 10) dust' n (j + 1) where
  digits := by
    rw [UInt64.toNat_div]
    exact Nat.div_lt_of_lt_mul (h.digits.trans_eq (Nat.pow_succ'))
  position := by have := h.position; omega
  order := by
    rw [UInt64.toNat_mul, h.order, pow_succ]
    change 10 ^ j % 2 ^ 64 * 10 % 2 ^ 64 = _
    omega
  total := by
    have hsplit := split_digit amount.toNat j
    have htotal := h.total
    rw [UInt64.toNat_div]
    change amount.toNat / 10 * 10 ^ (j + 1) + _ < _
    omega
  below := by
    have hdigit : amount.toNat % 10 * 10 ^ j ≤ 9 * 10 ^ j := Nat.mul_le_mul_right _ (by omega)
    have hbelow := h.below
    rw [pow_succ]
    omega
  le := hle

end DigitState

theorem dustPart_nil {handled : Bool} {dust : UInt64} (hdone : handled = true ∨ dust = 0) :
    dustPart handled dust = [] := by
  unfold dustPart
  rw [if_neg]
  rintro ⟨hfalse, hne⟩
  rcases hdone with htrue | hzero
  · rw [htrue] at hfalse
    cases hfalse
  · exact hne hzero

/-- Once a digit did not fit into the dust no later one does: the others are chunks. -/
theorem decomposeDigits_closed {dustThreshold amount order dust : UInt64} {handled : Bool} {n j : ℕ}
    (h : DigitState dustThreshold amount order dust n j)
    (hclosed : dustThreshold.toNat < dust.toNat + 10 ^ j) (hdone : handled = true ∨ dust = 0) :
    ∃ chunks : List UInt64, decomposeDigits dustThreshold n amount order dust handled =
        chunks.map AmountPart.chunk ∧
      (∀ c ∈ chunks, IsDigitChunk c ∧ 10 ^ j ≤ c.toNat) ∧
      (chunks.map UInt64.toNat).sum = amount.toNat * 10 ^ j := by
  have hnone := dustPart_nil hdone
  induction n generalizing amount order dust handled j with
  | zero =>
    obtain rfl := h.amount_zero
    exact ⟨[], hnone, by simp, by simp⟩
  | succ n ih =>
    unfold decomposeDigits
    by_cases hzero : amount = 0
    · rw [if_pos hzero, hzero]
      exact ⟨[], hnone, by simp, by simp⟩
    rw [if_neg hzero]
    dsimp only
    have hsplit := DigitState.split_digit amount.toNat j
    have hchunk := h.chunk_exact hzero
    have hsum := h.sum_exact hzero
    have hdiv : (amount / 10).toNat = amount.toNat / 10 := UInt64.toNat_div _ _
    have hpow : 10 ^ (j + 1) = 10 ^ j * 10 := pow_succ 10 j
    by_cases hfits : dust + amount % 10 * order ≤ dustThreshold
    · -- only a zero fits
      rw [if_pos hfits]
      have hdigit : amount.toNat % 10 = 0 := by
        rw [UInt64.le_iff_toNat_le, hsum] at hfits
        by_contra hne
        have : 1 * 10 ^ j ≤ amount.toNat % 10 * 10 ^ j := Nat.mul_le_mul_right _ (by omega)
        omega
      rw [hdigit] at hsum hsplit
      have hdust : dust + amount % 10 * order = dust := UInt64.toNat_inj.mp (by omega)
      rw [hdust]
      obtain ⟨chunks, heq, hchunks, htotal⟩ := ih (h.next (by omega) h.le) (by omega) hdone hnone
      rw [hdiv] at htotal
      refine ⟨chunks, heq, fun c hc => ⟨(hchunks c hc).1, ?_⟩, by omega⟩
      have := (hchunks c hc).2
      omega
    · rw [if_neg hfits, hnone]
      -- a digit that is not zero is a chunk of its own
      have hdigit : 1 ≤ amount.toNat % 10 := by
        rw [UInt64.le_iff_toNat_le, hsum] at hfits
        have hle := h.le
        rw [UInt64.le_iff_toNat_le] at hle
        by_contra hlt
        rw [show amount.toNat % 10 = 0 by omega] at hfits
        omega
      have hlow : 1 * 10 ^ j ≤ amount.toNat % 10 * 10 ^ j := Nat.mul_le_mul_right _ hdigit
      have hne : amount % 10 * order ≠ 0 := by
        intro h0
        rw [h0, UInt64.toNat_zero] at hchunk
        have : 0 < 10 ^ j := Nat.pow_pos (by decide)
        omega
      have hdone' : (handled || dust != 0) = true ∨ dust = 0 := by
        rcases hdone with htrue | hzero
        · exact .inl (by rw [htrue, Bool.true_or])
        · exact .inr hzero
      obtain ⟨chunks, heq, hchunks, htotal⟩ :=
        ih (h.next (by omega) h.le) (by omega) hdone' (dustPart_nil hdone')
      rw [hdiv] at htotal
      rw [if_pos hne, heq]
      refine ⟨amount % 10 * order :: chunks, rfl, ?_, ?_⟩
      · rw [List.forall_mem_cons]
        refine ⟨⟨⟨amount.toNat % 10, j, hdigit, by omega, hchunk⟩, by omega⟩, fun c hc => ?_⟩
        exact ⟨(hchunks c hc).1, by have := (hchunks c hc).2; omega⟩
      · rw [List.map_cons, List.sum_cons, htotal]
        omega

/-- What the handlers are given: the dust first, if any, and then chunks that are all above it. -/
def Decomposed (dustThreshold : UInt64) (total : ℕ) (parts : List AmountPart) : Prop :=
  ∃ (dust : UInt64) (chunks : List UInt64), parts = dustPart false dust ++ chunks.map AmountPart.chunk ∧
    dust ≤ dustThreshold ∧ (∀ c ∈ chunks, IsDigitChunk c ∧ dust < c) ∧
    dust.toNat + (chunks.map UInt64.toNat).sum = total

theorem decomposeDigits_open {dustThreshold amount order dust : UInt64} {n j : ℕ}
    (h : DigitState dustThreshold amount order dust n j) :
    Decomposed dustThreshold (dust.toNat + amount.toNat * 10 ^ j)
      (decomposeDigits dustThreshold n amount order dust false) := by
  induction n generalizing amount order dust j with
  | zero =>
    obtain rfl := h.amount_zero
    exact ⟨dust, [], by simp [decomposeDigits], h.le, by simp, by simp⟩
  | succ n ih =>
    unfold decomposeDigits
    by_cases hzero : amount = 0
    · rw [if_pos hzero, hzero]
      exact ⟨dust, [], by simp, h.le, by simp, by simp⟩
    rw [if_neg hzero]
    dsimp only
    have hsplit := DigitState.split_digit amount.toNat j
    have hchunk := h.chunk_exact hzero
    have hsum := h.sum_exact hzero
    have hdiv : (amount / 10).toNat = amount.toNat / 10 := UInt64.toNat_div _ _
    have hpow : 10 ^ (j + 1) = 10 ^ j * 10 := pow_succ 10 j
    by_cases hfits : dust + amount % 10 * order ≤ dustThreshold
    · rw [if_pos hfits]
      have hrest := ih (h.next hsum.le hfits)
      rw [hsum, hdiv] at hrest
      rw [hsplit, Nat.add_comm (amount.toNat / 10 * _), ← Nat.add_assoc]
      exact hrest
    · -- the first digit that does not fit hands the dust out
      rw [if_neg hfits]
      have hle := h.le
      have hbelow := h.below
      rw [UInt64.le_iff_toNat_le] at hle
      rw [UInt64.le_iff_toNat_le, hsum] at hfits
      have hdigit : 1 ≤ amount.toNat % 10 := by
        by_contra hlt
        rw [show amount.toNat % 10 = 0 by omega] at hfits
        omega
      have hlow : 1 * 10 ^ j ≤ amount.toNat % 10 * 10 ^ j := Nat.mul_le_mul_right _ hdigit
      have hhigh : amount.toNat % 10 * 10 ^ j ≤ 9 * 10 ^ j := Nat.mul_le_mul_right _ (by omega)
      have hne : amount % 10 * order ≠ 0 := by
        intro h0
        rw [h0, UInt64.toNat_zero] at hchunk
        have : 0 < 10 ^ j := Nat.pow_pos (by decide)
        omega
      have hdone : (false || dust != 0) = true ∨ dust = 0 := by
        by_cases hd : dust = 0
        · exact .inr hd
        · exact .inl (by rw [Bool.false_or]; exact bne_iff_ne.mpr hd)
      obtain ⟨chunks, heq, hchunks, htotal⟩ :=
        decomposeDigits_closed (h.next (by omega) h.le) (by omega) hdone
      rw [hdiv] at htotal
      rw [if_pos hne, heq, List.append_assoc]
      refine ⟨dust, amount % 10 * order :: chunks, rfl, h.le, ?_, ?_⟩
      · rw [List.forall_mem_cons]
        refine ⟨⟨⟨amount.toNat % 10, j, hdigit, by omega, hchunk⟩, ?_⟩, fun c hc => ?_⟩
        · rw [UInt64.lt_iff_toNat_lt]
          omega
        · have := (hchunks c hc).2
          exact ⟨(hchunks c hc).1, UInt64.lt_iff_toNat_lt.mpr (by omega)⟩
      · rw [List.map_cons, List.sum_cons, htotal]
        omega

theorem decomposeAmountIntoDigits_decomposed (amount dustThreshold : UInt64) :
    Decomposed dustThreshold amount.toNat (decomposeAmountIntoDigits amount dustThreshold) := by
  have h := decomposeDigits_open (DigitState.start amount dustThreshold)
  unfold decomposeAmountIntoDigits
  simpa using h

theorem dustPart_sum (dust : UInt64) :
    ((dustPart false dust).map fun p => p.amount.toNat).sum = dust.toNat := by
  unfold dustPart
  by_cases h0 : dust = 0
  · simp [h0]
  · simp [h0, AmountPart.amount]

theorem chunks_sum (chunks : List UInt64) :
    ((chunks.map AmountPart.chunk).map fun p => p.amount.toNat).sum = (chunks.map UInt64.toNat).sum := by
  rw [List.map_map]
  rfl

theorem Decomposed.sum {dustThreshold : UInt64} {total : ℕ} {parts : List AmountPart}
    (h : Decomposed dustThreshold total parts) : (parts.map fun p => p.amount.toNat).sum = total := by
  obtain ⟨dust, chunks, rfl, -, -, hsum⟩ := h
  rw [List.map_append, List.sum_append, dustPart_sum, chunks_sum, hsum]

/-- The money of a list of destinations. -/
def destinationsMoney (dsts : List TxDestinationEntry) : ℕ := (dsts.map fun d => d.amount.toNat).sum

theorem destinationsMoney_append (a b : List TxDestinationEntry) :
    destinationsMoney (a ++ b) = destinationsMoney a + destinationsMoney b := by
  unfold destinationsMoney
  rw [List.map_append, List.sum_append]

/-- The outputs of one destination. -/
def destinationOutputs (dustThreshold : UInt64) (de : TxDestinationEntry) : List TxDestinationEntry :=
  (decomposeAmountIntoDigits de.amount dustThreshold).map fun p => ⟨p.amount, de.addr⟩

theorem destinationOutputs_money (dustThreshold : UInt64) (de : TxDestinationEntry) :
    destinationsMoney (destinationOutputs dustThreshold de) = de.amount.toNat := by
  unfold destinationsMoney destinationOutputs
  rw [List.map_map]
  exact (decomposeAmountIntoDigits_decomposed de.amount dustThreshold).sum

theorem destinationOutputs_addr {dustThreshold : UInt64} {de e : TxDestinationEntry}
    (he : e ∈ destinationOutputs dustThreshold de) : e.addr = de.addr := by
  obtain ⟨p, -, rfl⟩ := List.mem_map.mp he
  rfl

/-- The change without its dust goes back, and the dust is given out apart. -/
theorem digitSplitStrategy_change (dsts : List TxDestinationEntry) (changeDst : TxDestinationEntry)
    (dustThreshold : UInt64) :
    ∃ change dust, digitSplitStrategy dsts changeDst dustThreshold =
        (dsts.flatMap (destinationOutputs dustThreshold) ++ change, dust) ∧
      (∀ e ∈ change, e.addr = changeDst.addr ∧ 0 < e.amount.toNat) ∧ dust ≤ dustThreshold ∧
      destinationsMoney change + dust.toNat = changeDst.amount.toNat := by
  obtain ⟨dust, chunks, hparts, hle, hchunks, hsum⟩ :=
    decomposeAmountIntoDigits_decomposed changeDst.amount dustThreshold
  refine ⟨chunks.map fun c => ⟨c, changeDst.addr⟩, dust, ?_, ?_, hle, ?_⟩
  · unfold digitSplitStrategy
    dsimp only
    rw [hparts, List.filterMap_append, List.foldl_append, List.filterMap_map, List.foldl_map]
    have hdust : dustPart false dust = [] ∧ dust = 0 ∨ dustPart false dust = [.dust dust] := by
      by_cases h0 : dust = 0
      · exact .inl ⟨dustPart_nil (.inr h0), h0⟩
      · exact .inr (if_pos ⟨rfl, h0⟩)
    refine Prod.ext (congrArg (dsts.flatMap (destinationOutputs dustThreshold) ++ ·) ?_) ?_
    · rw [← List.filterMap_eq_map]
      rcases hdust with ⟨hnil, -⟩ | hone
      · rw [hnil]
        rfl
      · rw [hone]
        rfl
    · rcases hdust with ⟨hnil, h0⟩ | hone
      · rw [hnil, h0]
        exact List.foldl_fixed chunks
      · rw [hone]
        exact List.foldl_fixed chunks
  · intro e he
    obtain ⟨c, hc, rfl⟩ := List.mem_map.mp he
    have hlt := UInt64.lt_iff_toNat_lt.mp (hchunks c hc).2
    exact ⟨rfl, by dsimp only; omega⟩
  · rw [← hsum, Nat.add_comm]
    unfold destinationsMoney
    rw [List.map_map]
    rfl

/-- The amount of transfer `i`. -/
def Wallet2.transferAmount (w : Wallet2) (i : ℕ) : UInt64 :=
  ((w.transfers[i]?).bind TransferDetails.amount).getD 0

/-- Every position stands under the amount of its transfer. -/
def FreeAmounts.Priced (w : Wallet2) (free : FreeAmounts) : Prop :=
  ∀ e ∈ free, ∀ i ∈ e.2, w.transferAmount i = e.1

theorem FreeAmounts.Priced.pushBack {w : Wallet2} {free : FreeAmounts} {amount : UInt64} {i : ℕ}
    (h : free.Priced w) (hi : w.transferAmount i = amount) : (free.pushBack amount i).Priced w := by
  unfold Priced at h ⊢
  induction free with
  | nil => simpa [FreeAmounts.pushBack] using hi
  | cons e free ih =>
    obtain ⟨a, l⟩ := e
    rw [List.forall_mem_cons] at h
    unfold FreeAmounts.pushBack
    split_ifs with hlt heq
    · simpa [hi] using h
    · refine List.forall_mem_cons.mpr ⟨?_, h.2⟩
      intro k hk
      rcases List.mem_append.mp hk with hk | hk
      · exact h.1 k hk
      · rw [List.mem_singleton.mp hk, hi, heq]
    · exact List.forall_mem_cons.mpr ⟨h.1, ih h.2⟩

theorem FreeAmounts.Priced.popBack {w : Wallet2} {free : FreeAmounts} (h : free.Priced w) :
    free.popBack.Priced w := by
  unfold FreeAmounts.popBack
  split
  · exact fun e he => by cases he
  · next a l hlast =>
    intro e he i hi
    rcases List.mem_append.mp he with he | he
    · exact h e (List.mem_of_mem_dropLast he) i hi
    · split_ifs at he
      · cases he
      · rw [List.mem_singleton.mp he] at hi ⊢
        exact h (a, l) (List.mem_of_getLast? hlast) i (List.mem_of_mem_dropLast hi)

theorem FreeAmounts.Priced.lowerBound {w : Wallet2} {free : FreeAmounts} {amount a : UInt64} {i : ℕ}
    (h : free.Priced w) (hbound : free.lowerBound amount = some (a, i)) : w.transferAmount i = a := by
  obtain ⟨e, he, hbound⟩ := Option.bind_eq_some_iff.mp hbound
  obtain ⟨k, hk, hbound⟩ := Option.map_eq_some_iff.mp hbound
  cases hbound
  exact h e (List.mem_of_find?_eq_some he) i (List.mem_of_getLast? hk)

theorem FreeAmounts.lt_of_lowerBound_none {free : FreeAmounts} {amount a : UInt64} {l : List ℕ}
    (hfull : ∀ e ∈ free, e.2 ≠ []) (hnone : free.lowerBound amount = none) (he : (a, l) ∈ free) :
    a < amount := by
  unfold FreeAmounts.lowerBound at hnone
  cases hfind : free.find? fun e => decide (amount ≤ e.1) with
  | none =>
    have := List.find?_eq_none.mp hfind (a, l) he
    simpa using this
  | some e =>
    rw [hfind] at hnone
    have := List.getLast?_eq_none_iff.mp (Option.map_eq_none_iff.mp hnone)
    exact absurd this (hfull e (List.mem_of_find?_eq_some hfind))

/-- The money of the transfers at some positions. -/
def Wallet2.transfersMoney (w : Wallet2) (l : List ℕ) : ℕ := (l.map fun i => (w.transferAmount i).toNat).sum

theorem Wallet2.transfersMoney_append (w : Wallet2) (l l' : List ℕ) :
    w.transfersMoney (l ++ l') = w.transfersMoney l + w.transfersMoney l' := by
  unfold Wallet2.transfersMoney
  rw [List.map_append, List.sum_append]

/-- Money found that is enough did not wrap: it is that of the transfers selected. -/
theorem selectIndicesGo_money {w : Wallet2} {needed : UInt64} (n : ℕ) {free : FreeAmounts}
    {found : UInt64} {selected : List ℕ} (hpriced : free.Priced w) (hfull : ∀ e ∈ free, e.2 ≠ [])
    (hfound : found.toNat = w.transfersMoney selected)
    (henough : needed ≤ (selectIndicesGo needed n free found selected).1) :
    (selectIndicesGo needed n free found selected).1.toNat =
      w.transfersMoney (selectIndicesGo needed n free found selected).2 := by
  induction n generalizing free found selected with
  | zero => exact hfound
  | succ n ih =>
    unfold selectIndicesGo at henough ⊢
    by_cases hlt : found < needed
    · rw [if_pos hlt] at henough ⊢
      have hmissing : (needed - found).toNat = needed.toNat - found.toNat :=
        UInt64.toNat_sub_of_le _ _ (UInt64.le_of_lt hlt)
      have htake : ∀ {a : UInt64} {i : ℕ}, w.transferAmount i = a → found.toNat + a.toNat < 2 ^ 64 →
          (found + a).toNat = w.transfersMoney (selected ++ [i]) := by
        intro a i ha hfits
        rw [UInt64.toNat_add, Nat.mod_eq_of_lt hfits, w.transfersMoney_append, hfound, ← ha]
        simp [Wallet2.transfersMoney]
      cases hbound : free.lowerBound (needed - found) with
      | some p =>
        obtain ⟨a, i⟩ := p
        rw [hbound] at henough
        -- a sum that wraps is below what was found before
        refine htake (hpriced.lowerBound hbound) ?_
        change needed ≤ found + a at henough
        rw [UInt64.lt_iff_toNat_lt] at hlt
        rw [UInt64.le_iff_toNat_le, UInt64.toNat_add] at henough
        have := a.toNat_lt
        omega
      | none =>
        rw [hbound] at henough
        cases hlast : free.getLast? with
        | none => exact hfound
        | some p =>
          obtain ⟨a, l⟩ := p
          rw [hlast] at henough
          dsimp only at henough ⊢
          have hmem := List.mem_of_getLast? hlast
          cases hi : l.getLast? with
          | none => exact absurd (List.getLast?_eq_none_iff.mp hi) (hfull _ hmem)
          | some i =>
            rw [hi] at henough
            have ha := FreeAmounts.lt_of_lowerBound_none hfull hbound hmem
            rw [UInt64.lt_iff_toNat_lt, hmissing] at ha
            have := needed.toNat_lt
            exact ih hpriced.popBack (FreeAmounts.popBack_full hfull)
              (htake (hpriced _ hmem i (List.mem_of_getLast? hi)) (by omega)) henough
    · rw [if_neg hlt]
      exact hfound

theorem spendableAmount_amount {w : Wallet2} {now fakeOutsCount : ℕ} {below : UInt64 → Bool}
    {td : TransferDetails} {amount : UInt64}
    (h : w.spendableAmount now fakeOutsCount below td = some (some amount)) : td.amount = some amount := by
  unfold Wallet2.spendableAmount at h
  unfold TransferDetails.amount
  split_ifs at h
  · cases h
  · split at h
    · cases h
    · next a target hout =>
      rw [hout]
      split_ifs at h
      · split at h
        · split_ifs at h
          · cases h
            rfl
          · cases h
        · cases h
      · cases h

theorem collectFree_priced {w : Wallet2} {now fakeOutsCount : ℕ} {l : List ℕ} {free free' : FreeAmounts}
    (h : w.collectFree now fakeOutsCount l free = some free') (hpriced : free.Priced w) :
    free'.Priced w := by
  induction l generalizing free with
  | nil =>
    cases h
    exact hpriced
  | cons i l ih =>
    unfold Wallet2.collectFree at h
    split at h
    · cases h
    · exact ih h hpriced
    · next amount hi =>
      obtain ⟨td, htd, hamount⟩ := Option.bind_eq_some_iff.mp hi
      refine ih h (hpriced.pushBack ?_)
      unfold Wallet2.transferAmount
      rw [htd, Option.bind_some, spendableAmount_amount hamount, Option.getD_some]

theorem selectTransfers_money {w : Wallet2} {now fakeOutsCount : ℕ} {needed found : UInt64}
    {outsToSpend selected : List ℕ}
    (h : w.selectTransfers now needed fakeOutsCount outsToSpend = some (found, selected))
    (henough : needed ≤ found) : found.toNat = w.transfersMoney selected := by
  obtain ⟨l, -, h⟩ := Option.bind_eq_some_iff.mp h
  obtain ⟨free, hfree, h⟩ := Option.map_eq_some_iff.mp h
  have hpriced := collectFree_priced hfree fun e he => by cases he
  have hfull := Wallet2.collectFree_full (fun e he => by cases he) hfree
  have hfound : found = (selectIndicesForTransfer free needed).1 := by rw [h]
  have hselected : selected = (selectIndicesForTransfer free needed).2 := by rw [h]
  rw [hfound] at henough
  rw [hfound, hselected]
  exact selectIndicesGo_money _ hpriced hfull rfl henough

theorem makeSources_money {E : WalletEnv} {w : Wallet2} {fakeOutsCount : ℕ}
    {outs : List (List (UInt64 × PublicKey))} {k : ℕ} {l : List ℕ} {sources : List TxSourceEntry}
    (h : Wallet2.makeSources E w fakeOutsCount outs k l = some sources) :
    (sources.map fun src => src.amount.toNat).sum = w.transfersMoney l := by
  induction l generalizing k sources with
  | nil =>
    cases h
    rfl
  | cons i l ih =>
    obtain ⟨src, hsrc, h⟩ := Option.bind_eq_some_iff.mp h
    obtain ⟨rest, hrest, rfl⟩ := Option.map_eq_some_iff.mp h
    have hi : src.amount = w.transferAmount i := by
      unfold Wallet2.makeSource at hsrc
      unfold Wallet2.transferAmount
      split at hsrc
      · cases hsrc
      · next td htd =>
        rw [htd, Option.bind_some]
        unfold TransferDetails.amount
        split at hsrc
        · next amount otk hout =>
          rw [hout]
          cases hsrc
          rfl
        · cases hsrc
    rw [List.map_cons, List.sum_cons, ih hrest, hi]
    rfl

theorem neededMoney_exact {money needed : UInt64} {dsts : List TxDestinationEntry}
    (h : neededMoney money dsts = some needed) :
    needed.toNat = money.toNat + destinationsMoney dsts := by
  induction dsts generalizing money with
  | nil =>
    cases h
    rfl
  | cons d dsts ih =>
    unfold neededMoney at h
    split_ifs at h with hbad
    rw [not_or, UInt64.lt_iff_toNat_lt, UInt64.toNat_add] at hbad
    have := money.toNat_lt
    have := d.amount.toNat_lt
    rw [ih h, UInt64.toNat_add, destinationsMoney, destinationsMoney, List.map_cons, List.sum_cons]
    omega

/-- The outputs of a transfer: for each destination a group of its own that sums to what was asked for,
and besides these only change and, where it is not left to the fee, the dust. -/
def PaysExactly (ownAddr : AccountPublicAddress) (policy : TxDustPolicy) (dsts : List TxDestinationEntry)
    (dust : UInt64) (splittedDsts : List TxDestinationEntry) : Prop :=
  ∃ (groups : List (List TxDestinationEntry)) (rest : List TxDestinationEntry),
    splittedDsts = groups.flatten ++ rest ∧
    List.Forall₂ (fun d group => destinationsMoney group = d.amount.toNat ∧ ∀ e ∈ group, e.addr = d.addr)
      dsts groups ∧
    ∀ e ∈ rest, e.addr = { toAccountPublicAddress := ownAddr } ∨
      policy.addToFee = false ∧ e = ⟨dust, policy.addrForDust⟩

theorem destinationOutputs_groups (dustThreshold : UInt64) (dsts : List TxDestinationEntry) :
    List.Forall₂ (fun d group => destinationsMoney group = d.amount.toNat ∧ ∀ e ∈ group, e.addr = d.addr)
      dsts (dsts.map (destinationOutputs dustThreshold)) := by
  induction dsts with
  | nil => exact .nil
  | cons d dsts ih =>
    exact .cons ⟨destinationOutputs_money dustThreshold d, fun _ => destinationOutputs_addr⟩ ih

theorem destinationsMoney_flatMap (dustThreshold : UInt64) (dsts : List TxDestinationEntry) :
    destinationsMoney (dsts.flatMap (destinationOutputs dustThreshold)) = destinationsMoney dsts := by
  induction dsts with
  | nil => rfl
  | cons d dsts ih =>
    rw [List.flatMap_cons, destinationsMoney_append, ih, destinationOutputs_money]
    rfl

/-- What the split puts out: all that was asked for and the change, less the dust left to the fee. -/
theorem splitDestinations_money {policy : TxDustPolicy} {dsts splittedDsts : List TxDestinationEntry}
    {changeDst : TxDestinationEntry} {dust : UInt64} {ownAddr : AccountPublicAddress}
    (hown : changeDst.amount.toNat = 0 ∨ changeDst.addr = { toAccountPublicAddress := ownAddr })
    (h : splitDestinations digitSplitStrategy policy dsts changeDst = some (splittedDsts, dust)) :
    PaysExactly ownAddr policy dsts dust splittedDsts ∧
      destinationsMoney splittedDsts + (if policy.addToFee then dust.toNat else 0) =
        destinationsMoney dsts + changeDst.amount.toNat := by
  obtain ⟨change, dust', hsplit, hchange, -, hmoney⟩ :=
    digitSplitStrategy_change dsts changeDst policy.dustThreshold
  have haddr : ∀ e ∈ change, e.addr = { toAccountPublicAddress := ownAddr } := by
    intro e he
    rcases hown with hzero | hown
    · -- without change there is no such output
      have hle : e.amount.toNat ≤ destinationsMoney change :=
        List.le_sum_of_mem (List.mem_map_of_mem he)
      have := (hchange e he).2
      omega
    · exact (hchange e he).1.trans hown
  unfold splitDestinations at h
  rw [hsplit] at h
  dsimp only at h
  split_ifs at h with hbig hdust
  · -- the dust goes out apart
    cases h
    refine ⟨⟨dsts.map (destinationOutputs policy.dustThreshold), change ++ [⟨dust, policy.addrForDust⟩],
      ?_, destinationOutputs_groups _ _, ?_⟩, ?_⟩
    · rw [List.append_assoc]
      rfl
    · intro e he
      rcases List.mem_append.mp he with he | he
      · exact .inl (haddr e he)
      · exact .inr ⟨hdust.2, List.mem_singleton.mp he⟩
    · rw [destinationsMoney_append, destinationsMoney_append, destinationsMoney_flatMap, hdust.2]
      simp only [Bool.false_eq_true, ↓reduceIte, destinationsMoney, List.map_cons, List.map_nil,
        List.sum_cons, List.sum_nil] at hmoney ⊢
      omega
  · cases h
    refine ⟨⟨dsts.map (destinationOutputs policy.dustThreshold), change, rfl,
      destinationOutputs_groups _ _, fun e he => .inl (haddr e he)⟩, ?_⟩
    have hleft : (if policy.addToFee = true then dust.toNat else 0) = dust.toNat := by
      split_ifs with hfee
      · rfl
      · by_contra hne
        refine hdust ⟨fun h0 => hne ?_, Bool.not_eq_true _ ▸ hfee⟩
        rw [h0]
        rfl
    rw [hleft, destinationsMoney_append, destinationsMoney_flatMap]
    omega

/-- The parts of a transfer that is accepted: what it needs, what it found and what it makes of them. -/
theorem prepareTransfer_cases {E : WalletEnv} {x : SpendEnv} {r : TransferRequest} {w : Wallet2}
    {selected : List ℕ} {arg : CreateTxArg}
    (h : Wallet2.prepareTransfer E x r w = some (selected, arg)) :
    ∃ (needed found : UInt64) (changeDst : TxDestinationEntry),
      neededMoney r.fee r.dsts = some needed ∧ needed ≤ found ∧
      found.toNat = w.transfersMoney selected ∧
      (arg.sources.map fun src => src.amount.toNat).sum = w.transfersMoney selected ∧
      changeDst.amount.toNat = found.toNat - needed.toNat ∧
      (changeDst.amount.toNat = 0 ∨
        changeDst.addr = { toAccountPublicAddress := w.account.keys.accountAddress }) ∧
      splitDestinations r.splitStrategy r.dustPolicy r.dsts changeDst =
        some (arg.splittedDsts, arg.dust) := by
  unfold Wallet2.prepareTransfer at h
  obtain ⟨-, -, h⟩ := Option.bind_eq_some_iff.mp h
  obtain ⟨needed, hneeded, h⟩ := Option.bind_eq_some_iff.mp h
  obtain ⟨⟨found, sel⟩, hselect, h⟩ := Option.bind_eq_some_iff.mp h
  obtain ⟨_, henough, h⟩ := Option.bind_eq_some_iff.mp h
  obtain ⟨outs, -, h⟩ := Option.bind_eq_some_iff.mp h
  obtain ⟨sources, hsources, h⟩ := Option.bind_eq_some_iff.mp h
  obtain ⟨⟨splittedDsts, dust⟩, hsplit, h⟩ := Option.bind_eq_some_iff.mp h
  have hle : needed ≤ found := by
    by_contra hlt
    unfold guard at henough
    rw [if_neg hlt] at henough
    cases henough
  cases h
  refine ⟨needed, found, _, hneeded, hle, selectTransfers_money hselect hle, makeSources_money hsources,
    ?_, ?_, hsplit⟩
  · split_ifs with hlt
    · exact UInt64.toNat_sub_of_le _ _ hle
    · rw [UInt64.lt_iff_toNat_lt] at hlt
      change 0 = _
      omega
  · split_ifs
    · exact .inr rfl
    · exact .inl rfl

/-- An amount is cut into digits above one dust value, nothing of it lost; and an accepted transfer pays
every destination exactly and spends what its outputs, its fee and the dust left to the fee come to. -/
theorem transfer_money :
    (∀ amount dustThreshold : UInt64,
      Decomposed dustThreshold amount.toNat (decomposeAmountIntoDigits amount dustThreshold)) ∧
    ∀ (E : WalletEnv) (x : SpendEnv) (r : TransferRequest) (w : Wallet2) (selected : List ℕ)
      (arg : CreateTxArg), r.splitStrategy = digitSplitStrategy →
      Wallet2.prepareTransfer E x r w = some (selected, arg) →
      PaysExactly w.account.keys.accountAddress r.dustPolicy r.dsts arg.dust arg.splittedDsts ∧
      (arg.sources.map fun src => src.amount.toNat).sum =
        destinationsMoney arg.splittedDsts + r.fee.toNat +
          (if r.dustPolicy.addToFee then arg.dust.toNat else 0) := by
  refine ⟨decomposeAmountIntoDigits_decomposed, fun E x r w selected arg hstrategy h => ?_⟩
  obtain ⟨needed, found, changeDst, hneeded, hle, hfound, hsources, hchange, hown, hsplit⟩ :=
    prepareTransfer_cases h
  rw [hstrategy] at hsplit
  obtain ⟨hpays, hmoney⟩ := splitDestinations_money hown hsplit
  refine ⟨hpays, ?_⟩
  rw [UInt64.le_iff_toNat_le, neededMoney_exact hneeded] at hle
  rw [neededMoney_exact hneeded] at hchange
  rw [hsources, ← hfound]
  omega

/-- A transfer of 3 out of an output of 5. -/
theorem transfer_money_sample :
    decomposeAmountIntoDigits 62387455827 1000000 =
      [.dust 455827, .chunk 7000000, .chunk 80000000, .chunk 300000000, .chunk 2000000000,
        .chunk 60000000000] ∧
    ∃ selected arg, Wallet2.prepareTransfer sampleWalletEnv Wallet2.sampleSpendEnv (Wallet2.sampleTransfer 3 [])
        Wallet2.sampleMature = some (selected, arg) ∧
      (arg.sources.map fun src => src.amount.toNat).sum = destinationsMoney arg.splittedDsts := by
  refine ⟨by decide +kernel, ?_⟩
  cases h : Wallet2.prepareTransfer sampleWalletEnv Wallet2.sampleSpendEnv (Wallet2.sampleTransfer 3 []) Wallet2.sampleMature with
  | none =>
    have hmade : (Wallet2.prepareTransfer sampleWalletEnv Wallet2.sampleSpendEnv (Wallet2.sampleTransfer 3 [])
      Wallet2.sampleMature).isSome = true := by decide +kernel
    rw [h] at hmade
    cases hmade
  | some p =>
    have hdust : p.2.dust = 0 := by
      have : (Wallet2.prepareTransfer sampleWalletEnv Wallet2.sampleSpendEnv (Wallet2.sampleTransfer 3 [])
        Wallet2.sampleMature).map (fun p => p.2.dust) = some 0 := by decide +kernel
      rw [h] at this
      exact Option.some.inj this
    refine ⟨p.1, p.2, rfl, ?_⟩
    have hmoney := (transfer_money.2 _ _ _ _ p.1 p.2 rfl h).2
    rw [hdust] at hmoney
    exact hmoney

end Boolberry
