import Mathlib.Algebra.Order.BigOperators.Group.List
import Mathlib.Tactic.IntervalCases
import Boolberry.ArchiveRoundTrip
import Boolberry.BlockRefinement

/-!
# Sizes without serialising

`get_object_blobsize` counts the signatures of a transaction by a formula of its own, with its own table
of varint lengths. The table ends at eight bytes, which is more than a count in memory takes.
-/

namespace Boolberry

theorem length_writeVarintGo_pos (n v : ℕ) : 0 < (writeVarintGo (n + 1) v).length := by
  unfold writeVarintGo
  split_ifs
  · exact Nat.succ_pos _
  · exact Nat.one_pos

/-- A varint has at most `k` bytes when it is below `128 ^ k`, and only then as long as `n` allows for
more. -/
theorem length_writeVarintGo_le_iff {n k v : ℕ} (hk : 0 < k) (hkn : k < n) :
    (writeVarintGo n v).length ≤ k ↔ v < 128 ^ k := by
  induction k, hk using Nat.le_induction generalizing n v with
  | base =>
    obtain ⟨n, rfl⟩ : ∃ m, n = m + 2 := ⟨n - 2, by omega⟩
    unfold writeVarintGo
    split_ifs with hv
    · have := length_writeVarintGo_pos n (v / 0x80)
      rw [List.length_cons]
      omega
    · rw [List.length_singleton]
      omega
  | succ k hk ih =>
    obtain ⟨n, rfl⟩ : ∃ m, n = m + 1 := ⟨n - 1, by omega⟩
    unfold writeVarintGo
    split_ifs with hv
    · rw [List.length_cons, Nat.succ_le_succ_iff, ih (by omega), Nat.div_lt_iff_lt_mul (by decide), pow_succ]
    · have : 128 ^ 1 ≤ 128 ^ (k + 1) := Nat.pow_le_pow_right (by decide) (by omega)
      rw [List.length_singleton]
      omega

theorem length_writeVarint_le_iff {k v : ℕ} (hk : 0 < k) (hk' : k < 10) :
    (writeVarint v).length ≤ k ↔ v < 128 ^ k := length_writeVarintGo_le_iff hk hk'

theorem length_writeVarint_mono {v v' : ℕ} (h : v ≤ v') (hv' : v' < 2 ^ 56) :
    (writeVarint v).length ≤ (writeVarint v').length := by
  have hle : (writeVarint v').length ≤ 8 := (length_writeVarint_le_iff (by decide) (by decide)).mpr hv'
  have hpos : 0 < (writeVarint v').length := length_writeVarintGo_pos 9 v'
  rw [length_writeVarint_le_iff hpos (by omega)]
  exact h.trans_lt ((length_writeVarint_le_iff hpos (by omega)).mp le_rfl)

theorem getVarintPackedSize_le_iff {k : ℕ} (hk : 0 < k) (hk' : k < 8) (v : ℕ) :
    getVarintPackedSize v ≤ k ↔ v < 128 ^ k := by
  unfold getVarintPackedSize
  split_ifs <;> interval_cases k <;> omega

theorem getVarintPackedSize_le_eight (v : ℕ) : getVarintPackedSize v ≤ 8 := by
  unfold getVarintPackedSize
  split_ifs <;> omega

/-- The table agrees with the encoder up to eight bytes. -/
theorem getVarintPackedSize_of_lt {v : ℕ} (hv : v < 2 ^ 56) :
    getVarintPackedSize v = (writeVarint v).length := by
  refine Nat.le_antisymm ?_ ?_
  · by_contra hlt
    have hpos : 0 < (writeVarint v).length := length_writeVarintGo_pos 9 v
    have hle : (writeVarint v).length < 8 := by
      have := getVarintPackedSize_le_eight v
      omega
    exact hlt ((getVarintPackedSize_le_iff hpos hle v).mpr ((length_writeVarint_le_iff hpos (by omega)).mp le_rfl))
  · by_contra hlt
    have hpos : 0 < getVarintPackedSize v := by
      unfold getVarintPackedSize
      split_ifs <;> omega
    have hle : (writeVarint v).length ≤ 8 := (length_writeVarint_le_iff (by decide) (by decide)).mpr hv
    exact hlt ((length_writeVarint_le_iff hpos (by omega)).mpr
      ((getVarintPackedSize_le_iff hpos (by omega) v).mp le_rfl))

theorem getVarintPackedSize_lt {v : ℕ} (hv : 2 ^ 56 ≤ v) :
    getVarintPackedSize v < (writeVarint v).length := by
  have hle := getVarintPackedSize_le_eight v
  have hlong : ¬(writeVarint v).length ≤ 8 := fun h =>
    absurd ((length_writeVarint_le_iff (by decide) (by decide)).mp h) (Nat.not_lt.mpr hv)
  omega

theorem getVarintPackedSize_le (v : ℕ) : getVarintPackedSize v ≤ (writeVarint v).length := by
  rcases Nat.lt_or_ge v (2 ^ 56) with hv | hv
  · exact (getVarintPackedSize_of_lt hv).le
  · exact (getVarintPackedSize_lt hv).le

theorem getVarintPackedSize_eq_iff (v : ℕ) :
    getVarintPackedSize v = (writeVarint v).length ↔ v < 2 ^ 56 :=
  ⟨fun h => Nat.lt_of_not_le fun hv => (getVarintPackedSize_lt hv).ne h, getVarintPackedSize_of_lt⟩

/-- Without its signatures. -/
def withoutSignatures (tx : Transaction) : Transaction := { tx with signatures := [] }

/-- One list of signatures for each input, as long as its ring. -/
def SignedInputs (tx : Transaction) : Prop := tx.signatures.map List.length = tx.vin.map getSignatureSize

/-- The transactions of a block, those that `which` says without their signatures. -/
def pruneEntries (which : TxEntry → Bool) (es : List TxEntry) : List TxEntry :=
  es.map fun te => if which te then { te with tx := withoutSignatures te.tx } else te

/-- The predicted size is that of the serialised transaction, and neither it nor the size of a block is
another after pruning. -/
def SizePredicted (tx : Transaction) (blob : Blob) : Prop :=
  getObjectBlobsize tx = blob.length ∧ getObjectBlobsize (withoutSignatures tx) = getObjectBlobsize tx ∧
    ∀ which es size, sizesOf (pruneEntries which es) size = sizesOf es size

theorem getObjectBlobsize_withoutSignatures (tx : Transaction) :
    getObjectBlobsize (withoutSignatures tx) = getObjectBlobsize tx := rfl

theorem sizesOf_pruneEntries (which : TxEntry → Bool) (es : List TxEntry) (size : ℕ) :
    sizesOf (pruneEntries which es) size = sizesOf es size := by
  induction es generalizing size with
  | nil => rfl
  | cons te es ih =>
    have hhead : getObjectBlobsize (if which te then { te with tx := withoutSignatures te.tx } else te).tx =
        getObjectBlobsize te.tx := by
      split_ifs
      · exact getObjectBlobsize_withoutSignatures te.tx
      · rfl
    change sizesOf (pruneEntries which es) (size + getObjectBlobsize (if which te then _ else te).tx) = _
    rw [hhead]
    exact ih _

theorem length_writeSignatures (signatures : List (List Signature)) :
    (writeVector (writeVector fun s : Signature => podBytes 64 s.toNat) signatures).length =
      (writeVarint signatures.length).length +
        ((signatures.map List.length).map fun n => 64 * n + (writeVarint n).length).sum := by
  unfold writeVector
  rw [List.length_append, List.length_flatMap, List.map_map]
  congr 2
  refine List.map_congr_left fun l _ => ?_
  rw [List.length_append, List.length_flatMap, Nat.add_comm]
  simp [Nat.mul_comm]

/-- Term by term below a sum, and equal to it, is equal term by term. -/
theorem sum_map_eq_iff {α : Type} {f g : α → ℕ} {l : List α} (h : ∀ a ∈ l, f a ≤ g a) :
    (l.map f).sum = (l.map g).sum ↔ ∀ a ∈ l, f a = g a := by
  induction l with
  | nil => simp
  | cons a l ih =>
    rw [List.forall_mem_cons] at h
    have hle := List.sum_le_sum h.2
    rw [List.map_cons, List.map_cons, List.sum_cons, List.sum_cons, List.forall_mem_cons, ← ih h.2]
    omega

theorem getObjectBlobsize_eq_iff {tx : Transaction} {blob : Blob} (hcoinbase : isCoinbase tx = false)
    (hsigned : SignedInputs tx) (hblob : txToBlob tx = some blob) :
    getObjectBlobsize tx = blob.length ↔
      tx.vin.length < 2 ^ 56 ∧ ∀ inp ∈ tx.vin, getSignatureSize inp < 2 ^ 56 := by
  unfold txToBlob at hblob
  split_ifs at hblob
  cases hblob
  have hlen : tx.signatures.length = tx.vin.length := by
    have := congrArg List.length hsigned
    rwa [List.length_map, List.length_map] at this
  have hterms : ∀ inp ∈ tx.vin,
      64 * getSignatureSize inp + getVarintPackedSize (getSignatureSize inp) ≤
        64 * getSignatureSize inp + (writeVarint (getSignatureSize inp)).length :=
    fun inp _ => Nat.add_le_add_left (getVarintPackedSize_le _) _
  have hsums := List.sum_le_sum hterms
  have hcount := getVarintPackedSize_le tx.vin.length
  unfold getObjectBlobsize writeTransaction
  rw [if_neg (by rw [hcoinbase]; exact Bool.false_ne_true), List.length_append, length_writeSignatures,
    hsigned, hlen, List.map_map]
  -- every term of the formula is at most the encoder's
  have hiff : (tx.vin.map fun i => 64 * getSignatureSize i + getVarintPackedSize (getSignatureSize i)).sum =
      (tx.vin.map ((fun n => 64 * n + (writeVarint n).length) ∘ getSignatureSize)).sum ↔
      ∀ inp ∈ tx.vin, getSignatureSize inp < 2 ^ 56 := by
    refine (sum_map_eq_iff hterms).trans (forall₂_congr fun inp _ => ?_)
    rw [← getVarintPackedSize_eq_iff, Nat.add_left_cancel_iff]
  rw [← getVarintPackedSize_eq_iff tx.vin.length, ← hiff]
  change _ ≤ (tx.vin.map ((fun n => 64 * n + (writeVarint n).length) ∘ getSignatureSize)).sum at hsums
  omega

/-- What fits into memory has counts of eight bytes at most. -/
def FitsMemory (tx : Transaction) : Prop :=
  tx.vin.length < 2 ^ 56 ∧ ∀ inp ∈ tx.vin, getSignatureSize inp < 2 ^ 56

/-- The size of a transaction whose signatures are those of its inputs is predicted exactly when no count
takes more than eight bytes. -/
theorem getObjectBlobsize_exact_iff {tx : Transaction} {blob : Blob} (hcoinbase : isCoinbase tx = false)
    (hsigned : SignedInputs tx) (hblob : txToBlob tx = some blob) :
    SizePredicted tx blob ↔ FitsMemory tx :=
  (and_iff_left ⟨getObjectBlobsize_withoutSignatures tx, sizesOf_pruneEntries⟩).trans
    (getObjectBlobsize_eq_iff hcoinbase hsigned hblob)

theorem getObjectBlobsize_exact {tx : Transaction} {blob : Blob} (hcoinbase : isCoinbase tx = false)
    (hsigned : SignedInputs tx) (hblob : txToBlob tx = some blob) (hfits : FitsMemory tx) :
    SizePredicted tx blob := (getObjectBlobsize_exact_iff hcoinbase hsigned hblob).mpr hfits

/-- Two inputs, one with a ring of `n` outputs and one with a single output. -/
def ringTx (n : ℕ) : Transaction where
  version := 1
  unlockTime := 0
  vin := [.toKey ⟨5, List.replicate n 0, 1⟩, .toKey ⟨7, [3], 2⟩]
  vout := []
  extra := []
  signatures := [List.replicate n 0, [0]]

theorem signedInputs_ringTx (n : ℕ) : SignedInputs (ringTx n) := by
  simp [SignedInputs, ringTx, getSignatureSize]

theorem fitsMemory_ringTx {n : ℕ} (hn : n < 2 ^ 56) : FitsMemory (ringTx n) :=
  ⟨by simp [ringTx], by simpa [ringTx, getSignatureSize] using hn⟩

/-- The count of 200 signatures takes two bytes. -/
theorem getObjectBlobsize_exact_ringTx : SizePredicted (ringTx 200) (writeTransaction (ringTx 200)) :=
  getObjectBlobsize_exact rfl (signedInputs_ringTx 200) rfl (fitsMemory_ringTx (by decide))

end Boolberry
