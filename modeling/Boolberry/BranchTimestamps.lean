import Boolberry.Branches

/-!
# The timestamp window of a branch

The timestamps a block on a branch is checked against, and those of the chain the
branch becomes. The two windows hold the same blocks but for two shapes: a branch
longer than the window is not cut to its last blocks, and where the window would
reach down to genesis exactly, the loop over the main chain stops short of it.
-/

namespace Boolberry

/-- The median does not depend on the order of the values. -/
theorem median_perm {l l' : List UInt64} (h : l.Perm l') : median l = median l' := by
  have hsort : l.insertionSort (· ≤ ·) = l'.insertionSort (· ≤ ·) := by
    refine List.Perm.eq_of_pairwise' (List.pairwise_insertionSort _ l)
      (List.pairwise_insertionSort _ l') ?_
    exact (List.perm_insertionSort _ l).trans (h.trans (List.perm_insertionSort _ l').symm)
  unfold median
  rw [hsort]

theorem timestampsAccept_perm {l l' : List UInt64} (h : l.Perm l') (b : Block) :
    timestampsAccept l b = timestampsAccept l' b := by
  unfold timestampsAccept
  rw [h.length_eq, median_perm h]

theorem timestampsAccept_of_short {l : List UInt64} (b : Block)
    (h : l.length < BLOCKCHAIN_TIMESTAMP_CHECK_WINDOW) : timestampsAccept l b = true := by
  simp [timestampsAccept, h]

def BlockExtendedInfo.timestamp (bei : BlockExtendedInfo) : UInt64 := bei.bl.timestamp

/-- The `do ... while` loop reads the blocks from `h` down to the one above `stop`. -/
theorem completeTimestampsGo_perm (blocks : List BlockExtendedInfo) (stop h : ℕ)
    (timestamps : List UInt64) (hlt : stop < h) (hh : h < blocks.length) :
    (completeTimestampsGo blocks stop h timestamps).Perm
      (timestamps ++ ((blocks.take (h + 1)).drop (stop + 1)).map BlockExtendedInfo.timestamp) := by
  induction h generalizing timestamps with
  | zero => omega
  | succ h ih =>
    have hat : timestampAt blocks (h + 1) = (blocks[h + 1]).timestamp := by
      simp [timestampAt, List.getElem?_eq_getElem hh, BlockExtendedInfo.timestamp]
    have htake : (blocks.take (h + 2)).drop (stop + 1) =
        (blocks.take (h + 1)).drop (stop + 1) ++ [blocks[h + 1]] := by
      rw [List.take_add_one, List.getElem?_eq_getElem hh,
        List.drop_append_of_le_length (by rw [List.length_take]; omega)]
      rfl
    unfold completeTimestampsGo
    simp only [hat]
    rw [htake, List.map_append, List.map_singleton]
    split_ifs with hs
    · have hnil : (blocks.take (h + 1)).drop (stop + 1) = [] :=
        List.drop_eq_nil_of_le (by rw [List.length_take]; omega)
      rw [hnil]
      exact List.Perm.refl _
    · -- the block at `h + 1` was pushed first and stands last in the slice
      refine (ih _ (by omega) (by omega)).trans ?_
      rw [List.append_assoc]
      exact List.Perm.append_left _ List.perm_append_comm

/-- Where the window of a block on a branch of `len` blocks starts, as long as the branch is shorter
than the window. -/
def altWindowStart (split len : ℕ) : ℕ :=
  if split = 1 then 0 else max 1 (split + len - BLOCKCHAIN_TIMESTAMP_CHECK_WINDOW)

theorem altTimestamps_perm {blocks branch : List BlockExtendedInfo} {split : ℕ} (h1 : 1 ≤ split)
    (hle : split ≤ blocks.length) (hlen : branch.length < BLOCKCHAIN_TIMESTAMP_CHECK_WINDOW) :
    (altTimestamps blocks (split - 1) branch).Perm
      (((blocks.take split ++ branch).drop (altWindowStart split branch.length)).map
        BlockExtendedInfo.timestamp) := by
  have hrev : (branch.reverse.map fun bei => bei.bl.timestamp).length = branch.length := by simp
  have hperm : (branch.reverse.map fun bei => bei.bl.timestamp).Perm
      (branch.map BlockExtendedInfo.timestamp) := (List.reverse_perm branch).map _
  have hmain : ¬blocks.length ≤ split - 1 := by omega
  unfold altTimestamps completeTimestampsVector
  simp only [hrev, Nat.not_le.mpr hlen, hmain, if_false]
  have hstart : altWindowStart split branch.length ≤ (blocks.take split).length := by
    rw [List.length_take, altWindowStart]
    split_ifs <;> omega
  rw [List.drop_append_of_le_length hstart, List.map_append]
  by_cases h2 : split = 1
  · -- only genesis is below the branch, and the loop takes it
    subst h2
    obtain ⟨g, l, rfl⟩ : ∃ g l, blocks = g :: l := by
      cases blocks with
      | nil => simp at hle
      | cons g l => exact ⟨g, l, rfl⟩
    have hgo : ∀ stop ts, completeTimestampsGo (g :: l) stop (1 - 1) ts = ts ++ [g.timestamp] :=
      fun stop ts => rfl
    rw [hgo]
    simp only [altWindowStart, if_true, List.drop_zero, List.take_succ_cons, List.take_zero,
      List.map_singleton]
    exact (List.perm_append_comm).trans (List.Perm.append_left _ hperm)
  · have hgo := completeTimestampsGo_perm blocks
      (if BLOCKCHAIN_TIMESTAMP_CHECK_WINDOW - branch.length < split - 1 then
        split - 1 - (BLOCKCHAIN_TIMESTAMP_CHECK_WINDOW - branch.length) else 0) (split - 1)
      (branch.reverse.map fun bei => bei.bl.timestamp) (by split_ifs <;> omega) (by omega)
    have hstop : (if BLOCKCHAIN_TIMESTAMP_CHECK_WINDOW - branch.length < split - 1 then
        split - 1 - (BLOCKCHAIN_TIMESTAMP_CHECK_WINDOW - branch.length) else 0) + 1 =
        altWindowStart split branch.length := by
      unfold altWindowStart
      split_ifs <;> omega
    rw [hstop, Nat.sub_add_cancel h1] at hgo
    refine hgo.trans (List.perm_append_comm.trans (List.Perm.append_left _ hperm))

theorem altTimestamps_long {blocks branch : List BlockExtendedInfo} {startTopHeight : ℕ}
    (hlen : BLOCKCHAIN_TIMESTAMP_CHECK_WINDOW ≤ branch.length) :
    altTimestamps blocks startTopHeight branch = branch.reverse.map BlockExtendedInfo.timestamp := by
  have hrev : (branch.reverse.map fun bei => bei.bl.timestamp).length = branch.length := by simp
  unfold altTimestamps completeTimestampsVector
  simp only [hrev, hlen, if_true]
  rfl

/-- The two windows agree on every fork but those of the two shapes. -/
theorem timestampsAccept_alt_eq {blocks branch : List BlockExtendedInfo} {split : ℕ} (h1 : 1 ≤ split)
    (hle : split ≤ blocks.length) (hlen : branch.length ≤ BLOCKCHAIN_TIMESTAMP_CHECK_WINDOW)
    (hedge : split = 1 ∨ split + branch.length ≠ BLOCKCHAIN_TIMESTAMP_CHECK_WINDOW) (b : Block) :
    timestampsAccept (altTimestamps blocks (split - 1) branch) b =
      timestampsAccept (lastTimestamps (blocks.take split ++ branch)) b := by
  have hwhole : (blocks.take split ++ branch).length = split + branch.length := by
    rw [List.length_append, List.length_take]
    omega
  have hlast : lastTimestamps (blocks.take split ++ branch) =
      ((blocks.take split ++ branch).drop
        (split + branch.length - BLOCKCHAIN_TIMESTAMP_CHECK_WINDOW)).map
        BlockExtendedInfo.timestamp := by
    rw [lastTimestamps, hwhole]
    rfl
  rcases Nat.lt_or_eq_of_le hlen with hlt | heq
  swap
  · -- the branch fills the window exactly
    have htake : (blocks.take split).length = split := by
      rw [List.length_take]
      omega
    rw [altTimestamps_long heq.ge, hlast, heq, Nat.add_sub_cancel, List.drop_left' htake]
    exact timestampsAccept_perm ((List.reverse_perm branch).map _) b
  have hperm := altTimestamps_perm h1 hle hlt
  by_cases hs : altWindowStart split branch.length =
      split + branch.length - BLOCKCHAIN_TIMESTAMP_CHECK_WINDOW
  · rw [hlast, ← hs]
    exact timestampsAccept_perm hperm b
  · -- fewer blocks than the window: neither check looks at the median
    have hshort : split + branch.length < BLOCKCHAIN_TIMESTAMP_CHECK_WINDOW := by
      unfold altWindowStart at hs
      split_ifs at hs <;> omega
    rw [timestampsAccept_of_short b, timestampsAccept_of_short b]
    · rw [hlast, List.length_map, List.length_drop, hwhole]
      omega
    · rw [hperm.length_eq, List.length_map, List.length_drop, hwhole]
      omega

/-- A record with nothing but a timestamp. -/
def stamped (t : UInt64) : BlockExtendedInfo :=
  ⟨{ generateGenesisBlock with timestamp := t }, 0, 0, 0, 0, 0, 0⟩

theorem median_of_sorted {l : List UInt64} (h : l.Pairwise (· ≤ ·)) :
    median l = if l.length % 2 = 1 then l.getD (l.length / 2) 0
      else (l.getD (l.length / 2 - 1) 0 + l.getD (l.length / 2) 0) / 2 := by
  unfold median
  simp only [h.insertionSort_eq]

theorem median_low {p q : ℕ} (h : q < p) :
    median (List.replicate p (0 : UInt64) ++ List.replicate q 2) = 0 := by
  have hsorted : (List.replicate p (0 : UInt64) ++ List.replicate q 2).Pairwise (· ≤ ·) := by
    rw [List.pairwise_append]
    refine ⟨List.pairwise_replicate.mpr (Or.inr (by decide)),
      List.pairwise_replicate.mpr (Or.inr (by decide)), fun a ha b hb => ?_⟩
    rw [List.eq_of_mem_replicate ha, List.eq_of_mem_replicate hb]
    decide
  have hget : ∀ i < p, (List.replicate p (0 : UInt64) ++ List.replicate q 2).getD i 0 = 0 := by
    intro i hi
    rw [List.getD_eq_getElem?_getD, List.getElem?_append_left (by simpa using hi)]
    simp [hi]
  rw [median_of_sorted hsorted]
  simp only [List.length_append, List.length_replicate]
  split_ifs with hodd
  · exact hget _ (by omega)
  · rw [hget _ (by omega), hget _ (by omega)]
    decide

/-- The blocks of a branch longer than the window: the timestamps go up in the last thirty. -/
def risingBranch (len : ℕ) : List BlockExtendedInfo :=
  List.replicate (len - 30) (stamped 0) ++ List.replicate 30 (stamped 2)

/-- The median of a branch longer than the window lags behind that of its last blocks. -/
theorem timestampsAccept_risingBranch (pre : List BlockExtendedInfo) {len h : ℕ}
    (hlen : BLOCKCHAIN_TIMESTAMP_CHECK_WINDOW < len) :
    timestampsAccept (altTimestamps pre h (risingBranch len)) generateGenesisBlock = true ∧
      timestampsAccept (lastTimestamps (pre ++ risingBranch len)) generateGenesisBlock = false := by
  have hw : BLOCKCHAIN_TIMESTAMP_CHECK_WINDOW = 60 := rfl
  have hbranch : (risingBranch len).length = len := by
    simp only [risingBranch, List.length_append, List.length_replicate]
    omega
  constructor
  · rw [altTimestamps_long (by omega),
      timestampsAccept_perm ((List.reverse_perm (risingBranch len)).map _)]
    have hmap : (risingBranch len).map BlockExtendedInfo.timestamp =
        List.replicate (len - 30) 0 ++ List.replicate 30 2 := by
      simp [risingBranch, BlockExtendedInfo.timestamp, stamped]
    have hmed := median_low (p := len - 30) (q := 30) (by omega)
    rw [hmap, timestampsAccept, hmed]
    simp [generateGenesisBlock]
  · have hlast : lastTimestamps (pre ++ risingBranch len) =
        List.replicate 30 0 ++ List.replicate 30 2 := by
      have hsplit : pre ++ risingBranch len =
          pre ++ List.replicate (len - 60) (stamped 0) ++
            (List.replicate 30 (stamped 0) ++ List.replicate 30 (stamped 2)) := by
        have hsum : len - 30 = len - 60 + 30 := by omega
        rw [risingBranch, hsum, List.replicate_add]
        simp only [List.append_assoc]
      rw [lastTimestamps, hsplit, List.drop_left' (by simp [hw]; omega)]
      simp [stamped]
    rw [hlast]
    decide +kernel

/-- A chain of one block less than the window on genesis, split at height `split`. -/
theorem timestampsAccept_edge {split len : ℕ} (hs : 2 ≤ split)
    (hsum : split + len = BLOCKCHAIN_TIMESTAMP_CHECK_WINDOW) :
    let blocks := stamped 0 :: List.replicate (split - 1) (stamped 1)
    let branch := List.replicate len (stamped 1)
    timestampsAccept (altTimestamps blocks (split - 1) branch) generateGenesisBlock = true ∧
      timestampsAccept (lastTimestamps (blocks ++ branch)) generateGenesisBlock = false := by
  intro blocks branch
  have hw : BLOCKCHAIN_TIMESTAMP_CHECK_WINDOW = 60 := rfl
  have hblocks : blocks.length = split := by
    simp only [blocks, List.length_cons, List.length_replicate]
    omega
  have hbranch : branch.length = len := by simp [branch]
  constructor
  · -- the loop leaves genesis out, so one timestamp is missing
    refine timestampsAccept_of_short _ ?_
    have hperm := altTimestamps_perm (by omega) hblocks.ge (by omega : branch.length < _)
    rw [hperm.length_eq, List.length_map, List.length_drop, List.length_append, List.length_take,
      hblocks, hbranch, altWindowStart, if_neg (by omega : split ≠ 1)]
    omega
  · have hlast : lastTimestamps (blocks ++ branch) = 0 :: List.replicate 59 1 := by
      have hcount : split - 1 + len = 59 := by omega
      rw [lastTimestamps, List.length_append, hblocks, hbranch, hsum, Nat.sub_self, List.drop_zero]
      simp only [blocks, branch, List.cons_append, List.replicate_append_replicate, hcount,
        List.map_cons, List.map_replicate]
      rfl
    rw [hlast]
    decide +kernel

/-- Both checks of the genesis block, which is never too far in the future, read the timestamps only. -/
theorem accepts_of_checks {blocks branch : List BlockExtendedInfo} {h : ℕ}
    (hc : (checkBlockTimestamp sampleEnv { Node.empty with blocks := blocks }
        (altTimestamps blocks h branch) generateGenesisBlock).1 =
      (checkBlockTimestampMain sampleEnv 0 { Node.empty with blocks := blocks ++ branch }
        generateGenesisBlock).1) :
    timestampsAccept (altTimestamps blocks h branch) generateGenesisBlock =
      timestampsAccept (lastTimestamps (blocks ++ branch)) generateGenesisBlock := by
  rw [(checkBlockTimestamp_spec ..).1, (checkBlockTimestampMain_spec ..).1] at hc
  simpa [generateGenesisBlock] using hc

/-- The check of a block on a branch of `len` blocks that forks off at height `split` agrees with the
check on the chain after the switch, for all blocks, exactly when the branch is no longer than the
window and the window does not end at genesis. -/
theorem alt_timestamps_agree_iff (split len : ℕ) (h1 : 1 ≤ split) :
    (∀ (E : Env) (now : ℕ) (n n' : Node) (branch : List BlockExtendedInfo) (b : Block),
      split ≤ n.blocks.length → branch.length = len →
      n'.blocks.map BlockExtendedInfo.bl =
        (n.blocks.take split ++ branch).map BlockExtendedInfo.bl →
      b.timestamp.toNat ≤ now + CURRENCY_BLOCK_FUTURE_TIME_LIMIT →
      (checkBlockTimestamp E n (altTimestamps n.blocks (split - 1) branch) b).1 =
        (checkBlockTimestampMain E now n' b).1) ↔
    len ≤ BLOCKCHAIN_TIMESTAMP_CHECK_WINDOW ∧
      (split = 1 ∨ split + len ≠ BLOCKCHAIN_TIMESTAMP_CHECK_WINDOW) := by
  constructor
  · intro h
    by_contra hno
    -- any node may hold the blocks
    have hcase : ∀ (blocks branch : List BlockExtendedInfo), blocks.length = split →
        branch.length = len →
        timestampsAccept (altTimestamps blocks (split - 1) branch) generateGenesisBlock =
          timestampsAccept (lastTimestamps (blocks ++ branch)) generateGenesisBlock := by
      intro blocks branch hb hlen
      have htake : blocks.take split = blocks := List.take_of_length_le hb.le
      exact accepts_of_checks (h sampleEnv 0 { Node.empty with blocks := blocks }
        { Node.empty with blocks := blocks ++ branch } branch generateGenesisBlock hb.ge hlen
        (by simp only [htake]) (by decide))
    by_cases hlen : len ≤ BLOCKCHAIN_TIMESTAMP_CHECK_WINDOW
    · obtain ⟨hs, hsum⟩ : split ≠ 1 ∧ split + len = BLOCKCHAIN_TIMESTAMP_CHECK_WINDOW := by
        simp only [hlen, true_and, not_or, not_not, ne_eq] at hno
        exact hno
      obtain ⟨ha, hm⟩ := timestampsAccept_edge (by omega : 2 ≤ split) hsum
      have := hcase (stamped 0 :: List.replicate (split - 1) (stamped 1))
        (List.replicate len (stamped 1)) (by simp; omega) (by simp)
      rw [ha, hm] at this
      simp at this
    · obtain ⟨ha, hm⟩ := timestampsAccept_risingBranch (h := split - 1)
        (List.replicate split (stamped 0)) (Nat.not_le.mp hlen)
      have hw : BLOCKCHAIN_TIMESTAMP_CHECK_WINDOW = 60 := rfl
      have := hcase (List.replicate split (stamped 0)) (risingBranch len) (by simp)
        (by simp [risingBranch]; omega)
      rw [ha, hm] at this
      simp at this
  · rintro ⟨hlen, hedge⟩ E now n n' branch b hle rfl hblocks hfuture
    rw [(checkBlockTimestamp_spec ..).1, (checkBlockTimestampMain_spec ..).1,
      timestampsAccept_alt_eq h1 hle hlen hedge]
    have hlast : lastTimestamps n'.blocks = lastTimestamps (n.blocks.take split ++ branch) := by
      have hcount := congrArg List.length hblocks
      have hts := congrArg (List.map fun bl : Block => bl.timestamp) hblocks
      rw [List.length_map, List.length_map] at hcount
      rw [List.map_map, List.map_map] at hts
      unfold lastTimestamps
      rw [hcount, List.map_drop, List.map_drop]
      exact congrArg _ hts
    simp [hlast, hfuture]

/-- A branch of one block on the second block of a sample node. -/
theorem alt_timestamps_agree_sample : ∃ n, Reachable sampleEnv ∅ n ∧ ∃ n' : Node,
    n'.blocks = n.blocks.take 2 ++ [stamped 5] ∧
      (checkBlockTimestamp sampleEnv n (altTimestamps n.blocks 1 [stamped 5])
        generateGenesisBlock).1 = (checkBlockTimestampMain sampleEnv 0 n' generateGenesisBlock).1 := by
  obtain ⟨n, hn, hlen⟩ := exists_sampleNode_three
  refine ⟨n, reachable_sampleNode hn, { n with blocks := n.blocks.take 2 ++ [stamped 5] }, rfl, ?_⟩
  exact (alt_timestamps_agree_iff 2 1 (by decide)).mpr ⟨by decide, Or.inr (by decide)⟩ sampleEnv 0 n
    _ [stamped 5] generateGenesisBlock (by omega) rfl rfl (by decide)

/-- A branch of 61 blocks on the genesis block, the last 30 of them later than the others: a block
with the old timestamp passes as an alternative block and fails on the main chain. -/
theorem alt_timestamps_disagree : ¬∀ (E : Env) (now split : ℕ) (n n' : Node)
    (branch : List BlockExtendedInfo) (b : Block), 1 ≤ split → split ≤ n.blocks.length →
    n'.blocks.map BlockExtendedInfo.bl = (n.blocks.take split ++ branch).map BlockExtendedInfo.bl →
    b.timestamp.toNat ≤ now + CURRENCY_BLOCK_FUTURE_TIME_LIMIT →
    (checkBlockTimestamp E n (altTimestamps n.blocks (split - 1) branch) b).1 =
      (checkBlockTimestampMain E now n' b).1 := by
  intro h
  have hagree := accepts_of_checks (h sampleEnv 0 1 { Node.empty with blocks := [stamped 0] }
    { Node.empty with blocks := [stamped 0] ++ risingBranch 61 } (risingBranch 61)
    generateGenesisBlock le_rfl (by simp) rfl (by decide))
  obtain ⟨ha, hm⟩ := timestampsAccept_risingBranch (h := 1 - 1) [stamped 0]
    (by decide : BLOCKCHAIN_TIMESTAMP_CHECK_WINDOW < 61)
  rw [ha, hm] at hagree
  simp at hagree

end Boolberry
