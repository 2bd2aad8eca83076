import Boolberry.NodeInvariant

/-!
# Branches and the chains they become

The records `handle_alternative_block` makes for a branch, the records the same
blocks get when a switch pushes them to the main chain, and the two windows that
are read from either: the one of the difficulty and the one of the timestamps.
-/

namespace Boolberry
open KeyValue XorPatch

/-- The scratchpad offset of the block at a height of the main chain. -/
def scratchOffsetAt (blocks : List BlockExtendedInfo) (h : ℕ) : ℕ :=
  match blocks[h]? with
  | none => 0
  | some bei => bei.scratchOffset

/-- `bei` is the record of the next block on `branch`, which forks off below height `split`. -/
structure AltNext (E : Env) (blocks : List BlockExtendedInfo) (split : ℕ)
    (branch : List BlockExtendedInfo) (bei : BlockExtendedInfo) : Prop where
  height : bei.height = split + branch.length
  cumulativeDifficulty : bei.cumulativeDifficulty = topDifficulty (blocks.take split ++ branch) +
    getNextDifficultyForAlternativeChain blocks branch bei.height
  scratchOffset : bei.scratchOffset = scratchOffsetAt blocks split + (altScratchpad E branch).1.length

/-- A branch on the first `split` blocks of the main chain `blocks`. -/
inductive AltBranch (E : Env) (blocks : List BlockExtendedInfo) (split : ℕ) :
    List BlockExtendedInfo → Prop
  | nil : AltBranch E blocks split []
  | snoc {branch : List BlockExtendedInfo} {bei : BlockExtendedInfo} :
      AltBranch E blocks split branch → AltNext E blocks split branch bei →
      AltBranch E blocks split (branch ++ [bei])

theorem AltBranch.of_append_singleton {E : Env} {blocks branch : List BlockExtendedInfo} {split : ℕ}
    {bei : BlockExtendedInfo} (h : AltBranch E blocks split (branch ++ [bei])) :
    AltBranch E blocks split branch ∧ AltNext E blocks split branch bei := by
  generalize hm : branch ++ [bei] = m at h
  cases h with
  | nil => simp at hm
  | snoc hb hn =>
    obtain ⟨rfl, he⟩ := List.append_inj' hm rfl
    obtain rfl := List.singleton_injective he
    exact ⟨hb, hn⟩

theorem AltBranch.head_height {E : Env} {blocks branch : List BlockExtendedInfo} {split : ℕ}
    {bei : BlockExtendedInfo} (h : AltBranch E blocks split branch) (hb : branch.head? = some bei) :
    bei.height = split := by
  induction h with
  | nil => simp at hb
  | @snoc branch bei' _ hn ih =>
    cases branch with
    | nil =>
      obtain rfl : bei' = bei := by simpa using hb
      simpa using hn.height
    | cons a l => exact ih (by simpa using hb)

/-- Where a block on `a.branch` is attached. -/
structure Attached (E : Env) (n : Node) (a : Attachment) : Prop where
  branch : AltBranch E n.blocks a.connectionHeight a.branch
  prevHeight : a.prevHeight + 1 = a.connectionHeight + a.branch.length
  prevDifficulty : a.prevDifficulty = topDifficulty (n.blocks.take a.connectionHeight ++ a.branch)

theorem topDifficulty_append_singleton (l : List BlockExtendedInfo) (bei : BlockExtendedInfo) :
    topDifficulty (l ++ [bei]) = bei.cumulativeDifficulty := by
  simp [topDifficulty]

theorem attach_spec {E : Env} {n : Node} {prevId : Hash} {altChain : AltChain} {a : Attachment}
    {split : ℕ} (hb : AltBranch E n.blocks split (altChain.map Prod.snd))
    (ha : attach E n prevId altChain = some a) : Attached E n a ∧ a.altChain = altChain := by
  unfold attach at ha
  rcases List.eq_nil_or_concat' altChain with rfl | ⟨l, e, rfl⟩
  · -- the block follows a block of the main chain
    simp only [List.head?_nil] at ha
    split at ha
    · simp at ha
    · rename_i h _
      split at ha
      · simp at ha
      · rename_i bei hbei
        obtain rfl := Option.some.inj ha
        refine ⟨⟨.nil, rfl, ?_⟩, rfl⟩
        have hlt := (List.getElem?_eq_some_iff.mp hbei).1
        have htake : n.blocks.take (h + 1) = n.blocks.take h ++ [bei] := by
          rw [List.take_add_one, hbei]
          rfl
        simp only [Attachment.branch, List.map_nil, List.append_nil, htake,
          topDifficulty_append_singleton]
  · obtain ⟨front, hfront⟩ : ∃ front, (l ++ [e]).head? = some front := by
      cases l <;> simp
    have hlast : (l ++ [e]).getLast? = some e := by simp
    have hheight : front.2.height = split := by
      refine hb.head_height ?_
      rw [List.head?_map, hfront]
      rfl
    simp only [hfront, hlast, hheight] at ha
    split_ifs at ha
    split at ha
    · simp at ha
    · split_ifs at ha
      obtain rfl := Option.some.inj ha
      refine ⟨⟨hb, ?_, ?_⟩, rfl⟩
      · rw [List.map_append, List.map_singleton] at hb
        have := hb.of_append_singleton.2.height
        simp only [Attachment.branch, List.length_map, List.length_append,
          List.length_singleton] at this ⊢
        omega
      · simp only [Attachment.branch, List.map_append, List.map_singleton, ← List.append_assoc,
          topDifficulty_append_singleton]

theorem addAlternativeBlock_branch {E : Env} {bvc : BlockVerificationContext} {n n' : Node}
    {b : Block} {a : Attachment} {altChain : AltChain} (ha : Attached E n a)
    (h : addAlternativeBlock E bvc n b a = .ok (altChain, n')) :
    AltBranch E n.blocks a.connectionHeight (altChain.map Prod.snd) := by
  obtain ⟨bei, diff, pow, hpow, -, -, -, -, -, rfl, -⟩ := addAlternativeBlock_ok h
  obtain ⟨connection, patches, -, hc, -, rfl, rfl, -⟩ := altProofOfWork_some hpow
  rw [List.map_append, List.map_singleton]
  refine ha.branch.snoc ⟨ha.prevHeight, ?_, ?_⟩
  · rw [← ha.prevDifficulty]
  · simp [scratchOffsetAt, hc]

/-- `blocks'` is `blocks` with the blocks `bls` pushed behind it. -/
inductive Extends (blocks : List BlockExtendedInfo) : List Block → List BlockExtendedInfo → Prop
  | nil : Extends blocks [] blocks
  | snoc {bls : List Block} {blocks' : List BlockExtendedInfo} {bl : Block}
      (scratchOffset size : ℕ) (baseReward donationTotal : UInt64) : Extends blocks bls blocks' →
      Extends blocks (bls ++ [bl]) (blocks' ++ [nextBlockExtendedInfo blocks' scratchOffset bl size
        (getDifficultyForNextBlock blocks') baseReward donationTotal])

theorem Extends.map_bl {blocks blocks' : List BlockExtendedInfo} {bls : List Block}
    (h : Extends blocks bls blocks') :
    blocks'.map BlockExtendedInfo.bl = blocks.map BlockExtendedInfo.bl ++ bls := by
  induction h with
  | nil => simp
  | snoc _ _ _ _ _ ih =>
    rw [List.map_append, ih, List.append_assoc]
    rfl

theorem Pushed.extends {E : Env} {now : ℕ} {F : Flags} {chain : List ChainBlock} {n n' : Node}
    {c : ChainBlock} {blocks : List BlockExtendedInfo} {bls : List Block}
    (hp : Pushed E now F chain n n' c) (h : Extends blocks bls (blocksOf chain)) :
    Extends blocks (bls ++ [c.bei.bl]) (blocksOf (chain ++ [c])) := by
  obtain ⟨baseReward, donationTotal, -, hbei⟩ := hp.valid.record
  have hc : blocksOf (chain ++ [c]) = blocksOf chain ++ [c.bei] := by simp [blocksOf]
  rw [hc, hbei]
  exact h.snoc _ _ _ _

theorem connectAltChain_extends {E : Env} {now split : ℕ} {cps : Checkpoints}
    {blocks : List BlockExtendedInfo} {bls disconnected : List Block} {altChain : AltChain}
    {n n' : Node} (hn : ChainInv E cps n) (hx : Extends blocks bls n.blocks)
    (h : connectAltChain E now disconnected split altChain n = .ok n') :
    Extends blocks (bls ++ altChain.map fun e => e.2.bl) n'.blocks := by
  induction altChain generalizing n bls with
  | nil =>
    obtain rfl := Except.ok.inj h
    simpa using hx
  | cons e rest ih =>
    have hinv := (chainInv_store E cps now).push n {} e.2.bl hn
    obtain ⟨F, chain, -, -, hrep⟩ := hn
    unfold connectAltChain at h
    rcases handleBlockToMainChain_spec now e.2.bl {} hrep with ⟨h1, h2, c, hbl, hp⟩ | ⟨h1, -⟩
    · simp only [h1, h2, Bool.true_and, if_true] at h
      rw [hrep.blocks] at hx
      have hpx := hp.extends hx
      rw [hbl, ← hp.rep.blocks] at hpx
      have := ih hinv hpx h
      simpa using this
    · simp [h1] at h

/-- What the retarget rule reads of a record. -/
def BlockExtendedInfo.work (bei : BlockExtendedInfo) : UInt64 × WideDifficulty :=
  (bei.bl.timestamp, bei.cumulativeDifficulty)

theorem getDifficultyForNextBlock_congr {bs bs' : List BlockExtendedInfo}
    (h : bs.map BlockExtendedInfo.work = bs'.map BlockExtendedInfo.work) :
    getDifficultyForNextBlock bs = getDifficultyForNextBlock bs' := by
  have hlen : bs.length = bs'.length := by simpa using congrArg List.length h
  have hwin : (difficultyWindow bs).map BlockExtendedInfo.work =
      (difficultyWindow bs').map BlockExtendedInfo.work := by
    simp only [difficultyWindow, hlen, List.map_drop, h]
  have hts := congrArg (List.map Prod.fst) hwin
  have hcd := congrArg (List.map Prod.snd) hwin
  simp only [List.map_map] at hts hcd
  unfold getDifficultyForNextBlock
  exact congrArg₂ nextDifficulty hts hcd

theorem topDifficulty_congr {bs bs' : List BlockExtendedInfo}
    (h : bs.map BlockExtendedInfo.work = bs'.map BlockExtendedInfo.work) :
    topDifficulty bs = topDifficulty bs' := by
  have htop : ∀ l : List BlockExtendedInfo, topDifficulty l =
      (((l.map BlockExtendedInfo.work).getLast?).map Prod.snd).getD 0 := by
    intro l
    rw [topDifficulty, List.getLast?_map]
    cases l.getLast? <;> rfl
  rw [htop, htop, h]

/-- The window spliced from the main chain and the branch is the window of the whole. -/
theorem altDifficultyWindow_eq {blocks branch : List BlockExtendedInfo} {split : ℕ}
    (h1 : 1 ≤ split) (hle : split ≤ blocks.length)
    (hfront : ∀ bei, branch.head? = some bei → bei.height = split) :
    altDifficultyWindow blocks branch (split + branch.length) =
      difficultyWindow (blocks.take split ++ branch) := by
  -- the main chain stops at `split` whether the branch has a block yet or not
  have hstop : altDifficultyWindow blocks branch (split + branch.length) =
      if branch.length < DIFFICULTY_BLOCKS_COUNT then
        let count := min (DIFFICULTY_BLOCKS_COUNT - min DIFFICULTY_BLOCKS_COUNT branch.length) split
        (blocks.take split).drop (if split - count = 0 then 1 else split - count) ++ branch
      else branch.drop (branch.length - DIFFICULTY_BLOCKS_COUNT) := by
    unfold altDifficultyWindow
    cases hb : branch.head? with
    | none => simp [List.head?_eq_none_iff.mp hb]
    | some bei => simp [hfront bei hb]
  have hlen : (blocks.take split ++ branch).length = split + branch.length := by
    rw [List.length_append, List.length_take]
    omega
  have htake : (blocks.take split).length = split := by
    rw [List.length_take]
    omega
  rw [hstop]
  simp only [difficultyWindow, hlen]
  split_ifs with h2 h3 h4 h4 h4
  · -- the window starts at genesis in both, which is skipped
    rw [List.drop_append_of_le_length (by omega)]
  · omega
  · omega
  · rw [List.drop_append_of_le_length (by omega)]
    congr 2
    omega
  · omega
  · -- the branch alone fills the window
    have hnil : (blocks.take split).drop
        (split + branch.length - min (split + branch.length) DIFFICULTY_BLOCKS_COUNT) = [] :=
      List.drop_eq_nil_of_le (by omega)
    have hstart : split + branch.length - min (split + branch.length) DIFFICULTY_BLOCKS_COUNT -
        split = branch.length - DIFFICULTY_BLOCKS_COUNT := by omega
    rw [List.drop_append, htake, hnil, List.nil_append, hstart]

theorem getNextDifficultyForAlternativeChain_eq {blocks branch : List BlockExtendedInfo} {split : ℕ}
    (h1 : 1 ≤ split) (hle : split ≤ blocks.length)
    (hfront : ∀ bei, branch.head? = some bei → bei.height = split) :
    getNextDifficultyForAlternativeChain blocks branch (split + branch.length) =
      getDifficultyForNextBlock (blocks.take split ++ branch) := by
  have hcount : (difficultyWindow (blocks.take split ++ branch)).length ≤ DIFFICULTY_BLOCKS_COUNT := by
    unfold difficultyWindow
    simp only [List.length_drop]
    split_ifs <;> omega
  unfold getNextDifficultyForAlternativeChain getDifficultyForNextBlock
  rw [altDifficultyWindow_eq h1 hle hfront]
  simp only [Nat.not_lt.mpr hcount, if_false]

/-- The records of a branch and those the same blocks get on the main chain agree in all that the
retarget rule reads. -/
theorem AltBranch.work_eq {E : Env} {blocks branch blocks' : List BlockExtendedInfo} {split : ℕ}
    (h1 : 1 ≤ split) (hle : split ≤ blocks.length) (hb : AltBranch E blocks split branch)
    (hx : Extends (blocks.take split) (branch.map BlockExtendedInfo.bl) blocks') :
    blocks'.map BlockExtendedInfo.work =
      (blocks.take split ++ branch).map BlockExtendedInfo.work := by
  induction hb generalizing blocks' with
  | nil =>
    generalize hm : ([] : List BlockExtendedInfo).map BlockExtendedInfo.bl = m at hx
    cases hx with
    | nil => simp
    | snoc => simp at hm
  | @snoc branch bei hb hn ih =>
    generalize hm : (branch ++ [bei]).map BlockExtendedInfo.bl = m at hx
    cases hx with
    | nil => simp at hm
    | @snoc bls pre bl off size r d hx =>
      rw [List.map_append, List.map_singleton] at hm
      obtain ⟨rfl, hbl⟩ := List.append_inj' hm rfl
      obtain rfl := List.singleton_injective hbl
      have hpre := ih hx
      have hne : pre ≠ [] := by
        rintro rfl
        have hlen := congrArg List.length hpre
        simp only [List.map_nil, List.length_nil, List.length_map, List.length_append,
          List.length_take] at hlen
        omega
      have hdiff := getNextDifficultyForAlternativeChain_eq h1 hle fun _ => hb.head_height
      have hcd := hn.cumulativeDifficulty
      rw [hn.height, hdiff, ← getDifficultyForNextBlock_congr hpre,
        ← topDifficulty_congr hpre] at hcd
      rw [← List.append_assoc, List.map_append, List.map_append, hpre]
      congr 1
      -- the record of the pushed block carries the same cumulative difficulty
      obtain ⟨last, hlast⟩ : ∃ last, pre.getLast? = some last :=
        ⟨_, List.getLast?_eq_getLast_of_ne_nil hne⟩
      simp only [List.map_singleton, BlockExtendedInfo.work, nextBlockExtendedInfo, hlast, hcd,
        topDifficulty]
      rw [BitVec.add_comm]

/-- The difficulty `handle_alternative_block` asks of the next block on a branch is the one the main
chain asks for after a switch to the branch. -/
theorem alt_difficulty_eq_main (E : Env) (blocks branch blocks' : List BlockExtendedInfo) (split : ℕ)
    (h1 : 1 ≤ split) (hle : split ≤ blocks.length) (hb : AltBranch E blocks split branch)
    (hx : Extends (blocks.take split) (branch.map BlockExtendedInfo.bl) blocks') :
    getNextDifficultyForAlternativeChain blocks branch (split + branch.length) =
      getDifficultyForNextBlock blocks' := by
  rw [getNextDifficultyForAlternativeChain_eq h1 hle fun _ => hb.head_height]
  exact (getDifficultyForNextBlock_congr (hb.work_eq h1 hle hx)).symm

/-- A branch of one block on the genesis block of a sample node. -/
theorem alt_difficulty_eq_main_sample : ∃ n, Reachable sampleEnv ∅ n ∧
    ∃ bei blocks', AltBranch sampleEnv n.blocks 1 [bei] ∧
      Extends (n.blocks.take 1) [bei.bl] blocks' ∧
      getNextDifficultyForAlternativeChain n.blocks [bei] 2 = getDifficultyForNextBlock blocks' := by
  obtain ⟨n, hn, hlen⟩ := exists_sampleNode_three
  let bei : BlockExtendedInfo := ⟨sampleBlock sampleEnv (n.blocks.take 1) 1 [] 0 sampleKey, 1, 0,
    topDifficulty (n.blocks.take 1) + getNextDifficultyForAlternativeChain n.blocks [] 1, 0, 0,
    scratchOffsetAt n.blocks 1⟩
  have hb : AltBranch sampleEnv n.blocks 1 [bei] :=
    AltBranch.nil.snoc ⟨rfl, by simp [bei], by simp [bei, altScratchpad]⟩
  have hx : Extends (n.blocks.take 1) ([] ++ [bei.bl]) _ := Extends.nil.snoc 0 0 0 0
  exact ⟨n, reachable_sampleNode hn, bei, _, hb, hx,
    alt_difficulty_eq_main sampleEnv n.blocks [bei] _ 1 le_rfl (by omega) hb hx⟩

end Boolberry
