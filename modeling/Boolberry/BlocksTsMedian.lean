import Boolberry.Placement
import Boolberry.BranchTimestamps

/-!
# The cached median of the last timestamps

`get_blocks_ts_median` answers from a cache that the timestamp check of any block writes. For a block that
was pushed the cache holds the median below it, for a block that a query checks again the median with it, and
for an alternative block that of its branch. A push writes again what the check on a branch wrote, so on the
main chain only the first two are met.
-/

namespace Boolberry
open KeyValue

/-- `get_blocks_ts_median`; a failed check is answered with zero. -/
def getBlocksTsMedian (E : Env) (now : ℕ) (n : Node) : UInt64 × Node :=
  if getTopBlockId E n.blocks ≠ n.lastMedianTsCheckedTopBlockId then
    match n.blocks.getLast? with
    | none => (0, n)
    | some bei =>
        let n := (checkBlockTimestampMain E now n bei.bl).2
        if n.lastMedianTsCheckedTopBlockId = getBlockHash E bei.bl then (n.lastMedianTsChecked, n) else (0, n)
  else (n.lastMedianTsChecked, n)

/-- What happens to a node, and the queries for the median. -/
inductive MedianEvent where
  | node (e : Event)
  | query (now : ℕ)

def MedianEvent.apply (E : Env) (n : Node) : MedianEvent → Option Node
  | .node e => e.apply E n
  | .query now => some (getBlocksTsMedian E now n).2

def medianRun (E : Env) : Node → List MedianEvent → Option Node
  | n, [] => some n
  | n, e :: l =>
      match e.apply E n with
      | none => none
      | some n' => medianRun E n' l

theorem medianRun_node (E : Env) (n : Node) (events : List Event) :
    medianRun E n (events.map .node) = run E n events := by
  induction events generalizing n with
  | nil => rfl
  | cons e l ih =>
    simp only [List.map_cons, medianRun, MedianEvent.apply, run]
    cases e.apply E n with
    | none => rfl
    | some n' => exact ih n'

theorem medianRun_append {E : Env} {n m : Node} {events : List MedianEvent} (h : medianRun E n events = some m)
    (events' : List MedianEvent) : medianRun E n (events ++ events') = medianRun E m events' := by
  induction events generalizing n with
  | nil =>
    obtain rfl := Option.some.inj h
    rfl
  | cons e l ih =>
    cases he : e.apply E n with
    | none => simp [medianRun, he] at h
    | some n' =>
      simp only [List.cons_append, medianRun, he] at h ⊢
      exact ih h

/-- The blocks of a run with queries: genesis and what comes in. -/
def medianBlocks (events : List MedianEvent) : Set Block :=
  insert generateGenesisBlock {b | ∃ now fuel, MedianEvent.node (.block now fuel b) ∈ events}

/-- The two fields of the cache. -/
def Node.medianCache (n : Node) : Hash × UInt64 := (n.lastMedianTsCheckedTopBlockId, n.lastMedianTsChecked)

/-- The cache is left alone, or holds the median of `timestamps` for `b`. -/
def CacheWrite (E : Env) (timestamps : List UInt64) (b : Block) (n n' : Node) : Prop :=
  n'.medianCache = n.medianCache ∨
    BLOCKCHAIN_TIMESTAMP_CHECK_WINDOW ≤ timestamps.length ∧ n'.medianCache = (getBlockHash E b, median timestamps)

theorem checkBlockTimestamp_cache (E : Env) (n : Node) (timestamps : List UInt64) (b : Block) :
    CacheWrite E timestamps b n (checkBlockTimestamp E n timestamps b).2 ∧
      ((checkBlockTimestamp E n timestamps b).1 = true → BLOCKCHAIN_TIMESTAMP_CHECK_WINDOW ≤ timestamps.length →
        (checkBlockTimestamp E n timestamps b).2.medianCache = (getBlockHash E b, median timestamps)) := by
  unfold checkBlockTimestamp
  split_ifs with hshort hold
  · exact ⟨Or.inl rfl, fun _ hlong => absurd hshort (Nat.not_lt.mpr hlong)⟩
  · exact ⟨Or.inl rfl, fun hok => by cases hok⟩
  · exact ⟨Or.inr ⟨Nat.not_lt.mp hshort, rfl⟩, fun _ _ => rfl⟩

theorem checkBlockTimestampMain_cache (E : Env) (now : ℕ) (n : Node) (b : Block) :
    CacheWrite E (lastTimestamps n.blocks) b n (checkBlockTimestampMain E now n b).2 ∧
      ((checkBlockTimestampMain E now n b).1 = true →
        BLOCKCHAIN_TIMESTAMP_CHECK_WINDOW ≤ (lastTimestamps n.blocks).length →
        (checkBlockTimestampMain E now n b).2.medianCache = (getBlockHash E b, median (lastTimestamps n.blocks))) := by
  unfold checkBlockTimestampMain
  split_ifs
  · exact ⟨Or.inl rfl, fun hok => by cases hok⟩
  · exact checkBlockTimestamp_cache E n _ b

theorem addBlockAsInvalid_cache (n : Node) (bei : BlockExtendedInfo) (id : Hash) :
    (addBlockAsInvalid n bei id).medianCache = n.medianCache := by
  unfold addBlockAsInvalid
  split <;> rfl

theorem addBlockTransactions_cache (E : Env) (now : ℕ) (bvc : BlockVerificationContext) (n : Node) (bl : Block)
    (diff : WideDifficulty) : (addBlockTransactions E now bvc n bl diff).2.2.medianCache = n.medianCache := by
  unfold addBlockTransactions
  dsimp only
  split
  · rfl
  · split
    · dsimp only
      split_ifs
      · exact addBlockAsInvalid_cache _ _ _
      · rfl
    · unfold finishBlock
      dsimp only
      split
      · rfl
      · split <;> rfl

/-- A push writes the median below the block, and not before the chain is long enough. -/
theorem handleBlockToMainChain_cache (E : Env) (now : ℕ) (bvc : BlockVerificationContext) (n : Node) (bl : Block) :
    (CacheWrite E (lastTimestamps n.blocks) bl n (handleBlockToMainChain E now bvc n bl).2.2 ∧
        (bl.prevId ≠ getTopBlockId E n.blocks →
          (handleBlockToMainChain E now bvc n bl).2.2.medianCache = n.medianCache)) ∧
      ((handleBlockToMainChain E now bvc n bl).1 = true →
        BLOCKCHAIN_TIMESTAMP_CHECK_WINDOW ≤ (lastTimestamps n.blocks).length →
        (handleBlockToMainChain E now bvc n bl).2.2.medianCache =
          (getBlockHash E bl, median (lastTimestamps n.blocks))) := by
  obtain ⟨hwrite, hok⟩ := checkBlockTimestampMain_cache E now n bl
  unfold handleBlockToMainChain
  simp only
  by_cases hprev : bl.prevId ≠ getTopBlockId E n.blocks
  · rw [if_pos hprev]
    exact ⟨⟨Or.inl rfl, fun _ => rfl⟩, fun h => by cases h⟩
  rw [if_neg hprev]
  generalize checkBlockTimestampMain E now n bl = r at hwrite hok
  obtain ⟨ok, n₁⟩ := r
  cases ok with
  | false => exact ⟨⟨hwrite, fun h => absurd h hprev⟩, fun h => by cases h⟩
  | true =>
    have hok := hok rfl
    simp only [Bool.not_true, Bool.false_eq_true, if_false] at hwrite hok ⊢
    split_ifs
    · exact ⟨⟨hwrite, fun h => absurd h hprev⟩, fun h => by cases h⟩
    · exact ⟨⟨hwrite, fun h => absurd h hprev⟩, fun h => by cases h⟩
    · exact ⟨⟨hwrite, fun h => absurd h hprev⟩, fun h => by cases h⟩
    · exact ⟨⟨hwrite, fun h => absurd h hprev⟩, fun h => by cases h⟩
    · unfold CacheWrite
      rw [addBlockTransactions_cache]
      exact ⟨⟨hwrite, fun h => absurd h hprev⟩, fun _ => hok⟩

theorem popBlockFromBlockchain_cache (E : Env) (now : ℕ) (n : Node) :
    (popBlockFromBlockchain E now n).2.medianCache = n.medianCache := by
  unfold popBlockFromBlockchain
  split_ifs
  · rfl
  · split
    · rfl
    · dsimp only
      split_ifs <;> rfl

/-- An alternative block writes the median of the branch it is checked on. -/
theorem addAlternativeBlock_cache (E : Env) (bvc : BlockVerificationContext) (n : Node) (b : Block)
    (a : Attachment) :
    let timestamps := altTimestamps n.blocks (a.connectionHeight - 1) a.branch
    match addAlternativeBlock E bvc n b a with
    | .error r => CacheWrite E timestamps b n r.2.2
    | .ok r => CacheWrite E timestamps b n r.2 := by
  intro timestamps
  have hwrite := (checkBlockTimestamp_cache E n timestamps b).1
  unfold addAlternativeBlock
  simp only
  generalize checkBlockTimestamp E n timestamps b = r at hwrite
  obtain ⟨ok, n₁⟩ := r
  cases ok with
  | false => exact hwrite
  | true =>
    simp only [Bool.not_true, Bool.false_eq_true, if_false]
    cases altProofOfWork E n₁ b a with
    | none => exact hwrite
    | some q =>
      obtain ⟨bei, diff, pow⟩ := q
      dsimp only
      split_ifs
      · exact hwrite
      · exact hwrite
      · exact hwrite
      · cases n₁.alternativeChains.get (getBlockHash E b) with
        | some _ => exact hwrite
        | none => exact hwrite

/-- What the cache may hold for a block at the end of a line: the median with the block, the median below it,
or anything as long as the block is not on the main chain. -/
def CacheSound (E : Env) (B : Set Block) (n : Node) : Prop :=
  ∀ rs bei, Line E B (rs ++ [bei]) → getBlockHash E bei.bl = n.medianCache.1 →
    BLOCKCHAIN_TIMESTAMP_CHECK_WINDOW ≤ rs.length + 1 ∧
      (n.medianCache.2 = median (lastTimestamps (rs ++ [bei])) ∨
        BLOCKCHAIN_TIMESTAMP_CHECK_WINDOW ≤ rs.length ∧
          (n.medianCache.2 = median (lastTimestamps rs) ∨ getBlockHash E bei.bl ∉ blockIds E n.blocks))

theorem lastTimestamps_length (blocks : List BlockExtendedInfo) :
    (lastTimestamps blocks).length = min BLOCKCHAIN_TIMESTAMP_CHECK_WINDOW blocks.length := by
  rw [lastTimestamps, List.length_map, List.length_drop]
  omega

theorem lastTimestamps_congr {rs rs' : List BlockExtendedInfo}
    (h : rs.map BlockExtendedInfo.bl = rs'.map BlockExtendedInfo.bl) : lastTimestamps rs = lastTimestamps rs' := by
  have hread : ∀ l : List BlockExtendedInfo, lastTimestamps l =
      ((l.map BlockExtendedInfo.bl).drop (l.length - BLOCKCHAIN_TIMESTAMP_CHECK_WINDOW)).map
        fun b => b.timestamp := by
    intro l
    rw [← List.map_drop, List.map_map]
    rfl
  have hlen : rs.length = rs'.length := by
    have := congrArg List.length h
    rwa [List.length_map, List.length_map] at this
  rw [hread, hread, h, hlen]

theorem CacheSound.fewer {E : Env} {B : Set Block} {n n' : Node} (h : CacheSound E B n)
    (hcache : n'.medianCache = n.medianCache)
    (hids : ∀ id ∈ blockIds E n'.blocks, id ∈ blockIds E n.blocks) : CacheSound E B n' := by
  intro rs bei hl hid
  rw [hcache] at hid ⊢
  obtain ⟨hlong, hval⟩ := h rs bei hl hid
  refine ⟨hlong, hval.imp_right fun ⟨hlong', hval'⟩ => ⟨hlong', hval'.imp_right fun hnot hin => ?_⟩⟩
  exact hnot (hids _ hin)

section Sound

variable {E : Env} {cps : Checkpoints} {B : Set Block} {now : ℕ} {n n' : Node}

theorem Line.eq_genesis {bei : BlockExtendedInfo} (h : Line E B ([] ++ [bei])) : bei.bl = generateGenesisBlock := by
  generalize hm : [] ++ [bei] = m at h
  cases h with
  | genesis hg _ _ =>
    obtain rfl := List.singleton_injective hm
    exact hg
  | @snoc rs _ hl _ _ _ _ =>
    have hlen := congrArg List.length hm
    have := List.length_pos_iff.mpr hl.ne_nil
    simp only [List.length_append, List.length_cons, List.length_nil] at hlen
    omega

variable (hinj : Set.InjOn (getBlockHash E) B) (hnull : ∀ b ∈ B, getBlockHash E b ≠ nullHash)
include hinj hnull

/-- The blocks below a block of a line are those of any line it can be put on. -/
theorem Line.below_eq {rs rs' : List BlockExtendedInfo} {bei : BlockExtendedInfo} (h : Line E B (rs ++ [bei]))
    (h' : Line E B rs') (hprev : bei.bl.prevId = getTopBlockId E rs') :
    rs.map BlockExtendedInfo.bl = rs'.map BlockExtendedInfo.bl := by
  obtain ⟨q', c', rfl⟩ := (List.eq_nil_or_concat' rs').resolve_left h'.ne_nil
  have htop : getTopBlockId E (q' ++ [c']) = getBlockHash E c'.bl := by simp [getTopBlockId]
  rw [htop] at hprev
  rcases List.eq_nil_or_concat' rs with rfl | ⟨q, c, rfl⟩
  · rw [h.eq_genesis] at hprev
    exact absurd hprev.symm (hnull _ (h'.mem c' (by simp)))
  · obtain ⟨hl, -, hp, -⟩ := h.of_append_singleton (by simp)
    have hc : getBlockHash E c.bl = getBlockHash E c'.bl := by
      rw [← hprev, hp]
      simp [getTopBlockId]
    exact map_bl_of_key (hl.unique hinj h' (hinj (hl.mem c (by simp)) (h'.mem c' (by simp)) hc))

omit hnull in
theorem Line.eq_take {rs blocks : List BlockExtendedInfo} {bei : BlockExtendedInfo} (h : Line E B (rs ++ [bei]))
    (h' : Line E B blocks) {k : ℕ} {c : BlockExtendedInfo} (hk : blocks[k]? = some c) (hbl : bei.bl = c.bl) :
    k = rs.length ∧ (rs ++ [bei]).map BlockExtendedInfo.bl = (blocks.take (k + 1)).map BlockExtendedInfo.bl := by
  have hup := h'.upTo hk
  have hbls := map_bl_of_key (h.unique hinj hup hbl)
  have htake : blocks.take (k + 1) = blocks.take k ++ [c] := by
    rw [List.take_add_one, hk]
    rfl
  refine ⟨?_, by rw [hbls, htake]⟩
  have hlen := congrArg List.length hbls
  have hlt := (List.getElem?_eq_some_iff.mp hk).1
  simp only [List.length_map, List.length_append, List.length_singleton, List.length_take] at hlen
  omega

theorem CacheSound.write {below : List BlockExtendedInfo} {b : Block} (hb : b ∈ B) (hline : Line E B below)
    (hprev : b.prevId = getTopBlockId E below) {timestamps : List UInt64}
    (hlong : BLOCKCHAIN_TIMESTAMP_CHECK_WINDOW ≤ below.length)
    (hval : median timestamps = median (lastTimestamps below) ∨ getBlockHash E b ∉ blockIds E n'.blocks)
    (hcache : n'.medianCache = (getBlockHash E b, median timestamps)) : CacheSound E B n' := by
  intro rs bei hl hid
  rw [hcache] at hid ⊢
  have hbl : bei.bl = b := hinj (hl.mem bei (by simp)) hb hid
  have hbls := hl.below_eq hinj hnull hline (by rw [hbl, hprev])
  have hlen : rs.length = below.length := by
    have := congrArg List.length hbls
    rwa [List.length_map, List.length_map] at this
  refine ⟨by omega, Or.inr ⟨by omega, ?_⟩⟩
  rw [lastTimestamps_congr hbls, hbl]
  exact hval

theorem CacheSound.push (hn : Lined E cps B n) (h : CacheSound E B n) {bl : Block} (hb : bl ∈ B)
    (bvc : BlockVerificationContext) : CacheSound E B (handleBlockToMainChain E now bvc n bl).2.2 := by
  obtain ⟨⟨hwrite, hnot⟩, hok⟩ := handleBlockToMainChain_cache E now bvc n bl
  obtain ⟨-, heff⟩ := handleBlockToMainChain_effect E now bvc n bl
  rw [lastTimestamps_length] at hok
  by_cases hprev : bl.prevId = getTopBlockId E n.blocks
  swap
  · rcases heff with ⟨-, hput⟩ | ⟨-, hput⟩
    · exact h.fewer (hnot hprev) (by rw [hput.same.blocks]; exact fun _ hin => hin)
    · exact absurd hput.prevId hprev
  have hbelow : ∀ hlong : BLOCKCHAIN_TIMESTAMP_CHECK_WINDOW ≤ n.blocks.length,
      (handleBlockToMainChain E now bvc n bl).2.2.medianCache =
        (getBlockHash E bl, median (lastTimestamps n.blocks)) →
      CacheSound E B (handleBlockToMainChain E now bvc n bl).2.2 :=
    fun hlong hcache => .write hinj hnull hb hn.line hprev hlong (Or.inl rfl) hcache
  rcases heff with ⟨-, hput⟩ | ⟨htrue, hput⟩
  · rcases hwrite with hsame | ⟨hlong, hcache⟩
    · exact h.fewer hsame (by rw [hput.same.blocks]; exact fun _ hin => hin)
    · rw [lastTimestamps_length] at hlong
      exact hbelow (by omega) hcache
  by_cases hlong : BLOCKCHAIN_TIMESTAMP_CHECK_WINDOW ≤ n.blocks.length
  · exact hbelow hlong (hok htrue (by omega))
  -- the chain below the block is too short for a check
  have hsame : (handleBlockToMainChain E now bvc n bl).2.2.medianCache = n.medianCache := by
    refine hwrite.resolve_right fun hwritten => hlong ?_
    have := hwritten.1
    rw [lastTimestamps_length] at this
    omega
  obtain ⟨top, rfl, -, hblocks⟩ := hput.blocks
  intro rs bei hl hid
  rw [hsame] at hid ⊢
  obtain ⟨hlong', hval⟩ := h rs bei hl hid
  by_cases hself : getBlockHash E top.bl = n.medianCache.1
  · -- so it was a query that wrote the cache, with the block on top
    have hbl : bei.bl = top.bl := hinj (hl.mem bei (by simp)) hb (hid.trans hself.symm)
    have hlen := congrArg List.length (hl.below_eq hinj hnull hn.line (by rw [hbl, hprev]))
    rw [List.length_map, List.length_map] at hlen
    exact ⟨hlong', Or.inl (hval.resolve_right fun hmore => hlong (hlen ▸ hmore.1))⟩
  · refine ⟨hlong', hval.imp_right fun ⟨hmore, hval'⟩ => ⟨hmore, hval'.imp_right fun hnotin hin => ?_⟩⟩
    rw [hblocks, blockIds_append] at hin
    rcases List.mem_append.mp hin with hin | hin
    · exact hnotin hin
    · exact hself ((List.mem_singleton.mp hin).symm.trans hid)

omit hnull in
theorem CacheSound.query (hn : Lined E cps B n) (h : CacheSound E B n) :
    CacheSound E B (getBlocksTsMedian E now n).2 := by
  unfold getBlocksTsMedian
  split_ifs with hmiss
  swap
  · exact h
  obtain ⟨pre, top, hblocks⟩ := (List.eq_nil_or_concat' n.blocks).resolve_left hn.line.ne_nil
  have hlast : n.blocks.getLast? = some top := by rw [hblocks, List.getLast?_concat]
  simp only [hlast]
  have hsound : CacheSound E B (checkBlockTimestampMain E now n top.bl).2 := by
    obtain ⟨-, hs, -⟩ := checkBlockTimestampMain_spec E now n top.bl
    have hsame : (checkBlockTimestampMain E now n top.bl).2.blocks = n.blocks := congrArg ChainStores.blocks hs
    rcases (checkBlockTimestampMain_cache E now n top.bl).1 with hcache | ⟨hlong, hcache⟩
    · exact h.fewer hcache (by rw [hsame]; exact fun _ hin => hin)
    · intro rs bei hl hid
      rw [hcache] at hid ⊢
      have hline := hn.line
      rw [hblocks] at hline
      have hbl : bei.bl = top.bl := hinj (hl.mem bei (by simp)) (hline.mem top (by simp)) hid
      have hbls := map_bl_of_key (hl.unique hinj hline hbl)
      have hlen := congrArg List.length hbls
      rw [List.length_map, List.length_map, List.length_append, List.length_singleton, ← hblocks] at hlen
      rw [lastTimestamps_length] at hlong
      exact ⟨by omega, Or.inl (by rw [lastTimestamps_congr hbls, ← hblocks])⟩
  split_ifs
  · exact hsound
  · exact hsound

omit hinj hnull in
/-- A branch is checked against no more timestamps than there are blocks below it. -/
theorem Spliced.altTimestamps_length_le {prevId : Hash} {a : Attachment} (ha : Spliced E B n prevId a) :
    (altTimestamps n.blocks (a.connectionHeight - 1) a.branch).length ≤
      (n.blocks.take a.connectionHeight ++ a.branch).length := by
  by_cases hlen : BLOCKCHAIN_TIMESTAMP_CHECK_WINDOW ≤ a.branch.length
  · rw [altTimestamps_long hlen, List.length_map, List.length_reverse, List.length_append]
    omega
  · rw [(altTimestamps_perm ha.pos ha.le (Nat.lt_of_not_le hlen)).length_eq, List.length_map, List.length_drop]
    omega

omit hinj hnull in
/-- A block on the main chain itself is checked against its last timestamps. -/
theorem median_altTimestamps_nil {blocks : List BlockExtendedInfo} {split : ℕ} (h1 : 1 ≤ split)
    (hle : split ≤ blocks.length)
    (hlong : BLOCKCHAIN_TIMESTAMP_CHECK_WINDOW ≤ (altTimestamps blocks (split - 1) []).length) :
    median (altTimestamps blocks (split - 1) []) = median (lastTimestamps (blocks.take split)) := by
  have hshort : ([] : List BlockExtendedInfo).length < BLOCKCHAIN_TIMESTAMP_CHECK_WINDOW := by decide
  have hperm := altTimestamps_perm h1 hle hshort
  have htake : (blocks.take split).length = split := by
    rw [List.length_take]
    omega
  rw [List.append_nil, List.length_nil] at hperm
  have hstart : altWindowStart split 0 = split - BLOCKCHAIN_TIMESTAMP_CHECK_WINDOW := by
    have hlen := hperm.length_eq
    rw [List.length_map, List.length_drop, htake] at hlen
    have hwin : BLOCKCHAIN_TIMESTAMP_CHECK_WINDOW = 60 := rfl
    unfold altWindowStart at hlen ⊢
    split_ifs at hlen ⊢ <;> omega
  rw [median_perm hperm, hstart, lastTimestamps, htake]
  rfl

/-- An alternative block that is not on the main chain, or is put directly on it, keeps the cache sound. -/
theorem CacheSound.add (hn : Lined E cps B n) (h : CacheSound E B n) {b : Block} (hb : b ∈ B) {a : Attachment}
    (hchain : altChainOf n.alternativeChains b.prevId = some a.altChain)
    (hatt : attach E n b.prevId a.altChain = some a)
    (hfresh : getBlockHash E b ∉ blockIds E n.blocks ∨ a.altChain = []) (bvc : BlockVerificationContext) :
    match addAlternativeBlock E bvc n b a with
    | .error r => CacheSound E B r.2.2
    | .ok r => CacheSound E B r.2 := by
  obtain ⟨l, hl, hbranch⟩ := hn.alts.altChainOf_eq hinj b.prevId
  obtain rfl : l = a.altChain := Option.some.inj (hl.symm.trans hchain)
  obtain ⟨ha, -⟩ := attach_spliced hinj hn.line hn.alts (fun k hk => hn.index hk) hbranch hatt
  have hkeep : ∀ n' : Node, n'.toChainStores = n.toChainStores →
      CacheWrite E (altTimestamps n.blocks (a.connectionHeight - 1) a.branch) b n n' → CacheSound E B n' := by
    intro n' hs hwrite
    have hblocks : n'.blocks = n.blocks := congrArg ChainStores.blocks hs
    rcases hwrite with hsame | ⟨hlong, hcache⟩
    · exact h.fewer hsame (by rw [hblocks]; exact fun _ hin => hin)
    · refine .write hinj hnull hb ha.line ha.top.symm (hlong.trans ha.altTimestamps_length_le) ?_ hcache
      rcases hfresh with hfresh | hnil
      · exact Or.inr (by rwa [hblocks])
      · have hempty : a.branch = [] := by rw [Attachment.branch, hnil, List.map_nil]
        rw [hempty] at hlong ⊢
        rw [List.append_nil]
        exact Or.inl (median_altTimestamps_nil ha.pos ha.le hlong)
  have heff := addAlternativeBlock_effect E bvc n b a
  have hcache := addAlternativeBlock_cache E bvc n b a
  cases hr : addAlternativeBlock E bvc n b a with
  | error r =>
    rw [hr] at heff hcache
    exact hkeep r.2.2 heff.2.1 hcache
  | ok r =>
    rw [hr] at heff hcache
    exact hkeep r.2 heff.1 hcache

/-- What a switch does besides the checks of the old blocks keeps the cache sound. -/
theorem cacheSound_move : MoveInvariant E now (fun n => Lined E cps B n ∧ CacheSound E B n) (· ∈ B) (· ∈ B)
    (1 ≤ ·) where
  push n bvc bl hn hb := ⟨hn.1.push now hb bvc, hn.2.push hinj hnull hn.1 hb bvc⟩
  pop n s hn hs hlt := by
    refine ⟨(lined_alt now hinj).pop n s hn.1 hs hlt, hn.2.fewer (popBlockFromBlockchain_cache E now n) ?_⟩
    rcases hn.1.pop_cases now with ⟨hpop, -⟩ | ⟨n', hpop, -, hblocks, -⟩
    · rw [hpop]
      exact fun _ hin => hin
    · rw [hpop]
      intro id hin
      simp only [hblocks, blockIds] at hin
      obtain ⟨bei, hbei, rfl⟩ := List.mem_map.mp hin
      exact List.mem_map_of_mem (List.mem_of_mem_dropLast hbei)
  invalid n bei id hn := by
    refine ⟨(lined_alt now hinj).invalid n bei id hn.1, hn.2.fewer (addBlockAsInvalid_cache n bei id) ?_⟩
    rw [(addBlockAsInvalid_effect n bei id).1.blocks]
    exact fun _ hin => hin
  erase n id hn := ⟨(lined_alt now hinj).erase n id hn.1, hn.2.fewer rfl fun _ hin => hin⟩
  main n s h bei hn _ _ hbei := hn.1.line.mem bei (List.mem_of_getElem? hbei)

omit hinj hnull in
theorem Branch.base {alts : Map Hash BlockExtendedInfo} {id : Hash} {l : AltChain} (h : Branch alts id l) :
    alts.get (branchBase id l) = none := by
  induction h with
  | nil hnone => exact hnone
  | @snoc id bei l hget _ ih =>
    have hbase : branchBase id (l ++ [(id, bei)]) = branchBase bei.bl.prevId l := by cases l <;> rfl
    rwa [hbase]

omit hinj hnull in
theorem Spliced.branchBase_eq {prevId : Hash} {a : Attachment} (ha : Spliced E B n prevId a) :
    branchBase prevId a.altChain = getTopBlockId E (n.blocks.take a.connectionHeight) := by
  have hline := ha.line
  have htop := ha.top
  have hlen : (n.blocks.take a.connectionHeight).length = a.connectionHeight := by
    rw [List.length_take]
    exact Nat.min_eq_left ha.le
  unfold Attachment.branch at hline htop
  generalize a.altChain = l at hline htop
  cases l with
  | nil => simpa [branchBase] using htop.symm
  | cons front l =>
    have hfront : (n.blocks.take a.connectionHeight ++ (front :: l).map Prod.snd)[a.connectionHeight]? =
        some front.2 := by
      rw [List.getElem?_append_right hlen.le, hlen, Nat.sub_self]
      rfl
    have hne : n.blocks.take a.connectionHeight ≠ [] := by
      intro hnil
      have := ha.pos
      rw [hnil] at hlen
      simp only [List.length_nil] at hlen
      omega
    have hup := hline.upTo hfront
    rw [List.take_left' hlen] at hup
    exact (hup.of_append_singleton hne).2.2.1

omit hnull in
/-- What a branch is connected to is not an alternative block, also with the new block among them. -/
theorem TakenAs.base {b : Block} {a : Attachment} {bei : BlockExtendedInfo} {n₁ : Node} (hn : Lined E cps B n)
    (h : TakenAs E cps B n b a bei n₁) (hchain : altChainOf n.alternativeChains b.prevId = some a.altChain)
    (hfresh : getBlockHash E b ∉ blockIds E n.blocks) :
    n₁.alternativeChains.get (getTopBlockId E (n₁.blocks.take a.connectionHeight)) = none := by
  obtain ⟨l, hl, hbranch⟩ := hn.alts.altChainOf_eq hinj b.prevId
  obtain rfl : l = a.altChain := Option.some.inj (hl.symm.trans hchain)
  have hbase := hbranch.base
  rw [h.spliced.branchBase_eq] at hbase
  have hpos := h.spliced.pos
  have hle := h.spliced.le
  obtain ⟨p, hp⟩ : ∃ p, n.blocks[a.connectionHeight - 1]? = some p := ⟨_, List.getElem?_eq_getElem (by omega)⟩
  have htop := (getTopBlockId_take (E := E) hp).1
  rw [Nat.sub_add_cancel hpos] at htop
  rw [h.blocks, h.alts, Map.get_set, if_neg]
  · exact hbase
  · rw [htop]
    intro hid
    exact hfresh (hid ▸ List.mem_map_of_mem (List.mem_of_getElem? hp))

omit hinj hnull in
theorem connectedAll_of_connectAltChain {popped : List Block} {s : ℕ} {l : AltChain}
    (h : connectAltChain E now popped s l n = .ok n') : connectedAll E now l n = some n' := by
  induction l generalizing n with
  | nil =>
    obtain rfl := Except.ok.inj h
    rfl
  | cons x l ih =>
    unfold connectAltChain at h
    dsimp only at h
    split_ifs at h with hx
    exact (if_pos hx).trans (ih h)

omit hnull in
theorem Lined.handle_again {fuel : ℕ} (hn : Lined E cps B n) {b : Block} (hb : b ∈ B)
    (hstored : Stored E n b.prevId) (hagain : (n.alternativeChains.get (getBlockHash E b)).isSome = true)
    {r : Bool × Node} (hr : altHandler E now fuel n b = some r) : r.1 = false := by
  obtain ⟨q, hq, rfl⟩ := Option.map_eq_some_iff.mp hr
  cases fuel with
  | zero => cases hq
  | succ fuel =>
    rcases handleAlternativeBlock_inv hq with ⟨-, -, hparent⟩ | ⟨a, altChain, n₁, ht, -⟩
    · by_contra htrue
      obtain ⟨halt, hmain⟩ := hparent (by simpa using htrue)
      rcases hstored with hin | hin
      · rw [hn.mem_blockIds, hmain] at hin
        cases hin
      · rw [halt] at hin
        cases hin
    · obtain ⟨_, -, htaken, -⟩ := ht.takenAs hinj hn.checkpoints hn.line hn.alts (fun k hk => hn.index hk) hb
      rw [htaken.fresh] at hagain
      cases hagain

/-- An old block that is no heavier than the chain keeps the cache sound. -/
theorem CacheSound.handle_light {fuel : ℕ} (hn : Lined E cps B n) (h : CacheSound E B n) {b : Block} (hb : b ∈ B)
    (hlight : ∀ rs bei, Line E B (rs ++ [bei]) → bei.bl = b →
      bei.cumulativeDifficulty ≤ topDifficulty n.blocks)
    (hfresh : getBlockHash E b ∉ blockIds E n.blocks ∨ n.alternativeChains.get b.prevId = none)
    {r : Bool × Node} (hr : altHandler E now fuel n b = some r) : CacheSound E B r.2 := by
  obtain ⟨q, hq, rfl⟩ := Option.map_eq_some_iff.mp hr
  cases fuel with
  | zero => cases hq
  | succ fuel =>
    rcases handleAlternativeBlock_steps hq with ⟨hsame, -⟩ | ⟨a, hpass, hchain, hatt, hadded⟩
    · dsimp only
      rw [hsame]
      exact h
    have hnil : getBlockHash E b ∉ blockIds E n.blocks ∨ a.altChain = [] := by
      refine hfresh.imp_right fun hnone => ?_
      obtain ⟨l, hl, hbranch⟩ := hn.alts.altChainOf_eq hinj b.prevId
      obtain rfl : l = a.altChain := Option.some.inj (hl.symm.trans hchain)
      generalize a.altChain = l at hbranch
      cases hbranch with
      | nil _ => rfl
      | snoc hget _ =>
        rw [hnone] at hget
        cases hget
    have hadd := h.add hinj hnull hn hb hchain hatt hnil {}
    rcases hadded with ha | ⟨altChain, n₁, ha, hcase⟩
    · rw [ha] at hadd
      exact hadd
    · rw [ha] at hadd
      obtain ⟨-, rfl⟩ := hcase.resolve_right fun hheavy =>
        hn.not_heavier hinj hb hlight ⟨hpass, hchain, hatt, {}, ha⟩ hheavy.1
      exact hadd

theorem CacheSound.pushOldChain {fuel : ℕ} (hn : Lined E cps B n) (h : CacheSound E B n) {l : List Block}
    (hl : ∀ b ∈ l, b ∈ B ∧ getBlockHash E b ∉ blockIds E n.blocks ∧
      ∀ rs bei, Line E B (rs ++ [bei]) → bei.bl = b → bei.cumulativeDifficulty ≤ topDifficulty n.blocks)
    {r : Bool × Node} (hr : Boolberry.pushOldChain (altHandler E now fuel) l n = some r) :
    Lined E cps B r.2 ∧ CacheSound E B r.2 := by
  have hall := AltInvariant.pushOldChain (P := fun m => m.blocks = n.blocks ∧ Lined E cps B m ∧ CacheSound E B m)
    (fun m b q hm hb hq => ?_) ⟨rfl, hn, h⟩ hl hr
  · exact hall.2
  · obtain ⟨hblocks, hlined, hsound⟩ := hm
    obtain ⟨hin, hfresh, hlight⟩ := hb
    rw [← hblocks] at hfresh hlight
    obtain ⟨hsame, -, hlined', -⟩ := hlined.handle_light hinj hin hlight hq
    exact ⟨hsame.trans hblocks, hlined', hsound.handle_light hinj hnull hlined hin hlight (Or.inl hfresh) hq⟩

omit hnull in
/-- An old block that the new chain does not start with is not on the new chain. -/
theorem Line.notMem_of_fork {rs rs' : List BlockExtendedInfo} (h : Line E B rs) (h' : Line E B rs') {s k : ℕ}
    {c c' d : BlockExtendedInfo} (hc : rs[s]? = some c) (hc' : rs'[s]? = some c') (hne : c.bl ≠ c'.bl)
    (hd : rs[k]? = some d) (hle : s ≤ k) : getBlockHash E d.bl ∉ blockIds E rs' := by
  intro hin
  obtain ⟨d', hmem, hid⟩ := List.mem_map.mp hin
  obtain ⟨i, hi⟩ := List.mem_iff_getElem?.mp hmem
  have hbl : d.bl = d'.bl := hinj (h.mem d (List.mem_of_getElem? hd)) (h'.mem d' hmem) hid.symm
  have hup := h.upTo hd
  obtain ⟨hik, hbls⟩ := hup.eq_take hinj h' hi hbl
  have hlt := (List.getElem?_eq_some_iff.mp hd).1
  rw [List.length_take, Nat.min_eq_left hlt.le] at hik
  have htake : rs.take k ++ [d] = rs.take (k + 1) := by
    rw [List.take_add_one, hd]
    rfl
  -- both lists are read at the fork
  rw [htake, hik] at hbls
  have hat := congrArg (fun l => l[s]?) hbls
  simp only [List.getElem?_map, List.getElem?_take_of_lt (show s < k + 1 by omega), hc, hc', Option.map_some,
    Option.some.injEq] at hat
  exact hne hat

theorem CacheSound.switch {fuel : ℕ} (hwork : WorkFits E B) (hn : Lined E cps B n) (h : CacheSound E B n)
    {a : Attachment} {bei : BlockExtendedInfo} (hw : Heavier E cps B n a bei) {l : AltChain}
    (hl : l.map Prod.snd = a.branch ++ [bei]) (hget : ∀ x ∈ l, n.alternativeChains.get x.1 = some x.2)
    (hbase : n.alternativeChains.get (getTopBlockId E (n.blocks.take a.connectionHeight)) = none)
    {r : Bool × Node} (hr : switchToAlternativeBlockchain E now (altHandler E now fuel) n l = some r) :
    CacheSound E B r.2 := by
  have hpos := hw.pos
  have hB : ∀ x ∈ l, x.2.bl ∈ B := fun x hx =>
    hw.line.mem x.2 (List.mem_append_right _ (hl ▸ List.mem_map_of_mem hx))
  refine ((cacheSound_move hinj hnull).switchToAlternativeBlockchain (fun _ hbl => hbl) ⟨hn, h⟩ hB
    (fun front hfront => ?_) (fun front popped n₀ n₁ q hfront hlt hpop hcon hn₁ _ hpush => ?_) hr).2
  · rw [hw.front_height hl hfront]
    exact hpos
  rw [hw.front_height hl hfront] at hlt hpop hcon
  have hold := hn.popBlocks now hpos (n.blocks.length - a.connectionHeight) (by omega) []
  have hsides := popBlocks_sides E now a.connectionHeight (n.blocks.length - a.connectionHeight) n []
  rw [hpop] at hold hsides
  obtain ⟨h₀, hblocks₀, hpopped⟩ := hold
  rw [List.append_nil] at hpopped
  dsimp only at hpopped hblocks₀ hsides
  have hall := connectedAll_of_connectAltChain hcon
  obtain ⟨-, recs, hblocks₁, hrecs⟩ := h₀.connectedAll hB hall
  rw [hblocks₀] at hblocks₁
  have halts : n₁.alternativeChains = n.alternativeChains :=
    (hsides.trans (connectedAll_sides hall)).alternativeChains
  have hmap : l.map (fun x => x.2.bl) = (a.branch ++ [bei]).map BlockExtendedInfo.bl := by
    rw [← hl, List.map_map]
    rfl
  have hheavy := hw.lt_of_connected hinj hn₁.1.line hblocks₁ (hrecs.trans hmap)
  have hlight := fun {b} => hn.line.light (b := b) hinj hwork hheavy
  -- the first of the old blocks and the first of the new ones
  obtain ⟨c, hc⟩ : ∃ c, n.blocks[a.connectionHeight]? = some c := ⟨_, List.getElem?_eq_getElem hlt⟩
  obtain ⟨c', rest', rfl⟩ : ∃ c' rest', recs = c' :: rest' := by
    cases recs with
    | nil => cases l with
      | nil => cases hfront
      | cons x l => cases hrecs
    | cons c' rest' => exact ⟨c', rest', rfl⟩
  have hc' : n₁.blocks[a.connectionHeight]? = some c' := by
    rw [hblocks₁, List.getElem?_append_right (by rw [List.length_take]; omega), List.length_take,
      Nat.min_eq_left hlt.le, Nat.sub_self]
    rfl
  have hmem : c.bl ∈ n.blocks.map BlockExtendedInfo.bl := List.mem_map_of_mem (List.mem_of_getElem? hc)
  by_cases hsame : c.bl = c'.bl
  · -- it is checked on the main chain and is not taken, since it is an alternative block already
    have hcons : popped = c.bl :: (n.blocks.drop (a.connectionHeight + 1)).map BlockExtendedInfo.bl := by
      rw [hpopped, List.drop_eq_getElem?_toList_append, hc]
      rfl
    have hb : c.bl ∈ B := hn.line.mem c (List.mem_of_getElem? hc)
    have hne : n.blocks.take a.connectionHeight ≠ [] := by
      rw [ne_eq, List.take_eq_nil_iff]
      rintro (hzero | hnil)
      · omega
      · exact hn.line.ne_nil hnil
    have hprev : c.bl.prevId = getTopBlockId E (n.blocks.take a.connectionHeight) :=
      ((hn.line.upTo hc).of_append_singleton hne).2.2.1
    have hstored : Stored E n₁ c.bl.prevId := by
      rw [hsame]
      exact Or.inl (hn₁.1.line.prevId_mem hc' hpos)
    have hagain : (n₁.alternativeChains.get (getBlockHash E c.bl)).isSome = true := by
      obtain ⟨x, l, rfl⟩ : ∃ x l', l = x :: l' := by
        cases l with
        | nil => cases hfront
        | cons x l' => exact ⟨x, l', rfl⟩
      have hx := hget x (by simp)
      have hbl : c'.bl = x.2.bl := (List.cons.inj hrecs).1
      rw [halts, hsame, hbl, ← (hn.alts x.1 x.2 hx).1, hx]
      rfl
    rw [hcons, Boolberry.pushOldChain] at hpush
    cases hb' : altHandler E now fuel n₁ c.bl with
    | none => simp [hb'] at hpush
    | some q' =>
      have hfalse := hn₁.1.handle_again hinj hb hstored hagain hb'
      obtain ⟨-, -, hlined, -⟩ := hn₁.1.handle_light hinj hb (hlight hmem) hb'
      have hsound := hn₁.2.handle_light hinj hnull hn₁.1 hb (hlight hmem)
        (Or.inr (by rw [halts, hprev]; exact hbase)) hb'
      obtain ⟨ok, n₂⟩ := q'
      obtain rfl : ok = false := hfalse
      simp only [hb', Option.some.injEq] at hpush
      rw [← hpush]
      exact ⟨hlined, hsound⟩
  · refine hn₁.2.pushOldChain hinj hnull hn₁.1 (fun b hb => ?_) hpush
    rw [hpopped] at hb
    obtain ⟨d, hd, rfl⟩ := List.mem_map.mp hb
    obtain ⟨k, hk⟩ := List.mem_iff_getElem?.mp hd
    rw [List.getElem?_drop] at hk
    exact ⟨hn.line.mem d (List.mem_of_getElem? hk),
      hn.line.notMem_of_fork hinj hn₁.1.line hc hc' hsame hk (Nat.le_add_right _ _),
      hlight (List.mem_map_of_mem (List.mem_of_getElem? hk))⟩

theorem CacheSound.addNewBlock {fuel : ℕ} (hwork : WorkFits E B) (hn : Lined E cps B n) (h : CacheSound E B n)
    {b : Block} (hb : b ∈ B) {bvc : BlockVerificationContext} {r : Bool × BlockVerificationContext × Node}
    (hr : Boolberry.addNewBlock E now fuel bvc n b = some r) : CacheSound E B r.2.2 := by
  unfold Boolberry.addNewBlock at hr
  split_ifs at hr with hhave hprev
  · rw [← Option.some.inj hr]
    exact h
  swap
  · rw [← Option.some.inj hr]
    exact h.push hinj hnull hn hb bvc
  have hfresh : getBlockHash E b ∉ blockIds E n.blocks := by
    rw [hn.mem_blockIds]
    intro hin
    exact hhave (by simp [haveBlock, hin])
  cases fuel with
  | zero => cases hr
  | succ fuel =>
    rcases handleAlternativeBlock_steps hr with ⟨hsame, -⟩ | ⟨a, hpass, hchain, hatt, hadded⟩
    · rw [hsame]
      exact h
    have hadd := h.add hinj hnull hn hb hchain hatt (Or.inl hfresh) { bvc with addedToMainChain := false }
    rcases hadded with ha | ⟨l, n₁, ha, hcase⟩
    · rw [ha] at hadd
      exact hadd
    rw [ha] at hadd
    have ht : TakenOn E n b a l n₁ := ⟨hpass, hchain, hatt, _, ha⟩
    obtain ⟨bei, hl, htaken, hcp, halts⟩ :=
      ht.takenAs hinj hn.checkpoints hn.line hn.alts (fun k hk => hn.index hk) hb
    rcases hcase with ⟨-, rfl⟩ | ⟨hheavy, hsw⟩
    · exact hadd
    have hsnd : l.map Prod.snd = a.branch ++ [bei] := by
      rw [hl]
      exact a.map_snd _ bei
    rw [hsnd, topDifficulty_append_singleton, htaken.blocks] at hheavy
    refine hadd.switch hinj hnull hwork (hn.frame htaken.stores hcp halts) (htaken.heavier hheavy) hsnd
      (fun x hx => ?_) ?_ hsw
    · rw [hl] at hx
      rcases List.mem_append.mp hx with hx | hx
      · exact htaken.below x hx
      · rw [List.mem_singleton.mp hx, htaken.alts, Map.get_set_self]
    · exact htaken.base hinj hn hchain hfresh

theorem CacheSound.event (hwork : WorkFits E B) (hn : Lined E cps B n) (h : CacheSound E B n) {e : Event}
    (hb : ∀ now fuel b, e = .block now fuel b → b ∈ B) (he : e.apply E n = some n') : CacheSound E B n' := by
  cases e with
  | block now fuel b =>
    obtain ⟨r, hr, rfl⟩ := Option.map_eq_some_iff.mp he
    exact h.addNewBlock hinj hnull hwork hn (hb now fuel b rfl) hr
  | transaction now tx kept =>
    obtain rfl := Option.some.inj he
    unfold handleIncomingTx
    split_ifs
    · unfold addNewTx
      split_ifs <;> exact h.fewer rfl fun _ hin => hin
    · exact h.fewer rfl fun _ hin => hin
  | removeStuck now order =>
    obtain rfl := Option.some.inj he
    exact h.fewer rfl fun _ hin => hin
  | pruneAltBlocks =>
    obtain rfl := Option.some.inj he
    exact h.fewer rfl fun _ hin => hin

omit hinj hnull in
theorem getBlocksTsMedian_stores (E : Env) (now : ℕ) (n : Node) :
    (getBlocksTsMedian E now n).2.toChainStores = n.toChainStores ∧ SameFrame n (getBlocksTsMedian E now n).2 := by
  unfold getBlocksTsMedian
  split_ifs
  swap
  · exact ⟨rfl, .refl n⟩
  split
  · exact ⟨rfl, .refl n⟩
  · rename_i bei _
    obtain ⟨-, hs, hf⟩ := checkBlockTimestampMain_spec E now n bei.bl
    dsimp only
    split_ifs
    · exact ⟨hs, hf⟩
    · exact ⟨hs, hf⟩

theorem CacheSound.medianRun (hwork : WorkFits E B) {events : List MedianEvent} (hn : Lined E cps B n)
    (h : CacheSound E B n) (hb : ∀ now fuel b, .node (.block now fuel b) ∈ events → b ∈ B)
    (hrun : Boolberry.medianRun E n events = some n') : Lined E cps B n' ∧ CacheSound E B n' := by
  induction events generalizing n with
  | nil =>
    obtain rfl := Option.some.inj hrun
    exact ⟨hn, h⟩
  | cons e l ih =>
    unfold Boolberry.medianRun at hrun
    cases he : e.apply E n with
    | none =>
      rw [he] at hrun
      cases hrun
    | some m =>
      rw [he] at hrun
      have hstep : Lined E cps B m ∧ CacheSound E B m := by
        cases e with
        | node e =>
          have hin : ∀ now fuel b, e = .block now fuel b → b ∈ B := by
            rintro now fuel b rfl
            exact hb now fuel b (by simp)
          exact ⟨hn.event hinj hin he, h.event hinj hnull hwork hn hin he⟩
        | query now =>
          obtain rfl := Option.some.inj he
          obtain ⟨hs, hf⟩ := getBlocksTsMedian_stores E now n
          exact ⟨hn.frame hs hf.checkpoints (by rw [hf.alternativeChains]; exact hn.alts), h.query hinj hn⟩
      exact ih hstep.1 hstep.2 (fun now fuel b hin => hb now fuel b (List.mem_cons_of_mem _ hin)) hrun

omit hinj in
theorem cacheSound_of_init {n₀ : Node} (hinit : initNode E now cps = some n₀) : CacheSound E B n₀ := by
  have hempty : n₀.medianCache = Node.empty.medianCache := by
    unfold initNode addNewBlock at hinit
    have hhave : haveBlock Node.empty (getBlockHash E generateGenesisBlock) = false := by
      simp [haveBlock, Node.empty]
    have hprev : generateGenesisBlock.prevId = getTopBlockId E Node.empty.blocks := rfl
    simp only [hhave, hprev, ne_eq, not_true_eq_false, if_false, Bool.false_eq_true] at hinit
    split_ifs at hinit with hok
    obtain ⟨⟨hwrite, -⟩, -⟩ := handleBlockToMainChain_cache E now {} Node.empty generateGenesisBlock
    rw [← Option.some.inj hinit]
    have hshort : ¬BLOCKCHAIN_TIMESTAMP_CHECK_WINDOW ≤ (lastTimestamps Node.empty.blocks).length := by decide
    have hsame := hwrite.resolve_right fun hwritten => hshort hwritten.1
    generalize handleBlockToMainChain E now {} Node.empty generateGenesisBlock = r at hsame ⊢
    unfold setCheckpoints pruneRingSignaturesIfNeed
    simp only
    split_ifs <;> exact hsame
  intro rs bei hl hid
  rw [hempty] at hid
  exact absurd hid (hnull _ (hl.mem bei (by simp)))

end Sound

/-- The median of the last blocks of a chain, zero for a chain that is shorter. -/
def chainMedian (blocks : List BlockExtendedInfo) : UInt64 :=
  if blocks.length < BLOCKCHAIN_TIMESTAMP_CHECK_WINDOW then 0 else median (lastTimestamps blocks)

/-- The median does not move with the top block, which is neither older than it nor ahead of the clock. -/
structure Calm (now : ℕ) (blocks : List BlockExtendedInfo) : Prop where
  steady : BLOCKCHAIN_TIMESTAMP_CHECK_WINDOW < blocks.length → chainMedian blocks.dropLast = chainMedian blocks
  passes : chainMedian blocks ≠ 0 → ∀ top, blocks.getLast? = some top →
    chainMedian blocks ≤ top.bl.timestamp ∧ top.bl.timestamp.toNat ≤ now + CURRENCY_BLOCK_FUTURE_TIME_LIMIT

section Answer

variable {E : Env} {cps : Checkpoints} {B : Set Block} {now : ℕ} {n : Node} {pre : List BlockExtendedInfo}
  {top : BlockExtendedInfo}

theorem getBlocksTsMedian_hit (hhit : getTopBlockId E n.blocks = n.medianCache.1) :
    (getBlocksTsMedian E now n).1 = n.medianCache.2 := by
  have hid : getTopBlockId E n.blocks = n.lastMedianTsCheckedTopBlockId := hhit
  unfold getBlocksTsMedian
  rw [if_neg (not_not.mpr hid)]
  rfl

/-- Without the top block in the cache, the answer is the median if the top block passes the check. -/
theorem getBlocksTsMedian_miss (hblocks : n.blocks = pre ++ [top])
    (hmiss : getTopBlockId E n.blocks ≠ n.medianCache.1) :
    (getBlocksTsMedian E now n).1 =
      if chainMedian n.blocks ≤ top.bl.timestamp ∧ top.bl.timestamp.toNat ≤ now + CURRENCY_BLOCK_FUTURE_TIME_LIMIT
      then chainMedian n.blocks else 0 := by
  have hlast : n.blocks.getLast? = some top := by rw [hblocks, List.getLast?_concat]
  have htop : getTopBlockId E n.blocks = getBlockHash E top.bl := by rw [getTopBlockId, hlast]
  have hid : getTopBlockId E n.blocks ≠ n.lastMedianTsCheckedTopBlockId := hmiss
  have hother : n.lastMedianTsCheckedTopBlockId ≠ getBlockHash E top.bl := by
    rw [← htop]
    exact hid.symm
  have hwindow : (lastTimestamps n.blocks).length < BLOCKCHAIN_TIMESTAMP_CHECK_WINDOW ↔
      n.blocks.length < BLOCKCHAIN_TIMESTAMP_CHECK_WINDOW := by
    rw [lastTimestamps_length]
    omega
  unfold getBlocksTsMedian chainMedian
  rw [if_pos hid, hlast]
  dsimp only
  unfold checkBlockTimestampMain checkBlockTimestamp
  simp only [hwindow]
  by_cases hfuture : now + CURRENCY_BLOCK_FUTURE_TIME_LIMIT < top.bl.timestamp.toNat
  · simp only [hfuture, hother, Nat.not_le.mpr hfuture, if_true, if_false, and_false]
  by_cases hshort : n.blocks.length < BLOCKCHAIN_TIMESTAMP_CHECK_WINDOW
  · simp only [hfuture, hshort, hother, if_true, if_false, ite_self]
  by_cases hold : top.bl.timestamp < median (lastTimestamps n.blocks)
  · simp only [hfuture, hshort, hold, hother, UInt64.not_le.mpr hold, if_true, if_false, false_and]
  · simp only [hfuture, hshort, hold, UInt64.not_lt.mp hold, Nat.not_lt.mp hfuture, if_true, if_false, and_self]

theorem Lined.getTopBlockId_eq (hn : Lined E cps B n) : ∃ pre top, n.blocks = pre ++ [top] ∧
    getTopBlockId E n.blocks = getBlockHash E top.bl := by
  obtain ⟨pre, top, hblocks⟩ := (List.eq_nil_or_concat' n.blocks).resolve_left hn.line.ne_nil
  exact ⟨pre, top, hblocks, by rw [hblocks]; simp [getTopBlockId]⟩

theorem CacheSound.answer (hn : Lined E cps B n) (h : CacheSound E B n)
    (hcalm : BLOCKCHAIN_TIMESTAMP_CHECK_WINDOW ≤ n.blocks.length → Calm now n.blocks) :
    (getBlocksTsMedian E now n).1 = chainMedian n.blocks := by
  obtain ⟨pre, top, hblocks, htop⟩ := hn.getTopBlockId_eq
  have hlen : n.blocks.length = pre.length + 1 := by rw [hblocks, List.length_append, List.length_singleton]
  by_cases hhit : getTopBlockId E n.blocks = n.medianCache.1
  · rw [getBlocksTsMedian_hit hhit]
    have hline := hn.line
    rw [hblocks] at hline
    obtain ⟨hlong, hval⟩ := h pre top hline (by rw [← htop, hhit])
    have hself : chainMedian n.blocks = median (lastTimestamps n.blocks) :=
      if_neg (by omega)
    rcases hval with hval | ⟨hmore, hval | hnot⟩
    · rw [hval, hself, hblocks]
    · have hsteady := (hcalm (by omega)).steady (by omega)
      have hbelow : chainMedian pre = median (lastTimestamps pre) := if_neg (by omega)
      rw [hblocks, List.dropLast_concat, hbelow] at hsteady
      rw [hval, hsteady, hblocks]
    · exact absurd (by rw [hblocks, blockIds_append]; simp [blockIds]) hnot
  · rw [getBlocksTsMedian_miss hblocks hhit]
    by_cases hzero : chainMedian n.blocks = 0
    · rw [hzero, ite_self]
    · have hlong : BLOCKCHAIN_TIMESTAMP_CHECK_WINDOW ≤ n.blocks.length := by
        by_contra hshort
        exact hzero (if_pos (by omega))
      rw [if_pos ((hcalm hlong).passes hzero top (by rw [hblocks, List.getLast?_concat]))]

/-- Right behind a push the answer is the median below the new top block. -/
theorem getBlocksTsMedian_pushed {now' : ℕ} {bvc : BlockVerificationContext} {bl : Block}
    (hlong : BLOCKCHAIN_TIMESTAMP_CHECK_WINDOW ≤ n.blocks.length)
    (hok : (handleBlockToMainChain E now' bvc n bl).1 = true) :
    (getBlocksTsMedian E now (handleBlockToMainChain E now' bvc n bl).2.2).1 = chainMedian n.blocks := by
  have hcache := (handleBlockToMainChain_cache E now' bvc n bl).2 hok (by rw [lastTimestamps_length]; omega)
  obtain ⟨bei, rfl, hblocks⟩ := handleBlockToMainChain_blocks hok
  have htop : getTopBlockId E (handleBlockToMainChain E now' bvc n bei.bl).2.2.blocks = getBlockHash E bei.bl := by
    rw [hblocks]
    simp [getTopBlockId]
  rw [getBlocksTsMedian_hit (by rw [htop, hcache]), hcache]
  exact (if_neg (Nat.not_lt.mpr hlong)).symm

end Answer

theorem chainMedian_congr {rs rs' : List BlockExtendedInfo}
    (h : rs.map BlockExtendedInfo.bl = rs'.map BlockExtendedInfo.bl) : chainMedian rs = chainMedian rs' := by
  have hlen := congrArg List.length h
  rw [List.length_map, List.length_map] at hlen
  rw [chainMedian, chainMedian, hlen, lastTimestamps_congr h]

theorem Calm.congr {now : ℕ} {rs rs' : List BlockExtendedInfo} (h : Calm now rs)
    (hbls : rs.map BlockExtendedInfo.bl = rs'.map BlockExtendedInfo.bl) : Calm now rs' := by
  have hlen := congrArg List.length hbls
  rw [List.length_map, List.length_map] at hlen
  have hbelow : rs.dropLast.map BlockExtendedInfo.bl = rs'.dropLast.map BlockExtendedInfo.bl := by
    rw [List.map_dropLast, List.map_dropLast, hbls]
  refine ⟨fun hlong => ?_, fun hne top htop => ?_⟩
  · rw [← chainMedian_congr hbelow, ← chainMedian_congr hbls]
    exact h.steady (by omega)
  · rw [← chainMedian_congr hbls] at hne ⊢
    have hlast : rs.getLast?.map BlockExtendedInfo.bl = some top.bl := by
      rw [← List.getLast?_map, hbls, List.getLast?_map, htop]
      rfl
    obtain ⟨top', htop', hbl⟩ := Option.map_eq_some_iff.mp hlast
    rw [← hbl]
    exact h.passes hne top' htop'

/-- Two runs that end with the same blocks answer the same, and the median of the last blocks, on a calm
chain. -/
theorem same_ts_median_of_calm (E : Env) (cps : Checkpoints) (now start₁ start₂ : ℕ) (m₁ n₁ m₂ n₂ : Node)
    (events₁ events₂ : List MedianEvent)
    (hinj : Set.InjOn (getBlockHash E) (medianBlocks (events₁ ++ events₂)))
    (hnull : ∀ b ∈ medianBlocks (events₁ ++ events₂), getBlockHash E b ≠ nullHash)
    (hwork : WorkFits E (medianBlocks (events₁ ++ events₂)))
    (hinit₁ : initNode E start₁ cps = some m₁) (hrun₁ : medianRun E m₁ events₁ = some n₁)
    (hinit₂ : initNode E start₂ cps = some m₂) (hrun₂ : medianRun E m₂ events₂ = some n₂)
    (hsame : n₁.blocks.map BlockExtendedInfo.bl = n₂.blocks.map BlockExtendedInfo.bl)
    (hcalm : BLOCKCHAIN_TIMESTAMP_CHECK_WINDOW ≤ n₁.blocks.length → Calm now n₁.blocks) :
    (getBlocksTsMedian E now n₁).1 = (getBlocksTsMedian E now n₂).1 ∧
      (BLOCKCHAIN_TIMESTAMP_CHECK_WINDOW ≤ n₁.blocks.length →
        (getBlocksTsMedian E now n₁).1 = median (lastTimestamps n₁.blocks)) := by
  have hgenesis : generateGenesisBlock ∈ medianBlocks (events₁ ++ events₂) := Set.mem_insert _ _
  have hreach : ∀ (m n : Node) (start : ℕ) (events : List MedianEvent),
      (∀ e ∈ events, e ∈ events₁ ++ events₂) → initNode E start cps = some m → medianRun E m events = some n →
      (BLOCKCHAIN_TIMESTAMP_CHECK_WINDOW ≤ n.blocks.length → Calm now n.blocks) →
      (getBlocksTsMedian E now n).1 = chainMedian n.blocks := by
    intro m n start events hsub hinit hrun hcalm
    obtain ⟨hn, hsound⟩ := (cacheSound_of_init hnull hinit).medianRun hinj hnull hwork
      (lined_of_init hgenesis hinit).1
      (fun now fuel b hin => Set.mem_insert_of_mem _ ⟨now, fuel, hsub _ hin⟩) hrun
    exact hsound.answer hn hcalm
  have hlen := congrArg List.length hsame
  rw [List.length_map, List.length_map] at hlen
  have h₁ := hreach m₁ n₁ start₁ events₁ (fun e he => List.mem_append_left _ he) hinit₁ hrun₁ hcalm
  have h₂ := hreach m₂ n₂ start₂ events₂ (fun e he => List.mem_append_right _ he) hinit₂ hrun₂
    (fun hlong => (hcalm (by omega)).congr hsame)
  refine ⟨by rw [h₁, h₂, chainMedian_congr hsame], fun hlong => ?_⟩
  rw [h₁]
  exact if_neg (by omega)

theorem workFits_of_line {E : Env} {B : Set Block} {rs : List BlockExtendedInfo}
    (hinj : Set.InjOn (getBlockHash E) B) (h : Line E B rs) (hall : ∀ b ∈ B, b ∈ rs.map BlockExtendedInfo.bl)
    (hgrow : (rs.map fun bei => bei.cumulativeDifficulty.toNat).IsChain (· ≤ ·)) : WorkFits E B := by
  intro rs' bei hl
  obtain ⟨c, hmem, hbl⟩ := List.mem_map.mp (hall bei.bl (hl.mem bei (by simp)))
  obtain ⟨k, hk⟩ := List.mem_iff_getElem?.mp hmem
  have hlt := (List.getElem?_eq_some_iff.mp hk).1
  have hup := h.upTo hk
  have hkeys := hl.unique hinj hup hbl.symm
  rw [List.map_append, List.map_append] at hkeys
  have hwork := map_work_of_key (List.append_inj' hkeys rfl).1
  rw [topDifficulty_congr hwork, getDifficultyForNextBlock_congr hwork]
  have hrec := hup.recordOK.cumulativeDifficulty
  rcases Nat.eq_zero_or_pos k with rfl | hpos
  · have hzero : (topDifficulty (rs.take 0)).toNat = 0 := rfl
    rw [hzero, Nat.zero_add]
    exact BitVec.isLt _
  · obtain ⟨p, hp⟩ : ∃ p, rs[k - 1]? = some p := ⟨_, List.getElem?_eq_getElem (by omega)⟩
    have htop := (getTopBlockId_take (E := E) hp).2
    rw [Nat.sub_add_cancel hpos] at htop
    have hle : p.cumulativeDifficulty.toNat ≤ c.cumulativeDifficulty.toNat := by
      have hget := List.pairwise_iff_getElem.mp (List.isChain_iff_pairwise.mp hgrow) (k - 1) k (by simp; omega)
        (by simpa using hlt) (by omega)
      rw [List.getElem_map, List.getElem_map] at hget
      rwa [(List.getElem?_eq_some_iff.mp hp).2, (List.getElem?_eq_some_iff.mp hk).2] at hget
    have hsum := congrArg BitVec.toNat hrec
    rw [BitVec.toNat_add, htop] at hsum
    rw [htop]
    have h₁ := p.cumulativeDifficulty.isLt
    have h₂ := (getDifficultyForNextBlock (rs.take k)).isLt
    omega

/-- A block with the top block below it is put on top or leaves the blocks alone. -/
theorem addNewBlock_on_top {E : Env} {now fuel : ℕ} {bvc : BlockVerificationContext} {n : Node} {b : Block}
    {r : Bool × BlockVerificationContext × Node} (hprev : b.prevId = getTopBlockId E n.blocks)
    (hr : addNewBlock E now fuel bvc n b = some r) : r.2.2.blocks = n.blocks ∨
      ∃ bei : BlockExtendedInfo, bei.bl = b ∧ r.2.2.blocks = n.blocks ++ [bei] := by
  unfold addNewBlock at hr
  split_ifs at hr with hhave
  · rw [← Option.some.inj hr]
    exact Or.inl rfl
  · exact absurd hprev ‹_›
  · rw [← Option.some.inj hr]
    obtain ⟨-, ⟨-, hput⟩ | ⟨htrue, -⟩⟩ := handleBlockToMainChain_effect E now bvc n b
    · exact Or.inl hput.same.blocks
    · exact Or.inr (handleBlockToMainChain_blocks htrue)

/-- The blocks that `growBy` delivers, all of them on the chain if it is long enough. -/
theorem growBy_blocks {E : Env} {next : Node → Block} {k : ℕ} {n n' : Node}
    (hnext : ∀ n, (next n).prevId = getTopBlockId E n.blocks) (hg : growBy E next k n = some n') :
    ∃ bs : List Block, run E n (bs.map fun b => .block 0 1 b) = some n' ∧
      n'.blocks.length ≤ n.blocks.length + k ∧ (n'.blocks.length = n.blocks.length + k →
        n'.blocks.map BlockExtendedInfo.bl = n.blocks.map BlockExtendedInfo.bl ++ bs) := by
  induction k generalizing n with
  | zero =>
    obtain rfl := Option.some.inj hg
    exact ⟨[], rfl, le_rfl, fun _ => (List.append_nil _).symm⟩
  | succ k ih =>
    unfold growBy at hg
    cases hb : addNewBlock E 0 1 {} n (next n) with
    | none => simp [hb] at hg
    | some r =>
      simp only [hb] at hg
      obtain ⟨bs, hrun, hle, hbls⟩ := ih hg
      refine ⟨next n :: bs, ?_, ?_, fun hlen => ?_⟩
      · simp only [List.map_cons, run, Event.apply, hb, Option.map_some]
        exact hrun
      · rcases addNewBlock_on_top (hnext n) hb with hsame | ⟨bei, -, hblocks⟩
        · rw [hsame] at hle
          omega
        · rw [hblocks, List.length_append, List.length_singleton] at hle
          omega
      · rcases addNewBlock_on_top (hnext n) hb with hsame | ⟨bei, hbl, hblocks⟩
        · rw [hsame] at hle
          omega
        · rw [hbls (by rw [hblocks, List.length_append, List.length_singleton]; omega), hblocks, List.map_append,
            List.map_singleton, hbl, List.append_assoc]
          rfl

theorem growBy_one {E : Env} {next : Node → Block} {n n' : Node}
    (hnext : (next n).prevId = getTopBlockId E n.blocks) (hg : growBy E next 1 n = some n')
    (hlen : n'.blocks.length = n.blocks.length + 1) : ∃ b, n' = (handleBlockToMainChain E 0 {} n b).2.2 ∧
      (handleBlockToMainChain E 0 {} n b).1 = true := by
  cases hb : addNewBlock E 0 1 {} n (next n) with
  | none => simp [growBy, hb] at hg
  | some r =>
    simp only [growBy, hb, Option.some.injEq] at hg
    subst hg
    unfold addNewBlock at hb
    split_ifs at hb with hhave hprev
    · rw [← Option.some.inj hb] at hlen
      exact absurd hlen (Nat.ne_of_lt (Nat.lt_succ_self _))
    · exact absurd hnext hprev
    · rw [← Option.some.inj hb] at hlen ⊢
      refine ⟨_, rfl, ?_⟩
      obtain ⟨-, ⟨-, hput⟩ | ⟨htrue, -⟩⟩ := handleBlockToMainChain_effect E 0 {} n (next n)
      · rw [hput.same.blocks] at hlen
        omega
      · exact htrue

/-- The next block; from the twentieth on all have one timestamp. -/
def calmBlock (n : Node) : Block :=
  { sampleBlock sampleEnv n.blocks 0 [] 0 sampleKey with
    timestamp := UInt64.ofNat (120 * min n.blocks.length 20) }

theorem sample_calm : ∃ n₀ n, initNode sampleEnv 0 ∅ = some n₀ ∧ growBy sampleEnv calmBlock 60 n₀ = some n ∧
    n₀.blocks.length = 1 ∧ n.blocks.length = 61 ∧ nullHash ∉ blockIds sampleEnv n.blocks ∧
    (n.blocks.map fun bei => bei.cumulativeDifficulty.toNat).IsChain (· ≤ ·) ∧
    (chainMedian n.blocks).toNat = 2400 ∧ chainMedian n.blocks.dropLast = chainMedian n.blocks ∧
    n.blocks.getLast?.map (fun bei => bei.bl.timestamp.toNat) = some 2400 := by
  have hdec : (initNode sampleEnv 0 ∅).bind (fun n₀ => (growBy sampleEnv calmBlock 60 n₀).map fun n =>
      decide (n₀.blocks.length = 1) && decide (n.blocks.length = 61) &&
      decide (nullHash ∉ blockIds sampleEnv n.blocks) &&
      decide ((n.blocks.map fun bei => bei.cumulativeDifficulty.toNat).IsChain (· ≤ ·)) &&
      decide ((chainMedian n.blocks).toNat = 2400) &&
      decide (chainMedian n.blocks.dropLast = chainMedian n.blocks) &&
      decide (n.blocks.getLast?.map (fun bei => bei.bl.timestamp.toNat) = some 2400)) = some true := by
    decide +kernel
  obtain ⟨n₀, hinit, h⟩ := Option.bind_eq_some_iff.mp hdec
  obtain ⟨n, hgrow, h⟩ := Option.map_eq_some_iff.mp h
  simp only [Bool.and_eq_true, decide_eq_true_eq] at h
  obtain ⟨⟨⟨⟨⟨⟨h₁, h₂⟩, h₃⟩, h₄⟩, h₅⟩, h₆⟩, h₇⟩ := h
  exact ⟨n₀, n, hinit, hgrow, h₁, h₂, h₃, h₄, h₅, h₆, h₇⟩

/-- What a node with fifty-nine blocks on genesis, and one more, looks like. -/
theorem sample_sixty : ∃ n₀ n n', initNode sampleEnv 0 ∅ = some n₀ ∧ grow sampleEnv 59 n₀ = some n ∧
    grow sampleEnv 1 n = some n' ∧ n.blocks.length = 60 ∧ n'.blocks.length = 61 ∧
    (chainMedian n.blocks).toNat = 3540 ∧ (chainMedian n'.blocks).toNat = 3660 := by
  have hdec : (initNode sampleEnv 0 ∅).bind (fun n₀ => (grow sampleEnv 59 n₀).bind fun n =>
      (grow sampleEnv 1 n).map fun n' =>
        decide (n.blocks.length = 60) && decide (n'.blocks.length = 61) &&
        decide ((chainMedian n.blocks).toNat = 3540) && decide ((chainMedian n'.blocks).toNat = 3660)) =
      some true := by
    decide +kernel
  obtain ⟨n₀, hinit, h⟩ := Option.bind_eq_some_iff.mp hdec
  obtain ⟨n, hgrow, h⟩ := Option.bind_eq_some_iff.mp h
  obtain ⟨n', hgrow', h⟩ := Option.map_eq_some_iff.mp h
  simp only [Bool.and_eq_true, decide_eq_true_eq] at h
  obtain ⟨⟨⟨h₁, h₂⟩, h₃⟩, h₄⟩ := h
  exact ⟨n₀, n, n', hinit, hgrow, hgrow', h₁, h₂, h₃, h₄⟩

/-- The blocks of a run that only extends the main chain, without and with queries at its end. -/
theorem mem_blocks_of_events {n₀ n : Node} (hinit : initNode sampleEnv 0 ∅ = some n₀) {bs : List Block}
    (hbls : n.blocks.map BlockExtendedInfo.bl = n₀.blocks.map BlockExtendedInfo.bl ++ bs)
    {events : List MedianEvent} (hev : ∀ now fuel b, .node (.block now fuel b) ∈ events → b ∈ bs) :
    ∀ b ∈ medianBlocks events, b ∈ n.blocks.map BlockExtendedInfo.bl := by
  obtain ⟨c, hgenesis, -, -, hrep, -⟩ := initNode_spec hinit
  rw [hbls]
  rintro b (rfl | ⟨now, fuel, hin⟩)
  · refine List.mem_append_left _ ?_
    rw [hrep.blocks]
    exact List.mem_singleton.mpr hgenesis.symm
  · exact List.mem_append_right _ (hev now fuel b hin)

/-- Sixty blocks on genesis, with a query at the end and without one. -/
theorem same_ts_median_of_calm_sample : ∃ n₀ n₁ n₂ events₁ events₂, initNode sampleEnv 0 ∅ = some n₀ ∧
    medianRun sampleEnv n₀ events₁ = some n₁ ∧ medianRun sampleEnv n₀ events₂ = some n₂ ∧ events₁ ≠ events₂ ∧
    n₁.blocks.length = 61 ∧ (getBlocksTsMedian sampleEnv 0 n₁).1 = (getBlocksTsMedian sampleEnv 0 n₂).1 ∧
    (getBlocksTsMedian sampleEnv 0 n₁).1 = median (lastTimestamps n₁.blocks) := by
  obtain ⟨n₀, n, hinit, hgrow, hone, hlen, hnull, hgrows, hmedian, hsteady, htop⟩ := sample_calm
  obtain ⟨bs, hrun, -, hbls⟩ := growBy_blocks (fun _ => rfl) hgrow
  have hrun₁ := (medianRun_node sampleEnv n₀ _).trans hrun
  have hev : ∀ now fuel b, MedianEvent.node (.block now fuel b) ∈
      (bs.map fun b => Event.block 0 1 b).map MedianEvent.node → b ∈ bs := by
    intro now fuel b hin
    simp only [List.mem_map, MedianEvent.node.injEq, exists_eq_right, Event.block.injEq] at hin
    obtain ⟨b', hb', -, -, rfl⟩ := hin
    exact hb'
  have hin : ∀ e ∈ bs.map fun b => Event.block 0 1 b, MedianEvent.node e ∈
      (bs.map fun b => Event.block 0 1 b).map MedianEvent.node := fun e he => List.mem_map_of_mem he
  generalize (bs.map fun b => Event.block 0 1 b).map MedianEvent.node = events₁ at hrun₁ hev hin
  obtain ⟨events₂, hevents₂⟩ : ∃ events₂, events₂ = events₁ ++ [MedianEvent.query 0] := ⟨_, rfl⟩
  have hrun₂ : medianRun sampleEnv n₀ events₂ = some (getBlocksTsMedian sampleEnv 0 n).2 := by
    rw [hevents₂]
    exact medianRun_append hrun₁ _
  obtain ⟨B, hB⟩ : ∃ B, B = medianBlocks (events₁ ++ events₂) := ⟨_, rfl⟩
  have hmem : ∀ b ∈ B, b ∈ n.blocks.map BlockExtendedInfo.bl := by
    rw [hB]
    refine mem_blocks_of_events hinit (hbls (by omega)) fun now fuel b hin => ?_
    rcases List.mem_append.mp hin with hin | hin
    · exact hev now fuel b hin
    · rw [hevents₂] at hin
      exact hev now fuel b ((List.mem_append.mp hin).resolve_right (by simp))
  have hid : ∀ b ∈ B, getBlockHash sampleEnv b ∈ blockIds sampleEnv n.blocks := by
    intro b hb
    obtain ⟨bei, hbei, rfl⟩ := List.mem_map.mp (hmem b hb)
    exact List.mem_map_of_mem hbei
  have hinj : Set.InjOn (getBlockHash sampleEnv) B := by
    obtain ⟨F, chain, -, ⟨t, hv⟩, hrep⟩ := chainInv_of_reachable ⟨0, n₀, _, hinit, hrun⟩
    have hnodup := blockIds_nodup hv
    rw [← hrep.blocks, blockIds, ← Function.comp_def (getBlockHash sampleEnv) BlockExtendedInfo.bl,
      ← List.map_map] at hnodup
    exact fun b hb b' hb' hsame => List.inj_on_of_nodup_map hnodup (hmem b hb) (hmem b' hb') hsame
  have hgenesis : generateGenesisBlock ∈ B := hB ▸ Set.mem_insert _ _
  have hlined : Lined sampleEnv ∅ B n := by
    refine run_induction (Q := fun e => ∀ now fuel b, e = .block now fuel b → b ∈ B)
      (fun _ _ _ hn hb he => hn.event hinj hb he) (lined_of_init hgenesis hinit).1 (fun e he => ?_) hrun
    rintro now fuel b rfl
    rw [hB]
    exact Set.mem_insert_of_mem _ ⟨now, fuel, List.mem_append_left _ (hin _ he)⟩
  have hcalm : Calm 0 n.blocks := by
    refine ⟨fun _ => hsteady, fun _ top hlast => ?_⟩
    rw [hlast, Option.map_some, Option.some.injEq] at htop
    rw [UInt64.le_iff_toNat_le, hmedian, htop]
    decide
  have hnull' : ∀ b ∈ B, getBlockHash sampleEnv b ≠ nullHash := fun b hb hzero => hnull (hzero ▸ hid b hb)
  have hwork := workFits_of_line hinj hlined.line hmem hgrows
  have hstores := (getBlocksTsMedian_stores sampleEnv 0 n).1
  rw [hB] at hinj hnull' hwork
  obtain ⟨hboth, hvalue⟩ := same_ts_median_of_calm sampleEnv ∅ 0 0 0 n₀ n n₀ _ events₁ events₂ hinj hnull' hwork
    hinit hrun₁ hinit hrun₂ (by rw [hstores]) fun _ => hcalm
  refine ⟨n₀, n, _, events₁, events₂, hinit, hrun₁, hrun₂, fun heq => ?_, hlen, hboth, hvalue (by rw [hlen]; decide)⟩
  have hshorter := congrArg List.length (heq.trans hevents₂)
  rw [List.length_append, List.length_singleton] at hshorter
  omega

/-- Behind the sixty-first block the median of the blocks below it is answered. -/
theorem stale_ts_median : ¬∀ (E : Env) (cps : Checkpoints) (now start₁ start₂ : ℕ) (m₁ n₁ m₂ n₂ : Node)
    (events₁ events₂ : List MedianEvent), initNode E start₁ cps = some m₁ → medianRun E m₁ events₁ = some n₁ →
    initNode E start₂ cps = some m₂ → medianRun E m₂ events₂ = some n₂ →
    n₁.blocks.map BlockExtendedInfo.bl = n₂.blocks.map BlockExtendedInfo.bl →
    (getBlocksTsMedian E now n₁).1 = (getBlocksTsMedian E now n₂).1 ∧
      (BLOCKCHAIN_TIMESTAMP_CHECK_WINDOW ≤ n₁.blocks.length →
        (getBlocksTsMedian E now n₁).1 = median (lastTimestamps n₁.blocks)) := by
  intro h
  obtain ⟨n₀, n, n', hinit, hgrow, hgrow', hlen, hlen', hmedian, hmedian'⟩ := sample_sixty
  obtain ⟨bs, hrun, -⟩ := growBy_blocks (fun _ => rfl) hgrow
  obtain ⟨bs', hrun', -⟩ := growBy_blocks (fun _ => rfl) hgrow'
  have hall : medianRun sampleEnv n₀ (((bs ++ bs').map fun b => Event.block 0 1 b).map .node) = some n' := by
    rw [medianRun_node, List.map_append, run_append hrun]
    exact hrun'
  have hvalue := (h sampleEnv ∅ 0 0 0 n₀ n' n₀ n' _ _ hinit hall hinit hall rfl).2 (by rw [hlen']; decide)
  have hstale : (getBlocksTsMedian sampleEnv 0 n').1 = chainMedian n.blocks := by
    obtain ⟨b, rfl, htrue⟩ := growBy_one rfl hgrow' (by rw [hlen', hlen])
    exact getBlocksTsMedian_pushed (hlen ▸ le_rfl) htrue
  have hself : chainMedian n'.blocks = median (lastTimestamps n'.blocks) := if_neg (by rw [hlen']; decide)
  rw [hstale, ← hself] at hvalue
  have := congrArg UInt64.toNat hvalue
  rw [hmedian, hmedian'] at this
  cases this

end Boolberry
