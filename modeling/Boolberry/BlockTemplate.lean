import Mathlib.Algebra.Order.BigOperators.Group.List
import Boolberry.Emission
import Boolberry.ReadyRuns

/-!
# Filling a block template

`fill_block_template` goes through the pool by fee rate, takes what is ready and spends nothing twice,
and puts the best prefix of it into the block.
-/

namespace Boolberry
open KeyValue TxMemoryPool

/-- The order of `std::sort`: `a` pays more for each byte than `b`. `mul128` is exact. -/
def paysMore (a b : TxDetails) : Prop := b.fee.toNat * a.blobSize < a.fee.toNat * b.blobSize

/-- `have_key_images`; an input of another kind ends it. -/
def haveKeyImages (kImages : Finset KeyImage) : List Txin → Bool
  | .toKey itk :: vin => if itk.kImage ∈ kImages then true else haveKeyImages kImages vin
  | _ => false

/-- `append_key_images`; an image that is there already ends it. -/
def appendKeyImages (kImages : Finset KeyImage) : List Txin → Finset KeyImage
  | .toKey itk :: vin =>
      if itk.kImage ∈ kImages then kImages else appendKeyImages (insert itk.kImage kImages) vin
  | _ => kImages

/-- The variables of `fill_block_template`: the entries passed, `none` for those set to `NULL`, and the
entries as the looks at them left them. -/
structure TemplateLoop where
  txs : List (Option Hash)
  kImages : Finset KeyImage
  txCount : ℕ
  currentSize : ℕ
  currentFee : UInt64
  bestMoney : UInt64
  bestPosition : ℕ
  totalSize : ℕ
  fee : UInt64
  pool : TxMemoryPool

namespace TemplateLoop

/-- The variables in front of the loop. -/
def start (pool : TxMemoryPool) (bestMoney : UInt64) : TemplateLoop where
  txs := []
  kImages := ∅
  txCount := 0
  currentSize := 0
  currentFee := 0
  bestMoney
  bestPosition := 0
  totalSize := 0
  fee := 0
  pool

/-- The entry as a look at it leaves it. -/
def look (st : TemplateLoop) (id : Hash) (txd : TxDetails) : TemplateLoop :=
  { st with pool := setEntry st.pool id txd }

/-- An entry set to `NULL`. -/
def drop (st : TemplateLoop) : TemplateLoop := { st with txs := st.txs ++ [none] }

/-- An entry that is taken. -/
def take (st : TemplateLoop) (tx : Hash × TxDetails) : TemplateLoop :=
  { st with
    txs := st.txs ++ [some tx.1], txCount := st.txCount + 1
    kImages := appendKeyImages st.kImages tx.2.tx.vin
    currentSize := st.currentSize + tx.2.blobSize, currentFee := st.currentFee + tx.2.fee }

/-- The best block so far. -/
def remember (st : TemplateLoop) (bestMoney : UInt64) : TemplateLoop :=
  { st with
    bestMoney, bestPosition := st.txs.length, totalSize := st.currentSize, fee := st.currentFee }

end TemplateLoop

/-- The loop of `fill_block_template` over the rest of the sorted entries. -/
def templateLoop (E : Env) (now : ℕ) (n : Node) (medianSize : ℕ) (alreadyGeneratedCoins : UInt64) :
    List (Hash × TxDetails) → TemplateLoop → TemplateLoop
  | [], st => st
  | tx :: txs, st =>
      if 124 < st.txCount then templateLoop E now n medianSize alreadyGeneratedCoins txs st.drop
      else
        let ready := isTransactionReadyToGo E now n tx.2
        let st := st.look tx.1 ready.2
        if ready.1 ≠ none ∨ haveKeyImages st.kImages tx.2.tx.vin = true then
          templateLoop E now n medianSize alreadyGeneratedCoins txs st.drop
        else
          let st := st.take tx
          match getBlockReward medianSize (st.currentSize + CURRENCY_COINBASE_BLOB_RESERVED_SIZE)
              alreadyGeneratedCoins with
          | none => st
          | some currentReward =>
              templateLoop E now n medianSize alreadyGeneratedCoins txs
                (if st.bestMoney < currentReward + st.currentFee then
                  st.remember (currentReward + st.currentFee)
                else st)

/-- `fill_block_template` on the sorted entries: `tx_hashes`, `total_size`, `fee` and the pool behind the
call; `none` when it returns false. -/
def fillBlockTemplate (E : Env) (now : ℕ) (n : Node) (txs : List (Hash × TxDetails)) (medianSize : ℕ)
    (alreadyGeneratedCoins : UInt64) : Option (List Hash × ℕ × UInt64 × TxMemoryPool) :=
  (getBlockReward medianSize CURRENCY_COINBASE_BLOB_RESERVED_SIZE alreadyGeneratedCoins).map
    fun bestMoney =>
      let st := templateLoop E now n medianSize alreadyGeneratedCoins txs (.start n.txs.pool bestMoney)
      ((st.txs.take st.bestPosition).filterMap id, st.totalSize, st.fee, st.pool)

/-- The entries of the pool, each once, in an order `std::sort` may leave them in. -/
structure SortedEntries (p : TxMemoryPool) (txs : List (Hash × TxDetails)) : Prop where
  nodup : (txs.map Prod.fst).Nodup
  mem : ∀ id d, (id, d) ∈ txs ↔ p.transactions.get id = some d
  sorted : txs.Pairwise fun a b => ¬paysMore b.2 a.2

/-- The decision on an entry. -/
def isReady (E : Env) (now : ℕ) (n : Node) (txd : TxDetails) : Bool :=
  decide ((isTransactionReadyToGo E now n txd).1 = none)

/-- The transaction has none of the key images `used`. -/
def spendsNothingOf (used : List KeyImage) (tx : Transaction) : Bool :=
  (keyImages tx).all fun k => decide (k ∉ used)

theorem spendsNothingOf_iff {used : List KeyImage} {tx : Transaction} :
    spendsNothingOf used tx = true ↔ ∀ k ∈ keyImages tx, k ∉ used := by
  unfold spendsNothingOf
  rw [List.all_eq_true]
  exact forall₂_congr fun k _ => decide_eq_true_iff

/-- The eligible entries in their order, `room` at most: those that are ready and spend nothing that is
spent by one taken before. -/
def greedyEntries (E : Env) (now : ℕ) (n : Node) :
    List (Hash × TxDetails) → List KeyImage → ℕ → List (Hash × TxDetails)
  | [], _, _ => []
  | tx :: txs, used, room =>
      if 0 < room ∧ isReady E now n tx.2 = true ∧ spendsNothingOf used tx.2.tx = true then
        tx :: greedyEntries E now n txs (used ++ keyImages tx.2.tx) (room - 1)
      else greedyEntries E now n txs used room

/-- The sequence that `fill_block_template` cuts. -/
def eligibleEntries (E : Env) (now : ℕ) (n : Node) (txs : List (Hash × TxDetails)) :
    List (Hash × TxDetails) :=
  greedyEntries E now n txs [] 125

def entriesSize (txs : List (Hash × TxDetails)) : ℕ := (txs.map fun e => e.2.blobSize).sum
def entriesFee (txs : List (Hash × TxDetails)) : ℕ := (txs.map fun e => e.2.fee.toNat).sum

/-- The reward of a block with some entries. -/
def entriesReward (medianSize : ℕ) (alreadyGeneratedCoins : UInt64) (txs : List (Hash × TxDetails)) :
    Option UInt64 :=
  getBlockReward medianSize (entriesSize txs + CURRENCY_COINBASE_BLOB_RESERVED_SIZE) alreadyGeneratedCoins

/-- What may go into one block: entries of the pool that are ready, no two with a key image in common, not
more than 125, the better payers first. -/
structure Selection (E : Env) (now : ℕ) (n : Node) (txs : List (Hash × TxDetails)) : Prop where
  nodup : (txs.map Prod.fst).Nodup
  pooled : ∀ e ∈ txs, n.txs.pool.transactions.get e.1 = some e.2
  ready : ∀ e ∈ txs, isReady E now n e.2 = true
  images : txs.Pairwise fun a b => (keyImages a.2.tx).Disjoint (keyImages b.2.tx)
  count : txs.length ≤ 125
  sorted : txs.Pairwise fun a b => b.2.fee.toNat * a.2.blobSize ≤ a.2.fee.toNat * b.2.blobSize

section Greedy

variable {E : Env} {now : ℕ} {n : Node}

theorem greedyEntries_sublist (txs : List (Hash × TxDetails)) (used : List KeyImage) (room : ℕ) :
    (greedyEntries E now n txs used room).Sublist txs := by
  induction txs generalizing used room with
  | nil => exact .slnil
  | cons tx txs ih =>
    unfold greedyEntries
    split_ifs
    · exact (ih _ _).cons_cons _
    · exact (ih _ _).cons _

theorem greedyEntries_length (txs : List (Hash × TxDetails)) (used : List KeyImage) (room : ℕ) :
    (greedyEntries E now n txs used room).length ≤ room := by
  induction txs generalizing used room with
  | nil => exact Nat.zero_le _
  | cons tx txs ih =>
    unfold greedyEntries
    split_ifs with htake
    · have := ih (used ++ keyImages tx.2.tx) (room - 1)
      rw [List.length_cons]
      omega
    · exact ih _ _

theorem greedyEntries_ready {txs : List (Hash × TxDetails)} {used : List KeyImage} {room : ℕ} :
    ∀ e ∈ greedyEntries E now n txs used room,
      isReady E now n e.2 = true ∧ ∀ k ∈ keyImages e.2.tx, k ∉ used := by
  induction txs generalizing used room with
  | nil => exact fun e he => by cases he
  | cons tx txs ih =>
    unfold greedyEntries
    split_ifs with htake
    · refine List.forall_mem_cons.mpr
        ⟨⟨htake.2.1, spendsNothingOf_iff.mp htake.2.2⟩, fun e he => ?_⟩
      obtain ⟨hready, hfresh⟩ := ih e he
      exact ⟨hready, fun k hk hused => hfresh k hk (List.mem_append_left _ hused)⟩
    · exact ih

theorem greedyEntries_images (txs : List (Hash × TxDetails)) (used : List KeyImage) (room : ℕ) :
    (greedyEntries E now n txs used room).Pairwise
      fun a b => (keyImages a.2.tx).Disjoint (keyImages b.2.tx) := by
  induction txs generalizing used room with
  | nil => exact .nil
  | cons tx txs ih =>
    unfold greedyEntries
    split_ifs with htake
    · refine List.pairwise_cons.mpr ⟨fun e he k hk hke => ?_, ih _ _⟩
      exact (greedyEntries_ready e he).2 k hke (List.mem_append_right _ hk)
    · exact ih _ _

theorem selection_take {txs : List (Hash × TxDetails)} (hsorted : SortedEntries n.txs.pool txs) (k : ℕ) :
    Selection E now n ((eligibleEntries E now n txs).take k) := by
  have htake := List.take_sublist k (eligibleEntries E now n txs)
  have hsub := htake.trans (greedyEntries_sublist txs [] 125)
  exact
    { nodup := (hsub.map Prod.fst).nodup hsorted.nodup
      pooled := fun e he => (hsorted.mem e.1 e.2).mp (hsub.subset he)
      ready := fun e he => (greedyEntries_ready e (htake.subset he)).1
      images := (greedyEntries_images txs [] 125).sublist htake
      count := htake.length_le.trans (greedyEntries_length txs [] 125)
      sorted := (hsorted.sorted.imp fun h => Nat.not_lt.mp h).sublist hsub }

end Greedy

/-- When there is no reward: for a block above the limit, for one that is too large for the arithmetic,
and for a penalised one whose base reward is zero. -/
theorem getBlockReward_none_iff (medianSize size : ℕ) (coins : UInt64) :
    getBlockReward medianSize size coins = none ↔
      let m := if medianSize < CURRENCY_BLOCK_GRANTED_FULL_REWARD_ZONE then
        CURRENCY_BLOCK_GRANTED_FULL_REWARD_ZONE else medianSize
      m < size ∧ (2 * m < size ∨ 2 ^ 32 - 1 ≤ m ∨ 2 ^ 32 - 1 ≤ size ∨ getBaseBlockReward coins = 0) := by
  unfold getBlockReward
  dsimp only
  generalize (if medianSize < CURRENCY_BLOCK_GRANTED_FULL_REWARD_ZONE then
        CURRENCY_BLOCK_GRANTED_FULL_REWARD_ZONE else medianSize) = m
  generalize getBaseBlockReward coins = base
  by_cases hsmall : size ≤ m
  · rw [if_pos hsmall]
    simp [hsmall]
  by_cases hbig : 2 * m < size
  · rw [if_neg hsmall, if_pos hbig]
    simp [hbig, Nat.not_le.mp hsmall]
  by_cases hwide : 2 ^ 32 - 1 ≤ m ∨ 2 ^ 32 - 1 ≤ size
  · rw [if_neg hsmall, if_neg hbig, if_pos hwide]
    simp only [true_iff]
    omega
  rw [if_neg hsmall, if_neg hbig, if_neg hwide]
  by_cases hbase : base = 0
  · subst hbase
    simp [Nat.not_le.mp hsmall]
  · have hpenalty := penalty_lt (Nat.not_le.mp hsmall) (Nat.not_lt.mp hbig)
      (fun h0 => hbase (UInt64.toNat_inj.mp h0))
    have hword := base.toNat_lt
    generalize base.toNat * (size * (2 * m - size)) / m / m = reward at hpenalty
    rw [if_neg (by omega), if_neg (by omega)]
    simp only [reduceCtorEq, hbase, or_false, false_iff]
    omega

theorem getBlockReward_none_mono {medianSize size size' : ℕ} {coins : UInt64} (hle : size ≤ size')
    (h : getBlockReward medianSize size coins = none) : getBlockReward medianSize size' coins = none := by
  rw [getBlockReward_none_iff] at h ⊢
  dsimp only at h ⊢
  refine ⟨h.1.trans_le hle, ?_⟩
  rcases h.2 with hbig | hm | hs | hbase
  · exact .inl (hbig.trans_le hle)
  · exact .inr (.inl hm)
  · exact .inr (.inr (.inl (hs.trans hle)))
  · exact .inr (.inr (.inr hbase))

theorem getBlockReward_le_base {medianSize size : ℕ} {coins r : UInt64}
    (h : getBlockReward medianSize size coins = some r) : r.toNat ≤ (getBaseBlockReward coins).toNat := by
  unfold getBlockReward at h
  dsimp only at h
  generalize (if medianSize < CURRENCY_BLOCK_GRANTED_FULL_REWARD_ZONE then
        CURRENCY_BLOCK_GRANTED_FULL_REWARD_ZONE else medianSize) = m at h
  split_ifs at h with hsmall hbig hwide hhigh hlow
  · rw [Option.some.inj h]
  · rw [← Option.some.inj h, UInt64.toNat_ofNat', Nat.mod_mod]
    omega

theorem getBlockReward_reserved (medianSize : ℕ) (coins : UInt64) :
    getBlockReward medianSize CURRENCY_COINBASE_BLOB_RESERVED_SIZE coins =
      some (getBaseBlockReward coins) := by
  unfold getBlockReward
  dsimp only
  rw [if_pos]
  split_ifs with h
  · decide
  · exact le_trans (by decide) (Nat.not_lt.mp h)

theorem entriesSize_append (a b : List (Hash × TxDetails)) :
    entriesSize (a ++ b) = entriesSize a + entriesSize b := by
  unfold entriesSize
  rw [List.map_append, List.sum_append]

theorem entriesFee_append (a b : List (Hash × TxDetails)) :
    entriesFee (a ++ b) = entriesFee a + entriesFee b := by
  unfold entriesFee
  rw [List.map_append, List.sum_append]

theorem haveKeyImages_iff (kImages : Finset KeyImage) (ins : List TxinToKey) :
    haveKeyImages kImages (ins.map Txin.toKey) = true ↔ ∃ i ∈ ins, i.kImage ∈ kImages := by
  induction ins with
  | nil => simp [haveKeyImages]
  | cons i ins ih =>
    simp only [List.map_cons, List.mem_cons, exists_eq_or_imp]
    unfold haveKeyImages
    split_ifs with hmem
    · exact iff_of_true rfl (.inl hmem)
    · rw [ih, or_iff_right hmem]

theorem mem_appendKeyImages {kImages : Finset KeyImage} {ins : List TxinToKey}
    (hnodup : (ins.map TxinToKey.kImage).Nodup) (hfresh : ∀ i ∈ ins, i.kImage ∉ kImages) (k : KeyImage) :
    k ∈ appendKeyImages kImages (ins.map Txin.toKey) ↔ k ∈ kImages ∨ k ∈ ins.map TxinToKey.kImage := by
  induction ins generalizing kImages with
  | nil => simp [appendKeyImages]
  | cons i ins ih =>
    rw [List.map_cons, List.nodup_cons] at hnodup
    rw [List.forall_mem_cons] at hfresh
    rw [List.map_cons, List.map_cons]
    unfold appendKeyImages
    rw [if_neg hfresh.1, ih hnodup.2, Finset.mem_insert, List.mem_cons]
    · tauto
    · intro j hj hmem
      rcases Finset.mem_insert.mp hmem with heq | hmem
      · exact hnodup.1 (heq ▸ List.mem_map_of_mem hj)
      · exact hfresh.2 j hj hmem

/-- The sums on the way are those of the entries `taken`. -/
structure TemplateSums (taken : List (Hash × TxDetails)) (st : TemplateLoop) : Prop where
  images : ∀ k, k ∈ st.kImages ↔ ∃ e ∈ taken, k ∈ keyImages e.2.tx
  count : st.txCount = taken.length
  txs : st.txs.filterMap id = taken.map Prod.fst
  size : st.currentSize = entriesSize taken
  currentFee : st.currentFee = UInt64.ofNat (entriesFee taken)

/-- What is remembered belongs to the best beginning of `taken`. -/
structure TemplateBest (medianSize : ℕ) (coins : UInt64) (taken : List (Hash × TxDetails))
    (st : TemplateLoop) : Prop where
  position : st.bestPosition ≤ st.txs.length
  best : ∃ k ≤ taken.length,
    (st.txs.take st.bestPosition).filterMap id = (taken.take k).map Prod.fst ∧
    st.totalSize = entriesSize (taken.take k) ∧ st.fee = UInt64.ofNat (entriesFee (taken.take k)) ∧
    ∃ r, entriesReward medianSize coins (taken.take k) = some r ∧ st.bestMoney = r + st.fee
  largest : ∀ j r, entriesReward medianSize coins (taken.take j) = some r →
    r + UInt64.ofNat (entriesFee (taken.take j)) ≤ st.bestMoney

section Step

variable {medianSize : ℕ} {coins : UInt64} {taken : List (Hash × TxDetails)} {st : TemplateLoop}

theorem TemplateSums.drop (h : TemplateSums taken st) : TemplateSums taken st.drop where
  images := h.images
  count := h.count
  txs := by
    rw [show st.drop.txs = st.txs ++ [none] from rfl, List.filterMap_append, h.txs]
    exact List.append_nil _
  size := h.size
  currentFee := h.currentFee

/-- More entries behind the best position change nothing of what is remembered. -/
theorem TemplateBest.pass (h : TemplateBest medianSize coins taken st) {st' : TemplateLoop}
    (more : List (Option Hash)) (htxs : st'.txs = st.txs ++ more)
    (hbest : (st'.bestMoney, st'.bestPosition, st'.totalSize, st'.fee) =
      (st.bestMoney, st.bestPosition, st.totalSize, st.fee)) :
    TemplateBest medianSize coins taken st' := by
  simp only [Prod.mk.injEq] at hbest
  obtain ⟨hmoney, hposition, hsize, hfee⟩ := hbest
  refine ⟨?_, ?_, ?_⟩
  · rw [hposition, htxs, List.length_append]
    exact h.position.trans (Nat.le_add_right _ _)
  · rw [hposition, htxs, hsize, hfee, hmoney, List.take_append_of_le_length h.position]
    exact h.best
  · rw [hmoney]
    exact h.largest

theorem TemplateSums.take {E : Env} {tx : Hash × TxDetails} (h : TemplateSums taken st)
    (hs : Semantic E tx.2.tx) (hfresh : ∀ k ∈ keyImages tx.2.tx, k ∉ st.kImages) :
    TemplateSums (taken ++ [tx]) (st.take tx) where
  images k := by
    have hnot : ∀ i ∈ toKeyInputs tx.2.tx, i.kImage ∉ st.kImages := fun i hi =>
      hfresh _ (List.mem_map_of_mem hi)
    have hmem := mem_appendKeyImages hs.nodup hnot k
    rw [← hs.vin_eq] at hmem
    rw [show (st.take tx).kImages = appendKeyImages st.kImages tx.2.tx.vin from rfl, hmem, h.images]
    simp only [List.mem_append, List.mem_singleton, or_and_right, exists_or, exists_eq_left]
    rfl
  count := by
    rw [List.length_append, ← h.count]
    rfl
  txs := by
    rw [show (st.take tx).txs = st.txs ++ [some tx.1] from rfl, List.filterMap_append, h.txs,
      List.map_append]
    rfl
  size := by
    rw [entriesSize_append, ← h.size]
    rfl
  currentFee := by
    rw [entriesFee_append, show (st.take tx).currentFee = st.currentFee + tx.2.fee from rfl, h.currentFee]
    unfold entriesFee
    apply UInt64.toNat_inj.mp
    simp [UInt64.toNat_add, UInt64.toNat_ofNat']

theorem take_append_singleton (taken : List (Hash × TxDetails)) (tx : Hash × TxDetails) (j : ℕ) :
    (taken ++ [tx]).take j = taken.take j ∨ (taken ++ [tx]).take j = taken ++ [tx] := by
  rcases Nat.lt_or_ge taken.length j with hlt | hle
  · exact .inr (List.take_of_length_le (by rw [List.length_append]; exact hlt))
  · exact .inl (List.take_append_of_le_length hle)

/-- One entry more in the ghost list; the remembered prefix is still one of it. -/
theorem TemplateBest.extend (h : TemplateBest medianSize coins taken st) (tx : Hash × TxDetails)
    (hnew : ∀ r, entriesReward medianSize coins (taken ++ [tx]) = some r →
      r + UInt64.ofNat (entriesFee (taken ++ [tx])) ≤ st.bestMoney) :
    TemplateBest medianSize coins (taken ++ [tx]) st where
  position := h.position
  best := by
    obtain ⟨k, hk, hbest⟩ := h.best
    refine ⟨k, hk.trans (by rw [List.length_append]; exact Nat.le_add_right _ _), ?_⟩
    rw [List.take_append_of_le_length hk]
    exact hbest
  largest j r hr := by
    rcases take_append_singleton taken tx j with heq | heq
    · rw [heq] at hr ⊢
      exact h.largest j r hr
    · rw [heq] at hr ⊢
      exact hnew r hr

theorem TemplateBest.improve {tx : Hash × TxDetails} (h : TemplateBest medianSize coins taken st)
    (hsums : TemplateSums (taken ++ [tx]) (st.take tx)) {r : UInt64}
    (hr : entriesReward medianSize coins (taken ++ [tx]) = some r)
    (hbetter : st.bestMoney < r + (st.take tx).currentFee) :
    TemplateBest medianSize coins (taken ++ [tx])
      ((st.take tx).remember (r + (st.take tx).currentFee)) where
  position := le_rfl
  best := by
    refine ⟨(taken ++ [tx]).length, le_rfl, ?_⟩
    rw [List.take_length]
    refine ⟨?_, hsums.size, hsums.currentFee, r, hr, rfl⟩
    change ((st.take tx).txs.take (st.take tx).txs.length).filterMap id = _
    rw [List.take_length]
    exact hsums.txs
  largest j r' hr' := by
    rcases take_append_singleton taken tx j with heq | heq
    · rw [heq] at hr' ⊢
      exact UInt64.le_trans (h.largest j r' hr') (UInt64.le_of_lt hbetter)
    · rw [heq, hr] at hr'
      rw [heq, ← hsums.currentFee, ← Option.some.inj hr']
      exact UInt64.le_refl _

end Step

section Loop

variable {E : Env} {now : ℕ} {n : Node} {medianSize : ℕ} {coins : UInt64}

theorem haveKeyImages_eq_false {tx : Transaction} {kImages : Finset KeyImage} (hs : Semantic E tx) :
    haveKeyImages kImages tx.vin ≠ true ↔ ∀ k ∈ keyImages tx, k ∉ kImages := by
  rw [hs.vin_eq, ne_eq, haveKeyImages_iff]
  unfold keyImages
  simp only [List.mem_map, not_exists, not_and, forall_exists_index, and_imp, forall_apply_eq_imp_iff₂]

/-- The loop goes on with the eligible ones among the rest; it ends behind the last of them, or where a
block with those taken has no reward. -/
theorem templateLoop_spec (now : ℕ) (n : Node) {txs : List (Hash × TxDetails)} {taken : List (Hash × TxDetails)}
    {st : TemplateLoop} {used : List KeyImage} (hsem : ∀ e ∈ txs, Semantic E e.2.tx)
    (hused : ∀ k, k ∈ used ↔ k ∈ st.kImages) (hsums : TemplateSums taken st)
    (hbest : TemplateBest medianSize coins taken st) :
    ∃ taken', TemplateBest medianSize coins taken' (templateLoop E now n medianSize coins txs st) ∧
      taken' <+: taken ++ greedyEntries E now n txs used (125 - taken.length) ∧
      (taken' = taken ++ greedyEntries E now n txs used (125 - taken.length) ∨
        entriesReward medianSize coins taken' = none) := by
  induction txs generalizing taken st used with
  | nil => exact ⟨taken, hbest, by simp [greedyEntries], .inl (by simp [greedyEntries])⟩
  | cons tx txs ih =>
    obtain ⟨hs, hsem⟩ := List.forall_mem_cons.mp hsem
    have hcount := hsums.count
    unfold templateLoop greedyEntries
    by_cases hfull : 124 < st.txCount
    · rw [if_pos hfull, if_neg (by omega)]
      exact ih hsem hused hsums.drop (hbest.pass [none] rfl rfl)
    rw [if_neg hfull]
    dsimp only
    -- a look at the entry leaves the other variables alone
    obtain ⟨st₁, hst₁⟩ : ∃ st₁, st₁ = st.look tx.1 (isTransactionReadyToGo E now n tx.2).2 := ⟨_, rfl⟩
    rw [← hst₁]
    have hsums₁ : TemplateSums taken st₁ := by
      rw [hst₁]
      exact ⟨hsums.images, hsums.count, hsums.txs, hsums.size, hsums.currentFee⟩
    have hbest₁ : TemplateBest medianSize coins taken st₁ := by
      rw [hst₁]
      exact hbest.pass [] (List.append_nil _).symm rfl
    have hused₁ : ∀ k, k ∈ used ↔ k ∈ st₁.kImages := by
      rw [hst₁]
      exact hused
    by_cases htake : 0 < 125 - taken.length ∧ isReady E now n tx.2 = true ∧
        spendsNothingOf used tx.2.tx = true
    · rw [if_pos htake]
      obtain ⟨-, hready, hfresh⟩ := htake
      have hnew : ∀ k ∈ keyImages tx.2.tx, k ∉ st₁.kImages := fun k hk hmem =>
        spendsNothingOf_iff.mp hfresh k hk ((hused₁ k).mpr hmem)
      have hgo : ¬((isTransactionReadyToGo E now n tx.2).1 ≠ none ∨
          haveKeyImages st₁.kImages tx.2.tx.vin = true) := by
        rintro (hno | hhave)
        · exact hno (of_decide_eq_true hready)
        · exact (haveKeyImages_eq_false hs).mpr hnew hhave
      have hsums₂ := hsums₁.take hs hnew
      have hreward : entriesReward medianSize coins (taken ++ [tx]) = getBlockReward medianSize
          ((st₁.take tx).currentSize + CURRENCY_COINBASE_BLOB_RESERVED_SIZE) coins := by
        rw [hsums₂.size]
        rfl
      have hpassed : TemplateBest medianSize coins taken (st₁.take tx) :=
        hbest₁.pass [some tx.1] rfl rfl
      have hbest₂ := hpassed.extend tx
      rw [if_neg hgo]
      cases hr : getBlockReward medianSize
          ((st₁.take tx).currentSize + CURRENCY_COINBASE_BLOB_RESERVED_SIZE) coins with
      | none =>
        rw [hr] at hreward
        refine ⟨taken ++ [tx], hbest₂ fun r hr' => ?_, ?_, .inr hreward⟩
        · rw [hreward] at hr'
          cases hr'
        · exact (List.prefix_append_right_inj _).mpr ⟨_, rfl⟩
      | some r =>
        rw [hr] at hreward
        dsimp only
        have hnext : ∀ st₂ : TemplateLoop, st₂.kImages = (st₁.take tx).kImages →
            ∀ k, k ∈ used ++ keyImages tx.2.tx ↔ k ∈ st₂.kImages := by
          intro st₂ heq k
          rw [heq, hsums₂.images, List.mem_append, hused₁, hsums₁.images]
          simp only [List.mem_append, List.mem_singleton, or_and_right, exists_or, exists_eq_left]
        have hlist : taken ++ tx :: greedyEntries E now n txs (used ++ keyImages tx.2.tx)
            (125 - taken.length - 1) = taken ++ [tx] ++ greedyEntries E now n txs
              (used ++ keyImages tx.2.tx) (125 - (taken ++ [tx]).length) := by
          rw [List.length_append, List.length_singleton, ← Nat.sub_sub, List.append_assoc]
          rfl
        rw [hlist]
        split_ifs with hbetter
        · exact ih hsem (hnext _ rfl) ⟨hsums₂.images, hsums₂.count, hsums₂.txs, hsums₂.size,
            hsums₂.currentFee⟩ (hbest₁.improve hsums₂ hreward hbetter)
        · refine ih hsem (hnext _ rfl) hsums₂ (hbest₂ fun r' hr' => ?_)
          rw [hreward] at hr'
          rw [← Option.some.inj hr', ← hsums₂.currentFee]
          exact UInt64.not_lt.mp hbetter
    · rw [if_neg htake, if_pos]
      · exact ih hsem hused₁ hsums₁.drop (hbest₁.pass [none] rfl rfl)
      · by_contra hno
        rw [not_or, not_not] at hno
        refine htake ⟨by omega, decide_eq_true hno.1, spendsNothingOf_iff.mpr fun k hk hmem => ?_⟩
        exact (haveKeyImages_eq_false hs).mp hno.2 k hk ((hused₁ k).mp hmem)

end Loop

section Template

variable {E : Env} {now : ℕ} {n : Node} {txs : List (Hash × TxDetails)} {medianSize : ℕ} {coins : UInt64}
  {ids : List Hash} {totalSize : ℕ} {fee : UInt64} {p : TxMemoryPool}

theorem entriesSize_le {a b : List (Hash × TxDetails)} (h : a <+: b) : entriesSize a ≤ entriesSize b := by
  obtain ⟨c, rfl⟩ := h
  rw [entriesSize_append]
  exact Nat.le_add_right _ _

theorem start_sums (p : TxMemoryPool) (bestMoney : UInt64) :
    TemplateSums [] (.start p bestMoney) where
  images k := by simp [TemplateLoop.start]
  count := rfl
  txs := rfl
  size := rfl
  currentFee := rfl

theorem start_best (p : TxMemoryPool) {bestMoney : UInt64}
    (h : entriesReward medianSize coins [] = some bestMoney) :
    TemplateBest medianSize coins [] (.start p bestMoney) where
  position := le_rfl
  best := ⟨0, le_rfl, rfl, rfl, rfl, bestMoney, h, (UInt64.add_zero _).symm⟩
  largest j r hr := by
    rw [List.take_nil, h] at hr
    rw [List.take_nil, ← Option.some.inj hr]
    exact UInt64.le_of_eq (UInt64.add_zero bestMoney)

/-- In 64-bit sums: what is chosen is a beginning of the eligible entries, and no beginning makes a block
that earns more. -/
theorem fillBlockTemplate_best (hp : PoolOK E n.txs.pool) (hsorted : SortedEntries n.txs.pool txs)
    (h : fillBlockTemplate E now n txs medianSize coins = some (ids, totalSize, fee, p)) :
    ∃ k r, ids = ((eligibleEntries E now n txs).take k).map Prod.fst ∧
      totalSize = entriesSize ((eligibleEntries E now n txs).take k) ∧
      fee = UInt64.ofNat (entriesFee ((eligibleEntries E now n txs).take k)) ∧
      entriesReward medianSize coins ((eligibleEntries E now n txs).take k) = some r ∧
      ∀ j r', entriesReward medianSize coins ((eligibleEntries E now n txs).take j) = some r' →
        r' + UInt64.ofNat (entriesFee ((eligibleEntries E now n txs).take j)) ≤ r + fee := by
  obtain ⟨bestMoney, hreward, h⟩ := Option.map_eq_some_iff.mp h
  have hsem : ∀ e ∈ txs, Semantic E e.2.tx := fun e he =>
    (hp.entry e.1 e.2 ((hsorted.mem e.1 e.2).mp he)).semantic
  have hused : ∀ k, k ∈ ([] : List KeyImage) ↔ k ∈ (TemplateLoop.start n.txs.pool bestMoney).kImages := by
    simp [TemplateLoop.start]
  obtain ⟨taken, hbest, hprefix, hend⟩ :=
    templateLoop_spec now n hsem hused (start_sums _ _) (start_best _ hreward)
  change taken <+: eligibleEntries E now n txs at hprefix
  change taken = eligibleEntries E now n txs ∨ _ at hend
  obtain ⟨k, hk, hids, hsize, hfee, r, hr, hmoney⟩ := hbest.best
  have hlargest := hbest.largest
  generalize templateLoop E now n medianSize coins txs _ = st at *
  cases h
  have htake : ∀ j ≤ taken.length, (eligibleEntries E now n txs).take j = taken.take j := by
    intro j hj
    obtain ⟨rest, heq⟩ := hprefix
    rw [← heq, List.take_append_of_le_length hj]
  refine ⟨k, r, ?_, ?_, ?_, ?_, fun j r' hr' => ?_⟩
  · rw [hids, htake k hk]
  · rw [hsize, htake k hk]
  · rw [hfee, htake k hk]
  · rw [htake k hk, hr]
  · rw [← hmoney]
    rcases Nat.le_total j taken.length with hj | hj
    · rw [htake j hj] at hr' ⊢
      exact hlargest j r' hr'
    · rcases hend with hall | hnone
      · rw [← hall] at hr' ⊢
        exact hlargest j r' hr'
      · -- the block with those taken has no reward, so no larger one has
        have hsub : taken <+: (eligibleEntries E now n txs).take j :=
          List.prefix_of_prefix_length_le hprefix (List.take_prefix _ _)
            (by rw [List.length_take]; exact le_min hj hprefix.length_le)
        have hle := Nat.add_le_add_right (entriesSize_le hsub) CURRENCY_COINBASE_BLOB_RESERVED_SIZE
        rw [entriesReward, getBlockReward_none_mono hle hnone] at hr'
        cases hr'

/-- No block that may be made earns 2 to the 64 or more. -/
def EarningsFit (medianSize : ℕ) (coins : UInt64) (txs : List (Hash × TxDetails)) : Prop :=
  ∀ j r, entriesReward medianSize coins (txs.take j) = some r → r.toNat + entriesFee (txs.take j) < 2 ^ 64

/-- The fee is the sum of the fees of the first `k` entries, and with the reward `r` it is the most that a
beginning of the entries earns. -/
def EarnsMost (medianSize : ℕ) (coins : UInt64) (txs : List (Hash × TxDetails)) (k : ℕ) (r fee : UInt64) :
    Prop :=
  fee.toNat = entriesFee (txs.take k) ∧ ∀ j r', entriesReward medianSize coins (txs.take j) = some r' →
    r'.toNat + entriesFee (txs.take j) ≤ r.toNat + fee.toNat

theorem earnsMost_iff {g : List (Hash × TxDetails)} {k : ℕ} {r : UInt64}
    (hfee : fee = UInt64.ofNat (entriesFee (g.take k))) (hr : entriesReward medianSize coins (g.take k) = some r)
    (hmost : ∀ j r', entriesReward medianSize coins (g.take j) = some r' →
      r' + UInt64.ofNat (entriesFee (g.take j)) ≤ r + fee) :
    EarnsMost medianSize coins g k r fee ↔ EarningsFit medianSize coins g := by
  constructor
  · rintro ⟨-, hexact⟩ j r' hr'
    by_contra hwrap
    -- what is chosen would have wrapped below the base reward, which the empty block earns
    have hbase : entriesReward medianSize coins (g.take 0) = some (getBaseBlockReward coins) :=
      (congrArg (getBlockReward medianSize · coins) (Nat.zero_add _)).trans
        (getBlockReward_reserved medianSize coins)
    have hempty := hmost 0 _ hbase
    have hle := getBlockReward_le_base hr
    have hgot := hexact j r' hr'
    have hword := fee.toNat_lt
    have hword' := r.toNat_lt
    rw [UInt64.le_iff_toNat_le, UInt64.toNat_add, UInt64.toNat_add] at hempty
    change (_ + (UInt64.ofNat 0).toNat) % _ ≤ _ at hempty
    rw [UInt64.toNat_ofNat'] at hempty
    have hword'' := (getBaseBlockReward coins).toNat_lt
    omega
  · intro hfit
    have hsum : fee.toNat = entriesFee (g.take k) := by
      have := hfit k r hr
      rw [hfee, UInt64.toNat_ofNat']
      omega
    refine ⟨hsum, fun j r' hr' => ?_⟩
    have hj := hfit j r' hr'
    have hk := hfit k r hr
    have hle := hmost j r' hr'
    rw [UInt64.le_iff_toNat_le, UInt64.toNat_add, UInt64.toNat_add, UInt64.toNat_ofNat'] at hle
    omega

/-- What goes into a template may go into one block and comes first among what is eligible; and if no block
of such entries earns 2 to the 64, and only then, the fee is exact and none earns more. -/
theorem fillBlockTemplate_spec (hp : PoolOK E n.txs.pool) (hsorted : SortedEntries n.txs.pool txs)
    (h : fillBlockTemplate E now n txs medianSize coins = some (ids, totalSize, fee, p)) :
    ∃ k r, ids = ((eligibleEntries E now n txs).take k).map Prod.fst ∧
      Selection E now n ((eligibleEntries E now n txs).take k) ∧
      totalSize = entriesSize ((eligibleEntries E now n txs).take k) ∧
      getBlockReward medianSize (totalSize + CURRENCY_COINBASE_BLOB_RESERVED_SIZE) coins = some r ∧
      (EarnsMost medianSize coins (eligibleEntries E now n txs) k r fee ↔
        EarningsFit medianSize coins (eligibleEntries E now n txs)) := by
  obtain ⟨k, r, hids, hsize, hfee, hr, hmost⟩ := fillBlockTemplate_best hp hsorted h
  refine ⟨k, r, hids, selection_take hsorted k, hsize, ?_, earnsMost_iff hfee hr hmost⟩
  rw [hsize]
  exact hr

end Template

/-- A transaction that leaves `2 ^ 63` to the fee. -/
def sampleRich (k : KeyImage) : Transaction where
  version := 1
  unlockTime := 0
  vin := [.toKey ⟨9223372036854775809, [0], k⟩]
  vout := [⟨1, sampleKey⟩]
  extra := []
  signatures := [[0]]

/-- The entry of a transaction whose inputs were checked under the genesis block. -/
def sampleRichEntry (k : KeyImage) : Hash × TxDetails :=
  (getTransactionHash sampleEnv (sampleRich k),
    entryFor 0 (sampleRich k) 9223372036854775808 true (0, getBlockHash sampleEnv generateGenesisBlock))

def sampleRichEntries : List (Hash × TxDetails) := [sampleRichEntry 1, sampleRichEntry 2]

def addRich (k : KeyImage) (p : TxMemoryPool) : TxMemoryPool :=
  (addTx 0 (fun _ => some (0, getBlockHash sampleEnv generateGenesisBlock)) p (sampleRich k)
    (getTransactionHash sampleEnv (sampleRich k)) {} true).2.2

def sampleRichPool : TxMemoryPool := addRich 2 (addRich 1 TxMemoryPool.empty)

/-- The node with another pool. -/
def withPool (p : TxMemoryPool) (n : Node) : Node := { n with txs := { n.txs with pool := p } }

theorem withPool_pool (p : TxMemoryPool) (n : Node) : (withPool p n).txs.pool = p := rfl

/-- The genesis block with the two transactions in the pool. -/
def sampleRichNode : Option Node := (sampleNode ∅ 0).map (withPool sampleRichPool)

theorem addRich_spec {k : KeyImage} {p : TxMemoryPool} (hp : PoolOK sampleEnv p)
    (hs : checkTxSemantic sampleEnv 0 (sampleRich k) true = true)
    (hnew : p.transactions.get (sampleRichEntry k).1 = none) :
    PoolOK sampleEnv (addRich k p) ∧
      ∃ d, (addRich k p).transactions = p.transactions.set (sampleRichEntry k).1 d := by
  obtain ⟨tvc, p', d, hadd, htxs, -, -, hp'⟩ := addTx_kept 0
    (fun _ => some (0, getBlockHash sampleEnv generateGenesisBlock)) {} hp (semantic_of_checkTxSemantic hs)
    hnew
  have heq : addRich k p = p' := by
    unfold addRich
    rw [hadd]
  rw [heq]
  exact ⟨hp', d, htxs⟩

theorem sortedEntries_pair {p : TxMemoryPool} {a b : Hash × TxDetails} {d d' : TxDetails}
    (htxs : p.transactions = (TxMemoryPool.empty.transactions.set a.1 d).set b.1 d') (hne : a.1 ≠ b.1)
    (ha : p.transactions.get a.1 = some a.2) (hb : p.transactions.get b.1 = some b.2)
    (hsorted : ¬paysMore b.2 a.2) : SortedEntries p [a, b] where
  nodup := by simpa using hne
  mem id d := by
    rw [List.mem_cons, List.mem_singleton]
    constructor
    · rintro (rfl | rfl)
      · exact ha
      · exact hb
    · intro h
      have hget := h
      rw [htxs, Map.get_set, Map.get_set] at hget
      split_ifs at hget with h2 h1
      · rw [h2, hb] at h
        exact .inr (Prod.ext h2 (Option.some.inj h).symm)
      · rw [h1, ha] at h
        exact .inl (Prod.ext h1 (Option.some.inj h).symm)
      · cases hget
  sorted := by simpa using hsorted

theorem sampleRichPool_spec :
    PoolOK sampleEnv sampleRichPool ∧ SortedEntries sampleRichPool sampleRichEntries := by
  obtain ⟨hp₁, d₁, htxs₁⟩ := addRich_spec (k := 1) (poolOK_empty sampleEnv) (by decide +kernel) rfl
  obtain ⟨hp₂, d₂, htxs₂⟩ := addRich_spec (k := 2) hp₁ (by decide +kernel) (by decide +kernel)
  rw [htxs₁] at htxs₂
  refine ⟨hp₂, sortedEntries_pair htxs₂ (by decide +kernel) (by decide +kernel) (by decide +kernel) ?_⟩
  unfold paysMore
  decide +kernel

theorem exists_sampleRichNode : ∃ n, sampleRichNode = some n ∧ n.txs.pool = sampleRichPool := by
  have hone : (sampleNode ∅ 0).map (fun n => n.blocks.length) = some 1 := by decide +kernel
  obtain ⟨n, hn, -⟩ := Option.map_eq_some_iff.mp hone
  exact ⟨withPool sampleRichPool n, by rw [sampleRichNode, hn, Option.map_some], withPool_pool _ _⟩

/-- The first of the two is chosen, and it may go into a block. -/
theorem fillBlockTemplate_spec_rich : ∃ n k, sampleRichNode = some n ∧
    [(sampleRichEntry 1).1] = ((eligibleEntries sampleEnv 0 n sampleRichEntries).take k).map Prod.fst ∧
    Selection sampleEnv 0 n ((eligibleEntries sampleEnv 0 n sampleRichEntries).take k) := by
  obtain ⟨n, hn, hpool⟩ := exists_sampleRichNode
  obtain ⟨hp, hsorted⟩ := sampleRichPool_spec
  have hfill : (sampleRichNode.bind fun n =>
      fillBlockTemplate sampleEnv 0 n sampleRichEntries 0 0).map Prod.fst =
        some [(sampleRichEntry 1).1] := by decide +kernel
  rw [hn] at hfill
  obtain ⟨⟨ids, totalSize, fee, p⟩, hr, hids⟩ := Option.map_eq_some_iff.mp hfill
  obtain ⟨k, r, hk, hselection, -⟩ := fillBlockTemplate_spec (hpool ▸ hp) (hpool ▸ hsorted) hr
  exact ⟨n, k, hn, by rw [← hk, ← hids], hselection⟩

/-- The fees of the two together are `2 ^ 64`: the sum wraps, and the block with both of them, which would
earn more, is passed over. -/
theorem fillBlockTemplate_wraps :
    ¬∀ (E : Env) (now : ℕ) (n : Node) (txs : List (Hash × TxDetails)) (medianSize : ℕ) (coins : UInt64)
      (ids : List Hash) (totalSize : ℕ) (fee : UInt64) (p : TxMemoryPool),
      PoolOK E n.txs.pool → SortedEntries n.txs.pool txs →
      fillBlockTemplate E now n txs medianSize coins = some (ids, totalSize, fee, p) →
      ∃ r, getBlockReward medianSize (totalSize + CURRENCY_COINBASE_BLOB_RESERVED_SIZE) coins = some r ∧
        ∀ j r', entriesReward medianSize coins ((eligibleEntries E now n txs).take j) = some r' →
          r'.toNat + entriesFee ((eligibleEntries E now n txs).take j) ≤ r.toNat + fee.toNat := by
  intro hall
  obtain ⟨n, hn, hpool⟩ := exists_sampleRichNode
  obtain ⟨hp, hsorted⟩ := sampleRichPool_spec
  have hfill : (sampleRichNode.bind fun n =>
      fillBlockTemplate sampleEnv 0 n sampleRichEntries 0 0).map (fun r => r.2.2.1) =
        some 9223372036854775808 := by decide +kernel
  have hlength : sampleRichNode.map (fun n => (eligibleEntries sampleEnv 0 n sampleRichEntries).length) =
      some 2 := by decide +kernel
  rw [hn] at hfill hlength
  have heligible : eligibleEntries sampleEnv 0 n sampleRichEntries = sampleRichEntries :=
    (greedyEntries_sublist _ _ _).eq_of_length (Option.some.inj hlength)
  obtain ⟨⟨ids, totalSize, fee, p⟩, hr, hfee⟩ := Option.map_eq_some_iff.mp hfill
  obtain ⟨r, hreward, hmost⟩ := hall _ _ n _ _ _ _ _ _ _ (hpool ▸ hp) (hpool ▸ hsorted) hr
  rw [heligible] at hmost
  have hboth : (entriesReward 0 0 sampleRichEntries).isSome = true := by decide +kernel
  obtain ⟨r', hr'⟩ := Option.isSome_iff_exists.mp hboth
  have hle := hmost 2 r' hr'
  have hbase := getBlockReward_le_base hreward
  have hsum : entriesFee (sampleRichEntries.take 2) = 2 ^ 64 := by decide +kernel
  have hsmall : (getBaseBlockReward 0).toNat < 2 ^ 63 := by decide +kernel
  rw [hsum, show fee = 9223372036854775808 from hfee] at hle
  change _ ≤ r.toNat + 9223372036854775808 at hle
  omega

end Boolberry
