import Boolberry.WalletChanges

/-!
# Pulling from a chain

What one call of `pull_blocks` does to a wallet when the daemon answers from a main
chain that agrees with the wallet's blocks up to some height: it skips the common
blocks, detaches what lies above them when the chain goes on differently, and adds the
chain's blocks.
-/

namespace Boolberry
open KeyValue Aborting

/-- The id of a served block, `none` when the blob is not a block. -/
def ServedBlock.id? (E : Env) (sb : ServedBlock) : Option Hash :=
  (parseAndValidateBlockFromBlob sb.block).map (getBlockHash E)

/-- `on_get_blocks` of a daemon with the main chain `ch`: the blocks from the first id of the history
that is on the chain, which must end with its genesis block. -/
def serve (E : Env) (ch : List ServedBlock) : GetBlocksFast := fun ids =>
  match ch.head?.bind (ServedBlock.id? E) with
  | none => none
  | some genesis =>
      if ids.getLast? = some genesis then
        (ids.findSome? fun id => ch.findIdx? fun sb => decide (sb.id? E = some id)).map fun start =>
          (start, (ch.drop start).take COMMAND_RPC_GET_BLOCKS_FAST_MAX_COUNT)
      else none

/-- The wallet's blocks `bs` and the chain `ch` have the first `d` blocks in common and no other. -/
structure AgreeUpTo (E : Env) (ch : List ServedBlock) (bs : List Hash) (d : ℕ) : Prop where
  pos : 0 < d
  le : d ≤ bs.length
  common : ∀ i < d, ∃ id, bs[i]? = some id ∧ (ch[i]?).bind (ServedBlock.id? E) = some id
  apart : ∀ i j id, bs[i]? = some id → (ch[j]?).bind (ServedBlock.id? E) = some id → i = j ∧ i < d

section Answer

variable {E : Env} {ch : List ServedBlock} {bs : List Hash} {d : ℕ}

theorem AgreeUpTo.le_chain (h : AgreeUpTo E ch bs d) : d ≤ ch.length := by
  obtain ⟨id, -, hid⟩ := h.common (d - 1) (by have := h.pos; omega)
  obtain ⟨sb, hsb, -⟩ := Option.bind_eq_some_iff.mp hid
  have := (List.getElem?_eq_some_iff.mp hsb).1
  have := h.pos
  omega

theorem AgreeUpTo.findIdx? (h : AgreeUpTo E ch bs d) {k : ℕ} {id : Hash} (hk : bs[k]? = some id) :
    (ch.findIdx? fun sb => decide (sb.id? E = some id)) = if k < d then some k else none := by
  split_ifs with hlt
  · obtain ⟨id', hid', hc⟩ := h.common k hlt
    obtain rfl : id = id' := Option.some.inj (hk.symm.trans hid')
    obtain ⟨sb, hsb, hid⟩ := Option.bind_eq_some_iff.mp hc
    obtain ⟨hlen, rfl⟩ := List.getElem?_eq_some_iff.mp hsb
    refine List.findIdx?_eq_some_iff_getElem.mpr ⟨hlen, by simp [hid], fun j hj => ?_⟩
    -- an earlier block with this id would stand at two heights
    intro hj'
    have hjc : (ch[j]?).bind (ServedBlock.id? E) = some id := by
      rw [List.getElem?_eq_getElem (hj.trans hlen)]
      simpa using hj'
    have := (h.apart k j id hk hjc).1
    omega
  · rw [List.findIdx?_eq_none_iff]
    intro sb hsb
    obtain ⟨j, hj⟩ := List.mem_iff_getElem?.mp hsb
    rw [decide_eq_false_iff_not]
    intro hid
    exact hlt (h.apart k j id hk (by rw [hj]; exact hid)).2

theorem AgreeUpTo.findSome? (h : AgreeUpTo E ch bs d) {heights : List ℕ} {l : List Hash}
    (hl : l.map some = heights.map fun k => bs[k]?) :
    (l.findSome? fun id => ch.findIdx? fun sb => decide (sb.id? E = some id)) =
      heights.find? fun k => decide (k < d) := by
  induction heights generalizing l with
  | nil =>
    rw [List.map_nil, List.map_eq_nil_iff] at hl
    rw [hl]
    rfl
  | cons k heights ih =>
    cases l with
    | nil => simp at hl
    | cons id l =>
      rw [List.map_cons, List.map_cons, List.cons.injEq] at hl
      rw [List.findSome?_cons, h.findIdx? hl.1.symm, List.find?_cons]
      by_cases hk : k < d
      · simp [hk]
      · simp only [hk, if_false, decide_false]
        exact ih hl.2

/-- The daemon answers a wallet that agrees with it from the highest common block that the history
lists, the wallet's top block when all its blocks are common. -/
theorem exists_start {bs : List Hash} {d : ℕ} (hpos : 0 < d) (hle : d ≤ bs.length) :
    ∃ start < d, (d = bs.length → start + 1 = d) ∧ ∀ (E : Env) (ch : List ServedBlock),
      AgreeUpTo E ch bs d → serve E ch (walletShortChainHistory bs) =
        some (start, (ch.drop start).take COMMAND_RPC_GET_BLOCKS_FAST_MAX_COUNT) := by
  have hne : bs ≠ [] := by
    rintro rfl
    simp only [List.length_nil] at hle
    omega
  obtain ⟨heights, hl⟩ := shortChainHistory_spec hne
  -- height 0 is common, so the search ends
  obtain ⟨start, hstart⟩ : ∃ start, (heights.find? fun k => decide (k < d)) = some start := by
    rw [← Option.isSome_iff_exists, List.find?_isSome]
    exact ⟨0, List.mem_of_getLast? hl.genesis, by simp [hpos]⟩
  have hlt : start < d := by simpa using List.find?_some hstart
  refine ⟨start, hlt, fun hd => ?_, fun E ch h => ?_⟩
  · have htop := hl.top
    cases heights with
    | nil => simp at htop
    | cons k heights =>
      have hk : k = bs.length - 1 := by simpa using htop
      rw [List.find?_cons, show decide (k < d) = true by
        rw [decide_eq_true_eq, hk]
        omega] at hstart
      have := Option.some.inj hstart
      omega
  · obtain ⟨g, hg, hcg⟩ := h.common 0 h.pos
    have hlast : (walletShortChainHistory bs).getLast? = some g := by
      have := congrArg List.getLast? hl.listed
      rw [List.getLast?_map, List.getLast?_map, hl.genesis, Option.map_some, hg] at this
      obtain ⟨id, hid, hsome⟩ := Option.map_eq_some_iff.mp this
      rw [walletShortChainHistory, hid, Option.some.inj hsome]
    have hhead : ch.head?.bind (ServedBlock.id? E) = some g := by rwa [List.head?_eq_getElem?]
    have hfind : ((walletShortChainHistory bs).findSome? fun id =>
        ch.findIdx? fun sb => decide (sb.id? E = some id)) = some start :=
      (h.findSome? hl.listed).trans hstart
    unfold serve
    simp only [hhead, hlast, if_true, hfind, Option.map_some]

end Answer

namespace Wallet2

/-- A block on top of the wallet's blocks. -/
def addServed (E : WalletEnv) (w : Wallet2) (sb : ServedBlock) : Except Wallet2 Wallet2 :=
  match parseAndValidateBlockFromBlob sb.block with
  | none => .error w
  | some bl => processNewBlockchainEntry E bl sb (getBlockHash E.toEnv bl) w.blockchain.length w

/-- Blocks on top of the wallet's blocks. -/
def addAll (E : WalletEnv) (l : List ServedBlock) (w : Wallet2) : Except Wallet2 Wallet2 :=
  l.foldlM (addServed E) w

section Add

variable {E : WalletEnv} {w w' : Wallet2}

theorem addAll_cons (sb : ServedBlock) (l : List ServedBlock) :
    addAll E (sb :: l) w = addServed E w sb >>= addAll E l := rfl

theorem addAll_append (l l' : List ServedBlock) :
    addAll E (l ++ l') w = addAll E l w >>= addAll E l' := List.foldlM_append

theorem processNewBlockchainEntry_ok {b : Block} {sb : ServedBlock} {blId : Hash}
    (h : processNewBlockchainEntry E b sb blId w.blockchain.length w = .ok w') :
    ∃ w₁, scanBlock E sb b w.blockchain.length w = .ok w₁ ∧ Changes E w.blockchain.length w w₁ ∧
      w' = { w₁ with blockchain := w.blockchain ++ [blId] } := by
  unfold processNewBlockchainEntry at h
  simp only [ne_eq, not_true_eq_false, if_false] at h
  obtain ⟨w₁, hscan, hw'⟩ := bind_eq_ok.mp h
  have hchanges : Leaves (Changes E w.blockchain.length w) id
      (scanBlock E sb b w.blockchain.length w) := scanBlock_changes Changes.refl
  rw [hscan, leaves_ok] at hchanges
  refine ⟨w₁, hscan, hchanges, ?_⟩
  rw [← hchanges.sameSetup.blockchain]
  cases hw'
  rfl

theorem addServed_ok {sb : ServedBlock} (h : addServed E w sb = .ok w') :
    ∃ bl w₁, parseAndValidateBlockFromBlob sb.block = some bl ∧
      scanBlock E sb bl w.blockchain.length w = .ok w₁ ∧ Changes E w.blockchain.length w w₁ ∧
      w' = { w₁ with blockchain := w.blockchain ++ [getBlockHash E.toEnv bl] } := by
  unfold addServed at h
  split at h
  · cases h
  · next bl hbl =>
    obtain ⟨w₁, hscan, hchanges, hw'⟩ := processNewBlockchainEntry_ok h
    exact ⟨bl, w₁, hbl, hscan, hchanges, hw'⟩

theorem addServed_blockchain {sb : ServedBlock} (h : addServed E w sb = .ok w') :
    ∃ id, sb.id? E.toEnv = some id ∧ w'.blockchain = w.blockchain ++ [id] := by
  obtain ⟨bl, w₁, hbl, -, -, rfl⟩ := addServed_ok h
  exact ⟨_, by rw [ServedBlock.id?, hbl]; rfl, rfl⟩

theorem addAll_blockchain {l : List ServedBlock} (h : addAll E l w = .ok w') :
    w'.blockchain.map some = w.blockchain.map some ++ l.map (ServedBlock.id? E.toEnv) := by
  induction l generalizing w with
  | nil =>
    cases h
    simp
  | cons sb l ih =>
    obtain ⟨w₁, hsb, hl⟩ := bind_eq_ok.mp ((addAll_cons sb l).symm.trans h)
    obtain ⟨id, hid, hchain⟩ := addServed_blockchain hsb
    rw [ih hl, hchain, List.map_append, List.map_cons, List.map_cons, hid]
    simp

/-- Above the wallet's blocks every round adds one. -/
theorem pullBlocksGo_eq_addAll {start added : ℕ} {l : List ServedBlock} :
    pullBlocksGo E start w.blockchain.length l added w =
      addAll E l w >>= fun w' => .ok (added + l.length, w') := by
  induction l generalizing added w with
  | nil => rfl
  | cons sb l ih =>
    have hround : pullBlock E start w.blockchain.length sb w =
        addServed E w sb >>= fun w' => .ok (true, w') := by
      unfold pullBlock addServed
      cases parseAndValidateBlockFromBlob sb.block with
      | none => rfl
      | some bl =>
        simp only [List.getElem?_eq_none le_rfl]
    unfold pullBlocksGo
    rw [hround, addAll_cons]
    cases hsb : addServed E w sb with
    | error w' => rfl
    | ok w' =>
      obtain ⟨id, -, hchain⟩ := addServed_blockchain hsb
      have hlen : w.blockchain.length + 1 = w'.blockchain.length := by rw [hchain]; simp
      simp only [ok_bind, if_true, hlen, ih, List.length_cons]
      congr 1
      funext w''
      congr 2
      omega

theorem pullBlocksGo_skip {start added index : ℕ} {l l' : List ServedBlock}
    (hl : ∀ i < l.length, ∃ id, w.blockchain[index + i]? = some id ∧
      (l[i]?).bind (ServedBlock.id? E.toEnv) = some id) :
    pullBlocksGo E start index (l ++ l') added w =
      pullBlocksGo E start (index + l.length) l' added w := by
  induction l generalizing index with
  | nil => rfl
  | cons sb l ih =>
    obtain ⟨id, hbs, hid⟩ := hl 0 (by simp)
    have hround : pullBlock E start index sb w = .ok (false, w) := by
      obtain ⟨bl, hbl, rfl⟩ := Option.map_eq_some_iff.mp (show sb.id? E.toEnv = some id from hid)
      unfold pullBlock
      rw [Nat.add_zero] at hbs
      simp only [hbl, hbs, if_true]
    rw [List.cons_append, pullBlocksGo, hround, ok_bind, List.length_cons]
    have hrest := @ih (index + 1) fun i hi => by
      obtain ⟨id', hbs', hid'⟩ := hl (i + 1) (by simpa using hi)
      refine ⟨id', ?_, by simpa using hid'⟩
      rw [← hbs']
      congr 1
      omega
    simp only [Bool.false_eq_true, if_false]
    rw [hrest, Nat.add_assoc, Nat.add_comm 1]

theorem detachBlockchain_blockchain {h : ℕ} (hd : detachBlockchain h w = .ok w') :
    w'.blockchain = w.blockchain.take h := by
  have hkeys : ∀ (l : List TransferDetails) (w w₁ : Wallet2), detachKeyImages l w = .ok w₁ →
      w₁.blockchain = w.blockchain := by
    intro l
    induction l with
    | nil =>
      intro w w₁ h₁
      cases h₁
      rfl
    | cons td l ih =>
      intro w w₁ h₁
      unfold detachKeyImages at h₁
      split at h₁
      · cases h₁
      · exact (ih _ _ h₁).trans rfl
  obtain ⟨w₁, h₁, h₂⟩ := bind_eq_ok.mp hd
  cases h₂
  simp only [hkeys _ _ _ h₁]

/-- What precedes the added blocks: nothing above all of the wallet's blocks, a split else. -/
def makeRoom (d : ℕ) (w : Wallet2) : Except Wallet2 Wallet2 :=
  if d = w.blockchain.length then .ok w else detachBlockchain d w

theorem makeRoom_blockchain {d : ℕ} (h : makeRoom d w = .ok w') :
    w'.blockchain = w.blockchain.take d := by
  unfold makeRoom at h
  split_ifs at h with hd
  · cases h
    rw [hd, List.take_length]
  · exact detachBlockchain_blockchain h

theorem pullBlocksGo_above {start d added : ℕ} {sb : ServedBlock} {l : List ServedBlock}
    (hstart : start < d) (hle : d ≤ w.blockchain.length)
    (hsb : (sb.id? E.toEnv).isSome) (hother : ∀ id, w.blockchain[d]? = some id → sb.id? E.toEnv ≠ some id) :
    pullBlocksGo E start d (sb :: l) added w =
      makeRoom d w >>= fun w₁ => addAll E (sb :: l) w₁ >>= fun w' =>
        .ok (added + if d = w.blockchain.length then l.length + 1 else l.length, w') := by
  unfold makeRoom
  split_ifs with hd
  · subst hd
    exact pullBlocksGo_eq_addAll
  · obtain ⟨id, hid⟩ : ∃ id, w.blockchain[d]? = some id := by
      exact ⟨_, List.getElem?_eq_getElem (lt_of_le_of_ne hle hd)⟩
    obtain ⟨bl, hbl⟩ : ∃ bl, parseAndValidateBlockFromBlob sb.block = some bl := by
      rw [ServedBlock.id?, Option.isSome_map, Option.isSome_iff_exists] at hsb
      exact hsb
    have hne : getBlockHash E.toEnv bl ≠ id := by
      intro heq
      refine hother id hid ?_
      rw [ServedBlock.id?, hbl, Option.map_some, heq]
    unfold pullBlocksGo pullBlock
    simp only [hbl, hid, hne, if_false, hstart.ne', bind_assoc]
    cases hdetach : detachBlockchain d w with
    | error w₁ => rfl
    | ok w₁ =>
      have hlen : w₁.blockchain.length = d := by
        rw [detachBlockchain_blockchain hdetach, List.length_take]
        omega
      have hadd : addServed E w₁ sb =
          processNewBlockchainEntry E bl sb (getBlockHash E.toEnv bl) d w₁ := by
        unfold addServed
        simp only [hbl, hlen]
      simp only [ok_bind, addAll_cons, hadd, bind_assoc]
      rw [← hadd]
      cases hsb : addServed E w₁ sb with
      | error w₂ => rfl
      | ok w₂ =>
        obtain ⟨id', -, hchain⟩ := addServed_blockchain hsb
        have hlen' : d + 1 = w₂.blockchain.length := by rw [hchain]; simp [hlen]
        simp only [ok_bind, Bool.false_eq_true, if_false, hlen', pullBlocksGo_eq_addAll]

/-- The rounds of an answer that starts at a common block: common blocks, then, from `d` on, blocks the
wallet does not have. -/
theorem AgreeUpTo.answer {E : Env} {ch : List ServedBlock} {bs : List Hash} {d start : ℕ}
    (h : AgreeUpTo E ch bs d) (hlt : start < d) :
    ∃ common, (ch.drop start).take COMMAND_RPC_GET_BLOCKS_FAST_MAX_COUNT =
        common ++ (ch.drop d).take (start + COMMAND_RPC_GET_BLOCKS_FAST_MAX_COUNT - d) ∧
      (∀ i < common.length, ∃ id, bs[start + i]? = some id ∧
        (common[i]?).bind (ServedBlock.id? E) = some id) ∧
      ∀ sb l, (ch.drop d).take (start + COMMAND_RPC_GET_BLOCKS_FAST_MAX_COUNT - d) = sb :: l →
        start + common.length = d ∧ sb ∈ ch ∧ ∀ id, bs[d]? = some id → sb.id? E ≠ some id := by
  have hlec := h.le_chain
  have hlen : ((ch.drop start).take (d - start)).length = d - start := by
    rw [List.length_take, List.length_drop]
    omega
  refine ⟨((ch.drop start).take (d - start)).take COMMAND_RPC_GET_BLOCKS_FAST_MAX_COUNT, ?_, ?_, ?_⟩
  · conv_lhs => rw [← List.take_append_drop (d - start) (ch.drop start)]
    rw [List.take_append, List.drop_drop, hlen, show start + (d - start) = d by omega,
      show COMMAND_RPC_GET_BLOCKS_FAST_MAX_COUNT - (d - start) =
        start + COMMAND_RPC_GET_BLOCKS_FAST_MAX_COUNT - d by omega]
  · intro i hi
    rw [List.length_take, hlen] at hi
    obtain ⟨id, hbs, hid⟩ := h.common (start + i) (by omega)
    refine ⟨id, hbs, ?_⟩
    rw [List.getElem?_take_of_lt (by omega), List.getElem?_take_of_lt (by omega), List.getElem?_drop]
    exact hid
  · intro sb l hl
    have hsb : ch[d]? = some sb := by
      have := congrArg List.head? hl
      rw [List.head?_take, List.head?_cons] at this
      split_ifs at this
      rwa [List.head?_drop] at this
    refine ⟨?_, List.mem_iff_getElem?.mpr ⟨d, hsb⟩, fun id hid heq => ?_⟩
    · -- the answer goes beyond the common blocks, so all of them come before
      have := congrArg List.length hl
      rw [List.length_take, List.length_drop, List.length_cons] at this
      rw [List.length_take, hlen]
      omega
    · have := (h.apart d d id hid (by rw [hsb]; exact heq)).2
      omega

/-- One call of `pull_blocks` against a chain that agrees with the wallet's blocks up to `d`, answered
from `start` on. -/
theorem pullBlocks_of_agree {ch : List ServedBlock} {d start : ℕ} (hlt : start < d)
    (hc : ∀ sb ∈ ch, (sb.id? E.toEnv).isSome) (h : AgreeUpTo E.toEnv ch w.blockchain d)
    (hserve : serve E.toEnv ch (walletShortChainHistory w.blockchain) =
      some (start, (ch.drop start).take COMMAND_RPC_GET_BLOCKS_FAST_MAX_COUNT)) :
    pullBlocks E (serve E.toEnv ch) w =
      let l := (ch.drop d).take (start + COMMAND_RPC_GET_BLOCKS_FAST_MAX_COUNT - d)
      if l = [] then .ok (0, w)
      else makeRoom d w >>= fun w₁ => addAll E l w₁ >>= fun w' =>
        .ok (if d = w.blockchain.length then l.length else l.length - 1, w') := by
  obtain ⟨common, hanswer, hskip, hrest⟩ := AgreeUpTo.answer h hlt
  have hle := h.le
  unfold pullBlocks
  rw [hserve]
  simp only [show ¬w.blockchain.length ≤ start by omega, if_false, hanswer]
  rw [pullBlocksGo_skip hskip]
  cases hl : (ch.drop d).take (start + COMMAND_RPC_GET_BLOCKS_FAST_MAX_COUNT - d) with
  | nil => rfl
  | cons sb l =>
    obtain ⟨hlen, hsb, hother⟩ := hrest sb l hl
    rw [hlen, pullBlocksGo_above hlt hle (hc sb hsb) hother]
    simp

theorem pullBlocks_on_chain {ch : List ServedBlock} (hc : ∀ sb ∈ ch, (sb.id? E.toEnv).isSome)
    (h : AgreeUpTo E.toEnv ch w.blockchain w.blockchain.length) :
    pullBlocks E (serve E.toEnv ch) w =
      let l := (ch.drop w.blockchain.length).take (COMMAND_RPC_GET_BLOCKS_FAST_MAX_COUNT - 1)
      addAll E l w >>= fun w' => .ok (l.length, w') := by
  obtain ⟨start, hlt, htop, hserve⟩ := exists_start h.pos h.le
  have hcall := pullBlocks_of_agree hlt hc h (hserve _ _ h)
  have hstart : start + COMMAND_RPC_GET_BLOCKS_FAST_MAX_COUNT - w.blockchain.length =
      COMMAND_RPC_GET_BLOCKS_FAST_MAX_COUNT - 1 := by
    have := htop rfl
    omega
  rw [hcall, hstart]
  simp only [if_true, makeRoom, ok_bind]
  split_ifs with hl
  · rw [hl]
    rfl
  · rfl

/-- The height of the first block of an answer that differs from the wallet's block there. -/
def splitHeight (E : Env) (bs : List Hash) : ℕ → List ServedBlock → Option ℕ
  | _, [] => none
  | index, sb :: l =>
      match bs[index]? with
      | none => none
      | some id => if sb.id? E = some id then splitHeight E bs (index + 1) l else some index

theorem splitHeight_ge {E : Env} {bs : List Hash} {index d : ℕ} {l : List ServedBlock}
    (h : splitHeight E bs index l = some d) : index ≤ d := by
  induction l generalizing index with
  | nil => cases h
  | cons sb l ih =>
    unfold splitHeight at h
    split at h
    · cases h
    · split_ifs at h
      · exact Nat.le_of_succ_le (ih h)
      · exact (Option.some.inj h).le

theorem splitHeight_skip {bs : List Hash} {index : ℕ} {l l' : List ServedBlock}
    (hl : ∀ i < l.length, ∃ id, bs[index + i]? = some id ∧
      (l[i]?).bind (ServedBlock.id? E.toEnv) = some id) :
    splitHeight E.toEnv bs index (l ++ l') = splitHeight E.toEnv bs (index + l.length) l' := by
  induction l generalizing index with
  | nil => rfl
  | cons sb l ih =>
    obtain ⟨id, hbs, hid⟩ := hl 0 (by simp)
    rw [Nat.add_zero] at hbs
    rw [List.cons_append, splitHeight]
    simp only [hbs, show sb.id? E.toEnv = some id from hid, if_true]
    have hrest := @ih (index + 1) fun i hi => by
      obtain ⟨id', hbs', hid'⟩ := hl (i + 1) (by simpa using hi)
      refine ⟨id', ?_, by simpa using hid'⟩
      rw [← hbs']
      congr 1
      omega
    rw [hrest, List.length_cons, Nat.add_assoc, Nat.add_comm 1]

/-- A split lies where the wallet's blocks leave the chain, if the answer gets there. -/
theorem splitHeight_of_agree {ch : List ServedBlock} {bs : List Hash} {d start : ℕ}
    (h : AgreeUpTo E.toEnv ch bs d) (hlt : start < d)
    (hne : (ch.drop d).take (start + COMMAND_RPC_GET_BLOCKS_FAST_MAX_COUNT - d) ≠ [])
    (hd : d ≠ bs.length) :
    splitHeight E.toEnv bs start ((ch.drop start).take COMMAND_RPC_GET_BLOCKS_FAST_MAX_COUNT) =
      some d := by
  obtain ⟨common, hanswer, hskip, hrest⟩ := AgreeUpTo.answer h hlt
  obtain ⟨sb, l, hl⟩ := List.exists_cons_of_ne_nil hne
  obtain ⟨hlen, -, hother⟩ := hrest sb l hl
  have hid := List.getElem?_eq_getElem (lt_of_le_of_ne h.le hd)
  rw [hanswer, splitHeight_skip hskip, hlen, hl, splitHeight]
  simp only [hid, if_neg (hother _ hid)]

theorem splitHeight_on_chain {ch : List ServedBlock} {bs : List Hash} {start : ℕ}
    (h : AgreeUpTo E.toEnv ch bs bs.length) (hlt : start < bs.length) :
    splitHeight E.toEnv bs start ((ch.drop start).take COMMAND_RPC_GET_BLOCKS_FAST_MAX_COUNT) = none := by
  obtain ⟨common, hanswer, hskip, hrest⟩ := AgreeUpTo.answer h hlt
  rw [hanswer, splitHeight_skip hskip]
  cases hl : (ch.drop bs.length).take
      (start + COMMAND_RPC_GET_BLOCKS_FAST_MAX_COUNT - bs.length) with
  | nil => rfl
  | cons sb l =>
    obtain ⟨hlen, -, -⟩ := hrest sb l hl
    rw [hlen, splitHeight]
    simp only [List.getElem?_eq_none le_rfl]

end Add

end Wallet2

end Boolberry
