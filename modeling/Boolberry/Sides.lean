import Boolberry.Effects

/-!
# Alternative and invalid blocks

Which calls write the maps of alternative and of invalid blocks, and what one call
of `handle_alternative_block` comes to.
-/

namespace Boolberry
open KeyValue

/-- The alternative and the invalid blocks are the same. -/
structure SameSides (n n' : Node) : Prop where
  alternativeChains : n'.alternativeChains = n.alternativeChains
  invalidBlocks : n'.invalidBlocks = n.invalidBlocks

theorem SameSides.refl (n : Node) : SameSides n n := ⟨rfl, rfl⟩

theorem SameSides.trans {n n' n'' : Node} (h : SameSides n n') (h' : SameSides n' n'') :
    SameSides n n'' :=
  ⟨h'.1.trans h.1, h'.2.trans h.2⟩

theorem addBlockAsInvalid_isSome (n : Node) (bei : BlockExtendedInfo) (id : Hash) :
    ((addBlockAsInvalid n bei id).invalidBlocks.get id).isSome = true := by
  unfold addBlockAsInvalid
  split
  · rename_i hsome
    rw [hsome]
    rfl
  · rw [Map.get_set_self]
    rfl

theorem addBlockAsInvalid_of_ne (n : Node) (bei : BlockExtendedInfo) {id id' : Hash}
    (h : id' ≠ id) : (addBlockAsInvalid n bei id).invalidBlocks.get id' = n.invalidBlocks.get id' := by
  unfold addBlockAsInvalid
  split
  · rfl
  · exact Map.get_set_of_ne _ _ h

theorem checkBlockTimestamp_invalid {E : Env} (n : Node) (timestamps : List UInt64) (b : Block) :
    (checkBlockTimestamp E n timestamps b).2.invalidBlocks = n.invalidBlocks := by
  unfold checkBlockTimestamp
  split_ifs <;> rfl

theorem checkBlockTimestampMain_invalid (E : Env) (now : ℕ) (n : Node) (b : Block) :
    (checkBlockTimestampMain E now n b).2.invalidBlocks = n.invalidBlocks := by
  unfold checkBlockTimestampMain checkBlockTimestamp
  split_ifs <;> rfl

/-- The answer `r` of a push: a block that is put on top marks nothing as invalid, and one that is not
marks nothing but itself. -/
structure Marks (n : Node) (id : Hash) (r : Bool × BlockVerificationContext × Node) : Prop where
  ok : r.1 = true → r.2.2.invalidBlocks = n.invalidBlocks
  other : ∀ id', id' ≠ id → r.2.2.invalidBlocks.get id' = n.invalidBlocks.get id'

theorem Marks.of_eq {n : Node} {id : Hash} {r : Bool × BlockVerificationContext × Node}
    (h : r.2.2.invalidBlocks = n.invalidBlocks) : Marks n id r :=
  ⟨fun _ => h, fun _ _ => by rw [h]⟩

section Main

variable (E : Env) (now : ℕ) (bvc : BlockVerificationContext) (n : Node) (bl : Block)

theorem addBlockTransactions_marks (diff : WideDifficulty) :
    Marks n (getBlockHash E bl) (addBlockTransactions E now bvc n bl diff) := by
  unfold addBlockTransactions
  simp only
  cases addTransactionFromBlock E n.txs bl.minerTx (getTransactionHash E bl.minerTx)
      n.blocks.length with
  | error s => exact .of_eq rfl
  | ok s =>
    simp only
    cases processTransactions (n.view E now) bl.txHashes ⟨s, 0, 0, getObjectBlobsize bl.minerTx⟩ with
    | error f =>
      dsimp only
      split_ifs
      · refine ⟨fun h => ?_, fun id' hid => ?_⟩
        · cases h
        · exact addBlockAsInvalid_of_ne _ _ hid
      · exact .of_eq rfl
    | ok st =>
      simp only [finishBlock]
      cases validateMinerTransaction E n.blocks bl st.cumulativeBlockSize st.feeSummary
          (generatedCoins n.blocks) with
      | none => exact .of_eq rfl
      | some q =>
        cases n.blocksIndex.get (getBlockHash E bl) with
        | some _ => exact .of_eq rfl
        | none => exact .of_eq rfl

theorem handleBlockToMainChain_marks :
    Marks n (getBlockHash E bl) (handleBlockToMainChain E now bvc n bl) := by
  have hi := checkBlockTimestampMain_invalid E now n bl
  unfold handleBlockToMainChain
  simp only
  split_ifs with h0 h1 h2 h3 h4 h5
  · exact .of_eq rfl
  · exact .of_eq hi
  · exact .of_eq hi
  · exact .of_eq hi
  · exact .of_eq hi
  · exact .of_eq hi
  · obtain ⟨hok, hother⟩ := addBlockTransactions_marks E now bvc
      { (checkBlockTimestampMain E now n bl).2 with
        isInCheckpointZone := (checkBlockTimestampMain E now n bl).2.checkpoints.isInCheckpointZone
          (checkBlockTimestampMain E now n bl).2.blocks.length } bl
      (getDifficultyForNextBlock (checkBlockTimestampMain E now n bl).2.blocks)
    exact ⟨fun h => (hok h).trans hi, fun id' hid => (hother id' hid).trans (by rw [hi])⟩

theorem popBlockFromBlockchain_sides : SameSides n (popBlockFromBlockchain E now n).2 := by
  unfold popBlockFromBlockchain
  split_ifs
  · exact .refl n
  cases n.blocks.getLast? with
  | none => exact .refl n
  | some bei =>
    dsimp only
    split_ifs <;> exact ⟨rfl, rfl⟩

end Main

theorem handleBlockToMainChain_sides {E : Env} {now : ℕ} {bvc : BlockVerificationContext} {n : Node}
    {bl : Block} (h : (handleBlockToMainChain E now bvc n bl).1 = true) :
    SameSides n (handleBlockToMainChain E now bvc n bl).2.2 :=
  ⟨(handleBlockToMainChain_effect E now bvc n bl).1.alternativeChains,
    (handleBlockToMainChain_marks E now bvc n bl).ok h⟩

theorem popBlocks_sides (E : Env) (now s k : ℕ) (n : Node) (popped : List Block) :
    match popBlocks E now s k n popped with
    | .ok r => SameSides n r.2
    | .error n' => SameSides n n' := by
  induction k generalizing n popped with
  | zero => exact .refl n
  | succ k ih =>
    have hpop := popBlockFromBlockchain_sides E now n
    unfold popBlocks
    cases n.blocks[s + k]? with
    | none => exact .refl n
    | some bei =>
      simp only
      cases hr : (popBlockFromBlockchain E now n).1 with
      | true =>
        simp only [if_true]
        have hih := ih (popBlockFromBlockchain E now n).2 (bei.bl :: popped)
        split at hih
        · exact hpop.trans hih
        · exact hpop.trans hih
      | false => exact hpop

theorem returnOriginalChain_sides {E : Env} {now : ℕ} {l : List Block} {n : Node}
    (h : (returnOriginalChain E now l n).1 = true) :
    SameSides n (returnOriginalChain E now l n).2 := by
  induction l generalizing n with
  | nil => exact .refl n
  | cons bl l ih =>
    unfold returnOriginalChain at h ⊢
    simp only at h ⊢
    split_ifs at h ⊢ with hr
    simp only [Bool.and_eq_true] at hr
    exact (handleBlockToMainChain_sides hr.1).trans (ih h)

theorem rollbackBlockchainSwitching_sides {E : Env} {now s : ℕ} {l : List Block} {n : Node}
    (h : (rollbackBlockchainSwitching E now n l s).1 = true) :
    SameSides n (rollbackBlockchainSwitching E now n l s).2 := by
  have hpop := popBlocks_sides E now s (n.blocks.length - s) n []
  unfold rollbackBlockchainSwitching at h ⊢
  split at hpop
  · rename_i r hr
    rw [hr] at h ⊢
    exact hpop.trans (returnOriginalChain_sides h)
  · rename_i n' hr
    rw [hr] at h
    cases h

/-- The blocks of `l` are not among the alternative blocks any more, and no other block was marked as
invalid. -/
structure Dropped (l : AltChain) (n n' : Node) : Prop where
  gone : ∀ id ∈ l.map Prod.fst, n'.alternativeChains.get id = none
  kept : ∀ id, id ∉ l.map Prod.fst → n'.alternativeChains.get id = n.alternativeChains.get id
  invalid : ∀ id, id ∉ l.map Prod.fst → n'.invalidBlocks.get id = n.invalidBlocks.get id

namespace Dropped

variable {l l' : AltChain} {n n' n'' : Node}

theorem of_sides (h : Dropped l n' n'') (hs : SameSides n n') : Dropped l n n'' := by
  refine ⟨h.gone, fun id hid => ?_, fun id hid => ?_⟩
  · rw [h.kept id hid, hs.alternativeChains]
  · rw [h.invalid id hid, hs.invalidBlocks]

theorem append (h : Dropped l n n') (h' : Dropped l' n' n'') : Dropped (l ++ l') n n'' := by
  refine ⟨fun id hid => ?_, fun id hid => ?_, fun id hid => ?_⟩
  · by_cases hid' : id ∈ l'.map Prod.fst
    · exact h'.gone id hid'
    · rw [h'.kept id hid']
      rw [List.map_append, List.mem_append] at hid
      exact h.gone id (hid.resolve_right hid')
  · rw [List.map_append, List.mem_append, not_or] at hid
    rw [h'.kept id hid.2, h.kept id hid.1]
  · rw [List.map_append, List.mem_append, not_or] at hid
    rw [h'.invalid id hid.2, h.invalid id hid.1]

theorem single (n : Node) (e : Hash × BlockExtendedInfo) (bei : BlockExtendedInfo) :
    Dropped [e] n { addBlockAsInvalid n bei e.1 with
      alternativeChains := (addBlockAsInvalid n bei e.1).alternativeChains.erase e.1 } := by
  obtain ⟨-, hf⟩ := addBlockAsInvalid_stores n bei e.1
  refine ⟨fun id hid => ?_, fun id hid => ?_, fun id hid => ?_⟩
  · rw [List.map_singleton, List.mem_singleton] at hid
    rw [hid, Map.get_erase, if_pos rfl]
  · rw [List.map_singleton, List.mem_singleton] at hid
    simp only
    rw [Map.get_erase, if_neg hid, hf.alternativeChains]
  · rw [List.map_singleton, List.mem_singleton] at hid
    exact addBlockAsInvalid_of_ne n bei hid

/-- The loop over the blocks behind a failed one erases them all and marks the first. -/
theorem foldl_orphanStep (first : Hash × BlockExtendedInfo) (l : AltChain) (n : Node) :
    (∀ id ∈ l.map Prod.fst, (l.foldl (orphanStep first) n).alternativeChains.get id = none) ∧
      (∀ id, id ∉ l.map Prod.fst → (l.foldl (orphanStep first) n).alternativeChains.get id =
        n.alternativeChains.get id) ∧
      ∀ id, id ≠ first.1 → (l.foldl (orphanStep first) n).invalidBlocks.get id =
        n.invalidBlocks.get id := by
  induction l generalizing n with
  | nil => exact ⟨by simp, fun _ _ => rfl, fun _ _ => rfl⟩
  | cons e l ih =>
    obtain ⟨hgone, hkept, hinvalid⟩ := ih (orphanStep first n e)
    obtain ⟨-, hf⟩ := addBlockAsInvalid_stores n first.2 first.1
    have hstep : ∀ id, (orphanStep first n e).alternativeChains.get id =
        if id = e.1 then none else n.alternativeChains.get id := by
      intro id
      simp only [orphanStep, Map.get_erase, hf.alternativeChains]
    rw [List.foldl_cons]
    refine ⟨fun id hid => ?_, fun id hid => ?_, fun id hid => ?_⟩
    · by_cases hid' : id ∈ l.map Prod.fst
      · exact hgone id hid'
      · rw [List.map_cons, List.mem_cons] at hid
        rw [hkept id hid', hstep, if_pos (hid.resolve_right hid')]
    · rw [List.map_cons, List.mem_cons, not_or] at hid
      rw [hkept id hid.2, hstep, if_neg hid.1]
    · rw [hinvalid id hid]
      exact addBlockAsInvalid_of_ne n first.2 hid

theorem orphanRest (n : Node) (l : AltChain) : Dropped l n (Boolberry.orphanRest n l) := by
  unfold Boolberry.orphanRest
  cases hl : l.head? with
  | none =>
    rw [List.head?_eq_none_iff] at hl
    subst hl
    exact ⟨by simp, fun _ _ => rfl, fun _ _ => rfl⟩
  | some first =>
    obtain ⟨hgone, hkept, hinvalid⟩ := foldl_orphanStep first l n
    refine ⟨hgone, hkept, fun id hid => hinvalid id ?_⟩
    rintro rfl
    exact hid (List.mem_map_of_mem (List.mem_of_head? hl))

/-- What the connecting loop does about a refused block `e` drops it with the blocks behind it. -/
theorem refused {m : Node} (e : Hash × BlockExtendedInfo) (rest : AltChain)
    (ha : m.alternativeChains = n.alternativeChains)
    (hi : ∀ id, id ≠ e.1 → m.invalidBlocks.get id = n.invalidBlocks.get id) :
    Dropped (e :: rest) n (Boolberry.orphanRest { addBlockAsInvalid m e.2 e.1 with
      alternativeChains := (addBlockAsInvalid m e.2 e.1).alternativeChains.erase e.1 } rest) := by
  have hdrop := (single m e e.2).append (orphanRest _ rest)
  refine ⟨hdrop.gone, fun id hid => ?_, fun id hid => ?_⟩
  · exact (hdrop.kept id hid).trans (by rw [ha])
  · refine (hdrop.invalid id hid).trans (hi id ?_)
    rintro rfl
    exact hid (by simp)

end Dropped

/-- A refused alternative block leaves both maps, and one that is taken is not marked as invalid. -/
theorem addAlternativeBlock_sides (E : Env) (bvc : BlockVerificationContext) (n : Node) (b : Block)
    (a : Attachment) :
    match addAlternativeBlock E bvc n b a with
    | .error r => SameSides n r.2.2
    | .ok r => r.2.invalidBlocks = n.invalidBlocks := by
  have hi := checkBlockTimestamp_invalid (E := E) n
    (altTimestamps n.blocks (a.connectionHeight - 1) a.branch) b
  obtain ⟨-, -, hf⟩ :=
    checkBlockTimestamp_spec E n (altTimestamps n.blocks (a.connectionHeight - 1) a.branch) b
  unfold addAlternativeBlock
  generalize checkBlockTimestamp E n (altTimestamps n.blocks (a.connectionHeight - 1) a.branch) b = q
    at hi hf
  obtain ⟨ok, n₁⟩ := q
  have hs : SameSides n n₁ := ⟨hf.alternativeChains, hi⟩
  cases ok with
  | false => exact hs
  | true =>
    simp only [Bool.not_true, Bool.false_eq_true, if_false]
    cases altProofOfWork E n₁ b a with
    | none => exact hs
    | some q =>
      dsimp only
      split_ifs
      · exact hs
      · exact ⟨hs.1, hs.2⟩
      · exact ⟨hs.1, hs.2⟩
      · cases n₁.alternativeChains.get (getBlockHash E b) with
        | some _ => exact ⟨hs.1, hs.2⟩
        | none => exact hi

/-- `b` was taken as an alternative block on the attachment `a`. -/
structure TakenOn (E : Env) (n : Node) (b : Block) (a : Attachment) (altChain : AltChain)
    (n' : Node) : Prop where
  passed : n.checkpoints.isHeightPassedZone (getBlockHeight b) (n.blocks.length - 1) = false
  chain : altChainOf n.alternativeChains b.prevId = some a.altChain
  attach : attach E n b.prevId a.altChain = some a
  add : ∃ bvc, addAlternativeBlock E bvc n b a = .ok (altChain, n')

/-- A call of `handle_alternative_block` refuses the block, or takes it without a switch or with
one. -/
theorem handleAlternativeBlock_inv {E : Env} {now fuel : ℕ} {bvc : BlockVerificationContext}
    {n : Node} {b : Block} {r : Bool × BlockVerificationContext × Node}
    (hr : handleAlternativeBlock E now (fuel + 1) bvc n b = some r) :
    (SameSides n r.2.2 ∧ r.2.2.toChainStores = n.toChainStores ∧
      (r.1 = true → n.alternativeChains.get b.prevId = none ∧ n.blocksIndex.get b.prevId = none)) ∨
    ∃ a altChain n₁, TakenOn E n b a altChain n₁ ∧
      ((¬topDifficulty n₁.blocks < topDifficulty (altChain.map Prod.snd) ∧ r = (true, bvc, n₁)) ∨
        (topDifficulty n₁.blocks < topDifficulty (altChain.map Prod.snd) ∧
          switchToAlternativeBlockchain E now
            (fun n b => (handleAlternativeBlock E now fuel {} n b).map fun r => (r.1, r.2.2)) n₁
            altChain = some (r.1, r.2.2))) := by
  rcases handleAlternativeBlock_steps hr with ⟨hr, hparent⟩ | ⟨a, hpass, hchain, hatt, hadded⟩
  · rw [hr]
    exact Or.inl ⟨.refl n, rfl, hparent⟩
  have heff := addAlternativeBlock_effect E bvc n b a
  have hsides := addAlternativeBlock_sides E bvc n b a
  rcases hadded with ha | ⟨altChain, n₁, ha, hcase⟩
  · rw [ha] at heff hsides
    refine Or.inl ⟨hsides, heff.2.1, fun h => ?_⟩
    rw [heff.1] at h
    cases h
  · exact Or.inr ⟨a, altChain, n₁, ⟨hpass, hchain, hatt, bvc, ha⟩, hcase⟩

end Boolberry
