import Boolberry.Core
import Boolberry.Lines
import Boolberry.MainChain
import Boolberry.Sides

/-!
# A refused branch

What `switch_to_alternative_blockchain` does with the blocks of a branch when one
of them is refused. The loop that marks the blocks behind it reads the iterator of
the outer loop, so it marks the first of them over and over.
-/

namespace Boolberry
open KeyValue

/-- What `handle_alternative_block` passes to a switch: entries of the alternative blocks, each once
and under its id. -/
structure Passed (E : Env) (n : Node) (l : AltChain) : Prop where
  entry : ∀ x ∈ l, n.alternativeChains.get x.1 = some x.2
  id : ∀ x ∈ l, x.1 = getBlockHash E x.2.bl
  nodup : (l.map Prod.fst).Nodup

/-- The answer of a push to the loop that connects a branch. -/
def connects (E : Env) (now : ℕ) (n : Node) (bl : Block) : Bool :=
  (handleBlockToMainChain E now {} n bl).1 &&
    (handleBlockToMainChain E now {} n bl).2.1.addedToMainChain

/-- The node after the blocks of `l` were all connected. -/
def connectedAll (E : Env) (now : ℕ) : AltChain → Node → Option Node
  | [], n => some n
  | x :: l, n => if connects E now n x.2.bl then
      connectedAll E now l (handleBlockToMainChain E now {} n x.2.bl).2.2 else none

/-- The main chain of `n` comes off down to the height `s`, the blocks `done` are connected and the
next one, `e`, is refused. -/
def RefusedAt (E : Env) (now : ℕ) (n : Node) (s : ℕ) (done : AltChain)
    (e : Hash × BlockExtendedInfo) : Prop :=
  s < n.blocks.length ∧ ∃ popped n₀ n₁,
    popBlocks E now s (n.blocks.length - s) n [] = .ok (popped, n₀) ∧
    connectedAll E now done n₀ = some n₁ ∧ connects E now n₁ e.2.bl = false

/-- The refused block and all behind it are invalid blocks and no alternative ones any more; the
blocks in front of it are still alternative ones. -/
structure CleanedUp (done : AltChain) (e : Hash × BlockExtendedInfo) (rest : AltChain)
    (n' : Node) : Prop where
  invalid : ∀ x ∈ e :: rest, ∃ bei, n'.invalidBlocks.get x.1 = some bei ∧ bei.bl = x.2.bl
  gone : ∀ x ∈ e :: rest, n'.alternativeChains.get x.1 = none
  kept : ∀ x ∈ done, n'.alternativeChains.get x.1 = some x.2

/-- What the invalid blocks were before: those among them with the id of a block to mark have its
data, and all behind the first that follows the refused one are there. -/
structure MarkedBefore (n : Node) (e : Hash × BlockExtendedInfo) (rest : AltChain) : Prop where
  own : ∀ x ∈ e :: rest, ∀ bei, n.invalidBlocks.get x.1 = some bei → bei.bl = x.2.bl
  marked : ∀ x ∈ rest.drop 1, (n.invalidBlocks.get x.1).isSome = true

section Calls

variable {E : Env} {alts : Map Hash BlockExtendedInfo}

theorem branch_of_altChainGo {k : ℕ} {id : Hash} {acc l : AltChain}
    (h : altChainGo alts k id acc = some l) : ∃ l', Branch alts id l' ∧ l = l' ++ acc := by
  induction k generalizing id acc with
  | zero => cases h
  | succ k ih =>
    unfold altChainGo at h
    cases hget : alts.get id with
    | none =>
      simp only [hget, Option.some.injEq] at h
      exact ⟨[], .nil hget, h.symm⟩
    | some bei =>
      simp only [hget] at h
      obtain ⟨l', hl', rfl⟩ := ih h
      exact ⟨_, .snoc hget hl', by simp⟩

theorem Branch.unique {id : Hash} {l l' : AltChain} (h : Branch alts id l) (h' : Branch alts id l') :
    l = l' := by
  induction h generalizing l' with
  | nil hnone =>
    cases h' with
    | nil _ => rfl
    | snoc hget _ => simp [hnone] at hget
  | @snoc id bei l hget _ ih =>
    cases h' with
    | nil hnone => simp [hnone] at hget
    | @snoc _ bei' _ hget' hl' =>
      obtain rfl : bei = bei' := Option.some.inj (hget.symm.trans hget')
      rw [ih hl']

theorem Branch.upTo {id : Hash} {l : AltChain} (h : Branch alts id l) :
    ∀ x ∈ l, ∃ l', Branch alts x.1 l' ∧ l'.length ≤ l.length := by
  induction h with
  | nil _ => simp
  | @snoc id bei l hget hl ih =>
    intro x hx
    rcases List.mem_append.mp hx with hx | hx
    · obtain ⟨l', hl', hle⟩ := ih x hx
      exact ⟨l', hl', hle.trans (by simp)⟩
    · obtain rfl := List.mem_singleton.mp hx
      exact ⟨_, .snoc hget hl, le_refl _⟩

/-- No block is in a branch twice: the walk from it would not have ended. -/
theorem Branch.nodup_ids {id : Hash} {l : AltChain} (h : Branch alts id l) :
    (l.map Prod.fst).Nodup := by
  induction h with
  | nil _ => exact List.nodup_nil
  | @snoc id bei l hget hl ih =>
    rw [List.map_append, List.nodup_append]
    refine ⟨ih, List.nodup_singleton _, fun a ha b hb hab => ?_⟩
    obtain ⟨x, hx, rfl⟩ := List.mem_map.mp ha
    rw [List.map_singleton, List.mem_singleton] at hb
    obtain ⟨l', hl', hle⟩ := hl.upTo x hx
    rw [hab, hb] at hl'
    have hlen := congrArg List.length (hl'.unique (.snoc hget hl))
    rw [List.length_append, List.length_singleton] at hlen
    omega

/-- The alternative blocks are stored under their ids. -/
def Keyed (E : Env) (n : Node) : Prop :=
  ∀ id bei, n.alternativeChains.get id = some bei → id = getBlockHash E bei.bl

theorem Keyed.of_eq {n n' : Node} (h : Keyed E n) (heq : n'.alternativeChains = n.alternativeChains) :
    Keyed E n' := by
  unfold Keyed
  rw [heq]
  exact h

theorem keyed_alt (E : Env) (now : ℕ) :
    AltInvariant E now (Keyed E) (fun _ => True) (fun _ => True) (fun _ => True) where
  push n bvc bl hn _ := hn.of_eq (handleBlockToMainChain_effect E now bvc n bl).1.alternativeChains
  pop n _ hn _ _ := hn.of_eq (popBlockFromBlockchain_effect E now n).1.alternativeChains
  invalid n bei id hn := hn.of_eq (addBlockAsInvalid_stores n bei id).2.alternativeChains
  erase n id hn := by
    intro id' bei hget
    rw [Map.get_erase] at hget
    split_ifs at hget
    exact hn id' bei hget
  add bvc n b a hn _ _ _ _ := by
    have heff := addAlternativeBlock_effect E bvc n b a
    split
    · rename_i r hr
      rw [hr] at heff
      exact hn.of_eq heff.2.2.1.alternativeChains
    · rename_i r hr
      obtain ⟨bei, diff, pow, hpow, -, -, -, -, -, -, -, -, halts⟩ := addAlternativeBlock_ok hr
      obtain ⟨_, _, -, -, -, rfl, -⟩ := altProofOfWork_some hpow
      refine ⟨fun id bei hget => ?_, fun _ _ => trivial⟩
      rw [halts, Map.get_set] at hget
      split_ifs at hget with hid
      · rw [← Option.some.inj hget]
        exact hid
      · exact hn id bei hget
  main _ _ _ _ _ _ _ _ := ⟨trivial, trivial⟩
  alt _ _ _ _ _ := trivial

theorem keyed_of_reachable {cps : Checkpoints} {n : Node} (h : Reachable E cps n) : Keyed E n := by
  obtain ⟨now, n₀, events, hinit, hrun⟩ := h
  obtain ⟨_, -, -, -, -, halts, -⟩ := initNode_spec hinit
  have hstart : Keyed E n₀ := by
    intro id bei hget
    rw [halts, Map.get_empty] at hget
    cases hget
  refine run_induction (Q := fun _ => True) (fun n n' e hn _ he => ?_) hstart (fun _ _ => trivial) hrun
  by_cases hblock : e.isBlock = true
  · cases e with
    | block now fuel b =>
      obtain ⟨r, hr, rfl⟩ := Option.map_eq_some_iff.mp he
      exact (keyed_alt E now).addNewBlock hn (fun _ => trivial) (fun _ => trivial) hr
    | _ => simp [Event.isBlock] at hblock
  · obtain ⟨-, -, -, halts⟩ := Event.effect (by simpa using hblock) he
    exact fun id bei hget => hn id bei (halts id bei hget)

/-- In every reachable state a switch is called with a chain that is `Passed`. -/
theorem passed_of_addAlternativeBlock {cps : Checkpoints} {n n₁ : Node} {bvc : BlockVerificationContext}
    {b : Block} {a : Attachment} {altChain : AltChain} (hreach : Reachable E cps n)
    (hchain : altChainOf n.alternativeChains b.prevId = some a.altChain)
    (hadd : addAlternativeBlock E bvc n b a = .ok (altChain, n₁)) : Passed E n₁ altChain := by
  have hkeys := keyed_of_reachable hreach
  obtain ⟨bei, diff, pow, hpow, -, -, -, -, hnone, hal', -, -, halts⟩ := addAlternativeBlock_ok hadd
  obtain ⟨_, _, -, -, -, hbei, -⟩ := altProofOfWork_some hpow
  subst hbei hal'
  obtain ⟨l, hl, hal⟩ := branch_of_altChainGo hchain
  rw [List.append_nil] at hal
  rw [hal]
  have hfresh : ∀ x ∈ l, x.1 ≠ getBlockHash E b := by
    intro x hx he
    have hget := hl.get x hx
    rw [he, hnone] at hget
    cases hget
  refine ⟨fun x hx => ?_, fun x hx => ?_, ?_⟩
  · rw [halts, Map.get_set]
    rcases List.mem_append.mp hx with hx | hx
    · rw [if_neg (hfresh x hx)]
      exact hl.get x hx
    · obtain rfl := List.mem_singleton.mp hx
      exact if_pos rfl
  · rcases List.mem_append.mp hx with hx | hx
    · exact hkeys x.1 x.2 (hl.get x hx)
    · obtain rfl := List.mem_singleton.mp hx
      rfl
  · rw [List.map_append, List.nodup_append]
    refine ⟨hl.nodup_ids, List.nodup_singleton _, fun c hc d hd hcd => ?_⟩
    obtain ⟨x, hx, rfl⟩ := List.mem_map.mp hc
    rw [List.map_singleton, List.mem_singleton] at hd
    exact hfresh x hx (hcd.trans hd)

end Calls

/-- The alternative blocks are the same, marks stay, and new ones are for blocks of `S`. -/
structure MarksOf (E : Env) (S : Set Block) (n n' : Node) : Prop where
  alternativeChains : n'.alternativeChains = n.alternativeChains
  stay : ∀ id bei, n.invalidBlocks.get id = some bei → n'.invalidBlocks.get id = some bei
  new : ∀ id bei, n'.invalidBlocks.get id = some bei → n.invalidBlocks.get id = some bei ∨
    bei.bl ∈ S ∧ getBlockHash E bei.bl = id

namespace MarksOf

variable {E : Env} {S S' : Set Block} {n n' n'' : Node}

theorem of_sides (h : SameSides n n') : MarksOf E S n n' := by
  refine ⟨h.alternativeChains, fun id bei hget => ?_, fun id bei hget => ?_⟩
  · rwa [h.invalidBlocks]
  · rw [h.invalidBlocks] at hget
    exact .inl hget

theorem trans (h : MarksOf E S n n') (h' : MarksOf E S n' n'') : MarksOf E S n n'' := by
  refine ⟨h'.alternativeChains.trans h.alternativeChains,
    fun id bei hget => h'.stay id bei (h.stay id bei hget), fun id bei hget => ?_⟩
  rcases h'.new id bei hget with hget | hnew
  · exact h.new id bei hget
  · exact .inr hnew

theorem mono (hS : S ⊆ S') (h : MarksOf E S n n') : MarksOf E S' n n' := by
  refine ⟨h.alternativeChains, h.stay, fun id bei hget => ?_⟩
  rcases h.new id bei hget with hget | ⟨hbl, hid⟩
  · exact .inl hget
  · exact .inr ⟨hS hbl, hid⟩

theorem addBlockAsInvalid (n : Node) {bei : BlockExtendedInfo} {id : Hash} (hbl : bei.bl ∈ S)
    (hid : id = getBlockHash E bei.bl) : MarksOf E S n (addBlockAsInvalid n bei id) := by
  unfold Boolberry.addBlockAsInvalid
  cases hget : n.invalidBlocks.get id with
  | some _ => exact of_sides (.refl n)
  | none =>
    refine ⟨rfl, fun id' bei' hget' => ?_, fun id' bei' hget' => ?_⟩
    · have hne : id' ≠ id := by
        rintro rfl
        rw [hget] at hget'
        cases hget'
      exact (Map.get_set_of_ne _ _ hne).trans hget'
    · simp only [Map.get_set] at hget'
      split_ifs at hget' with heq
      · obtain rfl := Option.some.inj hget'
        exact .inr ⟨hbl, hid.symm.trans heq.symm⟩
      · exact .inl hget'

theorem addBlockTransactions (now : ℕ) (bvc : BlockVerificationContext) (n : Node) {bl : Block}
    (hbl : bl ∈ S) (diff : WideDifficulty) :
    MarksOf E S n (addBlockTransactions E now bvc n bl diff).2.2 := by
  unfold Boolberry.addBlockTransactions
  simp only
  cases addTransactionFromBlock E n.txs bl.minerTx (getTransactionHash E bl.minerTx)
      n.blocks.length with
  | error s => exact of_sides ⟨rfl, rfl⟩
  | ok s =>
    simp only
    cases processTransactions (n.view E now) bl.txHashes ⟨s, 0, 0, getObjectBlobsize bl.minerTx⟩ with
    | error f =>
      have hs : SameSides n { n with txs :=
          (purgeBlockDataFromBlockchain (n.view E now) f.state bl f.txProcessedCount).2 } := ⟨rfl, rfl⟩
      dsimp only
      split_ifs
      · exact (of_sides hs).trans (addBlockAsInvalid _ hbl rfl)
      · exact of_sides hs
    | ok st =>
      simp only [finishBlock]
      cases validateMinerTransaction E n.blocks bl st.cumulativeBlockSize st.feeSummary
          (generatedCoins n.blocks) with
      | none => exact of_sides ⟨rfl, rfl⟩
      | some q =>
        cases n.blocksIndex.get (getBlockHash E bl) with
        | some _ => exact of_sides ⟨rfl, rfl⟩
        | none => exact of_sides ⟨rfl, rfl⟩

theorem push (now : ℕ) (bvc : BlockVerificationContext) (n : Node) {bl : Block} (hbl : bl ∈ S) :
    MarksOf E S n (handleBlockToMainChain E now bvc n bl).2.2 := by
  have hi := checkBlockTimestampMain_invalid E now n bl
  obtain ⟨-, -, hf⟩ := checkBlockTimestampMain_spec E now n bl
  have hs : SameSides n (checkBlockTimestampMain E now n bl).2 := ⟨hf.alternativeChains, hi⟩
  unfold handleBlockToMainChain
  simp only
  split_ifs with h0 h1 h2 h3 h4 h5
  · exact of_sides (.refl n)
  · exact of_sides hs
  · exact of_sides hs
  · exact of_sides hs
  · exact of_sides ⟨hs.1, hs.2⟩
  · exact of_sides ⟨hs.1, hs.2⟩
  · have hz : SameSides n { (checkBlockTimestampMain E now n bl).2 with
        isInCheckpointZone := (checkBlockTimestampMain E now n bl).2.checkpoints.isInCheckpointZone
          (checkBlockTimestampMain E now n bl).2.blocks.length } := ⟨hs.1, hs.2⟩
    exact (of_sides hz).trans (addBlockTransactions now bvc _ hbl _)

theorem returnOriginalChain (now : ℕ) {l : List Block} (n : Node) (hl : ∀ bl ∈ l, bl ∈ S) :
    MarksOf E S n (returnOriginalChain E now l n).2 := by
  induction l generalizing n with
  | nil => exact of_sides (.refl n)
  | cons bl l ih =>
    have hpush : MarksOf E S n _ := push now {} n (hl bl (by simp))
    unfold Boolberry.returnOriginalChain
    simp only
    split_ifs
    · exact hpush.trans (ih _ fun b hb => hl b (List.mem_cons_of_mem _ hb))
    · exact hpush

theorem rollback (now s : ℕ) {l : List Block} (n : Node) (hl : ∀ bl ∈ l, bl ∈ S) :
    MarksOf E S n (rollbackBlockchainSwitching E now n l s).2 := by
  have hpop := popBlocks_sides E now s (n.blocks.length - s) n []
  unfold rollbackBlockchainSwitching
  split at hpop
  · rename_i r hr
    rw [hr]
    exact (of_sides hpop).trans (returnOriginalChain now r.2 hl)
  · rename_i n' hr
    rw [hr]
    exact of_sides hpop

end MarksOf

/-- The blocks that come off a main chain were on it. -/
theorem mem_popBlocks {E : Env} {now s k : ℕ} {n : Node} {popped : List Block}
    {r : List Block × Node} (h : popBlocks E now s k n popped = .ok r) :
    ∀ bl ∈ r.1, bl ∈ popped ∨ ∃ bei ∈ n.blocks, bei.bl = bl := by
  induction k generalizing n popped with
  | zero =>
    obtain rfl := Except.ok.inj h
    exact fun bl hbl => .inl hbl
  | succ k ih =>
    unfold popBlocks at h
    cases hbei : n.blocks[s + k]? with
    | none => simp [hbei] at h
    | some bei =>
      simp only [hbei] at h
      split_ifs at h
      intro bl hbl
      rcases ih h bl hbl with hmem | ⟨x, hx, rfl⟩
      · rcases List.mem_cons.mp hmem with rfl | hmem
        · exact .inr ⟨bei, List.mem_of_getElem? hbei, rfl⟩
        · exact .inl hmem
      · refine .inr ⟨x, ?_, rfl⟩
        obtain ⟨-, -, hsame | ⟨top, -, -, ⟨-, hsame⟩ | hdrop⟩⟩ :=
          popBlockFromBlockchain_effect E now n
        · rwa [hsame.blocks] at hx
        · rwa [hsame] at hx
        · rw [hdrop] at hx
          exact List.mem_of_mem_dropLast hx

theorem connectedAll_sides {E : Env} {now : ℕ} {l : AltChain} {n n' : Node}
    (h : connectedAll E now l n = some n') : SameSides n n' := by
  induction l generalizing n with
  | nil =>
    obtain rfl := Option.some.inj h
    exact .refl n
  | cons x l ih =>
    unfold connectedAll at h
    split_ifs at h with hc
    simp only [connects, Bool.and_eq_true] at hc
    exact (handleBlockToMainChain_sides hc.1).trans (ih h)

theorem connectAltChain_refused {E : Env} {now s : ℕ} {popped : List Block} {done rest : AltChain}
    {e : Hash × BlockExtendedInfo} {n n₁ : Node} (h : connectedAll E now done n = some n₁)
    (he : connects E now n₁ e.2.bl = false) :
    connectAltChain E now popped s (done ++ e :: rest) n =
      connectAltChain E now popped s (e :: rest) n₁ := by
  induction done generalizing n with
  | nil =>
    obtain rfl := Option.some.inj h
    rfl
  | cons x l ih =>
    unfold connectedAll at h
    split_ifs at h with hc
    rw [List.cons_append, connectAltChain]
    exact (if_pos hc).trans (ih h)

/-- The height a switch to a branch pops down to. -/
def splitHeight (l : AltChain) : ℕ := (l.head?.map fun x => x.2.height).getD 0

section Refused

variable {E : Env} {now : ℕ} {n : Node} {done rest : AltChain} {e : Hash × BlockExtendedInfo}

/-- The blocks of the main chain and those of `l`. -/
def mainAnd (n : Node) (l : AltChain) : Set Block :=
  { bl | (∃ bei ∈ n.blocks, bei.bl = bl) ∨ ∃ x ∈ l, x.2.bl = bl }

/-- A switch whose block `e` is refused: `e` is marked and erased before the blocks behind it are
gone through. -/
theorem switch_refused (handle : Node → Block → Option (Bool × Node))
    (hp : Passed E n (done ++ e :: rest))
    (hr : RefusedAt E now n (splitHeight (done ++ e :: rest)) done e) :
    ∃ m : Node, switchToAlternativeBlockchain E now handle n (done ++ e :: rest) =
        some (false, orphanRest { m with alternativeChains := m.alternativeChains.erase e.1 } rest) ∧
      MarksOf E (mainAnd n [e]) n m ∧ (m.invalidBlocks.get e.1).isSome = true := by
  obtain ⟨hlt, popped, n₀, n₁, hpop, hcon, hrefused⟩ := hr
  have hid : e.1 = getBlockHash E e.2.bl := hp.id e (by simp)
  obtain ⟨front, hfront⟩ : ∃ front, (done ++ e :: rest).head? = some front := by
    cases done <;> simp
  have hsplit : splitHeight (done ++ e :: rest) = front.2.height := by
    rw [splitHeight, hfront]
    rfl
  rw [hsplit] at hlt hpop
  have hsides := popBlocks_sides E now front.2.height (n.blocks.length - front.2.height) n []
  rw [hpop] at hsides
  have hmem : ∀ bl ∈ popped, bl ∈ mainAnd n [e] := by
    intro bl hbl
    rcases mem_popBlocks hpop bl hbl with hnil | hmain
    · exact absurd hnil List.not_mem_nil
    · exact .inl hmain
  have he : e.2.bl ∈ mainAnd n [e] := .inr ⟨e, by simp, rfl⟩
  have hmarks : MarksOf E (mainAnd n [e]) n
      (rollbackBlockchainSwitching E now (handleBlockToMainChain E now {} n₁ e.2.bl).2.2 popped
        front.2.height).2 :=
    (MarksOf.of_sides (hsides.trans (connectedAll_sides hcon))).trans
      ((MarksOf.push now {} n₁ he).trans (MarksOf.rollback now front.2.height _ hmem))
  refine ⟨addBlockAsInvalid (rollbackBlockchainSwitching E now
    (handleBlockToMainChain E now {} n₁ e.2.bl).2.2 popped front.2.height).2 e.2
      (getBlockHash E e.2.bl), ?_, hmarks.trans (MarksOf.addBlockAsInvalid _ he rfl), ?_⟩
  · unfold switchToAlternativeBlockchain
    simp only [hfront]
    rw [if_neg (by omega), hpop]
    simp only
    rw [connectAltChain_refused hcon hrefused, connectAltChain]
    have hnot : ¬((handleBlockToMainChain E now {} n₁ e.2.bl).1 &&
        (handleBlockToMainChain E now {} n₁ e.2.bl).2.1.addedToMainChain) = true := by
      simpa [connects] using hrefused
    simp only
    rw [if_neg hnot]
  · rw [hid]
    exact addBlockAsInvalid_isSome _ _ _

theorem addBlockAsInvalid_erase (m : Node) (alts : Map Hash BlockExtendedInfo)
    (bei : BlockExtendedInfo) (id : Hash) :
    (addBlockAsInvalid { m with alternativeChains := alts } bei id).invalidBlocks =
      (addBlockAsInvalid m bei id).invalidBlocks := by
  unfold addBlockAsInvalid
  simp only
  cases m.invalidBlocks.get id <;> rfl

theorem foldl_orphanStep_marked {first : Hash × BlockExtendedInfo} (l : AltChain) {m : Node}
    (h : (m.invalidBlocks.get first.1).isSome = true) :
    (l.foldl (orphanStep first) m).invalidBlocks = m.invalidBlocks := by
  induction l generalizing m with
  | nil => rfl
  | cons x l ih =>
    obtain ⟨bei, hbei⟩ := Option.isSome_iff_exists.mp h
    have hstep : (orphanStep first m x).invalidBlocks = m.invalidBlocks := by
      simp only [orphanStep, addBlockAsInvalid, hbei]
    rw [List.foldl_cons, ih (by rwa [hstep]), hstep]

/-- Going through the blocks behind a refused one marks the first of them. -/
theorem orphanRest_invalid (m : Node) (x : Hash × BlockExtendedInfo) (l : AltChain) :
    (orphanRest m (x :: l)).invalidBlocks = (addBlockAsInvalid m x.2 x.1).invalidBlocks := by
  rw [orphanRest, List.head?_cons]
  simp only [List.foldl_cons]
  rw [foldl_orphanStep_marked]
  · rfl
  · exact addBlockAsInvalid_isSome m x.2 x.1

/-- The invalid blocks after a refusal: as if the refused block and the one behind it were marked. -/
theorem orphanRest_marks {m : Node} (hp : Passed E n (done ++ e :: rest))
    (hm : MarksOf E (mainAnd n [e]) n m) (he : (m.invalidBlocks.get e.1).isSome = true) :
    ∃ m' : Node, MarksOf E (mainAnd n (e :: rest.take 1)) n m' ∧
      (∀ x ∈ e :: rest.take 1, (m'.invalidBlocks.get x.1).isSome = true) ∧
      (orphanRest { m with alternativeChains := m.alternativeChains.erase e.1 } rest).invalidBlocks =
        m'.invalidBlocks := by
  have hsub : mainAnd n [e] ⊆ mainAnd n (e :: rest.take 1) := by
    rintro bl (hmain | ⟨x, hx, rfl⟩)
    · exact .inl hmain
    · obtain rfl := List.mem_singleton.mp hx
      exact .inr ⟨x, by simp, rfl⟩
  cases rest with
  | nil =>
    refine ⟨m, hm.mono hsub, fun x hx => ?_, rfl⟩
    obtain rfl := List.mem_singleton.mp hx
    exact he
  | cons first rest =>
    have hfirst : first.2.bl ∈ mainAnd n (e :: [first]) := .inr ⟨first, by simp, rfl⟩
    have hadd : MarksOf E (mainAnd n (e :: [first])) m (addBlockAsInvalid m first.2 first.1) :=
      MarksOf.addBlockAsInvalid m hfirst (hp.id first (by simp))
    refine ⟨addBlockAsInvalid m first.2 first.1, (hm.mono hsub).trans hadd, fun x hx => ?_, ?_⟩
    · rcases List.mem_cons.mp hx with rfl | hx
      · obtain ⟨bei, hbei⟩ := Option.isSome_iff_exists.mp he
        rw [hadd.stay x.1 bei hbei]
        rfl
      · obtain rfl := List.mem_singleton.mp hx
        exact addBlockAsInvalid_isSome m x.2 x.1
    · rw [orphanRest_invalid, addBlockAsInvalid_erase]

theorem orphanRest_gone {m : Node} (hp : Passed E n (done ++ e :: rest))
    (hm : m.alternativeChains = n.alternativeChains) :
    let n' := orphanRest { m with alternativeChains := m.alternativeChains.erase e.1 } rest
    (∀ x ∈ e :: rest, n'.alternativeChains.get x.1 = none) ∧
      ∀ x ∈ done, n'.alternativeChains.get x.1 = some x.2 := by
  have hd := Dropped.orphanRest { m with alternativeChains := m.alternativeChains.erase e.1 } rest
  have hnodup := hp.nodup
  rw [List.map_append, List.map_cons, List.nodup_append, List.nodup_cons] at hnodup
  obtain ⟨-, ⟨he, -⟩, hdisj⟩ := hnodup
  refine ⟨fun x hx => ?_, fun x hx => ?_⟩
  · rcases List.mem_cons.mp hx with rfl | hx
    · rw [hd.kept x.1 he]
      simp only [Map.get_erase, if_true]
    · exact hd.gone x.1 (List.mem_map_of_mem hx)
  · have hne : ∀ y ∈ e :: rest, x.1 ≠ y.1 := fun y hy =>
      hdisj x.1 (List.mem_map_of_mem hx) y.1 (List.mem_map_of_mem hy)
    have hnot : x.1 ∉ rest.map Prod.fst := by
      intro hmem
      obtain ⟨y, hy, hyx⟩ := List.mem_map.mp hmem
      exact hne y (List.mem_cons_of_mem _ hy) hyx.symm
    rw [hd.kept x.1 hnot]
    simp only [Map.get_erase, if_neg (hne e (by simp)), hm]
    exact hp.entry x (by simp [hx])

/-- The blocks to mark are marked with their own data when the invalid blocks with their ids had it
and the blocks behind the first that follows were marked before. -/
theorem invalid_of_markedBefore {B : Set Block} {m : Node} (hinj : Set.InjOn (getBlockHash E) B)
    (hmain : ∀ bei ∈ n.blocks, bei.bl ∈ B) (halt : ∀ x ∈ done ++ e :: rest, x.2.bl ∈ B)
    (hp : Passed E n (done ++ e :: rest)) (hm : MarksOf E (mainAnd n (e :: rest.take 1)) n m)
    (hmarked : ∀ x ∈ e :: rest.take 1, (m.invalidBlocks.get x.1).isSome = true)
    (h : MarkedBefore n e rest) (x : Hash × BlockExtendedInfo) (hx : x ∈ e :: rest) :
    ∃ bei, m.invalidBlocks.get x.1 = some bei ∧ bei.bl = x.2.bl := by
  have hmem : ∀ y ∈ e :: rest, y ∈ done ++ e :: rest := fun y hy => List.mem_append_right _ hy
  have hsome : (m.invalidBlocks.get x.1).isSome = true := by
    rw [← List.take_append_drop 1 rest, ← List.cons_append, List.mem_append] at hx
    rcases hx with hx | hx
    · exact hmarked x hx
    · obtain ⟨bei, hbei⟩ := Option.isSome_iff_exists.mp (h.marked x hx)
      rw [hm.stay x.1 bei hbei]
      rfl
  obtain ⟨bei, hbei⟩ := Option.isSome_iff_exists.mp hsome
  refine ⟨bei, hbei, ?_⟩
  rcases hm.new x.1 bei hbei with hold | ⟨hbl, hid⟩
  · exact h.own x hx bei hold
  · have hB : bei.bl ∈ B := by
      rcases hbl with ⟨b, hb, hbl⟩ | ⟨y, hy, hbl⟩
      · exact hbl ▸ hmain b hb
      · refine hbl ▸ halt y (hmem y ?_)
        rcases List.mem_cons.mp hy with rfl | hy
        · exact List.mem_cons_self
        · exact List.mem_cons_of_mem _ (List.mem_of_mem_take hy)
    exact hinj hB (halt x (hmem x hx)) (hid.trans (hp.id x (hmem x hx)))

/-- When the later blocks are not on the main chain, only those that were marked before are. -/
theorem markedBefore_of_invalid {m : Node} (hp : Passed E n (done ++ e :: rest))
    (hm : MarksOf E (mainAnd n (e :: rest.take 1)) n m)
    (hoff : ∀ x ∈ rest.drop 1, ∀ bei ∈ n.blocks, getBlockHash E bei.bl ≠ x.1)
    (h : ∀ x ∈ e :: rest, ∃ bei, m.invalidBlocks.get x.1 = some bei ∧ bei.bl = x.2.bl) :
    MarkedBefore n e rest := by
  have hnodup : ((e :: rest).map Prod.fst).Nodup := by
    have := hp.nodup
    rw [List.map_append] at this
    exact this.of_append_right
  rw [← List.take_append_drop 1 rest, ← List.cons_append, List.map_append, List.nodup_append] at hnodup
  refine ⟨fun x hx bei hbei => ?_, fun x hx => ?_⟩
  · obtain ⟨bei', hget, hbl⟩ := h x hx
    obtain rfl := Option.some.inj ((hm.stay x.1 bei hbei).symm.trans hget)
    exact hbl
  · obtain ⟨bei, hget, -⟩ := h x (List.mem_cons_of_mem _ (List.mem_of_mem_drop hx))
    rcases hm.new x.1 bei hget with hold | ⟨hbl, hid⟩
    · rw [hold]
      rfl
    · exfalso
      rcases hbl with ⟨b, hb, hbl⟩ | ⟨y, hy, hbl⟩
      · exact hoff x hx b hb (hbl ▸ hid)
      · have hy' : y ∈ done ++ e :: rest := by
          refine List.mem_append_right _ ?_
          rcases List.mem_cons.mp hy with rfl | hy
          · exact List.mem_cons_self
          · exact List.mem_cons_of_mem _ (List.mem_of_mem_take hy)
        refine hnodup.2.2 y.1 (List.mem_map_of_mem hy) x.1 (List.mem_map_of_mem hx) ?_
        rw [hp.id y hy', hbl, hid]

end Refused

/-- A switch that refuses a block cleans up after it when no more than one block follows that was not
marked before, and, as far as the blocks behind are off the main chain, only then. -/
theorem cleanedUp_iff_markedBefore (E : Env) (now : ℕ) (B : Set Block)
    (handle : Node → Block → Option (Bool × Node)) (n : Node) (done rest : AltChain)
    (e : Hash × BlockExtendedInfo) (hinj : Set.InjOn (getBlockHash E) B)
    (hmain : ∀ bei ∈ n.blocks, bei.bl ∈ B) (halt : ∀ x ∈ done ++ e :: rest, x.2.bl ∈ B)
    (hp : Passed E n (done ++ e :: rest))
    (hr : RefusedAt E now n (splitHeight (done ++ e :: rest)) done e) :
    ∃ n', switchToAlternativeBlockchain E now handle n (done ++ e :: rest) = some (false, n') ∧
      (MarkedBefore n e rest → CleanedUp done e rest n') ∧
      ((∀ x ∈ rest.drop 1, ∀ bei ∈ n.blocks, getBlockHash E bei.bl ≠ x.1) →
        CleanedUp done e rest n' → MarkedBefore n e rest) := by
  obtain ⟨m, hswitch, hm, he⟩ := switch_refused handle hp hr
  obtain ⟨hgone, hkept⟩ := orphanRest_gone hp hm.alternativeChains
  obtain ⟨m', hm', hmarked, hinvalid⟩ := orphanRest_marks hp hm he
  refine ⟨_, hswitch, fun h => ⟨fun x hx => ?_, hgone, hkept⟩, fun hoff h => ?_⟩
  · rw [hinvalid]
    exact invalid_of_markedBefore hinj hmain halt hp hm' hmarked h x hx
  · have hall := h.invalid
    rw [hinvalid] at hall
    exact markedBefore_of_invalid hp hm' hoff hall

/-- A branch of three blocks on `blocks`; the block at the height `bad` pays too much. -/
def overpaidFork (E : Env) (blocks : List BlockExtendedInfo) (bad : ℕ) : List Block :=
  let fee (h : ℕ) : UInt64 := if h = bad then 1 else 0
  let put (blocks : List BlockExtendedInfo) (b : Block) : List BlockExtendedInfo :=
    let coins := generatedCoins blocks
    blocks ++ [⟨b, blocks.length, 0, 0, coins + getBaseBlockReward coins, 0, 0⟩]
  let b₁ := sampleBlock E blocks 1 [] (fee 1) sampleKey
  let b₂ := sampleBlock E (put blocks b₁) 1 [] (fee 2) sampleKey
  [b₁, b₂, sampleBlock E (put (put blocks b₁) b₂) 1 [] (fee 3) sampleKey]

/-- The chain of a node that came up and took two blocks, and the branch with which a third block of
a fork makes it switch. -/
def switchedFork (bad : ℕ) : Option (Node × AltChain) :=
  (initNode sampleEnv 0 ∅).bind fun n₀ => (grow sampleEnv 2 n₀).bind fun m =>
    let l := overpaidFork sampleEnv n₀.blocks bad
    (run sampleEnv m ((l.take 2).map fun b => .block 0 2 b)).bind fun n =>
      (l[2]?).bind fun b => (altChainOf n.alternativeChains b.prevId).bind fun altChain =>
        (attach sampleEnv n b.prevId altChain).bind fun a =>
          match addAlternativeBlock sampleEnv {} n b a with
          | .error _ => none
          | .ok (altChain, n) => some (n, altChain)

theorem passed_of_switchedFork {bad : ℕ} {p : Node × AltChain} (h : switchedFork bad = some p) :
    Passed sampleEnv p.1 p.2 := by
  obtain ⟨n₀, hinit, h⟩ := Option.bind_eq_some_iff.mp h
  obtain ⟨m, hgrow, h⟩ := Option.bind_eq_some_iff.mp h
  obtain ⟨n, hrun, h⟩ := Option.bind_eq_some_iff.mp h
  obtain ⟨b, -, h⟩ := Option.bind_eq_some_iff.mp h
  obtain ⟨l, hchain, h⟩ := Option.bind_eq_some_iff.mp h
  obtain ⟨a, ha, h⟩ := Option.bind_eq_some_iff.mp h
  obtain ⟨events, hevents, -⟩ := growBy_run hgrow
  have hreach : Reachable sampleEnv ∅ n := Reachable.run ⟨0, n₀, _, hinit, hevents⟩ hrun
  split at h
  · cases h
  · rename_i l' n₁ hadd
    obtain rfl := Option.some.inj h
    exact passed_of_addAlternativeBlock hreach ((attach_effect ha).1 ▸ hchain) hadd

/-- What makes a block the first that is refused, as a test. -/
def isRefusedAt (E : Env) (now : ℕ) (n : Node) (s : ℕ) (done : AltChain)
    (e : Hash × BlockExtendedInfo) : Bool :=
  decide (s < n.blocks.length) &&
    match popBlocks E now s (n.blocks.length - s) n [] with
    | .error _ => false
    | .ok (_, n₀) =>
        match connectedAll E now done n₀ with
        | none => false
        | some n₁ => !connects E now n₁ e.2.bl

theorem refusedAt_of_isRefusedAt {E : Env} {now s : ℕ} {n : Node} {done : AltChain}
    {e : Hash × BlockExtendedInfo} (h : isRefusedAt E now n s done e = true) :
    RefusedAt E now n s done e := by
  simp only [isRefusedAt, Bool.and_eq_true, decide_eq_true_eq] at h
  obtain ⟨hlt, h⟩ := h
  refine ⟨hlt, ?_⟩
  split at h
  · cases h
  · rename_i popped n₀ hpop
    split at h
    · cases h
    · rename_i n₁ hcon
      exact ⟨popped, n₀, n₁, hpop, hcon, by simpa using h⟩

theorem split_of_getElem? {l : AltChain} {k : ℕ} {e : Hash × BlockExtendedInfo} (h : l[k]? = some e) :
    l = l.take k ++ e :: l.drop (k + 1) := by
  obtain ⟨hlt, rfl⟩ := List.getElem?_eq_some_iff.mp h
  exact take_cons_drop hlt

/-- The second of three blocks is refused, and the one behind it is marked with it. -/
theorem cleanedUp_sample : ∃ n n' done e rest, rest.length = 1 ∧
    switchToAlternativeBlockchain sampleEnv 0 (fun _ _ => none) n (done ++ e :: rest) =
      some (false, n') ∧ CleanedUp done e rest n' := by
  have hdec : ((switchedFork 2).bind fun p => (p.2[1]?).map fun e =>
      isRefusedAt sampleEnv 0 p.1 (splitHeight p.2) (p.2.take 1) e && decide ((p.2.drop 2).length = 1) &&
        decide (((p.1.blocks.map (·.bl) ++ p.2.map (·.2.bl)).map (getBlockHash sampleEnv)).Nodup) &&
        decide (∀ y ∈ p.2, p.1.invalidBlocks.get y.1 = none)) = some true := by decide +kernel
  obtain ⟨p, hfork, h⟩ := Option.bind_eq_some_iff.mp hdec
  obtain ⟨e, he, h⟩ := Option.map_eq_some_iff.mp h
  have hpassed := passed_of_switchedFork hfork
  obtain ⟨n, l⟩ := p
  simp only [Bool.and_eq_true, decide_eq_true_eq] at h he hpassed
  obtain ⟨⟨⟨hr, hlen⟩, hnodup⟩, hnone⟩ := h
  have hl := split_of_getElem? he
  have hmem : ∀ y ∈ e :: l.drop 2, y ∈ l := by
    intro y hy
    rw [hl]
    exact List.mem_append_right _ hy
  have hrefused := refusedAt_of_isRefusedAt hr
  let B : Set Block := { b | b ∈ n.blocks.map (·.bl) ++ l.map (·.2.bl) }
  obtain ⟨n', hswitch, hclean, -⟩ := cleanedUp_iff_markedBefore sampleEnv 0 B (fun _ _ => none) n
    (l.take 1) (l.drop 2) e (List.inj_on_of_nodup_map hnodup)
    (fun bei hbei => List.mem_append_left _ (List.mem_map_of_mem hbei))
    (fun y hy => List.mem_append_right _ (List.mem_map_of_mem (hl ▸ hy)))
    (hl ▸ hpassed) (hl ▸ hrefused)
  refine ⟨n, n', l.take 1, e, l.drop 2, hlen, hswitch, hclean ⟨fun y hy bei hbei => ?_, fun y hy => ?_⟩⟩
  · rw [hnone y (hmem y hy)] at hbei
    cases hbei
  · rw [List.drop_of_length_le hlen.le] at hy
    cases hy

/-- The first of three blocks is refused: the last one is gone without a mark. -/
theorem last_block_unmarked : ¬∀ (E : Env) (now : ℕ) (handle : Node → Block → Option (Bool × Node))
    (n : Node) (done rest : AltChain) (e : Hash × BlockExtendedInfo),
    Passed E n (done ++ e :: rest) →
    RefusedAt E now n (splitHeight (done ++ e :: rest)) done e →
    ∃ n', switchToAlternativeBlockchain E now handle n (done ++ e :: rest) = some (false, n') ∧
      CleanedUp done e rest n' := by
  intro hall
  have hdec : ((switchedFork 1).bind fun p => (p.2[0]?).bind fun e => (p.2[2]?).bind fun y =>
      (switchToAlternativeBlockchain sampleEnv 0 (fun _ _ => none) p.1 p.2).map fun r =>
        isRefusedAt sampleEnv 0 p.1 (splitHeight p.2) (p.2.take 0) e && (r.2.invalidBlocks.get y.1).isNone) = some true := by decide +kernel
  obtain ⟨p, hfork, h⟩ := Option.bind_eq_some_iff.mp hdec
  obtain ⟨e, he, h⟩ := Option.bind_eq_some_iff.mp h
  obtain ⟨y, hy, h⟩ := Option.bind_eq_some_iff.mp h
  obtain ⟨r, hr, h⟩ := Option.map_eq_some_iff.mp h
  have hpassed := passed_of_switchedFork hfork
  obtain ⟨n, l⟩ := p
  simp only [Bool.and_eq_true] at h he hy hr hpassed
  obtain ⟨hrefused, hnone⟩ := h
  have hl := split_of_getElem? he
  have hat := refusedAt_of_isRefusedAt hrefused
  obtain ⟨n', hswitch, hclean⟩ := hall sampleEnv 0 (fun _ _ => none) n (l.take 0) (l.drop 1) e
    (hl ▸ hpassed) (hl ▸ hat)
  rw [← hl, hr] at hswitch
  obtain rfl := Option.some.inj hswitch
  have hmem : y ∈ l.drop 1 := by
    refine List.mem_of_getElem? (i := 1) ?_
    rw [List.getElem?_drop]
    exact hy
  obtain ⟨bei, hget, -⟩ := hclean.invalid y (List.mem_cons_of_mem _ hmem)
  simp [hget] at hnone

end Boolberry
