import Boolberry.Finality
import Boolberry.SwitchCleanup

/-!
# Where blocks are

Every block a node keeps is on the main chain, among the alternative blocks or
among the invalid ones, and the parent of an alternative block has a place as well.
A switch moves blocks between the first two and keeps this. Two calls look at single
entries only and may leave a block without its parent: a switch that is refused
erases the refused block and what is behind it on its own branch, and pruning
erases by height.
-/

namespace Boolberry
open KeyValue

/-- The main chain, the alternative blocks and the invalid blocks have no id in common. -/
structure Apart (E : Env) (n : Node) : Prop where
  mainAlt : ∀ id ∈ blockIds E n.blocks, n.alternativeChains.get id = none
  mainInvalid : ∀ id ∈ blockIds E n.blocks, n.invalidBlocks.get id = none
  altInvalid : ∀ id bei, n.alternativeChains.get id = some bei → n.invalidBlocks.get id = none

/-- The block `id` is on the main chain or among the alternative blocks. -/
def Stored (E : Env) (n : Node) (id : Hash) : Prop :=
  id ∈ blockIds E n.blocks ∨ (n.alternativeChains.get id).isSome = true

/-- Each block is in one place, and the parent of every alternative block is stored. -/
structure Housed (E : Env) (n : Node) : Prop extends Apart E n where
  stored : ∀ id bei, n.alternativeChains.get id = some bei → Stored E n bei.bl.prevId

/-- An alternative block that is not one of `l` follows one of `l`. -/
def Hangs (n : Node) (l : AltChain) : Prop :=
  ∃ id bei, n.alternativeChains.get id = some bei ∧ id ∉ l.map Prod.fst ∧
    bei.bl.prevId ∈ l.map Prod.fst

namespace Housed

variable {E : Env} {n n' : Node}

theorem frame (h : Housed E n) (hb : blockIds E n'.blocks = blockIds E n.blocks)
    (ha : n'.alternativeChains = n.alternativeChains)
    (hi : ∀ id, Stored E n id → n'.invalidBlocks.get id = n.invalidBlocks.get id) : Housed E n' := by
  refine ⟨⟨fun id hid => ?_, fun id hid => ?_, fun id bei hget => ?_⟩, fun id bei hget => ?_⟩
  · rw [hb] at hid
    rw [ha]
    exact h.mainAlt id hid
  · rw [hb] at hid
    rw [hi id (.inl hid)]
    exact h.mainInvalid id hid
  · rw [ha] at hget
    rw [hi id (.inr (by rw [hget]; rfl))]
    exact h.altInvalid id bei hget
  · rw [ha] at hget
    have := h.stored id bei hget
    rwa [Stored, hb, ha]

theorem putOnTop (h : Housed E n) {bei : BlockExtendedInfo} (hb : n'.blocks = n.blocks ++ [bei])
    (ha : n'.alternativeChains = n.alternativeChains) (hi : n'.invalidBlocks = n.invalidBlocks)
    (halt : n.alternativeChains.get (getBlockHash E bei.bl) = none)
    (hinvalid : n.invalidBlocks.get (getBlockHash E bei.bl) = none) : Housed E n' := by
  have hids : ∀ id, id ∈ blockIds E n'.blocks ↔
      id ∈ blockIds E n.blocks ∨ id = getBlockHash E bei.bl := by
    intro id
    rw [hb, blockIds_append, List.mem_append]
    simp [blockIds]
  refine ⟨⟨fun id hid => ?_, fun id hid => ?_, fun id bei' hget => ?_⟩, fun id bei' hget => ?_⟩
  · rw [ha]
    rcases (hids id).mp hid with hid | rfl
    · exact h.mainAlt id hid
    · exact halt
  · rw [hi]
    rcases (hids id).mp hid with hid | rfl
    · exact h.mainInvalid id hid
    · exact hinvalid
  · rw [ha] at hget
    rw [hi]
    exact h.altInvalid id bei' hget
  · rw [ha] at hget
    rcases h.stored id bei' hget with hmain | halt
    · exact .inl ((hids _).mpr (.inl hmain))
    · rw [← ha] at halt
      exact .inr halt

theorem putAside (h : Housed E n) {id : Hash} {bei : BlockExtendedInfo} (hb : n'.blocks = n.blocks)
    (ha : n'.alternativeChains = n.alternativeChains.set id bei)
    (hi : n'.invalidBlocks = n.invalidBlocks) (hmain : id ∉ blockIds E n.blocks)
    (hinvalid : n.invalidBlocks.get id = none) (hp : Stored E n bei.bl.prevId) : Housed E n' := by
  have hstored : ∀ id', Stored E n id' → Stored E n' id' := by
    rintro id' (hmain | halt)
    · exact .inl (by rwa [hb])
    · refine .inr ?_
      rw [ha, Map.get_set]
      split_ifs
      · rfl
      · exact halt
  refine ⟨⟨fun id' hid => ?_, fun id' hid => ?_, fun id' bei' hget => ?_⟩, fun id' bei' hget => ?_⟩
  · rw [hb] at hid
    rw [ha, Map.get_set_of_ne]
    · exact h.mainAlt id' hid
    · rintro rfl
      exact hmain hid
  · rw [hb] at hid
    rw [hi]
    exact h.mainInvalid id' hid
  · rw [ha, Map.get_set] at hget
    rw [hi]
    split_ifs at hget with heq
    · rwa [heq]
    · exact h.altInvalid id' bei' hget
  · rw [ha, Map.get_set] at hget
    split_ifs at hget
    · obtain rfl := Option.some.inj hget
      exact hstored _ hp
    · exact hstored _ (h.stored id' bei' hget)

/-- Dropping blocks of a branch keeps every parent exactly when nothing else hangs on them. -/
theorem dropped_iff (h : Housed E n) {l : AltChain}
    (hl : ∀ x ∈ l, n.alternativeChains.get x.1 = some x.2) (hd : Dropped l n n')
    (hb : blockIds E n'.blocks = blockIds E n.blocks) : Housed E n' ↔ ¬Hangs n l := by
  have hmem : ∀ id ∈ l.map Prod.fst, (n.alternativeChains.get id).isSome = true := by
    intro id hid
    obtain ⟨x, hx, rfl⟩ := List.mem_map.mp hid
    rw [hl x hx]
    rfl
  have hoff : ∀ id ∈ blockIds E n.blocks, id ∉ l.map Prod.fst := by
    intro id hid hin
    have hsome := hmem id hin
    rw [h.mainAlt id hid] at hsome
    cases hsome
  constructor
  · rintro h' ⟨id, bei, hget, hnot, hin⟩
    rw [← hd.kept id hnot] at hget
    rcases h'.stored id bei hget with hmain | halt
    · rw [hb] at hmain
      exact hoff _ hmain hin
    · rw [hd.gone _ hin] at halt
      cases halt
  · intro hno
    have hkept : ∀ id bei, n'.alternativeChains.get id = some bei →
        id ∉ l.map Prod.fst ∧ n.alternativeChains.get id = some bei := by
      intro id bei hget
      have hnot : id ∉ l.map Prod.fst := fun hin => by
        rw [hd.gone id hin] at hget
        cases hget
      rw [hd.kept id hnot] at hget
      exact ⟨hnot, hget⟩
    refine ⟨⟨fun id hid => ?_, fun id hid => ?_, fun id bei hget => ?_⟩, fun id bei hget => ?_⟩
    · rw [hb] at hid
      rw [hd.kept id (hoff id hid)]
      exact h.mainAlt id hid
    · rw [hb] at hid
      rw [hd.invalid id (hoff id hid)]
      exact h.mainInvalid id hid
    · obtain ⟨hnot, hget⟩ := hkept id bei hget
      rw [hd.invalid id hnot]
      exact h.altInvalid id bei hget
    · obtain ⟨hnot, hget⟩ := hkept id bei hget
      have hparent : bei.bl.prevId ∉ l.map Prod.fst := fun hin => hno ⟨id, bei, hget, hnot, hin⟩
      rcases h.stored id bei hget with hmain | halt
      · exact .inl (by rwa [hb])
      · rw [← hd.kept _ hparent] at halt
        exact .inr halt

/-- The blocks of a branch and those of the main chain above the height `s` change places. -/
theorem exchanged (h : Housed E n) {l : AltChain} {s : ℕ} (hnodup : (blockIds E n.blocks).Nodup)
    (hl : ∀ x ∈ l, n.alternativeChains.get x.1 = some x.2)
    (hb : blockIds E n'.blocks = (blockIds E n.blocks).take s ++ l.map Prod.fst)
    (ha : ∀ id, (n'.alternativeChains.get id).isSome = true ↔ id ∉ l.map Prod.fst ∧
      ((n.alternativeChains.get id).isSome = true ∨ id ∈ (blockIds E n.blocks).drop s))
    (hnew : ∀ id bei, n'.alternativeChains.get id = some bei →
      n.alternativeChains.get id = some bei ∨ Stored E n bei.bl.prevId)
    (hi : n'.invalidBlocks = n.invalidBlocks) : Housed E n' := by
  have hsplit : ∀ id, id ∈ blockIds E n.blocks ↔
      id ∈ (blockIds E n.blocks).take s ∨ id ∈ (blockIds E n.blocks).drop s := by
    intro id
    rw [← List.mem_append, List.take_append_drop]
  have hbranch : ∀ id ∈ l.map Prod.fst, ∃ bei, n.alternativeChains.get id = some bei := by
    intro id hid
    obtain ⟨x, hx, rfl⟩ := List.mem_map.mp hid
    exact ⟨x.2, hl x hx⟩
  have hoff : ∀ id ∈ blockIds E n.blocks, id ∉ l.map Prod.fst := by
    intro id hid hin
    obtain ⟨bei, hget⟩ := hbranch id hin
    rw [h.mainAlt id hid] at hget
    cases hget
  -- what was stored is still stored
  have hstored : ∀ id, Stored E n id → Stored E n' id := by
    intro id hid
    by_cases hin : id ∈ l.map Prod.fst
    · refine .inl ?_
      rw [hb]
      exact List.mem_append_right _ hin
    rcases hid with hmain | halt
    · rcases (hsplit id).mp hmain with htake | hdrop
      · refine .inl ?_
        rw [hb]
        exact List.mem_append_left _ htake
      · exact .inr ((ha id).mpr ⟨hin, .inr hdrop⟩)
    · exact .inr ((ha id).mpr ⟨hin, .inl halt⟩)
  refine ⟨⟨fun id hid => ?_, fun id hid => ?_, fun id bei hget => ?_⟩, fun id bei hget => ?_⟩
  · rw [hb, List.mem_append] at hid
    have hnone : ¬(n'.alternativeChains.get id).isSome = true := by
      rw [ha]
      rintro ⟨hnot, hsome⟩
      have htake := hid.resolve_right hnot
      rcases hsome with hsome | hdrop
      · rw [h.mainAlt id ((hsplit id).mpr (.inl htake))] at hsome
        cases hsome
      · exact List.disjoint_take_drop hnodup le_rfl htake hdrop
    simpa using hnone
  · rw [hb, List.mem_append] at hid
    rw [hi]
    rcases hid with htake | hin
    · exact h.mainInvalid id ((hsplit id).mpr (.inl htake))
    · obtain ⟨bei, hget⟩ := hbranch id hin
      exact h.altInvalid id bei hget
  · have hsome : (n'.alternativeChains.get id).isSome = true := by rw [hget]; rfl
    rw [hi]
    rcases ((ha id).mp hsome).2 with halt | hdrop
    · obtain ⟨bei', hget'⟩ := Option.isSome_iff_exists.mp halt
      exact h.altInvalid id bei' hget'
    · exact h.mainInvalid id ((hsplit id).mpr (.inr hdrop))
  · rcases hnew id bei hget with hold | hparent
    · exact hstored _ (h.stored id bei hold)
    · exact hstored _ hparent

end Housed

section Chain

variable {E : Env} {cps : Checkpoints} {B : Set Block} {now : ℕ} {n n' : Node}

theorem Lined.mem_blockIds (h : Lined E cps B n) (id : Hash) :
    id ∈ blockIds E n.blocks ↔ (n.blocksIndex.get id).isSome = true := by
  obtain ⟨F, chain, -, ⟨t, hv⟩, hrep⟩ := h.inv
  rw [hrep.blocksIndex, hrep.blocks, Option.isSome_iff_exists, blockIds]
  simp only [blocksIndexOf_get hv, List.mem_map]
  constructor
  · rintro ⟨bei, hmem, hid⟩
    obtain ⟨k, hk⟩ := List.mem_iff_getElem?.mp hmem
    exact ⟨k, bei, hk, hid⟩
  · rintro ⟨k, bei, hk, hid⟩
    exact ⟨bei, List.mem_of_getElem? hk, hid⟩

theorem Lined.nodup_blockIds (h : Lined E cps B n) : (blockIds E n.blocks).Nodup := by
  obtain ⟨F, chain, -, ⟨t, hv⟩, hrep⟩ := h.inv
  rw [hrep.blocks]
  exact blockIds_nodup hv

theorem Line.prevId_mem {rs : List BlockExtendedInfo} {k : ℕ} {bei : BlockExtendedInfo}
    (h : Line E B rs) (hk : rs[k]? = some bei) (hpos : 1 ≤ k) : bei.bl.prevId ∈ blockIds E rs := by
  have hlt := (List.getElem?_eq_some_iff.mp hk).1
  obtain ⟨p, hp⟩ : ∃ p, rs[k - 1]? = some p := ⟨_, List.getElem?_eq_getElem (by omega)⟩
  have hne : rs.take k ≠ [] := by
    rw [ne_eq, List.take_eq_nil_iff]
    rintro (h0 | rfl)
    · omega
    · simp at hk
  have hprev := ((h.upTo hk).of_append_singleton hne).2.2.1
  have htop := (getTopBlockId_take (E := E) hp).1
  rw [Nat.sub_add_cancel hpos] at htop
  rw [hprev, htop]
  exact List.mem_map_of_mem (List.mem_of_getElem? hp)

theorem handleBlockToMainChain_blocks {bvc : BlockVerificationContext} {bl : Block}
    (h : (handleBlockToMainChain E now bvc n bl).1 = true) : ∃ bei : BlockExtendedInfo, bei.bl = bl ∧
      (handleBlockToMainChain E now bvc n bl).2.2.blocks = n.blocks ++ [bei] := by
  obtain ⟨-, ⟨hfalse, -⟩ | ⟨-, hput⟩⟩ := handleBlockToMainChain_effect E now bvc n bl
  · rw [hfalse] at h
    cases h
  · obtain ⟨bei, hbl, -, hblocks⟩ := hput.blocks
    exact ⟨bei, hbl, hblocks⟩

theorem Lined.connectedAll (h : Lined E cps B n) {l : AltChain} (hl : ∀ x ∈ l, x.2.bl ∈ B)
    (hc : connectedAll E now l n = some n') : Lined E cps B n' ∧ ∃ recs : List BlockExtendedInfo,
      n'.blocks = n.blocks ++ recs ∧ recs.map (·.bl) = l.map (·.2.bl) := by
  induction l generalizing n with
  | nil =>
    obtain rfl := Option.some.inj hc
    exact ⟨h, [], by simp, rfl⟩
  | cons x l ih =>
    unfold Boolberry.connectedAll at hc
    split_ifs at hc with hx
    simp only [connects, Bool.and_eq_true] at hx
    obtain ⟨bei, hbl, hblocks⟩ := handleBlockToMainChain_blocks hx.1
    obtain ⟨h', recs, hrecs, hbls⟩ :=
      ih (h.push now (hl x (by simp)) {}) (fun y hy => hl y (List.mem_cons_of_mem _ hy)) hc
    refine ⟨h', bei :: recs, ?_, ?_⟩
    · rw [hrecs, hblocks, List.append_assoc]
      rfl
    · rw [List.map_cons, List.map_cons, hbls, hbl]

theorem returnOriginalChain_blocks {l : List Block} (h : (returnOriginalChain E now l n).1 = true) :
    ∃ recs : List BlockExtendedInfo, recs.map (·.bl) = l ∧
      (returnOriginalChain E now l n).2.blocks = n.blocks ++ recs := by
  induction l generalizing n with
  | nil => exact ⟨[], rfl, by simp [returnOriginalChain]⟩
  | cons bl l ih =>
    unfold returnOriginalChain at h ⊢
    simp only at h ⊢
    split_ifs at h ⊢ with hpush
    simp only [Bool.and_eq_true] at hpush
    obtain ⟨bei, hbl, hblocks⟩ := handleBlockToMainChain_blocks hpush.1
    obtain ⟨recs, hbls, hrecs⟩ := ih h
    refine ⟨bei :: recs, by rw [List.map_cons, hbl, hbls], ?_⟩
    rw [hrecs, hblocks, List.append_assoc]
    rfl

/-- A rollback that succeeds puts the blocks `l` on the chain up to the height `s`. -/
theorem Lined.rollback (h : Lined E cps B n) {s : ℕ} (hs : 1 ≤ s) (hlen : s ≤ n.blocks.length)
    {l : List Block} (hr : (rollbackBlockchainSwitching E now n l s).1 = true) :
    (rollbackBlockchainSwitching E now n l s).2.blocks.map (·.bl) =
      (n.blocks.take s).map (·.bl) ++ l := by
  have hpop := h.popBlocks now hs (n.blocks.length - s) (by omega) []
  unfold rollbackBlockchainSwitching at hr ⊢
  split at hpop
  · rename_i r hpopped
    rw [hpopped] at hr ⊢
    simp only at hr ⊢
    obtain ⟨recs, hbls, hrecs⟩ := returnOriginalChain_blocks hr
    rw [hrecs, hpop.2.1, List.map_append, hbls]
  · rename_i m hpopped
    rw [hpopped] at hr
    cases hr

/-- A rollback that succeeds puts the old chain back on the blocks it has in common with the new. -/
theorem Lined.rollback_ids (h : Lined E cps B n) {old : List BlockExtendedInfo} {s : ℕ} (hs : 1 ≤ s)
    (hle : s ≤ old.length) (hpre : old.take s <+: n.blocks)
    (hr : (rollbackBlockchainSwitching E now n ((old.drop s).map (·.bl)) s).1 = true) :
    blockIds E (rollbackBlockchainSwitching E now n ((old.drop s).map (·.bl)) s).2.blocks =
      blockIds E old := by
  have hlen : (old.take s).length = s := by
    rw [List.length_take]
    omega
  have htake : n.blocks.take s = old.take s := by
    have := List.prefix_iff_eq_take.mp hpre
    rw [hlen] at this
    exact this.symm
  have hbls := h.rollback hs (by rw [← hlen]; exact hpre.length_le) hr
  rw [htake, ← List.map_append, List.take_append_drop] at hbls
  have hids := congrArg (List.map (getBlockHash E)) hbls
  rwa [List.map_map, List.map_map] at hids

end Chain

/-- `handle_alternative_block` as a switch calls it for the old blocks. -/
def altHandler (E : Env) (now fuel : ℕ) (n : Node) (b : Block) : Option (Bool × Node) :=
  (handleAlternativeBlock E now fuel {} n b).map fun r => (r.1, r.2.2)

/-- The switch that a new block asks for: the node with the block among the alternative ones, and the
branch that ends in it. -/
def switchOf (E : Env) (n : Node) (b : Block) : Option (Node × AltChain) :=
  if haveBlock n (getBlockHash E b) || decide (b.prevId = getTopBlockId E n.blocks) ||
      n.checkpoints.isHeightPassedZone (getBlockHeight b) (n.blocks.length - 1) then none
  else
    (altChainOf n.alternativeChains b.prevId).bind fun l => (attach E n b.prevId l).bind fun a =>
      match addAlternativeBlock E {} n b a with
      | .error _ => none
      | .ok (altChain, n₁) =>
          if topDifficulty n₁.blocks < topDifficulty (altChain.map Prod.snd) then some (n₁, altChain)
          else none

/-- The switch of `n` to the branch `l` on the blocks up to the height `s` does not strand a block:
it goes through, or what it has done is undone and nothing hangs on the blocks it drops, if any. -/
inductive EndsWell (E : Env) (now : ℕ) (handle : Node → Block → Option (Bool × Node)) (n : Node)
    (s : ℕ) (l : AltChain) : Prop
  | switched {popped : List Block} {n₀ n₁ n₂ : Node} :
      popBlocks E now s (n.blocks.length - s) n [] = .ok (popped, n₀) →
      connectedAll E now l n₀ = some n₁ →
      pushOldChain handle popped n₁ = some (true, n₂) → EndsWell E now handle n s l
  | refused {popped : List Block} {n₀ n₁ : Node} {done rest : AltChain}
      {e : Hash × BlockExtendedInfo} : l = done ++ e :: rest →
      popBlocks E now s (n.blocks.length - s) n [] = .ok (popped, n₀) →
      connectedAll E now done n₀ = some n₁ → connects E now n₁ e.2.bl = false →
      (rollbackBlockchainSwitching E now (handleBlockToMainChain E now {} n₁ e.2.bl).2.2 popped s).1 =
        true →
      ¬Hangs n (e :: rest) → EndsWell E now handle n s l
  | oldRefused {bl : Block} {rest : List Block} {n₀ n₁ n₂ : Node} :
      popBlocks E now s (n.blocks.length - s) n [] = .ok (bl :: rest, n₀) →
      connectedAll E now l n₀ = some n₁ → handle n₁ bl = some (false, n₂) →
      (rollbackBlockchainSwitching E now n₂ (bl :: rest) s).1 = true → EndsWell E now handle n s l

/-- Pruning erases no alternative block and keeps one that follows it. -/
def PrunesWhole (n : Node) : Prop :=
  ∀ id bei p, n.alternativeChains.get id = some bei →
    n.alternativeChains.get bei.bl.prevId = some p →
    isAgedAltBlock n.blocks.length p = true → isAgedAltBlock n.blocks.length bei = true

/-- The event strands no alternative block. -/
def Event.StrandsNothing (E : Env) (n : Node) : Event → Prop
  | .block now fuel b => ∀ n₁ l, switchOf E n b = some (n₁, l) →
      EndsWell E now (altHandler E now (fuel - 1)) n₁ (splitHeight l) l
  | .pruneAltBlocks => PrunesWhole n
  | _ => True

section Switch

variable {E : Env} {cps : Checkpoints} {B : Set Block} {now : ℕ} {n n' : Node}

theorem connectedAll_connectAltChain {popped : List Block} {s : ℕ} {l : AltChain}
    (h : connectedAll E now l n = some n') : connectAltChain E now popped s l n = .ok n' := by
  induction l generalizing n with
  | nil =>
    obtain rfl := Option.some.inj h
    rfl
  | cons x l ih =>
    unfold connectedAll at h
    split_ifs at h with hc
    rw [connectAltChain]
    exact (if_pos hc).trans (ih h)

theorem eraseAltChain_get (n : Node) (l : AltChain) (id : Hash) :
    (eraseAltChain n l).alternativeChains.get id =
      if id ∈ l.map Prod.fst then none else n.alternativeChains.get id := by
  rw [← Map.get_eraseAll, Map.eraseAll, List.foldl_map]
  rfl

theorem Lined.not_heavier (hinj : Set.InjOn (getBlockHash E) B) (h : Lined E cps B n) {b : Block} (hb : b ∈ B)
    (hlight : ∀ rs bei, Line E B (rs ++ [bei]) → bei.bl = b →
      bei.cumulativeDifficulty ≤ topDifficulty n.blocks) {a : Attachment} {altChain : AltChain}
    (ht : TakenOn E n b a altChain n') :
    ¬topDifficulty n'.blocks < topDifficulty (altChain.map Prod.snd) := by
  obtain ⟨bei, rfl, htaken, -, -⟩ :=
    ht.takenAs hinj h.checkpoints h.line h.alts (fun k hk => h.index hk) hb
  intro hheavy
  rw [List.map_append, List.map_singleton, topDifficulty_append_singleton, htaken.blocks] at hheavy
  have hline := (htaken.heavier hheavy).line
  rw [← List.append_assoc] at hline
  exact absurd hheavy (BitVec.not_lt.mpr (hlight _ bei hline htaken.bl))

/-- A block no heavier than the main chain goes to the alternative blocks or leaves all as it is. -/
theorem Lined.handle_light {fuel : ℕ} (hinj : Set.InjOn (getBlockHash E) B) (h : Lined E cps B n)
    {b : Block} (hb : b ∈ B) (hlight : ∀ rs bei, Line E B (rs ++ [bei]) → bei.bl = b →
      bei.cumulativeDifficulty ≤ topDifficulty n.blocks) {r : Bool × Node}
    (hr : altHandler E now fuel n b = some r) :
    r.2.blocks = n.blocks ∧ r.2.invalidBlocks = n.invalidBlocks ∧ Lined E cps B r.2 ∧
      (r.1 = false → SameSides n r.2) ∧
      (r.1 = true → Stored E n b.prevId → ∃ bei : BlockExtendedInfo, bei.bl = b ∧
        r.2.alternativeChains = n.alternativeChains.set (getBlockHash E b) bei) := by
  obtain ⟨q, hq, rfl⟩ := Option.map_eq_some_iff.mp hr
  have hlined := (lined_alt now hinj).handleAlternativeBlock h hb hq
  cases fuel with
  | zero => cases hq
  | succ fuel =>
    rcases handleAlternativeBlock_inv hq with ⟨hs, hstores, hparent⟩ | ⟨a, altChain, n₁, ht, hcase⟩
    · refine ⟨congrArg ChainStores.blocks hstores, hs.invalidBlocks, hlined, fun _ => hs,
        fun htrue hstored => ?_⟩
      obtain ⟨halt, hmain⟩ := hparent htrue
      rcases hstored with hin | hin
      · rw [h.mem_blockIds, hmain] at hin
        cases hin
      · rw [halt] at hin
        cases hin
    · obtain ⟨-, rfl⟩ := hcase.resolve_right fun hheavy => h.not_heavier hinj hb hlight ht hheavy.1
      obtain ⟨bei, rfl, htaken, -, -⟩ :=
        ht.takenAs hinj h.checkpoints h.line h.alts (fun k hk => h.index hk) hb
      refine ⟨htaken.blocks, htaken.invalid, hlined, fun hfalse => ?_, fun _ _ => ?_⟩
      · cases hfalse
      · exact ⟨bei, htaken.bl, htaken.alts⟩

/-- Each block of the list follows the one before it, the first of them the block `id`. -/
def Follow (E : Env) : Hash → List Block → Prop
  | _, [] => True
  | id, b :: l => b.prevId = id ∧ Follow E (getBlockHash E b) l

theorem Line.follow {rs : List BlockExtendedInfo} (h : Line E B rs) {s : ℕ} (hs : 1 ≤ s)
    (hlt : s ≤ rs.length) :
    Follow E (getTopBlockId E (rs.take s)) ((rs.drop s).map BlockExtendedInfo.bl) := by
  induction hk : rs.length - s generalizing s with
  | zero =>
    rw [List.drop_eq_nil_of_le (by omega)]
    trivial
  | succ k ih =>
    obtain ⟨bei, hbei⟩ : ∃ bei, rs[s]? = some bei := ⟨_, List.getElem?_eq_getElem (by omega)⟩
    have hne : rs.take s ≠ [] := by
      intro hnil
      have := congrArg List.length hnil
      rw [List.length_take, List.length_nil] at this
      omega
    rw [List.drop_eq_getElem?_toList_append, hbei]
    refine ⟨((h.upTo hbei).of_append_singleton hne).2.2.1, ?_⟩
    have hrest := ih (s := s + 1) (by omega) (by omega) (by omega)
    rwa [(getTopBlockId_take hbei).1] at hrest

/-- The loop that pushes the old chain, where none of it is heavier than the new chain: it ends with
all of it among the alternative blocks. -/
theorem Lined.pushOldChain {fuel : ℕ} (hinj : Set.InjOn (getBlockHash E) B) (h : Lined E cps B n)
    {l : List Block} {id : Hash} (hl : ∀ b ∈ l, b ∈ B) (hfollow : Follow E id l) (hid : Stored E n id)
    (hlight : ∀ b ∈ l, ∀ rs bei, Line E B (rs ++ [bei]) → bei.bl = b →
      bei.cumulativeDifficulty ≤ topDifficulty n.blocks)
    (hr : pushOldChain (altHandler E now fuel) l n = some (true, n')) :
    Lined E cps B n' ∧ n'.blocks = n.blocks ∧ n'.invalidBlocks = n.invalidBlocks ∧
      (∀ id, (n'.alternativeChains.get id).isSome = true ↔
        (n.alternativeChains.get id).isSome = true ∨ id ∈ l.map (getBlockHash E)) ∧
      ∀ id bei, n'.alternativeChains.get id = some bei →
        n.alternativeChains.get id = some bei ∨ bei.bl ∈ l := by
  induction l generalizing n id with
  | nil =>
    obtain ⟨-, rfl⟩ := Prod.mk.inj (Option.some.inj hr)
    exact ⟨h, rfl, rfl, by simp, fun _ _ hget => .inl hget⟩
  | cons b l ih =>
    obtain ⟨hprev, hfollow⟩ := hfollow
    unfold Boolberry.pushOldChain at hr
    cases hb : altHandler E now fuel n b with
    | none => simp [hb] at hr
    | some q =>
      obtain ⟨ok, n₁⟩ := q
      simp only [hb] at hr
      cases ok with
      | false => simp at hr
      | true =>
        simp only at hr
        obtain ⟨hblocks, hinvalid, h₁, -, htaken⟩ :=
          h.handle_light hinj (hl b (by simp)) (hlight b (by simp)) hb
        obtain ⟨bei, rfl, halts⟩ := htaken rfl (by rw [hprev]; exact hid)
        simp only at hblocks hinvalid h₁ halts
        have hself : Stored E n₁ (getBlockHash E bei.bl) := by
          refine .inr ?_
          rw [halts, Map.get_set_self]
          rfl
        obtain ⟨h', hb', hi', hmem, hnew⟩ := ih h₁ (fun b' hb' => hl b' (by simp [hb'])) hfollow hself
          (fun b' hb' => by
            rw [hblocks]
            exact hlight b' (by simp [hb'])) hr
        refine ⟨h', hb'.trans hblocks, hi'.trans hinvalid, fun id' => ?_, fun id' bei' hget => ?_⟩
        · rw [hmem, halts, Map.get_set, List.map_cons, List.mem_cons]
          split_ifs with heq
          · simp [heq]
          · simp [heq]
        · rcases hnew id' bei' hget with hget | hin
          · rw [halts, Map.get_set] at hget
            split_ifs at hget
            · obtain rfl := Option.some.inj hget
              exact .inr (by simp)
            · exact .inl hget
          · exact .inr (List.mem_cons_of_mem _ hin)

/-- A switch that goes through: the old blocks and the branch have changed places. -/
theorem Housed.switched {fuel : ℕ} (hinj : Set.InjOn (getBlockHash E) B) (hwork : WorkFits E B)
    (hn : Lined E cps B n) (h : Housed E n) {s : ℕ} (hs : 1 ≤ s) (hlt : s < n.blocks.length)
    {l : AltChain} (hget : ∀ x ∈ l, n.alternativeChains.get x.1 = some x.2) {n₁ n₂ : Node}
    (h₁ : Lined E cps B n₁) (hsides : SameSides n n₁) {recs : List BlockExtendedInfo}
    (hblocks : n₁.blocks = n.blocks.take s ++ recs) (hrecs : recs.map (·.bl) = l.map (·.2.bl))
    (hheavy : topDifficulty n.blocks < topDifficulty n₁.blocks)
    (hpush : Boolberry.pushOldChain (altHandler E now fuel) ((n.blocks.drop s).map (·.bl)) n₁ =
      some (true, n₂)) : Housed E (eraseAltChain n₂ l) := by
  have hold : ∀ b ∈ (n.blocks.drop s).map BlockExtendedInfo.bl,
      ∃ k bei, s ≤ k ∧ n.blocks[k]? = some bei ∧ bei.bl = b := by
    intro b hb
    obtain ⟨bei, hmem, rfl⟩ := List.mem_map.mp hb
    obtain ⟨k, hk⟩ := List.mem_iff_getElem?.mp hmem
    rw [List.getElem?_drop] at hk
    exact ⟨s + k, bei, Nat.le_add_right _ _, hk, rfl⟩
  -- the first of the old blocks follows a block that stays
  have htop : Stored E n₁ (getTopBlockId E (n.blocks.take s)) := by
    obtain ⟨p, hp⟩ : ∃ p, n.blocks[s - 1]? = some p := ⟨_, List.getElem?_eq_getElem (by omega)⟩
    have hid := (getTopBlockId_take (E := E) hp).1
    rw [Nat.sub_add_cancel hs] at hid
    refine .inl ?_
    rw [hid, hblocks, blockIds_append]
    refine List.mem_append_left _ (List.mem_map_of_mem (List.mem_of_getElem? (i := s - 1) ?_))
    rw [List.getElem?_take_of_lt (by omega)]
    exact hp
  obtain ⟨-, hb₂, hi₂, hmem₂, hnew₂⟩ := h₁.pushOldChain hinj
    (fun b hb => by
      obtain ⟨k, bei, -, hk, rfl⟩ := hold b hb
      exact hn.line.mem bei (List.mem_of_getElem? hk))
    (hn.line.follow hs hlt.le) htop
    (fun b hb => by
      obtain ⟨k, bei, -, hk, rfl⟩ := hold b hb
      exact hn.line.light hinj hwork hheavy (List.mem_map_of_mem (List.mem_of_getElem? hk)))
    hpush
  have hids : l.map Prod.fst = blockIds E recs := by
    have hmap : blockIds E recs = (recs.map (·.bl)).map (getBlockHash E) := by
      rw [List.map_map]
      rfl
    rw [hmap, hrecs, List.map_map]
    exact List.map_congr_left fun x hx => (hn.alts x.1 x.2 (hget x hx)).1
  have hdrop : ((n.blocks.drop s).map BlockExtendedInfo.bl).map (getBlockHash E) =
      (blockIds E n.blocks).drop s := by
    rw [List.map_map, blockIds, ← List.map_drop]
    rfl
  refine h.exchanged hn.nodup_blockIds hget (s := s) ?_ (fun id => ?_) (fun id bei hgot => ?_) ?_
  · rw [hids]
    have hsame : (eraseAltChain n₂ l).blocks = n.blocks.take s ++ recs := hb₂.trans hblocks
    rw [hsame, blockIds_append, blockIds, List.map_take]
    rfl
  · rw [eraseAltChain_get]
    split_ifs with hin
    · simp [hin]
    · rw [hmem₂, hsides.alternativeChains, hdrop]
      simp [hin]
  · rw [eraseAltChain_get] at hgot
    split_ifs at hgot
    rcases hnew₂ id bei hgot with hgot | hin
    · rw [hsides.alternativeChains] at hgot
      exact .inl hgot
    · obtain ⟨k, rec, hle, hk, hbl⟩ := hold bei.bl hin
      refine .inr (.inl ?_)
      rw [← hbl]
      exact hn.line.prevId_mem hk (by omega)
  · exact hi₂.trans hsides.invalidBlocks

/-- A switch that is refused a block and rolled back: the block and those behind it are dropped. -/
theorem Housed.refused_iff (hn : Lined E cps B n) (h : Housed E n) {done rest : AltChain}
    {e : Hash × BlockExtendedInfo}
    (hget : ∀ x ∈ done ++ e :: rest, n.alternativeChains.get x.1 = some x.2) {n₁ : Node}
    (hsides : SameSides n n₁) {popped : List Block} {s : ℕ}
    (hroll : (rollbackBlockchainSwitching E now (handleBlockToMainChain E now {} n₁ e.2.bl).2.2 popped
      s).1 = true)
    (hids : blockIds E (rollbackBlockchainSwitching E now
      (handleBlockToMainChain E now {} n₁ e.2.bl).2.2 popped s).2.blocks = blockIds E n.blocks)
    {m : Node} (hm : m = addBlockAsInvalid (rollbackBlockchainSwitching E now
      (handleBlockToMainChain E now {} n₁ e.2.bl).2.2 popped s).2 e.2 (getBlockHash E e.2.bl)) :
    Housed E (orphanRest { m with alternativeChains := m.alternativeChains.erase e.1 } rest) ↔
      ¬Hangs n (e :: rest) := by
  have hrest : ∀ x ∈ e :: rest, n.alternativeChains.get x.1 = some x.2 := fun x hx =>
    hget x (List.mem_append_right _ hx)
  have hid : getBlockHash E e.2.bl = e.1 := (hn.alts e.1 e.2 (hrest e (by simp))).1.symm
  have hmarks := handleBlockToMainChain_marks E now {} n₁ e.2.bl
  have halts := (handleBlockToMainChain_effect E now {} n₁ e.2.bl).1.alternativeChains
  have hback := rollbackBlockchainSwitching_sides hroll
  rw [hid] at hm hmarks
  subst hm
  refine h.dropped_iff hrest (Dropped.refused e rest ?_ fun id hne => ?_) ?_
  · rw [hback.alternativeChains, halts, hsides.alternativeChains]
  · rw [hback.invalidBlocks, hmarks.other id hne, hsides.invalidBlocks]
  · rw [← hids]
    have hfew := ((Fewer.addBlockAsInvalid (rollbackBlockchainSwitching E now
      (handleBlockToMainChain E now {} n₁ e.2.bl).2.2 popped s).2 e.2 e.1).trans (.erase _ e.1)).trans
      (.orphanRest _ rest)
    rw [hfew.same.blocks]

theorem Heavier.front_height {a : Attachment} {bei : BlockExtendedInfo} (hw : Heavier E cps B n a bei)
    {l : AltChain} (hl : l.map Prod.snd = a.branch ++ [bei]) {front : Hash × BlockExtendedInfo}
    (hfront : l.head? = some front) : front.2.height = a.connectionHeight := by
  have hfirst : (a.branch ++ [bei])[0]? = some front.2 := by
    rw [← hl, List.getElem?_map, ← List.head?_eq_getElem?, hfront]
    rfl
  rw [(hw.get hfirst).2, Nat.add_zero]

theorem Heavier.lt_of_connected (hinj : Set.InjOn (getBlockHash E) B) {a : Attachment} {bei : BlockExtendedInfo}
    (hw : Heavier E cps B n a bei) {blocks recs : List BlockExtendedInfo} (hline : Line E B blocks)
    (hblocks : blocks = n.blocks.take a.connectionHeight ++ recs)
    (hrecs : recs.map BlockExtendedInfo.bl = (a.branch ++ [bei]).map BlockExtendedInfo.bl) :
    topDifficulty n.blocks < topDifficulty blocks := by
  have hbls : blocks.map BlockExtendedInfo.bl =
      (n.blocks.take a.connectionHeight ++ (a.branch ++ [bei])).map BlockExtendedInfo.bl := by
    rw [hblocks, List.map_append, List.map_append, hrecs]
  rw [topDifficulty_congr (map_work_of_key (hline.key_of_blocks hinj hw.line hbls)),
    ← List.append_assoc, topDifficulty_append_singleton]
  exact hw.heavier

/-- A switch that ends well keeps every block in one place and every parent stored. -/
theorem Housed.switch {fuel : ℕ} (hinj : Set.InjOn (getBlockHash E) B) (hwork : WorkFits E B)
    (hn : Lined E cps B n) (h : Housed E n) {a : Attachment} {bei : BlockExtendedInfo}
    (hw : Heavier E cps B n a bei) {l : AltChain} (hl : l.map Prod.snd = a.branch ++ [bei])
    (hget : ∀ x ∈ l, n.alternativeChains.get x.1 = some x.2)
    (hends : EndsWell E now (altHandler E now fuel) n (splitHeight l) l) {r : Bool × Node}
    (hr : switchToAlternativeBlockchain E now (altHandler E now fuel) n l = some r) :
    Housed E r.2 := by
  have hpos := hw.pos
  have hlt := hw.lt
  have hid : ∀ x ∈ l, x.1 = getBlockHash E x.2.bl := fun x hx => (hn.alts x.1 x.2 (hget x hx)).1
  have hB : ∀ x ∈ l, x.2.bl ∈ B := fun x hx =>
    hw.line.mem x.2 (List.mem_append_right _ (hl ▸ List.mem_map_of_mem hx))
  have hmap : l.map (fun x => x.2.bl) = (a.branch ++ [bei]).map BlockExtendedInfo.bl := by
    rw [← hl, List.map_map]
    rfl
  -- the switch pops down to the connection
  obtain ⟨front, hfront⟩ : ∃ front, l.head? = some front := by
    cases l with
    | nil => simp at hl
    | cons x l => exact ⟨x, rfl⟩
  have hheight := hw.front_height hl hfront
  have hsplit : splitHeight l = a.connectionHeight := by
    rw [splitHeight, hfront]
    exact hheight
  rw [hsplit] at hends
  unfold switchToAlternativeBlockchain at hr
  simp only [hfront, hheight, if_neg (Nat.not_le.mpr hlt)] at hr
  have hpop := hn.popBlocks now hpos (n.blocks.length - a.connectionHeight) (by omega) []
  have hsides := popBlocks_sides E now a.connectionHeight (n.blocks.length - a.connectionHeight) n []
  -- the new chain has the records of the branch
  have hheavy : ∀ (m : Node) (recs : List BlockExtendedInfo), Line E B m.blocks →
      m.blocks = n.blocks.take a.connectionHeight ++ recs → recs.map (·.bl) = l.map (·.2.bl) →
      topDifficulty n.blocks < topDifficulty m.blocks :=
    fun m recs hm hblocks hrecs => hw.lt_of_connected hinj hm hblocks (hrecs.trans hmap)
  cases hends with
  | @switched popped n₀ n₁ n₂ hpopped hcon hpush =>
    rw [hpopped] at hpop hsides
    obtain ⟨h₀, hblocks₀, rfl⟩ := hpop
    rw [List.append_nil] at hpush
    simp only [hpopped, connectedAll_connectAltChain hcon, List.append_nil, hpush,
      Option.some.injEq] at hr
    rw [← hr]
    obtain ⟨h₁, recs, hblocks₁, hrecs⟩ := h₀.connectedAll hB hcon
    rw [hblocks₀] at hblocks₁
    exact h.switched hinj hwork hn hpos hlt hget h₁ (hsides.trans (connectedAll_sides hcon))
      hblocks₁ hrecs (hheavy n₁ recs h₁.line hblocks₁ hrecs) hpush
  | @refused popped n₀ n₁ done rest e hsplitl hpopped hcon hrefused hroll hno =>
    rw [hpopped] at hpop hsides
    obtain ⟨h₀, hblocks₀, rfl⟩ := hpop
    rw [List.append_nil] at hroll
    subst hsplitl
    obtain ⟨h₁, recs, hblocks₁, -⟩ :=
      h₀.connectedAll (fun x hx => hB x (List.mem_append_left _ hx)) hcon
    rw [hblocks₀] at hblocks₁
    have hnot : ¬((handleBlockToMainChain E now {} n₁ e.2.bl).1 &&
        (handleBlockToMainChain E now {} n₁ e.2.bl).2.1.addedToMainChain) = true := by
      simpa [connects] using hrefused
    simp only [hpopped, List.append_nil, connectAltChain_refused hcon hrefused] at hr
    rw [connectAltChain] at hr
    simp only [if_neg hnot, Option.some.injEq] at hr
    rw [← hr]
    refine (h.refused_iff hn hget (hsides.trans (connectedAll_sides hcon)) hroll ?_ rfl).mpr hno
    refine (h₁.push now (hB e (by simp)) {}).rollback_ids hpos hlt.le
      (prefix_push E now {} e.2.bl ?_) hroll
    rw [hblocks₁]
    exact List.prefix_append _ _
  | @oldRefused bl rest n₀ n₁ n₂ hpopped hcon hrefused hroll =>
    rw [hpopped] at hpop hsides
    obtain ⟨h₀, hblocks₀, hpopped'⟩ := hpop
    rw [List.append_nil] at hpopped'
    simp only at hpopped'
    simp only [hpopped, connectedAll_connectAltChain hcon, pushOldChain, hrefused,
      Option.some.injEq] at hr
    rw [← hr]
    obtain ⟨h₁, recs, hblocks₁, hrecs⟩ := h₀.connectedAll hB hcon
    rw [hblocks₀] at hblocks₁
    have hmem : bl ∈ n.blocks.map BlockExtendedInfo.bl := by
      have hin : bl ∈ (n.blocks.drop a.connectionHeight).map BlockExtendedInfo.bl := by
        rw [← hpopped']
        exact List.mem_cons_self
      obtain ⟨rec, hrec, rfl⟩ := List.mem_map.mp hin
      exact List.mem_map_of_mem (List.mem_of_mem_drop hrec)
    have hlight := hn.line.light hinj hwork (hheavy n₁ recs h₁.line hblocks₁ hrecs) hmem
    have hbl : bl ∈ B := by
      obtain ⟨rec, hrec, rfl⟩ := List.mem_map.mp hmem
      exact hn.line.mem rec hrec
    obtain ⟨hsame, -, h₂, hrefuse, -⟩ := h₁.handle_light hinj hbl hlight hrefused
    have hall := (hsides.trans (connectedAll_sides hcon)).trans
      ((hrefuse rfl).trans (rollbackBlockchainSwitching_sides hroll))
    rw [hpopped'] at hroll hall ⊢
    refine h.frame (h₂.rollback_ids hpos hlt.le ?_ hroll) hall.alternativeChains fun id _ => by
      rw [hall.invalidBlocks]
    rw [hsame, hblocks₁]
    exact List.prefix_append _ _

end Switch

/-- Every alternative block had to have some difficulty. -/
def AltsGrow (E : Env) (B : Set Block) (alts : Map Hash BlockExtendedInfo) : Prop :=
  ∀ id bei, alts.get id = some bei → ∀ rs, Line E B (rs ++ [bei]) → getDifficultyForNextBlock rs ≠ 0

section Grow

variable {E : Env} {cps : Checkpoints} {B : Set Block} {n n' : Node}

theorem AltsGrow.add (hinj : Set.InjOn (getBlockHash E) B) (hn : Lined E cps B n)
    (h : AltsGrow E B n.alternativeChains) {b : Block} (hb : b ∈ B) {bvc : BlockVerificationContext}
    {a : Attachment} {altChain : AltChain}
    (hchain : altChainOf n.alternativeChains b.prevId = some a.altChain)
    (hatt : attach E n b.prevId a.altChain = some a)
    (hr : addAlternativeBlock E bvc n b a = .ok (altChain, n')) :
    AltsGrow E B n'.alternativeChains := by
  obtain ⟨l, hl, hbranch⟩ := hn.alts.altChainOf_eq hinj b.prevId
  obtain rfl : l = a.altChain := Option.some.inj (hl.symm.trans hchain)
  obtain ⟨ha, -⟩ := attach_spliced hinj hn.line hn.alts (fun k hk => hn.index hk) hbranch hatt
  obtain ⟨bei', -, hlt, -, hline, -, -, -, halt'⟩ := addAlternativeBlock_line hn.line hb ha hr
  obtain ⟨bei, diff, pow, hpow, -, -, -, -, -, -, -, -, halts⟩ := addAlternativeBlock_ok hr
  obtain ⟨_, _, -, -, -, -, hdiff, hne, -⟩ := altProofOfWork_some hpow
  have hatt' := ha.attached hn.line hlt
  rw [ha.prevHeight, getNextDifficultyForAlternativeChain_eq ha.pos ha.le fun _ =>
    hatt'.branch.head_height] at hdiff
  intro id rec hget rs hrs
  rw [halt', Map.get_set] at hget
  split_ifs at hget
  · -- the difficulty is that of any line the block ends
    obtain rfl := Option.some.inj hget
    have hkeys := hrs.unique hinj hline rfl
    rw [List.map_append, List.map_append] at hkeys
    have hwork := map_work_of_key (List.append_inj_left' hkeys rfl)
    rwa [getDifficultyForNextBlock_congr hwork, ← hdiff]
  · exact h id rec hget rs hrs

end Grow

section Run

variable {E : Env} {cps : Checkpoints} {B : Set Block} {now : ℕ} {n n' : Node} {b : Block}

theorem addAlternativeBlock_ok_of {bvc bvc' : BlockVerificationContext} {a : Attachment}
    {q : AltChain × Node} (h : addAlternativeBlock E bvc n b a = .ok q) :
    addAlternativeBlock E bvc' n b a = .ok q := by
  unfold addAlternativeBlock at h ⊢
  generalize checkBlockTimestamp E n (altTimestamps n.blocks (a.connectionHeight - 1) a.branch) b = r
    at h ⊢
  simp only at h ⊢
  split_ifs at h ⊢
  cases hp : altProofOfWork E r.2 b a with
  | none => simp [hp] at h
  | some p =>
    simp only [hp] at h ⊢
    split_ifs at h ⊢
    cases hg : r.2.alternativeChains.get (getBlockHash E b) with
    | some _ => simp [hg] at h
    | none =>
      simp only [hg] at h ⊢
      exact h

theorem switchOf_of_takenOn {a : Attachment} {l : AltChain} {n₁ : Node}
    (hhave : haveBlock n (getBlockHash E b) = false) (hprev : b.prevId ≠ getTopBlockId E n.blocks)
    (ht : TakenOn E n b a l n₁) (hheavy : topDifficulty n₁.blocks < topDifficulty (l.map Prod.snd)) :
    switchOf E n b = some (n₁, l) := by
  obtain ⟨bvc, hadd⟩ := ht.add
  simp only [switchOf, hhave, ht.passed, Bool.false_or, Bool.or_false, decide_eq_true_eq, hprev,
    if_false, ht.chain, Option.bind_some, ht.attach, addAlternativeBlock_ok_of hadd, hheavy, if_true]

theorem TakenAs.stored {a : Attachment} {bei : BlockExtendedInfo} {n₁ : Node} (hn : Lined E cps B n)
    (h : TakenAs E cps B n b a bei n₁) : Stored E n b.prevId := by
  have htop := h.spliced.top
  have halts := h.spliced.alts
  rcases List.eq_nil_or_concat' a.altChain with hnil | ⟨l, x, hx⟩
  · have hempty : a.branch = [] := by rw [Attachment.branch, hnil, List.map_nil]
    obtain ⟨p, hp⟩ : ∃ p, n.blocks[a.connectionHeight - 1]? = some p :=
      ⟨_, List.getElem?_eq_getElem (by have := h.spliced.le; have := h.spliced.pos; omega)⟩
    have hid := (getTopBlockId_take (E := E) hp).1
    rw [Nat.sub_add_cancel h.spliced.pos] at hid
    rw [hempty, List.append_nil, hid] at htop
    exact .inl (htop ▸ List.mem_map_of_mem (List.mem_of_getElem? hp))
  · have hlast : a.branch = l.map Prod.snd ++ [x.2] := by
      rw [Attachment.branch, hx, List.map_append, List.map_singleton]
    have hget := halts x (by simp [hx])
    have hid : getBlockHash E x.2.bl = b.prevId := by
      rw [hlast, ← List.append_assoc, getTopBlockId, List.getLast?_concat] at htop
      exact htop
    refine .inr ?_
    rw [← hid, ← (hn.alts x.1 x.2 hget).1, hget]
    rfl

theorem Housed.addNewBlock {fuel : ℕ} (hinj : Set.InjOn (getBlockHash E) B) (hwork : WorkFits E B)
    (hn : Lined E cps B n) (h : Housed E n) (hb : b ∈ B)
    (hok : Event.StrandsNothing E n (.block now fuel b))
    {r : Bool × BlockVerificationContext × Node} {bvc : BlockVerificationContext}
    (hr : addNewBlock E now fuel bvc n b = some r) : Housed E r.2.2 := by
  unfold Boolberry.addNewBlock at hr
  split_ifs at hr with hhave hprev
  · rw [← Option.some.inj hr]
    exact h
  · have hhave' : haveBlock n (getBlockHash E b) = false := by simpa using hhave
    have hfree := hhave'
    simp only [haveBlock, Bool.or_eq_false_iff, Option.isSome_eq_false_iff,
      Option.isNone_iff_eq_none] at hfree
    obtain ⟨⟨hmain, -⟩, hinvalid⟩ := hfree
    cases fuel with
    | zero => cases hr
    | succ fuel =>
      rcases handleAlternativeBlock_inv hr with ⟨hs, hstores, -⟩ | ⟨a, l, n₁, ht, hcase⟩
      · refine h.frame ?_ hs.alternativeChains fun id _ => by rw [hs.invalidBlocks]
        rw [hstores]
      · obtain ⟨bei, hl, htaken, hcp, halts⟩ :=
          ht.takenAs hinj hn.checkpoints hn.line hn.alts (fun k hk => hn.index hk) hb
        have hn₁ : Lined E cps B n₁ := hn.frame htaken.stores hcp halts
        have h₁ : Housed E n₁ := by
          refine h.putAside htaken.blocks htaken.alts htaken.invalid ?_ hinvalid ?_
          · rw [hn.mem_blockIds, hmain]
            simp
          · rw [htaken.bl]
            exact htaken.stored hn
        -- put aside only, or heavier than the main chain and switched to
        rcases hcase with ⟨-, rfl⟩ | ⟨hheavy, hsw⟩
        · exact h₁
        · have hends := hok n₁ l (switchOf_of_takenOn hhave' hprev ht hheavy)
          have hsnd : l.map Prod.snd = a.branch ++ [bei] := by
            rw [hl]
            exact a.map_snd _ bei
          rw [hsnd, topDifficulty_append_singleton, htaken.blocks] at hheavy
          refine h₁.switch hinj hwork hn₁ (htaken.heavier hheavy) hsnd (fun x hx => ?_) hends hsw
          rw [hl] at hx
          rcases List.mem_append.mp hx with hx | hx
          · exact htaken.below x hx
          · rw [List.mem_singleton.mp hx, htaken.alts, Map.get_set_self]
  · rw [← Option.some.inj hr]
    have hmarks := handleBlockToMainChain_marks E now bvc n b
    obtain ⟨hf, hput⟩ := handleBlockToMainChain_effect E now bvc n b
    simp only [haveBlock, Bool.not_eq_true, Bool.or_eq_false_iff, Option.isSome_eq_false_iff,
      Option.isNone_iff_eq_none] at hhave
    obtain ⟨⟨hmain, halt⟩, hinvalid⟩ := hhave
    rcases hput with ⟨-, hnot⟩ | ⟨hok, hput⟩
    · refine h.frame (by rw [hnot.same.blocks]) hf.alternativeChains fun id hid => ?_
      refine hmarks.other id ?_
      rintro rfl
      rcases hid with hin | hin
      · rw [hn.mem_blockIds, hmain] at hin
        cases hin
      · rw [halt] at hin
        cases hin
    · obtain ⟨bei, rfl, -, hblocks⟩ := hput.blocks
      exact h.putOnTop hblocks hf.alternativeChains (hmarks.ok hok) halt hinvalid

/-- Pruning keeps every parent stored exactly when it erases none that an entry it keeps follows. -/
theorem housed_prune_iff (h : Housed E n) : Housed E (pruneAgedAltBlocks n) ↔ PrunesWhole n := by
  have hget : ∀ id bei, (pruneAgedAltBlocks n).alternativeChains.get id = some bei ↔
      n.alternativeChains.get id = some bei ∧ isAgedAltBlock n.blocks.length bei = false := by
    intro id bei
    rw [pruneAgedAltBlocks, Map.get_filter, Option.filter_eq_some_iff]
    simp
  constructor
  · intro h' id bei p hid hp haged
    by_contra hnot
    rcases h'.stored id bei ((hget id bei).mpr ⟨hid, by simpa using hnot⟩) with hmain | halt
    · rw [h.mainAlt _ hmain] at hp
      cases hp
    · obtain ⟨p', hp'⟩ := Option.isSome_iff_exists.mp halt
      obtain ⟨hp', hyoung⟩ := (hget _ p').mp hp'
      obtain rfl := Option.some.inj (hp.symm.trans hp')
      rw [haged] at hyoung
      cases hyoung
  · intro hwhole
    refine ⟨⟨fun id hid => ?_, h.mainInvalid, fun id bei hid => ?_⟩, fun id bei hid => ?_⟩
    · rw [Option.eq_none_iff_forall_not_mem]
      intro bei hin
      have := ((hget id bei).mp hin).1
      rw [h.mainAlt id hid] at this
      cases this
    · exact h.altInvalid id bei ((hget id bei).mp hid).1
    · obtain ⟨hid, hyoung⟩ := (hget id bei).mp hid
      rcases h.stored id bei hid with hmain | halt
      · exact .inl hmain
      · obtain ⟨p, hp⟩ := Option.isSome_iff_exists.mp halt
        refine .inr (Option.isSome_iff_exists.mpr ⟨p, (hget _ p).mpr ⟨hp, ?_⟩⟩)
        by_contra haged
        rw [hwhole id bei p hid hp (by simpa using haged)] at hyoung
        cases hyoung

theorem Housed.event (hinj : Set.InjOn (getBlockHash E) B) (hwork : WorkFits E B)
    (hn : Lined E cps B n) (h : Housed E n) {e : Event}
    (hb : ∀ now fuel b, e = .block now fuel b → b ∈ B) (hok : e.StrandsNothing E n)
    (he : e.apply E n = some n') : Housed E n' := by
  cases e with
  | block now fuel b =>
    obtain ⟨r, hr, rfl⟩ := Option.map_eq_some_iff.mp he
    exact h.addNewBlock hinj hwork hn (hb now fuel b rfl) hok hr
  | transaction now tx kept =>
    obtain rfl := Option.some.inj he
    unfold handleIncomingTx
    split_ifs
    · unfold addNewTx
      split_ifs <;> exact h.frame rfl rfl fun _ _ => rfl
    · exact h.frame rfl rfl fun _ _ => rfl
  | removeStuck now order =>
    obtain rfl := Option.some.inj he
    exact h.frame rfl rfl fun _ _ => rfl
  | pruneAltBlocks =>
    obtain rfl := Option.some.inj he
    exact (housed_prune_iff h).mpr hok

end Run

end Boolberry
