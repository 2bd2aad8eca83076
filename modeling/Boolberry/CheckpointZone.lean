import Boolberry.Lines
import Boolberry.SpentOutputs

/-!
# The flag of the checkpoint zone

`m_is_in_checkpoint_zone` is written for the height of the block that is looked
at. It says whether the next block lies in the zone as long as no block of the
last checkpoint's height is put on the chain and no branch is looked at on the
other side of it.
-/

namespace Boolberry
open KeyValue

theorem getElem?_snoc {α : Type} {l : List α} {a b : α} {k : ℕ}
    (h : (l ++ [a])[k]? = some b) : l[k]? = some b ∨ k = l.length ∧ b = a := by
  have hlt := (List.getElem?_eq_some_iff.mp h).1
  rw [List.length_append, List.length_singleton] at hlt
  by_cases hk : k < l.length
  · rw [List.getElem?_append_left hk] at h
    exact Or.inl h
  · obtain rfl : k = l.length := by omega
    rw [List.getElem?_concat_length] at h
    exact Or.inr ⟨rfl, (Option.some.inj h).symm⟩

theorem getElem?_of_dropLast {α : Type} {l : List α} {b : α} {k : ℕ}
    (h : l.dropLast[k]? = some b) : l[k]? = some b ∧ k + 1 < l.length := by
  have hlt := (List.getElem?_eq_some_iff.mp h).1
  rw [List.length_dropLast] at hlt
  rw [List.getElem?_dropLast, if_pos hlt] at h
  exact ⟨h, by omega⟩

/-- The index, the links and the heights the blocks declare agree with where the blocks are. -/
structure Located (E : Env) (n : Node) : Prop where
  index : ∀ id h, n.blocksIndex.get id = some h ↔
    ∃ bei, n.blocks[h]? = some bei ∧ getBlockHash E bei.bl = id
  declared : ∀ h bei, n.blocks[h]? = some bei → getBlockHeight bei.bl = h
  linked : ∀ h p bei, n.blocks[h]? = some p → n.blocks[h + 1]? = some bei →
    bei.bl.prevId = getBlockHash E p.bl
  alts : ∀ id bei, n.alternativeChains.get id = some bei → getBlockHeight bei.bl = bei.height

namespace Located

variable {E : Env} {n n' : Node}

theorem of_same (h : Located E n) (hs : SameBlocks n n')
    (halts : ∀ id bei, n'.alternativeChains.get id = some bei →
      n.alternativeChains.get id = some bei) : Located E n' := by
  refine ⟨?_, ?_, ?_, fun id bei hget => h.alts id bei (halts id bei hget)⟩
  · rw [hs.blocks, hs.blocksIndex]
    exact h.index
  · rw [hs.blocks]
    exact h.declared
  · rw [hs.blocks]
    exact h.linked

theorem getLast (h : Located E n) {bei : BlockExtendedInfo} (hlast : n.blocks.getLast? = some bei) :
    n.blocksIndex.get (getBlockHash E bei.bl) = some (n.blocks.length - 1) := by
  rw [List.getLast?_eq_getElem?] at hlast
  exact (h.index _ _).mpr ⟨bei, hlast, rfl⟩

theorem push (h : Located E n) {bl : Block} (hp : PutOnTop E n bl n')
    (halts : n'.alternativeChains = n.alternativeChains) : Located E n' := by
  obtain ⟨bei, rfl, -, hblocks⟩ := hp.blocks
  have hlt : ∀ {k : ℕ} {b : BlockExtendedInfo}, n.blocks[k]? = some b → k < n.blocks.length :=
    fun hk => (List.getElem?_eq_some_iff.mp hk).1
  refine ⟨fun id k => ?_, fun k b hb => ?_, fun k p b hp' hb => ?_, ?_⟩
  · rw [hp.blocksIndex, Map.get_set, hblocks]
    split_ifs with hid
    · rw [hid, Option.some.injEq]
      constructor
      · rintro rfl
        exact ⟨bei, List.getElem?_concat_length, rfl⟩
      · rintro ⟨b, hb, he⟩
        rcases getElem?_snoc hb with hb | ⟨hk, -⟩
        · -- the id of the new block was not in the index before
          have := (h.index _ k).mpr ⟨b, hb, he⟩
          rw [hp.fresh] at this
          cases this
        · exact hk.symm
    · rw [h.index]
      constructor
      · rintro ⟨b, hb, he⟩
        exact ⟨b, by rw [List.getElem?_append_left (hlt hb), hb], he⟩
      · rintro ⟨b, hb, he⟩
        rcases getElem?_snoc hb with hb | ⟨-, rfl⟩
        · exact ⟨b, hb, he⟩
        · exact absurd he.symm hid
  · rw [hblocks] at hb
    rcases getElem?_snoc hb with hb | ⟨rfl, rfl⟩
    · exact h.declared k b hb
    · exact getBlockHeight_of_prevalidate hp.miner
  · rw [hblocks] at hp' hb
    rcases getElem?_snoc hb with hb | ⟨hk, rfl⟩
    · rw [List.getElem?_append_left (by have := hlt hb; omega)] at hp'
      exact h.linked k p b hp' hb
    · rw [List.getElem?_append_left (by omega)] at hp'
      rw [hp.prevId, getTopBlockId, List.getLast?_eq_getElem?, ← hk, Nat.add_sub_cancel, hp']
  · rw [halts]
    exact h.alts

theorem pop (h : Located E n) {bei : BlockExtendedInfo} (hlast : n.blocks.getLast? = some bei)
    (hindex : n'.blocksIndex = n.blocksIndex.erase (getBlockHash E bei.bl))
    (hblocks : n'.blocks = n.blocks.dropLast)
    (halts : n'.alternativeChains = n.alternativeChains) : Located E n' := by
  have htop := h.getLast hlast
  refine ⟨fun id k => ?_, fun k b hb => ?_, fun k p b hp hb => ?_, ?_⟩
  · rw [hindex, Map.get_erase, hblocks]
    split_ifs with hid
    · simp only [false_iff, not_exists, not_and]
      intro b hb he
      obtain ⟨hb, hk⟩ := getElem?_of_dropLast hb
      have := (h.index id k).mpr ⟨b, hb, he⟩
      rw [hid, htop] at this
      have := Option.some.inj this
      omega
    · rw [h.index]
      constructor
      · rintro ⟨b, hb, he⟩
        refine ⟨b, ?_, he⟩
        rw [List.getElem?_dropLast, if_pos, hb]
        have hlt := (List.getElem?_eq_some_iff.mp hb).1
        by_contra hk
        rw [List.getLast?_eq_getElem?, show n.blocks.length - 1 = k by omega, hb] at hlast
        exact hid (by rw [← he, Option.some.inj hlast])
      · rintro ⟨b, hb, he⟩
        exact ⟨b, (getElem?_of_dropLast hb).1, he⟩
  · rw [hblocks] at hb
    exact h.declared k b (getElem?_of_dropLast hb).1
  · rw [hblocks] at hp hb
    exact h.linked k p b (getElem?_of_dropLast hp).1 (getElem?_of_dropLast hb).1
  · rw [halts]
    exact h.alts

end Located

/-- Nothing that a block can cause moves a block without the index. -/
theorem located_alt (E : Env) (now : ℕ) :
    AltInvariant E now (Located E) (fun _ => True) (fun _ => True) (fun _ => True) where
  push n bvc bl hn _ := by
    obtain ⟨hf, hput⟩ := handleBlockToMainChain_effect E now bvc n bl
    rcases hput with ⟨-, hnot⟩ | ⟨-, hput⟩
    · exact hn.of_same hnot.same fun id bei hget => by rwa [hf.alternativeChains] at hget
    · exact hn.push hput hf.alternativeChains
  pop n _ hn _ _ := by
    obtain ⟨hf, -, hpop⟩ := popBlockFromBlockchain_effect E now n
    rcases hpop with hsame | ⟨bei, hlast, hindex, hblocks⟩
    · exact hn.of_same hsame fun id bei hget => by rwa [hf.alternativeChains] at hget
    · rcases hblocks with ⟨hnone, -⟩ | hblocks
      · rw [hn.getLast hlast] at hnone
        cases hnone
      · exact hn.pop hlast hindex hblocks hf.alternativeChains
  invalid n bei id hn := by
    obtain ⟨-, hf⟩ := addBlockAsInvalid_stores n bei id
    exact hn.of_same (addBlockAsInvalid_effect n bei id).1
      fun id' bei' hget => by rwa [hf.alternativeChains] at hget
  erase n id hn := hn.of_same ⟨rfl, rfl⟩ fun id' bei' hget => by
    rw [Map.get_erase] at hget
    split_ifs at hget
    exact hget
  add bvc n b a hn _ _ _ _ := by
    have heff := addAlternativeBlock_effect E bvc n b a
    split
    · rename_i r hr
      rw [hr] at heff
      obtain ⟨-, hs, hf, -⟩ := heff
      exact hn.of_same ⟨congrArg ChainStores.blocks hs, congrArg ChainStores.blocksIndex hs⟩
        fun id bei hget => by rwa [hf.alternativeChains] at hget
    · rename_i r hr
      obtain ⟨altChain, n'⟩ := r
      obtain ⟨hs, -, -, bei, rfl, -, hminer, -, -, -, halts⟩ := addAlternativeBlock_taken hr
      refine ⟨⟨?_, ?_, ?_, fun id bei' hget => ?_⟩, fun _ _ => trivial⟩
      · rw [hs]
        exact hn.index
      · rw [hs]
        exact hn.declared
      · rw [hs]
        exact hn.linked
      · rw [halts, Map.get_set] at hget
        split_ifs at hget
        · rw [← Option.some.inj hget]
          exact getBlockHeight_of_prevalidate hminer
        · exact hn.alts id bei' hget
  main _ _ _ _ _ _ _ _ := ⟨trivial, trivial⟩
  alt _ _ _ _ _ := trivial

theorem located_event {E : Env} {n n' : Node} {e : Event} (hn : Located E n)
    (he : e.apply E n = some n') : Located E n' := by
  by_cases hb : e.isBlock = true
  · cases e with
    | block now fuel bl =>
      obtain ⟨r, hr, rfl⟩ := Option.map_eq_some_iff.mp he
      exact (located_alt E now).addNewBlock hn (fun _ => trivial) (fun _ => trivial) hr
    | transaction now tx kept => simp [Event.isBlock] at hb
    | removeStuck now order => simp [Event.isBlock] at hb
    | pruneAltBlocks => simp [Event.isBlock] at hb
  · obtain ⟨hs, -, -, halts⟩ := Event.effect (by simpa using hb) he
    exact hn.of_same hs halts

theorem located_of_reachable {E : Env} {cps : Checkpoints} {n : Node} (h : Reachable E cps n) :
    Located E n := by
  obtain ⟨now, n₀, events, hinit, hrun⟩ := h
  have hw := wellFormed_of_reachable E cps n₀ ⟨now, n₀, [], hinit, rfl⟩
  obtain ⟨c, -, -, -, -, halts, -⟩ := initNode_spec hinit
  have hstart : Located E n₀ := by
    refine ⟨hw.blocksIndex, fun h bei hbei => ?_, fun h p bei hp hbei => ?_, fun id bei hget => ?_⟩
    · obtain ⟨-, g, hvin, hg⟩ := hw.height h bei hbei
      rw [getBlockHeight, hvin]
      exact hg
    · exact (hw.follows h p bei hp hbei).prevId
    · rw [halts] at hget
      simp at hget
  exact run_induction (Q := fun _ => True) (fun _ _ _ hn _ he => located_event hn he) hstart
    (fun _ _ => trivial) hrun

/-- Setting the checkpoints moves no block and sets the flag for the next one. -/
theorem setCheckpoints_effect (n : Node) (cps : Checkpoints) :
    SameBlocks n (setCheckpoints n cps) ∧
      (setCheckpoints n cps).alternativeChains = n.alternativeChains ∧
      (setCheckpoints n cps).checkpoints = cps ∧
      (setCheckpoints n cps).isInCheckpointZone = cps.isInCheckpointZone n.blocks.length := by
  unfold setCheckpoints pruneRingSignaturesIfNeed
  dsimp only
  split_ifs <;> exact ⟨⟨rfl, rfl⟩, rfl, rfl, rfl⟩

/-- What a block has to be like in state `n` for the flag to stay right. With the chain in the zone
it is not one for the last checkpoint's height; with the chain above it, it extends the main chain,
or the chain is not left at the last checkpoint or below it. -/
def KeepsZone (E : Env) (n : Node) (b : Block) : Prop :=
  let top := n.checkpoints.getTopCheckpointHeight
  n.checkpoints.keys = ∅ ∨ haveBlock n (getBlockHash E b) = true ∨
    (b.prevId ≠ getTopBlockId E n.blocks ∧ n.alternativeChains.get b.prevId = none ∧
      n.blocksIndex.get b.prevId = none) ∨
    (n.blocks.length ≤ top ∧ getBlockHeight b ≠ top ∧
      ∀ id bei, n.alternativeChains.get id = some bei → bei.height < top) ∨
    (top < n.blocks.length ∧ (b.prevId = getTopBlockId E n.blocks ∨ getBlockHeight b ≤ top ∨
        ∀ h, n.blocksIndex.get b.prevId = some h → top ≤ h) ∧
      ∀ id bei, n.alternativeChains.get id = some bei → top < bei.height)

/-- An event meets the condition if the block it brings, if any, does. -/
def Event.KeepsZone (E : Env) (n : Node) : Event → Prop
  | .block _ _ bl => Boolberry.KeepsZone E n bl
  | _ => True

section Zone

variable {E : Env} {now : ℕ} {cps : Checkpoints}

/-- A node whose chain ends in the zone. -/
structure Below (cps : Checkpoints) (n : Node) : Prop where
  checkpoints : n.checkpoints = cps
  zone : n.isInCheckpointZone = true
  length : n.blocks.length ≤ cps.getTopCheckpointHeight
  main : ∀ bei ∈ n.blocks, getBlockHeight bei.bl ≠ cps.getTopCheckpointHeight
  alts : ∀ id bei, n.alternativeChains.get id = some bei →
    bei.height < cps.getTopCheckpointHeight ∧ getBlockHeight bei.bl ≠ cps.getTopCheckpointHeight

theorem Below.of_same {n n' : Node} (h : Below cps n) (hs : SameBlocks n n')
    (hc : n'.checkpoints = n.checkpoints) (hz : n'.isInCheckpointZone = true)
    (halts : ∀ id bei, n'.alternativeChains.get id = some bei →
      n.alternativeChains.get id = some bei) : Below cps n' := by
  refine ⟨hc.trans h.checkpoints, hz, ?_, ?_, fun id bei hget => h.alts id bei (halts id bei hget)⟩
  · rw [hs.blocks]
    exact h.length
  · rw [hs.blocks]
    exact h.main

/-- As long as no block for the last checkpoint's height comes in, every height that is looked at
lies in the zone, and the chain stays in it. -/
theorem below_alt (hcps : cps.keys ≠ ∅) :
    AltInvariant E now (Below cps) (fun b => getBlockHeight b ≠ cps.getTopCheckpointHeight)
      (fun b => getBlockHeight b ≠ cps.getTopCheckpointHeight) (fun _ => True) where
  push n bvc bl hn hbl := by
    have hzone : n.checkpoints.isInCheckpointZone n.blocks.length = true := by
      rw [hn.checkpoints]
      exact isInCheckpointZone_iff.mpr ⟨hcps, hn.length⟩
    obtain ⟨hf, hput⟩ := handleBlockToMainChain_effect E now bvc n bl
    rcases hput with ⟨-, hnot⟩ | ⟨-, hput⟩
    · refine hn.of_same hnot.same hf.checkpoints ?_
        fun id bei hget => by rwa [hf.alternativeChains] at hget
      rcases hnot.zone with hz | hz
      · exact hz.trans hn.zone
      · exact hz.trans hzone
    · -- the block declares the height it is put at, which is not that of the last checkpoint
      obtain ⟨bei, rfl, -, hblocks⟩ := hput.blocks
      have hheight := getBlockHeight_of_prevalidate hput.miner
      have hlen := hn.length
      refine ⟨hf.checkpoints.trans hn.checkpoints, hput.zone.trans hzone, ?_, ?_, ?_⟩
      · rw [hblocks, List.length_append, List.length_singleton]
        omega
      · intro b hb
        rw [hblocks, List.mem_append, List.mem_singleton] at hb
        rcases hb with hb | rfl
        · exact hn.main b hb
        · exact hbl
      · rw [hf.alternativeChains]
        exact hn.alts
  pop n s hn _ _ := by
    obtain ⟨hf, hz, hpop⟩ := popBlockFromBlockchain_effect E now n
    have hsub : ∀ bei ∈ (popBlockFromBlockchain E now n).2.blocks, bei ∈ n.blocks := by
      rcases hpop with hsame | ⟨bei, -, -, ⟨-, hblocks⟩ | hblocks⟩
      · rw [hsame.blocks]
        exact fun _ h => h
      · rw [hblocks]
        exact fun _ h => h
      · rw [hblocks]
        exact fun _ h => List.mem_of_mem_dropLast h
    have hlen : (popBlockFromBlockchain E now n).2.blocks.length ≤ n.blocks.length := by
      rcases hpop with hsame | ⟨bei, -, -, ⟨-, hblocks⟩ | hblocks⟩
      · rw [hsame.blocks]
      · rw [hblocks]
      · rw [hblocks, List.length_dropLast]
        omega
    refine ⟨hf.checkpoints.trans hn.checkpoints, hz.trans hn.zone, hlen.trans hn.length,
      fun bei hbei => hn.main bei (hsub bei hbei), ?_⟩
    rw [hf.alternativeChains]
    exact hn.alts
  invalid n bei id hn := by
    obtain ⟨-, hf⟩ := addBlockAsInvalid_stores n bei id
    obtain ⟨hs, hz⟩ := addBlockAsInvalid_effect n bei id
    exact hn.of_same hs hf.checkpoints (hz.trans hn.zone)
      fun id' bei' hget => by rwa [hf.alternativeChains] at hget
  erase n id hn := hn.of_same ⟨rfl, rfl⟩ rfl hn.zone fun id' bei' hget => by
    rw [Map.get_erase] at hget
    split_ifs at hget
    exact hget
  add bvc n b a hn hb _ hchain hatt := by
    -- the block before is an alternative one or one of the main chain
    have hget := altChainOf_get hchain
    have hprev : a.prevHeight + 1 ≤ cps.getTopCheckpointHeight := by
      rcases (attach_effect hatt).2 with ⟨e, he, hh⟩ | ⟨-, -, hlt⟩
      · have := (hn.alts e.1 e.2 (hget e (List.mem_of_getLast? he))).1
        omega
      · have := hn.length
        omega
    have hzone : n.checkpoints.isInCheckpointZone (a.prevHeight + 1) = true := by
      rw [hn.checkpoints]
      exact isInCheckpointZone_iff.mpr ⟨hcps, hprev⟩
    have heff := addAlternativeBlock_effect E bvc n b a
    split
    · rename_i r hr
      rw [hr] at heff
      obtain ⟨-, hs, hf, hz⟩ := heff
      refine hn.of_same ⟨congrArg ChainStores.blocks hs, congrArg ChainStores.blocksIndex hs⟩
        hf.checkpoints ?_ fun id bei hget => by rwa [hf.alternativeChains] at hget
      rcases hz with hz | hz
      · exact hz.trans hn.zone
      · exact hz.trans hzone
    · rename_i r hr
      obtain ⟨altChain, n'⟩ := r
      obtain ⟨hs, hc, hz, bei, rfl, hheight, hminer, -, -, -, halts⟩ := addAlternativeBlock_taken hr
      have hdecl := getBlockHeight_of_prevalidate hminer
      refine ⟨⟨hc.trans hn.checkpoints, hz.trans hzone, ?_, ?_, fun id bei' hget' => ?_⟩,
        fun _ _ => trivial⟩
      · rw [hs]
        exact hn.length
      · rw [hs]
        exact hn.main
      · rw [halts, Map.get_set] at hget'
        split_ifs at hget'
        · rw [← Option.some.inj hget']
          exact ⟨by omega, hb⟩
        · exact hn.alts id bei' hget'
  main n _ h bei hn _ _ hbei :=
    have hb := hn.main bei (List.mem_of_getElem? hbei)
    ⟨hb, hb⟩
  alt n id bei hn hget := (hn.alts id bei hget).2

/-- A node whose chain ends above the zone; `S` are the ids below the last checkpoint. -/
structure Above (E : Env) (cps : Checkpoints) (S : Set Hash) (n : Node) : Prop where
  checkpoints : n.checkpoints = cps
  zone : n.isInCheckpointZone = false
  length : cps.getTopCheckpointHeight < n.blocks.length
  index : ∀ id, id ∈ S ↔ ∃ h < cps.getTopCheckpointHeight, n.blocksIndex.get id = some h
  hash : ∀ h bei, cps.getTopCheckpointHeight ≤ h → n.blocks[h]? = some bei →
    getBlockHash E bei.bl ∉ S
  prevId : ∀ h bei, cps.getTopCheckpointHeight < h → n.blocks[h]? = some bei → bei.bl.prevId ∉ S
  alts : ∀ id bei, n.alternativeChains.get id = some bei → cps.getTopCheckpointHeight < bei.height

theorem Above.of_same {S : Set Hash} {n n' : Node} (h : Above E cps S n) (hs : SameBlocks n n')
    (hc : n'.checkpoints = n.checkpoints) (hz : n'.isInCheckpointZone = false)
    (halts : ∀ id bei, n'.alternativeChains.get id = some bei →
      n.alternativeChains.get id = some bei) : Above E cps S n' := by
  refine ⟨hc.trans h.checkpoints, hz, ?_, ?_, ?_, ?_,
    fun id bei hget => h.alts id bei (halts id bei hget)⟩
  · rw [hs.blocks]
    exact h.length
  · rw [hs.blocksIndex]
    exact h.index
  · rw [hs.blocks]
    exact h.hash
  · rw [hs.blocks]
    exact h.prevId

theorem isInCheckpointZone_above {h : ℕ} (hh : cps.getTopCheckpointHeight < h) :
    cps.isInCheckpointZone h = false := by
  rw [Bool.eq_false_iff, Ne, isInCheckpointZone_iff]
  omega

theorem Above.push {S : Set Hash} {n n' : Node} {bl : Block} (hn : Above E cps S n)
    (hput : PutOnTop E n bl n') (hf : SameFrame n n') : Above E cps S n' := by
  have hlen := hn.length
  have hzone : n.checkpoints.isInCheckpointZone n.blocks.length = false := by
    rw [hn.checkpoints]
    exact isInCheckpointZone_above hlen
  obtain ⟨bei, rfl, -, hblocks⟩ := hput.blocks
  have hfresh : getBlockHash E bei.bl ∉ S := by
    rw [hn.index]
    rintro ⟨h, -, hget⟩
    rw [hput.fresh] at hget
    cases hget
  refine ⟨hf.checkpoints.trans hn.checkpoints, hput.zone.trans hzone, ?_, fun id => ?_,
    fun h b hh hb => ?_, fun h b hh hb => ?_, ?_⟩
  · rw [hblocks, List.length_append]
    omega
  · rw [hn.index, hput.blocksIndex, Map.get_set]
    split_ifs with hid
    · rw [hid, hput.fresh]
      simp only [Option.some.injEq, reduceCtorEq, and_false, exists_false, false_iff, not_exists,
        not_and]
      omega
    · exact Iff.rfl
  · rw [hblocks] at hb
    rcases getElem?_snoc hb with hb | ⟨-, rfl⟩
    · exact hn.hash h b hh hb
    · exact hfresh
  · rw [hblocks] at hb
    rcases getElem?_snoc hb with hb | ⟨-, rfl⟩
    · exact hn.prevId h b hh hb
    · -- the block before is the top of the chain, at the last checkpoint or above it
      obtain ⟨top, htop⟩ : ∃ top, n.blocks[n.blocks.length - 1]? = some top :=
        ⟨_, List.getElem?_eq_getElem (by omega)⟩
      rw [hput.prevId, getTopBlockId, List.getLast?_eq_getElem?, htop]
      exact hn.hash _ _ (by omega) htop
  · rw [hf.alternativeChains]
    exact hn.alts

/-- As long as no branch leaves the chain below, every height that is looked at is above the zone. -/
theorem above_alt {S : Set Hash} :
    AltInvariant E now (Above E cps S) (fun b => b.prevId ∉ S) (fun _ => True)
      (fun s => cps.getTopCheckpointHeight < s) where
  push n bvc bl hn _ := by
    have hzone : n.checkpoints.isInCheckpointZone n.blocks.length = false := by
      rw [hn.checkpoints]
      exact isInCheckpointZone_above hn.length
    obtain ⟨hf, hput⟩ := handleBlockToMainChain_effect E now bvc n bl
    rcases hput with ⟨-, hnot⟩ | ⟨-, hput⟩
    · refine hn.of_same hnot.same hf.checkpoints ?_
        fun id bei hget => by rwa [hf.alternativeChains] at hget
      rcases hnot.zone with hz | hz
      · exact hz.trans hn.zone
      · exact hz.trans hzone
    · exact hn.push hput hf
  pop n s hn hs hlt := by
    obtain ⟨hf, hz, hpop⟩ := popBlockFromBlockchain_effect E now n
    rcases hpop with hsame | ⟨bei, hlast, hindex, hblocks⟩
    · exact hn.of_same hsame hf.checkpoints (hz.trans hn.zone)
        fun id bei hget => by rwa [hf.alternativeChains] at hget
    rw [List.getLast?_eq_getElem?] at hlast
    have htop := hn.hash _ _ (by omega) hlast
    have hsub : ∀ (h : ℕ) (b : BlockExtendedInfo),
        (popBlockFromBlockchain E now n).2.blocks[h]? = some b → n.blocks[h]? = some b := by
      intro h b hb
      rcases hblocks with ⟨-, hblocks⟩ | hblocks
      · rwa [hblocks] at hb
      · rw [hblocks] at hb
        exact (getElem?_of_dropLast hb).1
    refine ⟨hf.checkpoints.trans hn.checkpoints, hz.trans hn.zone, ?_, fun id => ?_,
      fun h b hh hb => hn.hash h b hh (hsub h b hb), fun h b hh hb => hn.prevId h b hh (hsub h b hb),
      ?_⟩
    · rcases hblocks with ⟨-, hblocks⟩ | hblocks
      · rw [hblocks]
        exact hn.length
      · rw [hblocks, List.length_dropLast]
        omega
    · rw [hindex, Map.get_erase]
      split_ifs with hid
      · rw [hid]
        simpa using htop
      · exact hn.index id
    · rw [hf.alternativeChains]
      exact hn.alts
  invalid n bei id hn := by
    obtain ⟨-, hf⟩ := addBlockAsInvalid_stores n bei id
    obtain ⟨hs, hz⟩ := addBlockAsInvalid_effect n bei id
    exact hn.of_same hs hf.checkpoints (hz.trans hn.zone)
      fun id' bei' hget => by rwa [hf.alternativeChains] at hget
  erase n id hn := hn.of_same ⟨rfl, rfl⟩ rfl hn.zone fun id' bei' hget => by
    rw [Map.get_erase] at hget
    split_ifs at hget
    exact hget
  add bvc n b a hn hb _ hchain hatt := by
    -- the block before is an alternative one, or one of the main chain and not below
    have hget := altChainOf_get hchain
    have hprev : cps.getTopCheckpointHeight < a.prevHeight + 1 := by
      rcases (attach_effect hatt).2 with ⟨e, he, hh⟩ | ⟨-, hindex, -⟩
      · have := hn.alts e.1 e.2 (hget e (List.mem_of_getLast? he))
        omega
      · by_contra hlt
        exact hb ((hn.index _).mpr ⟨a.prevHeight, by omega, hindex⟩)
    have hzone : n.checkpoints.isInCheckpointZone (a.prevHeight + 1) = false := by
      rw [hn.checkpoints]
      exact isInCheckpointZone_above hprev
    have heff := addAlternativeBlock_effect E bvc n b a
    split
    · rename_i r hr
      rw [hr] at heff
      obtain ⟨-, hs, hf, hz⟩ := heff
      refine hn.of_same ⟨congrArg ChainStores.blocks hs, congrArg ChainStores.blocksIndex hs⟩
        hf.checkpoints ?_ fun id bei hget => by rwa [hf.alternativeChains] at hget
      rcases hz with hz | hz
      · exact hz.trans hn.zone
      · exact hz.trans hzone
    · rename_i r hr
      obtain ⟨altChain, n'⟩ := r
      obtain ⟨hs, hc, hz, bei, -, hheight, -, -, -, rfl, halts⟩ := addAlternativeBlock_taken hr
      refine ⟨⟨hc.trans hn.checkpoints, hz.trans hzone, ?_, ?_, ?_, ?_, fun id bei' hget' => ?_⟩,
        fun front hfront => ?_⟩
      · rw [hs]
        exact hn.length
      · rw [hs]
        exact hn.index
      · rw [hs]
        exact hn.hash
      · rw [hs]
        exact hn.prevId
      · rw [halts, Map.get_set] at hget'
        split_ifs at hget'
        · rw [← Option.some.inj hget']
          omega
        · exact hn.alts id bei' hget'
      · rcases List.mem_append.mp (List.mem_of_head? hfront) with he | he
        · exact hn.alts front.1 front.2 (hget front he)
        · rw [List.mem_singleton.mp he]
          simp only
          omega
  main n s h bei hn hs hle hbei := ⟨hn.prevId h bei (by omega) hbei, trivial⟩
  alt _ _ _ _ _ := trivial

theorem noCheckpoints_alt (hcps : cps.keys = ∅) :
    AltInvariant E now (fun n => n.checkpoints = cps ∧ n.isInCheckpointZone = false)
      (fun _ => True) (fun _ => True) (fun _ => True) := by
  have hzone : ∀ h, cps.isInCheckpointZone h = false := by
    intro h
    rw [Bool.eq_false_iff, Ne, isInCheckpointZone_iff]
    exact fun hk => hk.1 hcps
  have hflag : ∀ {n n' : Node} {h : ℕ}, n.checkpoints = cps ∧ n.isInCheckpointZone = false →
      n'.isInCheckpointZone = n.isInCheckpointZone ∨
        n'.isInCheckpointZone = n.checkpoints.isInCheckpointZone h →
      n'.isInCheckpointZone = false := by
    rintro n n' h ⟨hc, hz⟩ (hz' | hz')
    · exact hz'.trans hz
    · rw [hz', hc]
      exact hzone h
  refine ⟨fun n bvc bl hn _ => ?_, fun n s hn _ _ => ?_, fun n bei id hn => ?_, fun n id hn => hn,
    fun bvc n b a hn _ _ _ _ => ?_, fun _ _ _ _ _ _ _ _ => ⟨trivial, trivial⟩,
    fun _ _ _ _ _ => trivial⟩
  · obtain ⟨hf, ⟨-, hnot⟩ | ⟨-, hput⟩⟩ := handleBlockToMainChain_effect E now bvc n bl
    · exact ⟨hf.checkpoints.trans hn.1, hflag hn hnot.zone⟩
    · exact ⟨hf.checkpoints.trans hn.1, hflag hn (Or.inr hput.zone)⟩
  · obtain ⟨hf, hz, -⟩ := popBlockFromBlockchain_effect E now n
    exact ⟨hf.checkpoints.trans hn.1, hz.trans hn.2⟩
  · obtain ⟨-, hf⟩ := addBlockAsInvalid_stores n bei id
    exact ⟨hf.checkpoints.trans hn.1, (addBlockAsInvalid_effect n bei id).2.trans hn.2⟩
  · have heff := addAlternativeBlock_effect E bvc n b a
    split at heff
    · exact ⟨heff.2.2.1.checkpoints.trans hn.1, hflag hn heff.2.2.2⟩
    · exact ⟨⟨heff.2.1.trans hn.1, hflag hn (Or.inr heff.2.2)⟩, fun _ _ => trivial⟩

/-- The flag says whether the next block lies in the zone. -/
structure ZoneRight (E : Env) (cps : Checkpoints) (n : Node) : Prop where
  checkpoints : n.checkpoints = cps
  zone : n.isInCheckpointZone = cps.isInCheckpointZone n.blocks.length
  located : Located E n

theorem Below.of_zoneRight {n : Node} (hcps : cps.keys ≠ ∅) (h : ZoneRight E cps n)
    (hlen : n.blocks.length ≤ cps.getTopCheckpointHeight)
    (halts : ∀ id bei, n.alternativeChains.get id = some bei →
      bei.height < cps.getTopCheckpointHeight) : Below cps n := by
  refine ⟨h.checkpoints, h.zone.trans (isInCheckpointZone_iff.mpr ⟨hcps, hlen⟩), hlen, ?_, ?_⟩
  · intro bei hbei
    obtain ⟨k, hk⟩ := List.getElem?_of_mem hbei
    have hdecl := h.located.declared k bei hk
    have hlt := (List.getElem?_eq_some_iff.mp hk).1
    omega
  · intro id bei hget
    have hdecl := h.located.alts id bei hget
    have hlt := halts id bei hget
    exact ⟨hlt, by omega⟩

theorem Above.of_zoneRight {n : Node} (h : ZoneRight E cps n)
    (hlen : cps.getTopCheckpointHeight < n.blocks.length)
    (halts : ∀ id bei, n.alternativeChains.get id = some bei →
      cps.getTopCheckpointHeight < bei.height) :
    Above E cps {id | ∃ h < cps.getTopCheckpointHeight, n.blocksIndex.get id = some h} n := by
  have hhash : ∀ (k : ℕ) (bei : BlockExtendedInfo), cps.getTopCheckpointHeight ≤ k →
      n.blocks[k]? = some bei → getBlockHash E bei.bl ∉
        {id | ∃ h < cps.getTopCheckpointHeight, n.blocksIndex.get id = some h} := by
    rintro k bei hk hbei ⟨h', hlt, hget⟩
    rw [(h.located.index _ k).mpr ⟨bei, hbei, rfl⟩] at hget
    have := Option.some.inj hget
    omega
  refine ⟨h.checkpoints, h.zone.trans (isInCheckpointZone_above hlen), hlen, fun _ => Iff.rfl, hhash,
    fun k bei hk hbei => ?_, halts⟩
  obtain ⟨k, rfl⟩ : ∃ j, k = j + 1 := ⟨k - 1, by omega⟩
  have hlt := (List.getElem?_eq_some_iff.mp hbei).1
  obtain ⟨p, hp⟩ : ∃ p, n.blocks[k]? = some p := ⟨_, List.getElem?_eq_getElem (by omega)⟩
  rw [h.located.linked k p bei hp hbei]
  exact hhash k p (by omega) hp

/-- A height at the last checkpoint or below is passed once the chain is above. -/
theorem isHeightPassedZone_of_le {h last : ℕ} (hcps : cps.keys ≠ ∅)
    (hh : h ≤ cps.getTopCheckpointHeight) (hlast : cps.getTopCheckpointHeight ≤ last) :
    cps.isHeightPassedZone h last = true := by
  have htop : cps.getTopCheckpointHeight ∈ cps.keys := by
    obtain ⟨p, hp, he⟩ := Finset.exists_mem_eq_sup cps.keys (Finset.nonempty_iff_ne_empty.mpr hcps) id
    rw [Checkpoints.getTopCheckpointHeight, he]
    exact hp
  exact isHeightPassedZone_of_mem htop hh hlast

theorem zoneRight_block {n : Node} {fuel : ℕ} {b : Block}
    {r : Bool × BlockVerificationContext × Node} (hn : ZoneRight E cps n) (hk : KeepsZone E n b)
    (hr : addNewBlock E now fuel {} n b = some r) : ZoneRight E cps r.2.2 := by
  have hloc := (located_alt E now).addNewBlock hn.located (fun _ => trivial) (fun _ => trivial) hr
  unfold KeepsZone at hk
  rw [hn.checkpoints] at hk
  -- without checkpoints no height is in the zone
  by_cases hcps : cps.keys = ∅
  · have hz : ∀ h, cps.isInCheckpointZone h = false := by
      intro h
      rw [Bool.eq_false_iff, Ne, isInCheckpointZone_iff]
      exact fun hk => hk.1 hcps
    obtain ⟨hc, hz'⟩ := (noCheckpoints_alt hcps).addNewBlock ⟨hn.checkpoints, hn.zone.trans (hz _)⟩
      (fun _ => trivial) (fun _ => trivial) hr
    exact ⟨hc, hz'.trans (hz _).symm, hloc⟩
  rcases hk with hk | hk | ⟨hprev, halt, hindex⟩ | ⟨hlen, hb, halts⟩ | ⟨hlen, hb, halts⟩
  · exact absurd hk hcps
  · rw [addNewBlock, if_pos hk] at hr
    rw [← Option.some.inj hr]
    exact hn
  · -- an orphan is only reported
    have hsame : r.2.2 = n := by
      unfold addNewBlock at hr
      split_ifs at hr
      · rw [← Option.some.inj hr]
      · cases fuel with
        | zero => simp [handleAlternativeBlock] at hr
        | succ fuel =>
          simp only [handleAlternativeBlock, halt, hindex, Option.isNone_none, Bool.and_self,
            if_true] at hr
          split_ifs at hr
          · rw [← Option.some.inj hr]
          · rw [← Option.some.inj hr]
    rw [hsame]
    exact hn
  · have hbelow := (below_alt hcps).addNewBlock (Below.of_zoneRight hcps hn hlen halts)
      (fun _ => hb) (fun _ => hb) hr
    exact ⟨hbelow.checkpoints, hbelow.zone.trans
      (isInCheckpointZone_iff.mpr ⟨hcps, hbelow.length⟩).symm, hloc⟩
  · -- from here the chain stays above the zone through every switch of the call
    have habove := Above.of_zoneRight hn hlen halts
    suffices h : Above E cps {id | ∃ h < cps.getTopCheckpointHeight, n.blocksIndex.get id = some h}
        r.2.2 from ⟨h.checkpoints, h.zone.trans (isInCheckpointZone_above h.length).symm, hloc⟩
    by_cases hpassed : getBlockHeight b ≤ cps.getTopCheckpointHeight ∧
        b.prevId ≠ getTopBlockId E n.blocks
    · -- the height it declares is refused before anything is written
      have hpass := isHeightPassedZone_of_le hcps hpassed.1
        (show cps.getTopCheckpointHeight ≤ n.blocks.length - 1 by omega)
      rw [← hn.checkpoints] at hpass
      have hsame : r.2.2 = n := by
        unfold addNewBlock at hr
        split_ifs at hr
        · rw [← Option.some.inj hr]
        · cases fuel with
          | zero => simp [handleAlternativeBlock] at hr
          | succ fuel =>
            simp only [handleAlternativeBlock, hpass, if_true] at hr
            rw [← Option.some.inj hr]
        · exact absurd hpassed.2 (by assumption)
      rw [hsame]
      exact habove
    · refine above_alt.addNewBlock habove (fun hprev => ?_) (fun _ => trivial) hr
      rintro ⟨h, hlt, hget⟩
      rcases hb with hb | hb | hb
      · exact hprev hb
      · exact hpassed ⟨hb, hprev⟩
      · have := hb h hget
        omega

end Zone

/-- `sig` signs the input `inp` with the ring its offsets name. -/
def SignedBy (E : Env) (s : TxIndex) (now height : ℕ) (txPrefixHash : Hash) (inp : Txin)
    (sig : List Signature) : Prop :=
  ∃ txin ring maxHeight, inp = .toKey txin ∧
    s.scanOutputkeysForIndexes now height txin = some (ring, maxHeight) ∧
    sig.length = ring.length ∧ E.checkRingSignature txPrefixHash txin.kImage ring sig = true

/-- Outside the zone the loop of `check_tx_inputs` verifies one signature for each input. -/
theorem checkTxInputsGo_signed {E : Env} {s : TxIndex} {now height : ℕ} {ph : Hash}
    {vin : List Txin} {sigs : List (List Signature)} {m r : ℕ}
    (h : TxIndex.checkTxInputsGo E s now height false ph vin sigs m = some r) :
    List.Forall₂ (SignedBy E s now height ph) vin sigs := by
  induction vin generalizing sigs m with
  | nil =>
    simp only [TxIndex.checkTxInputsGo, Bool.false_or] at h
    split_ifs at h with hs
    rw [List.isEmpty_iff] at hs
    rw [hs]
    exact .nil
  | cons i l ih =>
    cases i with
    | toKey txin =>
      obtain ⟨-, -, hne, m', hc, hgo⟩ := checkTxInputsGo_cons.mp h
      cases sigs with
      | nil => simp at hne
      | cons sig sigs =>
        refine .cons ?_ (ih hgo)
        simp only [Bool.false_eq_true, if_false, List.headD_cons, TxIndex.checkTxInput] at hc
        cases hscan : s.scanOutputkeysForIndexes now height txin with
        | none => simp [hscan] at hc
        | some q =>
          obtain ⟨ring, maxHeight⟩ := q
          simp only [hscan] at hc
          split_ifs at hc with h1 h2
          simp only [Bool.and_eq_true, decide_eq_true_eq] at h2
          exact ⟨txin, ring, maxHeight, rfl, hscan, h2.1.2, h2.2⟩
    | gen g => simp [TxIndex.checkTxInputsGo] at h
    | toScript a b c => simp [TxIndex.checkTxInputsGo] at h
    | toScripthash a b c d => simp [TxIndex.checkTxInputsGo] at h

theorem checkTxInputs_signed {E : Env} {n : Node} {now : ℕ} {tx : Transaction} {r : ℕ × Hash}
    (hz : n.isInCheckpointZone = false)
    (h : (n.view E now).checkTxInputs n.txs.index tx = some r) :
    List.Forall₂ (SignedBy E n.txs.index now n.blocks.length (getTransactionHash E tx)) tx.vin
      tx.signatures := by
  simp only [ChainView.checkTxInputs, Node.view, hz] at h
  cases hc : TxIndex.checkTxInputs E n.txs.index now n.blocks.length false tx with
  | none => simp [hc] at h
  | some m => exact checkTxInputsGo_signed hc

/-- From any node that sets checkpoints, as long as the blocks that come in stay on their side of the
last one, the flag says whether the next block lies in the zone, and above it the ring signature of
every input is verified. -/
theorem zone_flag_of_run (E : Env) (cps₀ cps : Checkpoints) (n₀ n : Node) (events : List Event)
    (h₀ : Reachable E cps₀ n₀)
    (hm : RunMeets E (Event.KeepsZone E) (setCheckpoints n₀ cps) events)
    (hr : run E (setCheckpoints n₀ cps) events = some n) :
    n.isInCheckpointZone = cps.isInCheckpointZone n.blocks.length ∧
      (cps.isInCheckpointZone n.blocks.length = false → ∀ now tx r,
        (n.view E now).checkTxInputs n.txs.index tx = some r →
          List.Forall₂ (SignedBy E n.txs.index now n.blocks.length (getTransactionHash E tx)) tx.vin
            tx.signatures) := by
  obtain ⟨hs, halts, hc, hz⟩ := setCheckpoints_effect n₀ cps
  have hstart : ZoneRight E cps (setCheckpoints n₀ cps) := by
    refine ⟨hc, by rw [hz, hs.blocks], (located_of_reachable h₀).of_same hs fun id bei hget => ?_⟩
    rwa [halts] at hget
  have hzone : ZoneRight E cps n := by
    refine hm.invariant (fun m m' e hn he happly => ?_) hstart hr
    cases e with
    | block now fuel bl =>
      obtain ⟨r, hr, rfl⟩ := Option.map_eq_some_iff.mp happly
      exact zoneRight_block hn he hr
    | _ =>
      obtain ⟨hs', hc', hz', halts'⟩ := Event.effect rfl happly
      refine ⟨hc'.trans hn.checkpoints, ?_, hn.located.of_same hs' halts'⟩
      rw [hz', hs'.blocks]
      exact hn.zone
  exact ⟨hzone.zone, fun hout now tx r hcheck => checkTxInputs_signed (hzone.zone.trans hout) hcheck⟩

/-- One checkpoint behind the genesis block. -/
def firstCheckpoint : Checkpoints := (∅ : Checkpoints).set 1 0

/-- A side block above the last checkpoint does not change the flag. -/
theorem zone_flag_sampleSide : ∃ n₀ n events, Reachable sampleEnv ∅ n₀ ∧ events.length = 1 ∧
    n.alternativeChains.keys.card = 1 ∧
    RunMeets sampleEnv (Event.KeepsZone sampleEnv)
      (setCheckpoints n₀ firstCheckpoint) events ∧
    run sampleEnv (setCheckpoints n₀ firstCheckpoint) events = some n ∧
    n.isInCheckpointZone = firstCheckpoint.isInCheckpointZone n.blocks.length := by
  let side (n : Node) : Block := sampleBlock sampleEnv (n.blocks.take 2) 1 [] 0 sampleKey
  have hdec : (sampleNode ∅ 2).map (fun n =>
      decide (n.blocks.length = 3) && decide (n.alternativeChains.keys = ∅) &&
        decide (n.blocksIndex.get (side n).prevId = some 1) &&
        decide (((run sampleEnv (setCheckpoints n firstCheckpoint) [.block 0 2 (side n)]).map
          fun n' => n'.alternativeChains.keys.card) = some 1)) = some true := by
    decide +kernel
  obtain ⟨n₀, hn₀, hview⟩ := Option.map_eq_some_iff.mp hdec
  simp only [Bool.and_eq_true, decide_eq_true_eq] at hview
  obtain ⟨⟨⟨hlen, halts⟩, hindex⟩, hrun⟩ := hview
  obtain ⟨n, hrun, hcard⟩ := Option.map_eq_some_iff.mp hrun
  obtain ⟨hs, ha, hc, -⟩ := setCheckpoints_effect n₀ firstCheckpoint
  have htop : firstCheckpoint.getTopCheckpointHeight = 1 := by decide
  have hmeets : RunMeets sampleEnv (Event.KeepsZone sampleEnv) (setCheckpoints n₀ firstCheckpoint)
      [.block 0 2 (side n₀)] := by
    refine ⟨Or.inr (Or.inr (Or.inr (Or.inr ⟨?_, Or.inr (Or.inr fun h hget => ?_), ?_⟩))),
      fun _ _ => trivial⟩
    · rw [hc, hs.blocks, htop, hlen]
      decide
    · rw [hs.blocksIndex, hindex] at hget
      rw [hc, htop]
      exact (Option.some.inj hget).le
    · intro id bei hget
      have hmem := Map.mem_keys.mpr ⟨bei, hget⟩
      rw [ha, halts] at hmem
      simp at hmem
  exact ⟨n₀, n, _, reachable_sampleNode hn₀, rfl, hcard, hmeets, hrun,
    (zone_flag_of_run sampleEnv ∅ firstCheckpoint n₀ n _ (reachable_sampleNode hn₀) hmeets hrun).1⟩

/-- Behind the block of the last checkpoint the flag is still set, and an input without a signature
passes. -/
theorem zone_flag_stale : ∃ cps n₀ n events tx r, Reachable sampleEnv ∅ n₀ ∧
    (∀ e ∈ events, Event.isBlock e = true) ∧
    run sampleEnv (setCheckpoints n₀ cps) events = some n ∧
    n.isInCheckpointZone ≠ cps.isInCheckpointZone n.blocks.length ∧
    cps.isInCheckpointZone n.blocks.length = false ∧
    (n.view sampleEnv 0).checkTxInputs n.txs.index tx = some r ∧
    ¬List.Forall₂ (SignedBy sampleEnv n.txs.index 0 n.blocks.length
      (getTransactionHash sampleEnv tx)) tx.vin tx.signatures := by
  let next (n : Node) : Block := sampleBlock sampleEnv n.blocks 0 [] 0 sampleKey
  let cps (n : Node) : Checkpoints :=
    (∅ : Checkpoints).set n.blocks.length (getBlockHash sampleEnv (next n))
  have hdec : (sampleNode ∅ 10).map (fun n =>
      (run sampleEnv (setCheckpoints n (cps n)) [.block 0 1 (next n)]).map fun n' =>
        decide (n'.isInCheckpointZone = true) &&
        decide ((cps n).isInCheckpointZone n'.blocks.length = false) &&
        ((n'.view sampleEnv 0).checkTxInputs n'.txs.index (sampleSpend 1)).isSome) =
      some (some true) := by
    decide +kernel
  obtain ⟨n₀, hn₀, hview⟩ := Option.map_eq_some_iff.mp hdec
  obtain ⟨n, hrun, hview⟩ := Option.map_eq_some_iff.mp hview
  simp only [Bool.and_eq_true, decide_eq_true_eq] at hview
  obtain ⟨⟨hflag, hzone⟩, hcheck⟩ := hview
  obtain ⟨r, hr⟩ := Option.isSome_iff_exists.mp hcheck
  refine ⟨cps n₀, n₀, n, _, sampleSpend 1, r, reachable_sampleNode hn₀, by simp [Event.isBlock], hrun,
    ?_, hzone, hr, fun hsigned => ?_⟩
  · rw [hflag, hzone]
    decide
  · simpa [sampleSpend] using hsigned.length_eq

end Boolberry
