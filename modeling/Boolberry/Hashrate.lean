import Boolberry.CheckpointZone
import Boolberry.Finality

/-!
# The hash rate

`get_current_hashrate` divides the work of a window of blocks by the difference of two timestamps. Nothing
in the rules for blocks makes timestamps grow, so the difference is right where the blocks themselves do.
-/

namespace Boolberry
open KeyValue

/-- `get_current_hashrate`; `none` for a division by zero or a block that is not there. -/
def getCurrentHashrate (blocks : List BlockExtendedInfo) (aproxCount : UInt64) : Option UInt64 :=
  if blocks.length ≤ aproxCount.toNat then some 0
  else
    match blocks.getLast?, blocks[blocks.length - aproxCount.toNat]? with
    | some back, some first =>
        let span := back.bl.timestamp - first.bl.timestamp
        if span = 0 then none
        else some (UInt64.ofNat ((back.cumulativeDifficulty - first.cumulativeDifficulty).toNat / span.toNat))
    | _, _ => none

/-- The span of every window that is divided by is positive and the difference of the two timestamps. -/
def SpansExact (blocks : List BlockExtendedInfo) : Prop :=
  ∀ aproxCount : UInt64, 2 ≤ aproxCount.toNat → aproxCount.toNat < blocks.length →
    ∃ back first, blocks.getLast? = some back ∧ blocks[blocks.length - aproxCount.toNat]? = some first ∧
      0 < (back.bl.timestamp - first.bl.timestamp).toNat ∧
      ((back.bl.timestamp - first.bl.timestamp).toNat : ℤ) =
        (back.bl.timestamp.toNat : ℤ) - first.bl.timestamp.toNat ∧
      getCurrentHashrate blocks aproxCount =
        some (UInt64.ofNat ((back.cumulativeDifficulty - first.cumulativeDifficulty).toNat /
          (back.bl.timestamp - first.bl.timestamp).toNat))

/-- A difference of timestamps is what it says and not zero exactly if the second is later. -/
theorem span_iff (a b : UInt64) : 0 < (b - a).toNat ∧ ((b - a).toNat : ℤ) = (b.toNat : ℤ) - a.toNat ↔ a < b := by
  rw [UInt64.lt_iff_toNat_lt]
  constructor
  · rintro ⟨hpos, heq⟩
    omega
  · intro hlt
    rw [UInt64.toNat_sub_of_le _ _ (by rw [UInt64.le_iff_toNat_le]; omega)]
    omega

theorem spansExact_of_later {blocks : List BlockExtendedInfo}
    (h : ∀ i back first, 0 < i → i + 1 < blocks.length → blocks.getLast? = some back →
      blocks[i]? = some first → first.bl.timestamp < back.bl.timestamp) : SpansExact blocks := by
  intro aproxCount htwo hlt
  obtain ⟨back, hback⟩ : ∃ back, blocks.getLast? = some back :=
    ⟨_, List.getLast?_eq_getLast_of_ne_nil (List.ne_nil_of_length_pos (by omega))⟩
  obtain ⟨first, hfirst⟩ : ∃ first, blocks[blocks.length - aproxCount.toNat]? = some first :=
    ⟨_, List.getElem?_eq_getElem (by omega)⟩
  have hlater := h (blocks.length - aproxCount.toNat) back first (by omega) (by omega) hback hfirst
  obtain ⟨hspan, hexact⟩ := (span_iff _ _).mpr hlater
  have hne : back.bl.timestamp - first.bl.timestamp ≠ 0 := by
    intro hzero
    rw [hzero] at hspan
    exact absurd hspan (by decide)
  refine ⟨back, first, hback, hfirst, hspan, hexact, ?_⟩
  rw [getCurrentHashrate, if_neg (Nat.not_le.mpr hlt), hback, hfirst]
  dsimp only
  rw [if_neg hne]

/-- Every block of the node is one of `B`. -/
structure BlocksFrom (B : Set Block) (n : Node) : Prop where
  main : ∀ bei ∈ n.blocks, bei.bl ∈ B
  alts : ∀ id bei, n.alternativeChains.get id = some bei → bei.bl ∈ B

theorem BlocksFrom.of_same {B : Set Block} {n n' : Node} (h : BlocksFrom B n) (hs : SameBlocks n n')
    (halts : ∀ id bei, n'.alternativeChains.get id = some bei → n.alternativeChains.get id = some bei) :
    BlocksFrom B n' :=
  ⟨by rw [hs.blocks]; exact h.main, fun id bei hget => h.alts id bei (halts id bei hget)⟩

theorem blocksFrom_alt (E : Env) (now : ℕ) (B : Set Block) :
    AltInvariant E now (BlocksFrom B) (· ∈ B) (· ∈ B) (fun _ => True) where
  push n bvc bl hn hbl := by
    obtain ⟨hf, hput⟩ := handleBlockToMainChain_effect E now bvc n bl
    rcases hput with ⟨-, hnot⟩ | ⟨-, hput⟩
    · exact hn.of_same hnot.same fun id bei hget => by rwa [hf.alternativeChains] at hget
    · obtain ⟨bei, rfl, -, hblocks⟩ := hput.blocks
      refine ⟨fun bei' hmem => ?_, fun id bei' hget => hn.alts id bei' (by rwa [hf.alternativeChains] at hget)⟩
      rw [hblocks] at hmem
      rcases List.mem_append.mp hmem with hmem | hmem
      · exact hn.main bei' hmem
      · rw [List.mem_singleton.mp hmem]
        exact hbl
  pop n _ hn _ _ := by
    obtain ⟨hf, -, hpop⟩ := popBlockFromBlockchain_effect E now n
    have halts : ∀ id bei, (popBlockFromBlockchain E now n).2.alternativeChains.get id = some bei → bei.bl ∈ B :=
      fun id bei hget => hn.alts id bei (by rwa [hf.alternativeChains] at hget)
    rcases hpop with hsame | ⟨bei, -, -, ⟨-, hblocks⟩ | hblocks⟩
    · exact ⟨by rw [hsame.blocks]; exact hn.main, halts⟩
    · exact ⟨by rw [hblocks]; exact hn.main, halts⟩
    · exact ⟨fun bei' hmem => hn.main bei' (List.mem_of_mem_dropLast (hblocks ▸ hmem)), halts⟩
  invalid n bei id hn := by
    obtain ⟨-, hf⟩ := addBlockAsInvalid_stores n bei id
    exact hn.of_same (addBlockAsInvalid_effect n bei id).1
      fun id' bei' hget => by rwa [hf.alternativeChains] at hget
  erase n id hn := hn.of_same ⟨rfl, rfl⟩ fun id' bei' hget => by
    rw [Map.get_erase] at hget
    split_ifs at hget
    exact hget
  add bvc n b a hn hb _ _ _ := by
    have heff := addAlternativeBlock_effect E bvc n b a
    split
    · rename_i r hr
      rw [hr] at heff
      obtain ⟨-, hs, hf, -⟩ := heff
      exact hn.of_same ⟨congrArg ChainStores.blocks hs, congrArg ChainStores.blocksIndex hs⟩
        fun id bei hget => by rwa [hf.alternativeChains] at hget
    · rename_i r hr
      obtain ⟨altChain, n'⟩ := r
      obtain ⟨hs, -, -, bei, rfl, -, -, -, -, -, halts⟩ := addAlternativeBlock_taken hr
      refine ⟨⟨?_, fun id bei' hget => ?_⟩, fun _ _ => trivial⟩
      · rw [hs]
        exact hn.main
      · rw [halts, Map.get_set] at hget
        split_ifs at hget
        · rw [← Option.some.inj hget]
          exact hb
        · exact hn.alts id bei' hget
  main n _ h bei hn _ _ hbei := ⟨hn.main bei (List.mem_of_getElem? hbei), hn.main bei (List.mem_of_getElem? hbei)⟩
  alt n id bei hn hget := hn.alts id bei hget

theorem blocksFrom_event {E : Env} {B : Set Block} {n n' : Node} {e : Event} (hn : BlocksFrom B n)
    (hb : ∀ now fuel bl, e = .block now fuel bl → bl ∈ B) (he : e.apply E n = some n') : BlocksFrom B n' := by
  by_cases hblock : e.isBlock = true
  · cases e with
    | block now fuel bl =>
      obtain ⟨r, hr, rfl⟩ := Option.map_eq_some_iff.mp he
      exact (blocksFrom_alt E now B).addNewBlock hn (fun _ => hb now fuel bl rfl) (fun _ => hb now fuel bl rfl) hr
    | transaction now tx kept => simp [Event.isBlock] at hblock
    | removeStuck now order => simp [Event.isBlock] at hblock
    | pruneAltBlocks => simp [Event.isBlock] at hblock
  · obtain ⟨hs, -, -, halts⟩ := Event.effect (by simpa using hblock) he
    exact hn.of_same hs halts

theorem blocksFrom_start {E : Env} {cps : Checkpoints} {now : ℕ} {n₀ : Node} {events : List Event}
    (hinit : initNode E now cps = some n₀) : BlocksFrom (blocksIn events) n₀ := by
  obtain ⟨c, hgenesis, -, -, hrep, halts, -⟩ := initNode_spec hinit
  refine ⟨fun bei hmem => ?_, fun id bei hget => ?_⟩
  · rw [hrep.blocks] at hmem
    rw [List.mem_singleton.mp hmem, hgenesis]
    exact Set.mem_insert _ _
  · rw [halts] at hget
    simp at hget

theorem blocksFrom_run {E : Env} {cps : Checkpoints} {now : ℕ} {n₀ n : Node} {events : List Event}
    (hinit : initNode E now cps = some n₀) (hrun : run E n₀ events = some n) : BlocksFrom (blocksIn events) n := by
  refine run_induction (Q := fun e => ∀ now fuel bl, e = .block now fuel bl → bl ∈ blocksIn events)
    (fun _ _ _ hn hq he => blocksFrom_event hn hq he) (blocksFrom_start hinit) ?_ hrun
  rintro e he now' fuel bl rfl
  exact Set.mem_insert_of_mem _ ⟨now', fuel, he⟩

theorem delivered_above_genesis {E : Env} {cps : Checkpoints} {now : ℕ} {n₀ n : Node} {events : List Event}
    (hinit : initNode E now cps = some n₀) (hrun : run E n₀ events = some n) {i : ℕ} (hpos : 0 < i)
    {bei : BlockExtendedInfo} (hbei : n.blocks[i]? = some bei) : ∃ now fuel, Event.block now fuel bei.bl ∈ events := by
  rcases (blocksFrom_run hinit hrun).main bei (List.mem_of_getElem? hbei) with hgenesis | hdelivered
  · have hheight := (located_of_reachable ⟨now, n₀, events, hinit, hrun⟩).declared i bei hbei
    rw [hgenesis] at hheight
    exact absurd hheight.symm hpos.ne'
  · exact hdelivered

/-- Of the blocks that come in, each is later than the one it names as the block before it. -/
def ChildrenLater (E : Env) (events : List Event) : Prop :=
  ∀ now fuel b now' fuel' b', Event.block now fuel b ∈ events → Event.block now' fuel' b' ∈ events →
    b'.prevId = getBlockHash E b → b.timestamp < b'.timestamp

/-- Where children are later, every span is exact. -/
theorem spans_exact_of_later (E : Env) (cps : Checkpoints) (now : ℕ) (n₀ n : Node) (events : List Event)
    (hinit : initNode E now cps = some n₀) (hrun : run E n₀ events = some n) (hlater : ChildrenLater E events) :
    SpansExact n.blocks := by
  have hstep : ∀ i a b, 0 < i → n.blocks[i]? = some a → n.blocks[i + 1]? = some b →
      a.bl.timestamp < b.bl.timestamp := by
    intro i a b hpos ha hb
    obtain ⟨now₁, fuel₁, h₁⟩ := delivered_above_genesis hinit hrun hpos ha
    obtain ⟨now₂, fuel₂, h₂⟩ := delivered_above_genesis hinit hrun (Nat.succ_pos i) hb
    exact hlater _ _ _ _ _ _ h₁ h₂
      ((located_of_reachable ⟨now, n₀, events, hinit, hrun⟩).linked i a b ha hb)
  refine spansExact_of_later fun i back first hpos hi hback hfirst => ?_
  rw [List.getLast?_eq_getElem?] at hback
  -- the later of the two indices goes up from the one behind the earlier
  have hall : ∀ j, i + 1 ≤ j → ∀ b, n.blocks[j]? = some b → first.bl.timestamp < b.bl.timestamp := by
    intro j hj
    induction j, hj using Nat.le_induction with
    | base => exact fun b hb => hstep i first b hpos hfirst hb
    | succ j hj ih =>
      intro b hb
      have hlt : j < n.blocks.length := by
        have := (List.getElem?_eq_some_iff.mp hb).1
        omega
      have hmid := List.getElem?_eq_getElem hlt
      exact UInt64.lt_trans (ih _ hmid) (hstep j _ b (by omega) hmid hb)
  exact hall (n.blocks.length - 1) (by omega) back hback

/-- The next block with a timestamp of its own. -/
def timedBlock (t : UInt64) (n : Node) : Block :=
  { sampleBlock sampleEnv n.blocks 0 [] 0 sampleKey with timestamp := t }

/-- Two blocks with these timestamps come in. -/
def timedRun (t₁ t₂ : UInt64) : Option (Node × Block × Block × Node) :=
  (initNode sampleEnv 0 ∅).bind fun n₀ =>
    (run sampleEnv n₀ [.block 0 1 (timedBlock t₁ n₀)]).bind fun n₁ =>
      (run sampleEnv n₀ [.block 0 1 (timedBlock t₁ n₀), .block 0 1 (timedBlock t₂ n₁)]).map fun n =>
        (n₀, timedBlock t₁ n₀, timedBlock t₂ n₁, n)

theorem timedRun_run {t₁ t₂ : UInt64} {n₀ n : Node} {b₁ b₂ : Block} (h : timedRun t₁ t₂ = some (n₀, b₁, b₂, n)) :
    initNode sampleEnv 0 ∅ = some n₀ ∧ run sampleEnv n₀ [.block 0 1 b₁, .block 0 1 b₂] = some n := by
  obtain ⟨n₀', hinit, h⟩ := Option.bind_eq_some_iff.mp h
  obtain ⟨n₁, -, h⟩ := Option.bind_eq_some_iff.mp h
  obtain ⟨n', hrun, heq⟩ := Option.map_eq_some_iff.mp h
  simp only [Prod.mk.injEq] at heq
  obtain ⟨rfl, rfl, rfl, rfl⟩ := heq
  exact ⟨hinit, hrun⟩

/-- With one and two minutes on the clock the spans are exact. -/
theorem spans_exact_of_later_minutes : ∃ n₀ n events, initNode sampleEnv 0 ∅ = some n₀ ∧
    run sampleEnv n₀ events = some n ∧ n.blocks.length = 3 ∧ SpansExact n.blocks := by
  have hdec : (timedRun 60 120).map (fun r => decide (r.2.2.2.blocks.length = 3) &&
      decide (∀ b ∈ [r.2.1, r.2.2.1], ∀ b' ∈ [r.2.1, r.2.2.1], b'.prevId = getBlockHash sampleEnv b →
        b.timestamp < b'.timestamp)) = some true := by decide +kernel
  obtain ⟨⟨n₀, b₁, b₂, n⟩, hr, hd⟩ := Option.map_eq_some_iff.mp hdec
  obtain ⟨hinit, hrun⟩ := timedRun_run hr
  simp only [Bool.and_eq_true, decide_eq_true_eq] at hd
  refine ⟨n₀, n, _, hinit, hrun, hd.1, spans_exact_of_later sampleEnv ∅ 0 n₀ n _ hinit hrun ?_⟩
  have hmem : ∀ {now fuel : ℕ} {b : Block}, Event.block now fuel b ∈ [Event.block 0 1 b₁, .block 0 1 b₂] →
      b ∈ [b₁, b₂] := by
    intro now fuel b h
    rcases List.mem_pair.mp h with h | h
    · exact List.mem_pair.mpr (Or.inl (Event.block.inj h).2.2)
    · exact List.mem_pair.mpr (Or.inr (Event.block.inj h).2.2)
  exact fun _ _ b _ _ b' h h' hprev => hd.2 b (hmem h) b' (hmem h') hprev

/-- With equal timestamps the window of two blocks divides by zero. -/
theorem equal_times_divide_by_zero :
    ¬∀ (E : Env) (cps : Checkpoints) (n : Node), Reachable E cps n → SpansExact n.blocks := by
  intro hall
  have hdec : (timedRun 0 0).map (fun r => decide (r.2.2.2.blocks.length = 3) &&
      decide (getCurrentHashrate r.2.2.2.blocks 2 = none)) = some true := by decide +kernel
  obtain ⟨⟨n₀, b₁, b₂, n⟩, hr, hd⟩ := Option.map_eq_some_iff.mp hdec
  obtain ⟨hinit, hrun⟩ := timedRun_run hr
  simp only [Bool.and_eq_true, decide_eq_true_eq] at hd
  have hspans := hall sampleEnv ∅ n ⟨0, n₀, _, hinit, hrun⟩
  obtain ⟨_, _, -, -, -, -, hsome⟩ := hspans 2 (by decide) (by rw [hd.1]; decide)
  rw [hd.2] at hsome
  cases hsome

end Boolberry
