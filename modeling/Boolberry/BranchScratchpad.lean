import Boolberry.Branches
import Boolberry.Switching

/-!
# The scratchpad of a branch

The lookup of `handle_alternative_block` never builds the scratchpad of a branch:
it reads the entries the branch appends, or those of the main chain with the
patches of the blocks above the connection taken back. Both chains grow out of
the scratchpad at the connection in the same way, as entries behind it and one
patch over all, so the two readings agree cell by cell.
-/

namespace Boolberry
open KeyValue XorPatch

/-- The scratchpad after a run of blocks. -/
def pushBlocks (E : Env) (bls : List Block) (s : List Hash) : List Hash :=
  bls.foldl (fun s b => pushBlockScratchpadData E b s) s

/-- Each record's offset is the size of a scratchpad of `base` cells with the entries of the blocks
before it. -/
def OffsetsOK (E : Env) (base : ℕ) (l : List BlockExtendedInfo) : Prop :=
  ∀ pre bei post, l = pre ++ bei :: post →
    bei.scratchOffset = base + (altScratchpad E pre).1.length

theorem altScratchpad_append_singleton (E : Env) (l : List BlockExtendedInfo)
    (bei : BlockExtendedInfo) :
    altScratchpad E (l ++ [bei]) = ((altScratchpad E l).1 ++ blockAddendum E bei.bl,
      getScratchpadPatch bei.scratchOffset (blockAddendum E bei.bl) (altScratchpad E l).2) := by
  simp [altScratchpad, List.foldl_append, pushBlockScratchpadDataPatch]

theorem pushBlocks_append_singleton (E : Env) (bls : List Block) (b : Block) (s : List Hash) :
    pushBlocks E (bls ++ [b]) s = pushBlockScratchpadData E b (pushBlocks E bls s) := by
  simp [pushBlocks, List.foldl_append]

/-- Collecting into a patch adds up with what it holds. -/
theorem val_getScratchpadPatch (g : ℕ) (l : List Hash) (p : Map ℕ Hash) (i : ℕ) :
    val (getScratchpadPatch g l p) i = val p i ^^^ val (getScratchpadPatch g l ∅) i := by
  unfold getScratchpadPatch
  split_ifs
  · simp
  · simp [val_collect]

/-- A run of blocks appends its entries and applies its patch to everything. -/
theorem pushBlocks_eq {E : Env} {s : List Hash} {l : List BlockExtendedInfo}
    (h : OffsetsOK E s.length l) :
    pushBlocks E (l.map BlockExtendedInfo.bl) s =
        apply (altScratchpad E l).2 (s ++ (altScratchpad E l).1) ∧
      ∀ i, s.length + (altScratchpad E l).1.length ≤ i → val (altScratchpad E l).2 i = 0 := by
  induction l using List.reverseRecOn with
  | nil =>
    refine ⟨?_, fun i _ => by simp [altScratchpad]⟩
    refine List.ext_getElem? fun i => ?_
    rw [getElem?_apply]
    simp [pushBlocks, altScratchpad]
  | append_singleton l bei ih =>
    obtain ⟨heq, hzero⟩ := ih fun pre bei' post hl =>
      h pre bei' (post ++ [bei]) (by rw [hl]; simp)
    have hoff : bei.scratchOffset = s.length + (altScratchpad E l).1.length := h l bei [] rfl
    have hsize : (s ++ (altScratchpad E l).1).length = bei.scratchOffset := by
      rw [List.length_append, hoff]
    rw [altScratchpad_append_singleton, List.map_append, List.map_singleton,
      pushBlocks_append_singleton, pushBlockScratchpadData_eq, heq, apply_length, hsize]
    generalize altScratchpad E l = r at *
    generalize hp : getScratchpadPatch bei.scratchOffset (blockAddendum E bei.bl) ∅ = p
    have hp0 : ∀ i, bei.scratchOffset ≤ i → val p i = 0 := fun i hi =>
      hp ▸ val_getScratchpadPatch_of_le _ hi
    have hval : ∀ i, val (getScratchpadPatch bei.scratchOffset (blockAddendum E bei.bl) r.2) i =
        val r.2 i ^^^ val p i := fun i => hp ▸ val_getScratchpadPatch _ _ _ i
    refine ⟨?_, fun i hi => ?_⟩
    · refine List.ext_getElem? fun i => ?_
      rw [getElem?_apply, hval, ← List.append_assoc]
      by_cases hi : i < bei.scratchOffset
      · rw [List.getElem?_append_left (by simpa [hsize] using hi),
          List.getElem?_append_left (by omega), getElem?_apply, getElem?_apply]
        cases (s ++ r.1)[i]? with
        | none => rfl
        | some v => simp [BitVec.xor_assoc]
      · -- neither patch reaches the new entries
        have hi' := Nat.not_lt.mp hi
        rw [List.getElem?_append_right (by simpa [hsize] using hi'),
          List.getElem?_append_right (by omega), apply_length, apply_length, hp0 i hi',
          hzero i (by omega)]
        simp
    · simp only [List.length_append] at hi
      simp [hval, hp0 i (by omega), hzero i (by omega)]

theorem mainLinePatches_eq {E : Env} {l : List BlockExtendedInfo}
    (h : ∀ bei ∈ l, Readable E bei.bl) :
    mainLinePatches E l ∅ = some (altScratchpad E l).2 := by
  suffices hgo : ∀ (l : List BlockExtendedInfo) (r : List Hash × Map ℕ Hash),
      (∀ bei ∈ l, Readable E bei.bl) → mainLinePatches E l r.2 =
        some (l.foldl (fun r bei =>
          pushBlockScratchpadDataPatch E bei.scratchOffset bei.bl r.1 r.2) r).2 from
    hgo l ([], ∅) h
  intro l
  induction l with
  | nil => exact fun r _ => rfl
  | cons bei l ih =>
    intro r hr
    have hb : (getBlockScratchpadAddendum E bei.bl).1 = true := hr bei (by simp)
    unfold mainLinePatches
    simp only [hb, if_true, List.foldl_cons]
    exact ih (pushBlockScratchpadDataPatch E bei.scratchOffset bei.bl r.1 r.2)
      fun bei' hb' => hr bei' (by simp [hb'])

theorem pushBlocks_length (E : Env) (l : List BlockExtendedInfo) (s : List Hash) :
    (pushBlocks E (l.map BlockExtendedInfo.bl) s).length =
      s.length + (altScratchpad E l).1.length := by
  induction l using List.reverseRecOn with
  | nil => simp [pushBlocks, altScratchpad]
  | append_singleton l bei ih =>
    rw [List.map_append, List.map_singleton, pushBlocks_append_singleton,
      pushBlockScratchpadData_length, ih, altScratchpad_append_singleton, List.length_append,
      Nat.add_assoc]

theorem scratchpadOf_append (E : Env) (bs bs' : List BlockExtendedInfo) :
    scratchpadOf E (bs ++ bs') = pushBlocks E (bs'.map BlockExtendedInfo.bl) (scratchpadOf E bs) := by
  simp [scratchpadOf, pushBlocks, List.foldl_append, List.foldl_map]

theorem ValidChain.offsetsOK {E : Env} {cps : Checkpoints} {t : ℕ} {pre post : List ChainBlock}
    (hv : ValidChain E cps t (pre ++ post)) :
    OffsetsOK E (scratchpadOf E (blocksOf pre)).length (blocksOf post) := by
  intro p₁ bei p₂ hp
  obtain ⟨l₁, l₂, rfl, rfl, hl₂⟩ := List.map_eq_append_iff.mp hp
  obtain ⟨c, l₃, rfl, rfl, rfl⟩ := List.map_eq_cons_iff.mp hl₂
  obtain ⟨cps', hn, -⟩ := hv.validNext (List.append_assoc ..).symm
  obtain ⟨r, d, -, hbei⟩ := hn.record
  rw [hbei, blocksOf_append, scratchpadOf_append]
  exact pushBlocks_length E _ _

theorem AltBranch.offsetsOK {E : Env} {blocks branch : List BlockExtendedInfo} {split : ℕ}
    (hb : AltBranch E blocks split branch) :
    OffsetsOK E (scratchOffsetAt blocks split) branch := by
  induction hb with
  | nil => intro pre bei post h; simp at h
  | @snoc branch bei hb hn ih =>
    intro pre bei' post h
    rcases List.eq_nil_or_concat' post with rfl | ⟨post, e, rfl⟩
    · obtain ⟨rfl, hbei⟩ := List.append_inj' h rfl
      obtain rfl := List.singleton_injective hbei
      exact hn.scratchOffset
    · rw [← List.cons_append, ← List.append_assoc] at h
      exact ih pre bei' post (List.append_inj' h rfl).1

theorem scratchOffsetAt_blocksOf {E : Env} {cps : Checkpoints} {t : ℕ} {pre post : List ChainBlock}
    (hv : ValidChain E cps t (pre ++ post)) (hne : post ≠ []) :
    scratchOffsetAt (blocksOf (pre ++ post)) pre.length =
      (scratchpadOf E (blocksOf pre)).length := by
  obtain ⟨c, post', rfl⟩ := List.exists_cons_of_ne_nil hne
  have hget : (blocksOf (pre ++ c :: post'))[pre.length]? = some c.bei := by simp [blocksOf]
  have hoff := hv.offsetsOK [] c.bei (blocksOf post') (by simp [blocksOf])
  rw [scratchOffsetAt, hget]
  simpa [altScratchpad] using hoff

/-- A lookup is a read and an xor with the value of the patch. -/
theorem altScratchpadAccessor_val (scratchpad alt : List Hash) (base offset : ℕ)
    (patch : Map ℕ Hash) (index : UInt64) :
    altScratchpadAccessor scratchpad base offset alt patch index =
      (if base ≤ index.toNat % offset then alt.getD (index.toNat % offset - base) nullHash
        else scratchpad.getD (index.toNat % offset) nullHash) ^^^ val patch (index.toNat % offset) := by
  unfold altScratchpadAccessor val
  cases hg : patch.get (index.toNat % offset) <;> simp [hg]

theorem altScratchpadAccessor_eq {E : Env} {s : List Hash} {main branch : List BlockExtendedInfo}
    (hm : OffsetsOK E s.length main) (hb : OffsetsOK E s.length branch) (index : UInt64) :
    altScratchpadAccessor (pushBlocks E (main.map BlockExtendedInfo.bl) s) s.length
        (s.length + (altScratchpad E branch).1.length) (altScratchpad E branch).1
        (mergeBelow s.length (altScratchpad E branch).2 (altScratchpad E main).2) index =
      scratchpadAccessor (pushBlocks E (branch.map BlockExtendedInfo.bl) s) index := by
  obtain ⟨hmain, -⟩ := pushBlocks_eq hm
  obtain ⟨hbranch, hzero⟩ := pushBlocks_eq hb
  rw [altScratchpadAccessor_val, val_mergeBelow, scratchpadAccessor, pushBlocks_length, hbranch,
    hmain]
  simp only [List.getD_eq_getElem?_getD, getElem?_apply]
  generalize index.toNat % (s.length + (altScratchpad E branch).1.length) = i
  by_cases hi : i < s.length
  · -- below the connection: the patches of the main line cancel
    have hs : ∀ l : List Hash, (s ++ l)[i]? = some s[i] := fun l => by
      rw [List.getElem?_append_left hi, List.getElem?_eq_getElem hi]
    rw [if_neg (by omega), if_pos hi, hs, hs]
    simp only [Option.map_some, Option.getD_some]
    rw [BitVec.xor_comm (val (altScratchpad E branch).2 i), ← BitVec.xor_assoc,
      BitVec.xor_assoc s[i], BitVec.xor_self, BitVec.xor_zero]
  · have hi' := Nat.not_lt.mp hi
    rw [if_pos hi', if_neg hi, List.getElem?_append_right hi']
    cases hget : (altScratchpad E branch).1[i - s.length]? with
    | some v => simp
    | none =>
      have := List.getElem?_eq_none_iff.mp hget
      simp [hzero i (by omega)]

theorem scratchpadOf_eq_pushBlocks (E : Env) (bs : List BlockExtendedInfo) :
    scratchpadOf E bs = pushBlocks E (bs.map BlockExtendedInfo.bl) [] := by
  have := scratchpadOf_append E [] bs
  simpa [scratchpadOf] using this

theorem ValidChain.scratchpad_pos {E : Env} {cps : Checkpoints} {t : ℕ} {chain : List ChainBlock}
    (hv : ValidChain E cps t chain) : 0 < (scratchpadOf E (blocksOf chain)).length := by
  obtain ⟨pre, c, rfl⟩ := (List.eq_nil_or_concat' chain).resolve_left hv.ne_nil
  obtain ⟨cps', hn, -⟩ := hv.validNext rfl
  obtain ⟨info, hinfo⟩ := Option.isSome_iff_exists.mp hn.coinbase.extra.1
  have hparse : parseAndValidateTxExtra E c.bei.bl.minerTx = some info := hinfo
  have hone : blocksOf (pre ++ [c]) = blocksOf pre ++ [c.bei] := by simp [blocksOf]
  rw [hone, scratchpadOf_append_singleton, pushBlockScratchpadData_length]
  simp only [blockAddendum, getBlockScratchpadAddendum, hparse, List.length_append,
    List.length_cons]
  omega

/-- The scratchpad lookup for a block on a branch reads the scratchpad that popping the main chain
down to the connection and pushing the branch gives, so the proof of work of the block is the one the
main chain computes after the switch. -/
theorem alt_scratchpad_eq_main (E : Env) (cps : Checkpoints) (n : Node) (now : ℕ) (a : Attachment)
    (hreach : Reachable E cps n) (ha : Attached E n a) (h1 : 1 ≤ a.connectionHeight)
    (hlt : a.connectionHeight < n.blocks.length)
    (hread : ∀ bei ∈ n.blocks.drop a.connectionHeight, Readable E bei.bl) :
    ∃ popped n₀ patches,
      popBlocks E now a.connectionHeight (n.blocks.length - a.connectionHeight) n [] =
        .ok (popped, n₀) ∧
      mainLinePatches E (n.blocks.drop a.connectionHeight) ∅ = some patches ∧
      let base := scratchOffsetAt n.blocks a.connectionHeight
      let scratchpad := pushBlocks E (a.branch.map BlockExtendedInfo.bl) n₀.scratchpad.getScratchpad
      (∀ index, altScratchpadAccessor n.scratchpad.getScratchpad base
          (base + (altScratchpad E a.branch).1.length) (altScratchpad E a.branch).1
          (mergeBelow base (altScratchpad E a.branch).2 patches) index =
        scratchpadAccessor scratchpad index) ∧
      (∀ b, getNextDifficultyForAlternativeChain n.blocks a.branch (a.prevHeight + 1) ≠ 0 →
        ∃ bei, altProofOfWork E n b a = some (bei,
          getNextDifficultyForAlternativeChain n.blocks a.branch (a.prevHeight + 1),
          getBlockLonghash E b (a.connectionHeight + a.branch.length)
            (scratchpadAccessor scratchpad))) ∧
      (∀ n₁, connectAltChain E now popped a.connectionHeight a.altChain n₀ = .ok n₁ →
        n₁.blocks.length = a.connectionHeight + a.branch.length ∧
          n₁.scratchpad.getScratchpad = scratchpad) := by
  have hinv := chainInv_of_reachable hreach
  obtain ⟨F, chain, hcp, ⟨t, hv⟩, hrep⟩ := hinv
  -- the chain below the connection and the rest
  obtain ⟨pre, post, rfl, hpre⟩ : ∃ pre post, chain = pre ++ post ∧
      pre.length = a.connectionHeight := by
    refine ⟨_, _, (List.take_append_drop a.connectionHeight chain).symm, ?_⟩
    rw [hrep.blocks, blocksOf_length] at hlt
    rw [List.length_take]
    omega
  have hne : pre ≠ [] := by
    rintro rfl
    simp at hpre
    omega
  have hpost : post ≠ [] := by
    rintro rfl
    rw [hrep.blocks, blocksOf_length, List.append_nil] at hlt
    omega
  have hdrop : n.blocks.drop a.connectionHeight = blocksOf post := by
    rw [hrep.blocks, blocksOf_append, ← hpre]
    exact List.drop_left' (blocksOf_length pre)
  have hcount : n.blocks.length - a.connectionHeight = post.length := by
    rw [hrep.blocks, blocksOf_length, List.length_append, hpre]
    omega
  rw [hdrop] at hread
  obtain ⟨n₀, hpop, hrep₀, -, hf₀⟩ := popBlocks_spec now [] hv hrep hne
    fun c hc => hread c.bei (List.mem_map_of_mem hc)
  rw [hpre] at hpop
  refine ⟨_, n₀, (altScratchpad E (blocksOf post)).2, by rw [hcount]; exact hpop,
    by rw [hdrop]; exact mainLinePatches_eq hread, ?_⟩
  have hs₀ : n₀.scratchpad.getScratchpad = scratchpadOf E (blocksOf pre) := by
    rw [hrep₀.scratchpad]
    rfl
  have hs : n.scratchpad.getScratchpad =
      pushBlocks E ((blocksOf post).map BlockExtendedInfo.bl) (scratchpadOf E (blocksOf pre)) := by
    rw [hrep.scratchpad, ← scratchpadOf_append, ← blocksOf_append]
    rfl
  have hbase : scratchOffsetAt n.blocks a.connectionHeight =
      (scratchpadOf E (blocksOf pre)).length := by
    rw [hrep.blocks, ← hpre]
    exact scratchOffsetAt_blocksOf hv hpost
  have hb := ha.branch.offsetsOK
  rw [hbase] at hb
  have hlookup := altScratchpadAccessor_eq hv.offsetsOK hb
  rw [← hs, ← hs₀] at hlookup
  rw [← hs₀] at hbase
  simp only [hbase]
  refine ⟨hlookup, fun b hdiff => ?_, fun n₁ hconnect => ?_⟩
  · obtain ⟨connection, hc⟩ : ∃ c, n.blocks[a.connectionHeight]? = some c :=
      ⟨_, List.getElem?_eq_getElem hlt⟩
    have hoff : connection.scratchOffset = n₀.scratchpad.getScratchpad.length := by
      rw [← hbase, scratchOffsetAt, hc]
    have hpos : ¬n₀.scratchpad.getScratchpad.length + (altScratchpad E a.branch).1.length = 0 := by
      have := (hv.of_append hne).scratchpad_pos
      rw [hs₀]
      omega
    have h0 : ¬a.connectionHeight = 0 := by omega
    rw [ha.prevHeight] at hdiff
    refine ⟨⟨b, a.connectionHeight + a.branch.length, 0, 0, 0, 0,
      n₀.scratchpad.getScratchpad.length + (altScratchpad E a.branch).1.length⟩, ?_⟩
    simp only [altProofOfWork, h0, hc, hoff, hpos, hdrop, mainLinePatches_eq hread, ha.prevHeight,
      hdiff, if_false]
    rw [funext hlookup]
  · have hinv₀ : ChainInv E cps n₀ :=
      ⟨_, pre, hf₀.checkpoints.trans hcp, ⟨t, hv.of_append hne⟩, hrep₀⟩
    have hx := (connectAltChain_extends hinv₀ .nil hconnect).map_bl
    have hmap : (a.altChain.map fun e => e.2.bl) = a.branch.map BlockExtendedInfo.bl := by
      simp [Attachment.branch]
    rw [hmap, hrep₀.blocks, List.nil_append] at hx
    have hinv₁ := (chainInv_store E cps now).toAlt.toMove.connectAltChain (s := a.connectionHeight) trivial
      (l := post.map (fun c => c.bei.bl) ++ []) (fun _ _ => trivial) hinv₀
      fun e (_ : e ∈ a.altChain) => trivial
    rw [hconnect] at hinv₁
    obtain ⟨F₁, chain₁, -, -, hrep₁⟩ := hinv₁
    constructor
    · have := congrArg List.length hx
      simpa [blocksOf_length, hpre] using this
    · have hs₁ : n₁.scratchpad.getScratchpad = scratchpadOf E n₁.blocks := by
        rw [hrep₁.scratchpad, hrep₁.blocks]
        rfl
      rw [hs₁, scratchpadOf_eq_pushBlocks, hx, hs₀, scratchpadOf_eq_pushBlocks]
      simp [pushBlocks, List.foldl_append]

/-- A block came in on the genesis block of a sample node, and the next one of its branch follows it. -/
theorem alt_scratchpad_eq_main_sample : ∃ n b altChain a popped n₀, Reachable sampleEnv ∅ n ∧
    altChainOf n.alternativeChains b.prevId = some altChain ∧
    attach sampleEnv n b.prevId altChain = some a ∧ a.branch.length = 1 ∧
    popBlocks sampleEnv 0 1 2 n [] = .ok (popped, n₀) ∧
    ∃ bei, altProofOfWork sampleEnv n b a = some (bei,
      getNextDifficultyForAlternativeChain n.blocks a.branch 2,
      getBlockLonghash sampleEnv b 2 (scratchpadAccessor
        (pushBlocks sampleEnv (a.branch.map BlockExtendedInfo.bl) n₀.scratchpad.getScratchpad))) := by
  let b₁ (n : Node) : Block := sampleBlock sampleEnv (n.blocks.take 1) 1 [] 0 sampleKey
  let b₂ (n : Node) : Block := { generateGenesisBlock with prevId := getBlockHash sampleEnv (b₁ n) }
  have hdec : (sampleNode ∅ 2).bind (fun m => (run sampleEnv m [.block 0 1 (b₁ m)]).bind fun n =>
      (attach sampleEnv m (b₁ m).prevId []).bind fun a₀ =>
        (addAlternativeBlock sampleEnv {} m (b₁ m) a₀).toOption.bind fun r =>
          (attach sampleEnv n (b₂ m).prevId r.1).map fun a =>
            decide (n.blocks = m.blocks) && decide (n.blocks.length = 3) &&
              decide (altChainOf n.alternativeChains (b₂ m).prevId = some r.1) &&
              decide (a.branch.length = 1) && decide (a.connectionHeight = 1) && decide (a.prevHeight = 1) &&
              decide (∀ bei ∈ n.blocks.drop 1, Readable sampleEnv bei.bl) &&
              decide (getNextDifficultyForAlternativeChain n.blocks a.branch 2 ≠ 0)) = some true := by
    decide +kernel
  obtain ⟨m, hm, h⟩ := Option.bind_eq_some_iff.mp hdec
  obtain ⟨n, hrun, h⟩ := Option.bind_eq_some_iff.mp h
  obtain ⟨a₀, ha₀, h⟩ := Option.bind_eq_some_iff.mp h
  obtain ⟨⟨altChain, n₁⟩, htaken, h⟩ := Option.bind_eq_some_iff.mp h
  have hadd : addAlternativeBlock sampleEnv {} m (b₁ m) a₀ = .ok (altChain, n₁) := by
    cases hr : addAlternativeBlock sampleEnv {} m (b₁ m) a₀ with
    | error r =>
      rw [hr] at htaken
      cases htaken
    | ok r =>
      rw [hr] at htaken
      rw [Option.some.inj htaken]
  obtain ⟨a, ha, h⟩ := Option.map_eq_some_iff.mp h
  simp only [Bool.and_eq_true, decide_eq_true_eq] at h
  obtain ⟨⟨⟨⟨⟨⟨⟨hsame, hlen⟩, hchain⟩, hone⟩, hconn⟩, hprev⟩, hread⟩, hdiff⟩ := h
  have hreach := (reachable_sampleNode hm).run hrun
  have hnil : AltBranch sampleEnv m.blocks 1 (([] : AltChain).map Prod.snd) := .nil
  have hbranch := addAlternativeBlock_branch (attach_spec hnil ha₀).1 hadd
  rw [← hsame] at hbranch
  have hatt := (attach_spec hbranch ha).1
  obtain ⟨popped, n₀, patches, hpop, -, -, hpow, -⟩ := alt_scratchpad_eq_main sampleEnv ∅ n 0 a
    hreach hatt hconn.ge (by omega) (by rwa [hconn])
  rw [hprev, hconn, hone] at hpow
  obtain ⟨bei, hbei⟩ := hpow (b₂ m) hdiff
  rw [hconn, hlen] at hpop
  exact ⟨n, b₂ m, altChain, a, popped, n₀, hreach, hchain, ha, hone, hpop, bei, hbei⟩

end Boolberry
