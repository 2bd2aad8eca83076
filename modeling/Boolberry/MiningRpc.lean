import Boolberry.SimpleMiner

/-!
# Addenda for a miner

`get_addendum_for_hi` answers a miner that names a block with the addenda it
lacks. It compares the id on the main chain with the one named, and steps back by
one block when they differ; at the height of the top it compares nothing.
-/

namespace Boolberry

def getBlockIdByHeight (E : Env) (n : Node) (height : ℕ) : Hash :=
  match n.blocks[height]? with
  | none => nullHash
  | some bei => getBlockHash E bei.bl

/-- `get_blocks(start_offset, count, blocks)`. -/
def getBlocksFrom (n : Node) (startOffset count : ℕ) : Option (List Block) :=
  if n.blocks.length ≤ startOffset then none
  else some (((n.blocks.drop startOffset).take count).map BlockExtendedInfo.bl)

/-- The loop of `get_addendum_for_hi`; the record of an unreadable block is left without its
addendum. -/
def pushRecords (E : Env) : List Block → List Addendum → Bool × List Addendum
  | [], res => (true, res)
  | b :: l, res =>
      let back : Addendum := ⟨⟨getBlockHeight b, podToHex (getBlockHash E b)⟩, podToHex b.prevId, []⟩
      let ad := getBlockScratchpadAddendum E b
      if !ad.1 then (false, res ++ [back])
      else pushRecords E l (res ++ [{ back with addm := addendumToHexstr ad.2 back.addm }])

/-- `get_addendum_for_hi` with an empty list. -/
def getAddendumForHi (E : Env) (n : Node) (hi : HeightInfo) : Bool × List Addendum :=
  let currentHeight := n.blocks.length
  if hi.height = 0 ∨ hi.height + 1 = currentHeight then (true, [])
  else if ¬hi.height < currentHeight then (false, [])
  else
    match hexToPod hi.blockId with
    | none => (false, [])
    | some h =>
        let blockChainId := getBlockIdByHeight E n hi.height
        if blockChainId = nullHash then (false, [])
        else if blockChainId ≠ h ∧ ¬0 < hi.height then (false, [])
        else
          let height := if blockChainId ≠ h then hi.height - 1 else hi.height
          match getBlocksFrom n (height + 1) (currentHeight - (height + 1)) with
          | none => (false, [])
          | some blocks => pushRecords E blocks []

/-- The records `res` lead a miner that had the blocks `named` to the top of the main chain: they are
the records of the blocks above one of `named`, are missing only when the last of `named` is the top,
and bring a miner from there to the scratchpad of the daemon. -/
def LeadsToTop (E : Env) (named : List BlockExtendedInfo) (n : Node) (res : List Addendum) : Prop :=
  ∃ below above p q, n.blocks = below ++ above ∧ res = (above.map (·.bl)).map (addendumOf E) ∧
    (∀ bei ∈ above, Readable E bei.bl) ∧
    below.getLast? = some p ∧ named[below.length - 1]? = some q ∧
    getBlockHash E p.bl = getBlockHash E q.bl ∧ (above = [] → below.length = named.length) ∧
    ∀ fuel s, SimpleMiner.scratchpad s = scratchpadOf E below → s.hi.id = getTopBlockId E below →
      ∃ s', s.applyAddendums fuel res = some (true, s') ∧
        s'.scratchpad = n.scratchpad.getScratchpad

/-- The block list has the block `bei` at height `h`. -/
def OnMainChain (E : Env) (blocks : List BlockExtendedInfo) (h : ℕ) (bei : BlockExtendedInfo) : Prop :=
  ∃ p, blocks[h]? = some p ∧ getBlockHash E p.bl = getBlockHash E bei.bl

/-- What the answer to a named block depends on: the chain has no block of its height, has the block,
or is longer and has its parent. The last case also covers refusals, for an id that is null or a block
above with an unreadable addendum. -/
def NamedFound (E : Env) (named : List BlockExtendedInfo) (n : Node) (h : ℕ)
    (bei : BlockExtendedInfo) : Prop :=
  n.blocks.length ≤ h ∨ OnMainChain E n.blocks h bei ∨ h + 1 < n.blocks.length ∧
    ((∃ parent, named[h - 1]? = some parent ∧ OnMainChain E n.blocks (h - 1) parent) ∨
      getBlockIdByHeight E n h = nullHash ∨ ∃ b ∈ n.blocks.drop h, ¬Readable E b.bl)

section Answer

variable {E : Env} {n : Node}

theorem pushRecords_eq {l : List Block} (res : List Addendum) (h : ∀ b ∈ l, Readable E b) :
    pushRecords E l res = (true, res ++ l.map (addendumOf E)) := by
  induction l generalizing res with
  | nil => simp [pushRecords]
  | cons b l ih =>
    have hb : (getBlockScratchpadAddendum E b).1 = true := h b (by simp)
    rw [pushRecords]
    simp only [hb, Bool.not_true, Bool.false_eq_true, if_false]
    rw [ih _ fun x hx => h x (List.mem_cons_of_mem _ hx), List.append_assoc]
    rfl

theorem pushRecords_fst {l : List Block} (res : List Addendum) (h : ¬∀ b ∈ l, Readable E b) :
    (pushRecords E l res).1 = false := by
  induction l generalizing res with
  | nil => simp at h
  | cons b l ih =>
    rw [pushRecords]
    by_cases hb : (getBlockScratchpadAddendum E b).1 = true
    · simp only [hb, Bool.not_true, Bool.false_eq_true, if_false]
      refine ih _ fun hl => h fun x hx => ?_
      rcases List.mem_cons.mp hx with rfl | hx
      · exact hb
      · exact hl x hx
    · simp [hb]

/-- Below the top the answer is what the loop makes of the blocks behind the named one, or behind its
parent when the ids differ. -/
theorem getAddendumForHi_below {h : ℕ} {id : Hash} (hh : h ≠ 0) (hlt : h + 1 < n.blocks.length) :
    getAddendumForHi E n ⟨h, podToHex id⟩ =
      if getBlockIdByHeight E n h = nullHash then (false, [])
      else pushRecords E ((n.blocks.drop (if getBlockIdByHeight E n h = id then h + 1 else h)).map
        BlockExtendedInfo.bl) [] := by
  have htake : ∀ k, (n.blocks.drop k).take (n.blocks.length - k) = n.blocks.drop k := fun k =>
    List.take_of_length_le (by rw [List.length_drop])
  have hsub : h - 1 + 1 = h := Nat.sub_add_cancel (Nat.one_le_iff_ne_zero.mpr hh)
  unfold getAddendumForHi
  simp only
  rw [if_neg (by omega), if_neg (by omega), hexToPod_podToHex]
  simp only
  by_cases hnull : getBlockIdByHeight E n h = nullHash
  · rw [if_pos hnull, if_pos hnull]
  · rw [if_neg hnull, if_neg hnull, if_neg (by omega)]
    by_cases hid : getBlockIdByHeight E n h = id
    · rw [if_neg (not_not.mpr hid), if_pos hid, getBlocksFrom, if_neg (by omega), htake]
    · rw [if_pos hid, if_neg hid, hsub, getBlocksFrom, if_neg (by omega), htake]

theorem applyAddendums_above {cps : Checkpoints} {k : ℕ} {s : SimpleMiner} (fuel : ℕ)
    (hreach : Reachable E cps n) (hk : k ≠ 0)
    (hs : s.scratchpad = scratchpadOf E (n.blocks.take k))
    (hhi : s.hi.id = getTopBlockId E (n.blocks.take k)) :
    ∃ s', s.applyAddendums fuel (((n.blocks.drop k).map (·.bl)).map (addendumOf E)) =
      some (true, s') ∧ s'.scratchpad = n.scratchpad.getScratchpad := by
  rw [(wellFormed_of_reachable E cps n hreach).scratchpad]
  cases hdrop : n.blocks.drop k with
  | nil =>
    refine ⟨s, rfl, ?_⟩
    rw [hs, List.take_of_length_le (List.drop_eq_nil_iff.mp hdrop)]
  | cons bei rest =>
    have hc : AddendumCall.Correct E (n.blocks.take k) ⟨n, k, (n.blocks.drop k).length⟩ :=
      ⟨⟨cps, hreach⟩, hk, List.prefix_refl _⟩
    have hsent : AddendumCall.sent ⟨n, k, (n.blocks.drop k).length⟩ = bei :: rest := by
      rw [AddendumCall.sent, List.take_length, hdrop]
    refine ⟨_, SimpleMiner.applyAddendums_next fuel ((hc.prevId hsent).trans hhi.symm), ?_⟩
    change pushBlocks E ((bei :: rest).map (·.bl)) s.scratchpad = scratchpadOf E n.blocks
    rw [hs, ← hdrop, ← scratchpadOf_append, List.take_append_drop]

/-- The blocks behind the first `k` lead to the top when the last of these is one of the named. -/
theorem leadsToTop_iff {cps : Checkpoints} {named : List BlockExtendedInfo} {k : ℕ}
    (hreach : Reachable E cps n) (hk : k ≠ 0) (hkn : k ≤ n.blocks.length)
    (hread : ∀ bei ∈ n.blocks.drop k, Readable E bei.bl) :
    LeadsToTop E named n (((n.blocks.drop k).map (·.bl)).map (addendumOf E)) ↔
      (∃ q, named[k - 1]? = some q ∧ OnMainChain E n.blocks (k - 1) q) ∧
        (k = n.blocks.length → k = named.length) := by
  constructor
  · rintro ⟨below, above, p, q, hblocks, hres, -, hp, hq, hid, htop, -⟩
    have hlen := congrArg List.length hres
    have hsum := congrArg List.length hblocks
    simp only [List.length_map, List.length_drop] at hlen
    rw [List.length_append] at hsum
    have hbelow : below.length = k := by omega
    rw [hbelow] at hq htop
    refine ⟨⟨q, hq, p, ?_, hid⟩, fun hkl => htop ?_⟩
    · rw [hblocks, List.getElem?_append_left (by omega), ← hbelow, ← List.getLast?_eq_getElem?, hp]
    · exact List.length_eq_zero_iff.mp (by omega)
  · rintro ⟨⟨q, hq, p, hp, hid⟩, htop⟩
    have hlen : (n.blocks.take k).length = k := List.length_take_of_le hkn
    refine ⟨n.blocks.take k, n.blocks.drop k, p, q, (List.take_append_drop k _).symm, rfl, hread, ?_,
      by rwa [hlen], hid, fun hnil => ?_, fun fuel s hs hhi =>
        applyAddendums_above fuel hreach hk hs hhi⟩
    · rw [List.getLast?_eq_getElem?, hlen, List.getElem?_take_of_lt (by omega), hp]
    · rw [hlen]
      exact htop (Nat.le_antisymm hkn (List.drop_eq_nil_iff.mp hnil))

theorem onMainChain_iff {h : ℕ} {bei : BlockExtendedInfo} (hlt : h < n.blocks.length) :
    OnMainChain E n.blocks h bei ↔ getBlockIdByHeight E n h = getBlockHash E bei.bl := by
  rw [OnMainChain, getBlockIdByHeight, List.getElem?_eq_getElem hlt]
  simp

theorem leadsToTop_pushRecords {cps : Checkpoints} {named : List BlockExtendedInfo} {k : ℕ}
    (hreach : Reachable E cps n) (hk : k ≠ 0) (hkn : k < n.blocks.length) :
    let r := pushRecords E ((n.blocks.drop k).map BlockExtendedInfo.bl) []
    (r.1 = true → LeadsToTop E named n r.2) ↔
      (∃ q, named[k - 1]? = some q ∧ OnMainChain E n.blocks (k - 1) q) ∨
        ∃ b ∈ n.blocks.drop k, ¬Readable E b.bl := by
  simp only
  by_cases hread : ∀ b ∈ n.blocks.drop k, Readable E b.bl
  · have hmap : ∀ b ∈ (n.blocks.drop k).map BlockExtendedInfo.bl, Readable E b := by
      intro b hb
      obtain ⟨bei, hbei, rfl⟩ := List.mem_map.mp hb
      exact hread bei hbei
    rw [pushRecords_eq [] hmap]
    simp only [true_implies, List.nil_append]
    rw [leadsToTop_iff hreach hk hkn.le hread]
    constructor
    · exact fun h => .inl h.1
    · rintro (h | ⟨b, hb, hnot⟩)
      · exact ⟨h, fun hkl => absurd hkl (by omega)⟩
      · exact absurd (hread b hb) hnot
  · have hmap : ¬∀ b ∈ (n.blocks.drop k).map BlockExtendedInfo.bl, Readable E b := fun h =>
      hread fun b hb => h b.bl (List.mem_map_of_mem hb)
    rw [pushRecords_fst [] hmap]
    simp only [Bool.false_eq_true, false_implies, true_iff]
    push Not at hread
    exact .inr hread

end Answer

/-- For a block the node has had on its main chain, an answer leads to the top exactly when the chain
has no block of its height, has the block itself, or is longer and has its parent (or the answer is a
refusal for another reason). -/
theorem leadsToTop_iff_namedFound (E : Env) (cps : Checkpoints) (n₁ n : Node) (events : List Event)
    (h : ℕ) (bei : BlockExtendedInfo) (hreach : Reachable E cps n₁)
    (hrun : run E n₁ events = some n) (hh : h ≠ 0) (hbei : n₁.blocks[h]? = some bei) :
    let r := getAddendumForHi E n ⟨h, podToHex (getBlockHash E bei.bl)⟩
    (r.1 = true → LeadsToTop E (n₁.blocks.take (h + 1)) n r.2) ↔
      NamedFound E (n₁.blocks.take (h + 1)) n h bei := by
  have hn : Reachable E cps n := hreach.run hrun
  have hlt₁ := (List.getElem?_eq_some_iff.mp hbei).1
  have hlen : (n₁.blocks.take (h + 1)).length = h + 1 := List.length_take_of_le hlt₁
  have hnamed : (n₁.blocks.take (h + 1))[h]? = some bei := by
    rw [List.getElem?_take_of_lt (Nat.lt_succ_self h), hbei]
  simp only
  -- shorter than the named block: refused; as long: nothing to send; longer: the ids decide
  rcases Nat.lt_trichotomy n.blocks.length (h + 1) with hlow | htop | hhigh
  · have hr : getAddendumForHi E n ⟨h, podToHex (getBlockHash E bei.bl)⟩ = (false, []) := by
      unfold getAddendumForHi
      simp only
      rw [if_neg (by omega), if_pos (by omega)]
    rw [hr]
    simp only [Bool.false_eq_true, false_implies, true_iff]
    exact .inl (by omega)
  · have hr : getAddendumForHi E n ⟨h, podToHex (getBlockHash E bei.bl)⟩ = (true, []) := by
      unfold getAddendumForHi
      simp only
      rw [if_pos (.inr htop.symm)]
    have hdrop : n.blocks.drop (h + 1) = [] := List.drop_eq_nil_iff.mpr htop.le
    have hiff : LeadsToTop E (n₁.blocks.take (h + 1)) n
        (((n.blocks.drop (h + 1)).map (·.bl)).map (addendumOf E)) ↔ _ :=
      leadsToTop_iff hn (Nat.succ_ne_zero h) htop.ge (by simp [hdrop])
    rw [hdrop] at hiff
    rw [hr]
    simp only [true_implies]
    rw [show ([] : List Addendum) = (([] : List BlockExtendedInfo).map (·.bl)).map (addendumOf E) from
      rfl, hiff, Nat.succ_sub_one, hnamed, hlen]
    constructor
    · rintro ⟨⟨q, hq, hon⟩, -⟩
      obtain rfl := Option.some.inj hq
      exact .inr (.inl hon)
    · rintro (hle | hon | ⟨hlt, -⟩)
      · omega
      · exact ⟨⟨bei, rfl, hon⟩, fun _ => rfl⟩
      · omega
  · rw [getAddendumForHi_below hh hhigh]
    by_cases hnull : getBlockIdByHeight E n h = nullHash
    · rw [if_pos hnull]
      simp only [Bool.false_eq_true, false_implies, true_iff]
      exact .inr (.inr ⟨hhigh, .inr (.inl hnull)⟩)
    · rw [if_neg hnull]
      by_cases hid : getBlockIdByHeight E n h = getBlockHash E bei.bl
      · have hon := (onMainChain_iff (by omega)).mpr hid
        rw [if_pos hid]
        refine iff_of_true ?_ (.inr (.inl hon))
        refine (leadsToTop_pushRecords hn (Nat.succ_ne_zero h) hhigh).mpr (.inl ⟨bei, ?_, ?_⟩)
        · exact hnamed
        · exact hon
      · have hoff : ¬OnMainChain E n.blocks h bei := fun hon =>
          hid ((onMainChain_iff (by omega)).mp hon)
        rw [if_neg hid]
        refine (leadsToTop_pushRecords hn hh (by omega)).trans ?_
        constructor
        · rintro (hparent | hread)
          · exact .inr (.inr ⟨hhigh, .inl hparent⟩)
          · exact .inr (.inr ⟨hhigh, .inr (.inr hread)⟩)
        · rintro (hle | hon | ⟨-, hparent | hnull' | hread⟩)
          · omega
          · exact absurd hon hoff
          · exact .inl hparent
          · exact absurd hnull' hnull
          · exact .inr hread

/-- A miner on the second of three blocks gets the third. -/
theorem leadsToTop_sample : ∃ (n₁ n : Node) (events : List Event) (bei : BlockExtendedInfo),
    Reachable sampleEnv ∅ n₁ ∧ run sampleEnv n₁ events = some n ∧ n₁.blocks[1]? = some bei ∧
    n.blocks.length = 3 ∧
    let r := getAddendumForHi sampleEnv n ⟨1, podToHex (getBlockHash sampleEnv bei.bl)⟩
    r.1 = true ∧ LeadsToTop sampleEnv (n₁.blocks.take 2) n r.2 := by
  have hdec : ((sampleNode ∅ 1).bind fun n₁ => (n₁.blocks[1]?).bind fun bei =>
      (grow sampleEnv 1 n₁).map fun n => decide (n.blocks.length = 3) &&
        decide (n.blocks[1]? = some bei) &&
        (getAddendumForHi sampleEnv n ⟨1, podToHex (getBlockHash sampleEnv bei.bl)⟩).1) =
      some true := by decide +kernel
  obtain ⟨n₁, hn₁, hdec⟩ := Option.bind_eq_some_iff.mp hdec
  obtain ⟨bei, hbei, hdec⟩ := Option.bind_eq_some_iff.mp hdec
  obtain ⟨n, hgrow, hdec⟩ := Option.map_eq_some_iff.mp hdec
  simp only [Bool.and_eq_true, decide_eq_true_eq] at hdec
  obtain ⟨⟨hlen, hon⟩, hr⟩ := hdec
  obtain ⟨events, hrun, -⟩ := growBy_run hgrow
  have hiff := leadsToTop_iff_namedFound sampleEnv ∅ n₁ n events 1 bei (reachable_sampleNode hn₁) hrun
    Nat.one_ne_zero hbei
  exact ⟨n₁, n, events, bei, reachable_sampleNode hn₁, hrun, hbei, hlen, hr,
    hiff.mpr (.inr (.inl ⟨bei, hon, rfl⟩)) hr⟩

/-- Add `k` empty blocks that all claim the time 0. -/
def burst (E : Env) : ℕ → Node → Option Node
  | 0, n => some n
  | k + 1, n =>
      match addNewBlock E 0 1 {} n
        { sampleBlock E n.blocks 1 [] 0 sampleKey with timestamp := 0 } with
      | none => none
      | some r => burst E k r.2.2

theorem LeadsToTop.top {E : Env} {named : List BlockExtendedInfo} {n : Node}
    (h : LeadsToTop E named n []) :
    ∃ q, named.getLast? = some q ∧ getTopBlockId E n.blocks = getBlockHash E q.bl := by
  obtain ⟨below, above, p, q, hblocks, hres, -, hp, hq, hid, htop, -⟩ := h
  have habove : above = [] := by simpa using hres.symm
  rw [habove, List.append_nil] at hblocks
  refine ⟨q, ?_, ?_⟩
  · rw [List.getLast?_eq_getElem?, ← htop habove, hq]
  · rw [hblocks, getTopBlockId, hp]
    exact hid

/-- A harder chain takes the place of four blocks, at the same height: the miner that names the old
top is told that it lacks nothing. -/
theorem old_top_answered_empty : ¬∀ (E : Env) (cps : Checkpoints) (n₁ n : Node)
    (events : List Event) (h : ℕ) (bei : BlockExtendedInfo), Reachable E cps n₁ →
    run E n₁ events = some n → h ≠ 0 → n₁.blocks[h]? = some bei →
    let r := getAddendumForHi E n ⟨h, podToHex (getBlockHash E bei.bl)⟩
    r.1 = true → LeadsToTop E (n₁.blocks.take (h + 1)) n r.2 := by
  intro hall
  have hdec : ((initNode sampleEnv 0 ∅).bind fun n₀ => (burst sampleEnv 4 n₀).bind fun m =>
      (grow sampleEnv 4 n₀).bind fun n₁ => (n₁.blocks.getLast?).bind fun bei =>
      (run sampleEnv n₁ ((m.blocks.drop 1).map fun b => .block 0 2 b.bl)).map fun n =>
        decide (getAddendumForHi sampleEnv n ⟨4, podToHex (getBlockHash sampleEnv bei.bl)⟩ =
          (true, [])) && decide (n₁.blocks.length = 5) &&
          decide (getTopBlockId sampleEnv n.blocks ≠ getBlockHash sampleEnv bei.bl)) = some true := by
    decide +kernel
  obtain ⟨n₀, hinit, hdec⟩ := Option.bind_eq_some_iff.mp hdec
  obtain ⟨m, -, hdec⟩ := Option.bind_eq_some_iff.mp hdec
  obtain ⟨n₁, hgrow, hdec⟩ := Option.bind_eq_some_iff.mp hdec
  obtain ⟨bei, hbei, hdec⟩ := Option.bind_eq_some_iff.mp hdec
  obtain ⟨n, hrun, hdec⟩ := Option.map_eq_some_iff.mp hdec
  simp only [Bool.and_eq_true, decide_eq_true_eq] at hdec
  obtain ⟨⟨hr, hlen⟩, hne⟩ := hdec
  obtain ⟨events, hevents, -⟩ := growBy_run hgrow
  have hreach : Reachable sampleEnv ∅ n₁ := ⟨0, n₀, events, hinit, hevents⟩
  have hget : n₁.blocks[4]? = some bei := by
    rw [List.getLast?_eq_getElem?, hlen] at hbei
    exact hbei
  have hleads := hall sampleEnv ∅ n₁ n _ 4 bei hreach hrun (by omega) hget
  simp only [hr, true_implies] at hleads
  obtain ⟨q, hq, htop⟩ := hleads.top
  rw [List.take_of_length_le hlen.le, hbei] at hq
  obtain rfl := Option.some.inj hq
  exact hne htop

end Boolberry
