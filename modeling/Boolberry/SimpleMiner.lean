import Boolberry.BranchScratchpad
import Boolberry.MainChain
import Boolberry.HexStrings

/-!
# The scratchpad of the miner

`simpleminer` keeps a copy of the daemon's scratchpad and brings it up to date
with the addenda of new blocks. The journal that would let it undo blocks is read
on a split and never written, so every split ends in a refusal.
-/

namespace Boolberry
open XorPatch

structure HeightInfo where
  height : ℕ
  blockId : Blob
deriving DecidableEq

structure Addendum where
  hi : HeightInfo
  prevId : Blob
  addm : Blob
deriving DecidableEq

/-- The record of a block. -/
def addendumOf (E : Env) (b : Block) : Addendum where
  hi := ⟨getBlockHeight b, podToHex (getBlockHash E b)⟩
  prevId := podToHex b.prevId
  addm := addendumToHexstr (blockAddendum E b) []

structure HeightInfoNative where
  height : ℕ
  id : Hash
deriving DecidableEq

/-- `text_height_info_to_native_height_info`; the height is taken whatever the id is. -/
def textHeightInfoToNativeHeightInfo (hi : HeightInfo) (hiNative : HeightInfoNative) :
    Bool × HeightInfoNative :=
  match hexToPod hi.blockId with
  | none => (false, { hiNative with height := hi.height })
  | some id => (true, ⟨hi.height, id⟩)

structure SimpleMiner where
  blocksAddendums : List Addendum
  hi : HeightInfoNative
  scratchpad : List Hash

namespace SimpleMiner

def popAddendum (s : SimpleMiner) (add : Addendum) : Bool × SimpleMiner :=
  match hexstrToAddendum add.addm with
  | none => (false, s)
  | some addVec =>
      if s.scratchpad.length ≤ addVec.length then (false, s)
      else
        let rest := s.scratchpad.length - addVec.length
        (true, { s with
          scratchpad := (apply (getScratchpadPatch rest addVec ∅) s.scratchpad).take rest })

def pushAddendum (s : SimpleMiner) (add : Addendum) : Bool × SimpleMiner :=
  match hexstrToAddendum add.addm with
  | none => (false, s)
  | some addVec =>
      (true, { s with
        scratchpad := apply (getScratchpadPatch s.scratchpad.length addVec ∅) s.scratchpad ++ addVec })

/-- The undo loop: `it_to_patch` stays, `it` moves down. `none` when the fuel is used up. -/
def unpatch (itToPatch : ℤ) : ℕ → ℤ → SimpleMiner → Option (Bool × ℤ × SimpleMiner)
  | fuel, it, s =>
      if itToPatch = it then some (true, it, s)
      else
        match fuel with
        | 0 => none
        | fuel + 1 =>
            match s.blocksAddendums[itToPatch.toNat]? with
            | none => none
            | some add =>
                let r := s.popAddendum add
                if r.1 then unpatch itToPatch fuel (it - 1) r.2 else some (false, it, r.2)

/-- The part of `apply_addendums` that undoes blocks on a split. -/
def undoSplit (fuel : ℕ) (s : SimpleMiner) (prevId : Blob) : Option (Bool × SimpleMiner) :=
  match s.blocksAddendums.findIdx? fun a => a.hi.blockId == prevId with
  | none => some (false, s)
  | some it =>
      match unpatch (s.blocksAddendums.length - 1) fuel it s with
      | none => none
      | some (false, _, s) => some (false, s)
      | some (true, it, s) =>
          some (true, { s with blocksAddendums := s.blocksAddendums.take (it + 1).toNat })

/-- The loop of `apply_addendums` that pushes blocks. -/
def pushAddendums (s : SimpleMiner) : List Addendum → Bool × SimpleMiner
  | [] => (true, s)
  | a :: l => if (s.pushAddendum a).1 then pushAddendums (s.pushAddendum a).2 l
      else (false, (s.pushAddendum a).2)

/-- `apply_addendums`; `none` when the undo loop did not end within its fuel. -/
def applyAddendums (fuel : ℕ) (s : SimpleMiner) (addms : List Addendum) :
    Option (Bool × SimpleMiner) :=
  match addms with
  | [] => some (true, s)
  | first :: l =>
      match hexToPod first.prevId with
      | none => some (false, s)
      | some pid =>
          match if pid ≠ s.hi.id then undoSplit fuel s first.prevId else some (true, s) with
          | none => none
          | some (false, s) => some (false, s)
          | some (true, s) =>
              let r := s.pushAddendums addms
              if r.1 then
                some (true, { r.2 with hi := (textHeightInfoToNativeHeightInfo (l.getLastD first).hi r.2.hi).2 })
              else some (false, r.2)

variable {E : Env} {s : SimpleMiner}

/-- The record of a block does what the block does to the scratchpad of the daemon. -/
theorem pushAddendum_addendumOf (b : Block) :
    s.pushAddendum (addendumOf E b) =
      (true, { s with scratchpad := pushBlockScratchpadData E b s.scratchpad }) := by
  simp only [pushAddendum, addendumOf, hexstrToAddendum_addendumToHexstr]
  rw [pushBlockScratchpadData_eq]

theorem pushAddendums_map (bls : List Block) (s : SimpleMiner) :
    s.pushAddendums (bls.map (addendumOf E)) =
      (true, { s with scratchpad := pushBlocks E bls s.scratchpad }) := by
  induction bls generalizing s with
  | nil => rfl
  | cons b l ih =>
    rw [List.map_cons, pushAddendums, pushAddendum_addendumOf]
    simp only [if_true]
    rw [ih]
    rfl

theorem applyAddendums_next {bls : List Block} {b : Block} (fuel : ℕ) (hprev : b.prevId = s.hi.id) :
    s.applyAddendums fuel ((b :: bls).map (addendumOf E)) =
      some (true, { s with
        hi := ⟨getBlockHeight (bls.getLastD b), getBlockHash E (bls.getLastD b)⟩
        scratchpad := pushBlocks E (b :: bls) s.scratchpad }) := by
  have hlast : (bls.map (addendumOf E)).getLastD (addendumOf E b) =
      addendumOf E (bls.getLastD b) := List.getLastD_map
  have hpush := pushAddendums_map (E := E) (b :: bls) s
  rw [List.map_cons] at hpush ⊢
  have hpid : hexToPod (addendumOf E b).prevId = some s.hi.id := by
    rw [← hprev]
    exact hexToPod_podToHex _
  have hid : hexToPod (addendumOf E (bls.getLastD b)).hi.blockId =
      some (getBlockHash E (bls.getLastD b)) := hexToPod_podToHex _
  rw [applyAddendums, hlast]
  simp only [hpid, ne_eq, not_true_eq_false, if_false, hpush, if_true]
  rw [textHeightInfoToNativeHeightInfo, hid]
  rfl

/-- With an empty journal a list that continues from any other block is refused. -/
theorem applyAddendums_split {bls : List Block} {b : Block} (fuel : ℕ)
    (hjournal : s.blocksAddendums = []) (hprev : b.prevId ≠ s.hi.id) :
    s.applyAddendums fuel ((b :: bls).map (addendumOf E)) = some (false, s) := by
  have hpid : hexToPod (addendumOf E b).prevId = some b.prevId := hexToPod_podToHex _
  rw [List.map_cons, applyAddendums]
  simp only [hpid, ne_eq, hprev, not_false_eq_true, if_true, undoSplit, hjournal, List.findIdx?_nil]

end SimpleMiner

/-- A list the daemon sends in some state: the records of `count` blocks behind its first ones. -/
structure AddendumCall where
  daemon : Node
  first : ℕ
  count : ℕ

namespace AddendumCall

/-- The blocks of the list. -/
def sent (c : AddendumCall) : List BlockExtendedInfo := (c.daemon.blocks.drop c.first).take c.count

def addms (E : Env) (c : AddendumCall) : List Addendum := (c.sent.map (·.bl)).map (addendumOf E)

/-- The chain up to the last block of the list. -/
def upTo (c : AddendumCall) : List BlockExtendedInfo := c.daemon.blocks.take c.first ++ c.sent

/-- The list continues from a block among those a miner has applied, in a state the daemon can be
in. -/
structure Correct (E : Env) (applied : List BlockExtendedInfo) (c : AddendumCall) : Prop where
  reachable : ∃ cps, Reachable E cps c.daemon
  first : c.first ≠ 0
  applied : c.daemon.blocks.take c.first <+: applied

end AddendumCall

/-- The states of a miner that started on a scratchpad of the daemon, with the blocks behind its
scratchpad. -/
inductive Mined (E : Env) : List BlockExtendedInfo → SimpleMiner → Prop
  | start {cps : Checkpoints} {n : Node} (hn : Reachable E cps n) : Mined E n.blocks
      ⟨[], ⟨n.blocks.length - 1, getTopBlockId E n.blocks⟩, n.scratchpad.getScratchpad⟩
  | call {applied : List BlockExtendedInfo} {s s' : SimpleMiner} {c : AddendumCall} {fuel : ℕ}
      {r : Bool} (h : Mined E applied s) (hc : c.Correct E applied)
      (hr : s.applyAddendums fuel (c.addms E) = some (r, s')) :
      Mined E (if r = true ∧ c.sent ≠ [] then c.upTo else applied) s'

/-- What holds of a miner between calls. -/
structure SimpleMiner.Synced (E : Env) (applied : List BlockExtendedInfo) (s : SimpleMiner) : Prop where
  journal : s.blocksAddendums = []
  nodup : (blockIds E applied).Nodup
  hi : s.hi.id = getTopBlockId E applied
  scratchpad : s.scratchpad = scratchpadOf E applied

section Calls

variable {E : Env} {applied l : List BlockExtendedInfo} {s : SimpleMiner} {c : AddendumCall}

theorem getTopBlockId_append_cons (l' : List BlockExtendedInfo) (bei : BlockExtendedInfo) :
    getTopBlockId E (l ++ bei :: l') = getBlockHash E (l'.getLastD bei).bl := by
  rw [getTopBlockId, List.getLast?_append_cons, List.getLast?_cons, List.getLastD_eq_getLast?]

/-- A proper part of a chain has another last block. -/
theorem eq_of_prefix_of_top (hp : l <+: applied) (hne : l ≠ []) (hnodup : (blockIds E applied).Nodup)
    (htop : getTopBlockId E l = getTopBlockId E applied) : l = applied := by
  obtain ⟨rest, rfl⟩ := hp
  cases rest with
  | nil => exact (List.append_nil l).symm
  | cons bei rest =>
    exfalso
    rw [getTopBlockId_append_cons] at htop
    rw [blockIds_append, List.nodup_append] at hnodup
    obtain ⟨p, hp⟩ : ∃ p, l.getLast? = some p := ⟨_, List.getLast?_eq_some_getLast hne⟩
    rw [getTopBlockId, hp] at htop
    refine hnodup.2.2 _ (List.mem_map_of_mem (List.mem_of_getLast? hp)) _
      (List.mem_map_of_mem (a := rest.getLastD bei) List.getLastD_mem_cons) htop

theorem AddendumCall.Correct.prevId {bei : BlockExtendedInfo} {rest : List BlockExtendedInfo}
    (hc : c.Correct E applied) (hs : c.sent = bei :: rest) :
    bei.bl.prevId = getTopBlockId E (c.daemon.blocks.take c.first) := by
  obtain ⟨cps, hreach⟩ := hc.reachable
  have hwf := wellFormed_of_reachable E cps c.daemon hreach
  have hbei : c.daemon.blocks[c.first]? = some bei := by
    have h0 := congrArg List.head? hs
    rw [AddendumCall.sent, List.head?_take] at h0
    split_ifs at h0 with hcount
    · simp at h0
    · rwa [List.head?_drop] at h0
  obtain ⟨k, hk⟩ := Nat.exists_eq_succ_of_ne_zero hc.first
  rw [hk] at hbei ⊢
  have hlt := (List.getElem?_eq_some_iff.mp hbei).1
  have hp : c.daemon.blocks[k]? = some (c.daemon.blocks[k]) := List.getElem?_eq_getElem (by omega)
  rw [(hwf.follows k _ bei hp hbei).prevId, getTopBlockId, List.take_succ_eq_append_getElem (by omega),
    List.getLast?_concat]

theorem AddendumCall.upTo_eq (c : AddendumCall) :
    c.upTo = c.daemon.blocks.take (c.first + c.count) := List.take_add.symm

theorem blockIds_nodup_of_reachable {cps : Checkpoints} {n : Node} (h : Reachable E cps n) :
    (blockIds E n.blocks).Nodup := by
  obtain ⟨F, chain, -, ⟨t, hv⟩, hrep⟩ := chainInv_of_reachable h
  rw [hrep.blocks]
  exact blockIds_nodup hv

theorem AddendumCall.Correct.nodup (hc : c.Correct E applied) : (blockIds E c.upTo).Nodup := by
  obtain ⟨cps, hreach⟩ := hc.reachable
  rw [c.upTo_eq]
  exact (blockIds_nodup_of_reachable hreach).sublist ((List.take_sublist _ _).map _)

theorem AddendumCall.Correct.below_ne_nil (hc : c.Correct E applied)
    (hs : c.sent ≠ []) : c.daemon.blocks.take c.first ≠ [] := by
  intro h
  rcases List.take_eq_nil_iff.mp h with h0 | h0
  · exact hc.first h0
  · exact hs (by simp [AddendumCall.sent, h0])

theorem AddendumCall.Correct.getBlockHeight {bei : BlockExtendedInfo} (hc : c.Correct E applied)
    (hs : bei ∈ c.sent) : getBlockHeight bei.bl = bei.height := by
  obtain ⟨cps, hreach⟩ := hc.reachable
  obtain ⟨h, hlt, hget⟩ := List.getElem_of_mem (List.mem_of_mem_drop (List.mem_of_mem_take hs))
  obtain ⟨hheight, g, hvin, hg⟩ := (wellFormed_of_reachable E cps c.daemon hreach).height h bei
    (List.getElem?_eq_some_iff.mpr ⟨hlt, hget⟩)
  simp only [Boolberry.getBlockHeight, hvin]
  exact hg.trans hheight.symm

/-- A call ends whatever the fuel is, and a list that is taken leaves the miner on its last block. -/
theorem SimpleMiner.Synced.call (hs : s.Synced E applied) (hc : c.Correct E applied) (fuel : ℕ) :
    ∃ r s', s.applyAddendums fuel (c.addms E) = some (r, s') ∧
      s'.Synced E (if r = true ∧ c.sent ≠ [] then c.upTo else applied) ∧
      ∀ last, r = true → c.sent.getLast? = some last →
        s'.hi = ⟨last.height, getBlockHash E last.bl⟩ := by
  cases hsent : c.sent with
  | nil =>
    refine ⟨true, s, ?_, by simpa using hs, fun last _ hlast => by simp at hlast⟩
    rw [AddendumCall.addms, hsent]
    rfl
  | cons bei rest =>
    have haddms : c.addms E = (bei.bl :: rest.map (·.bl)).map (addendumOf E) := by
      rw [AddendumCall.addms, hsent]
      rfl
    rw [haddms]
    by_cases hprev : bei.bl.prevId = s.hi.id
    · have hne := hc.below_ne_nil (by simp [hsent])
      have hbelow : c.daemon.blocks.take c.first = applied :=
        eq_of_prefix_of_top hc.applied hne hs.nodup
          ((hc.prevId hsent).symm.trans (hprev.trans hs.hi))
      have hupTo : c.upTo = applied ++ bei :: rest := by rw [AddendumCall.upTo, hbelow, hsent]
      have hbl : (rest.map (·.bl)).getLastD bei.bl = (rest.getLastD bei).bl := List.getLastD_map
      refine ⟨true, _, applyAddendums_next fuel hprev, ?_, fun last _ hlast => ?_⟩
      · rw [if_pos ⟨rfl, List.cons_ne_nil _ _⟩]
        refine ⟨hs.journal, hc.nodup, ?_, ?_⟩
        · rw [hupTo, getTopBlockId_append_cons, hbl]
        · rw [hupTo, scratchpadOf_append, hs.scratchpad]
          rfl
      · rw [List.getLast?_cons, ← List.getLastD_eq_getLast?] at hlast
        obtain rfl := Option.some.inj hlast
        rw [hbl, hc.getBlockHeight (by rw [hsent]; exact List.getLastD_mem_cons)]
    · refine ⟨false, s, applyAddendums_split fuel hs.journal hprev, by simpa using hs, ?_⟩
      exact fun last hr => absurd hr Bool.false_ne_true

theorem SimpleMiner.Synced.of_mined (h : Mined E applied s) : s.Synced E applied := by
  induction h with
  | @start cps n hn =>
    exact ⟨rfl, blockIds_nodup_of_reachable hn, rfl, (wellFormed_of_reachable E cps n hn).scratchpad⟩
  | @call applied s s' c fuel r _ hc hr ih =>
    obtain ⟨r', s'', hr', hsynced, -⟩ := ih.call hc fuel
    obtain ⟨rfl, rfl⟩ := Prod.mk.inj (Option.some.inj (hr.symm.trans hr'))
    exact hsynced

end Calls

/-- In every run over lists that describe the daemon's chain a call ends, and one that answers `true`
leaves the scratchpad of the daemon at the last block of its list, which is the block of `m_hi`. -/
theorem scratchpad_of_mined (E : Env) (applied : List BlockExtendedInfo) (s : SimpleMiner)
    (c : AddendumCall) (h : Mined E applied s) (hc : c.Correct E applied) (fuel : ℕ) :
    ∃ r s', s.applyAddendums fuel (c.addms E) = some (r, s') ∧
      ∀ last, r = true → c.sent.getLast? = some last →
        s'.scratchpad = scratchpadOf E c.upTo ∧
          s'.hi = ⟨last.height, getBlockHash E last.bl⟩ := by
  obtain ⟨r, s', hr, hsynced, hhi⟩ := (SimpleMiner.Synced.of_mined h).call hc fuel
  refine ⟨r, s', hr, fun last hrt hlast => ⟨?_, hhi last hrt hlast⟩⟩
  have hne : c.sent ≠ [] := by
    rintro hnil
    simp [hnil] at hlast
  rw [if_pos ⟨hrt, hne⟩] at hsynced
  exact hsynced.scratchpad

/-- A miner on a chain of two blocks takes the third. -/
theorem scratchpad_of_mined_sample : ∃ (applied : List BlockExtendedInfo) (s : SimpleMiner)
    (c : AddendumCall) (s' : SimpleMiner), Mined sampleEnv applied s ∧ c.sent.length = 1 ∧
    s.applyAddendums 0 (c.addms sampleEnv) = some (true, s') ∧
    s'.scratchpad = scratchpadOf sampleEnv c.upTo := by
  have hdec : ((sampleNode ∅ 1).bind fun n₁ => (sampleNode ∅ 2).bind fun n₂ =>
      ((⟨[], ⟨n₁.blocks.length - 1, getTopBlockId sampleEnv n₁.blocks⟩,
        n₁.scratchpad.getScratchpad⟩ : SimpleMiner).applyAddendums 0
          ((⟨n₂, 2, 1⟩ : AddendumCall).addms sampleEnv)).map fun r =>
      r.1 && decide (n₂.blocks.take 2 = n₁.blocks) && decide (n₂.blocks.length = 3)) =
        some true := by decide +kernel
  obtain ⟨n₁, hn₁, hdec⟩ := Option.bind_eq_some_iff.mp hdec
  obtain ⟨n₂, hn₂, hdec⟩ := Option.bind_eq_some_iff.mp hdec
  obtain ⟨⟨r, s'⟩, hr, hdec⟩ := Option.map_eq_some_iff.mp hdec
  simp only [Bool.and_eq_true, decide_eq_true_eq] at hdec
  obtain ⟨⟨rfl, htake⟩, hlen⟩ := hdec
  have hc : AddendumCall.Correct sampleEnv n₁.blocks ⟨n₂, 2, 1⟩ :=
    ⟨⟨∅, reachable_sampleNode hn₂⟩, Nat.succ_ne_zero 1, by rw [htake]⟩
  have hsent : (⟨n₂, 2, 1⟩ : AddendumCall).sent.length = 1 := by
    simp [AddendumCall.sent, hlen]
  have hs := Mined.start (reachable_sampleNode hn₁)
  obtain ⟨r', s'', hr', hscratch⟩ := scratchpad_of_mined sampleEnv _ _ _ hs hc 0
  obtain ⟨rfl, rfl⟩ := Prod.mk.inj (Option.some.inj (hr.symm.trans hr'))
  obtain ⟨last, hlast⟩ := List.length_eq_one_iff.mp hsent
  exact ⟨_, _, _, s', hs, hsent, hr, (hscratch last rfl (by rw [hlast]; rfl)).1⟩

end Boolberry
