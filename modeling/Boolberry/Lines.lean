import Boolberry.BranchScratchpad

/-!
# Lines of blocks from genesis

A block names the block before it, so as long as block ids do not collide there is
one line of blocks from genesis to it, whether its members are on the main chain or
among the alternative blocks. The records of a line are a function of its blocks,
and therefore a record made on one main chain is still right on another.
-/

namespace Boolberry
open KeyValue

/-- `bei` carries the height, the cumulative difficulty and the scratchpad offset of a block behind
the records `rs`. -/
structure RecordOK (E : Env) (rs : List BlockExtendedInfo) (bei : BlockExtendedInfo) : Prop where
  height : bei.height = rs.length
  cumulativeDifficulty : bei.cumulativeDifficulty = topDifficulty rs + getDifficultyForNextBlock rs
  scratchOffset : bei.scratchOffset = (scratchpadOf E rs).length

/-- Records of blocks of `B` from genesis on, each naming the block before it and its height. -/
inductive Line (E : Env) (B : Set Block) : List BlockExtendedInfo → Prop
  | genesis {bei : BlockExtendedInfo} : bei.bl = generateGenesisBlock → bei.bl ∈ B →
      RecordOK E [] bei → Line E B [bei]
  | snoc {rs : List BlockExtendedInfo} {bei : BlockExtendedInfo} : Line E B rs → bei.bl ∈ B →
      bei.bl.prevId = getTopBlockId E rs → getBlockHeight bei.bl = rs.length → RecordOK E rs bei →
      Line E B (rs ++ [bei])

/-- What a line determines of a record. -/
def BlockExtendedInfo.key (bei : BlockExtendedInfo) : Block × ℕ × WideDifficulty × ℕ :=
  (bei.bl, bei.height, bei.cumulativeDifficulty, bei.scratchOffset)

section Keys

variable {E : Env} {rs rs' : List BlockExtendedInfo} (h : rs.map BlockExtendedInfo.key =
  rs'.map BlockExtendedInfo.key)
include h

theorem map_bl_of_key : rs.map BlockExtendedInfo.bl = rs'.map BlockExtendedInfo.bl := by
  have := congrArg (List.map Prod.fst) h
  rw [List.map_map, List.map_map] at this
  exact this

theorem map_work_of_key :
    rs.map BlockExtendedInfo.work = rs'.map BlockExtendedInfo.work := by
  have := congrArg (List.map fun k : Block × ℕ × WideDifficulty × ℕ => (k.1.timestamp, k.2.2.1)) h
  rw [List.map_map, List.map_map] at this
  exact this

theorem RecordOK.congr {bei : BlockExtendedInfo} (hr : RecordOK E rs bei) : RecordOK E rs' bei := by
  have hwork := map_work_of_key h
  refine ⟨?_, ?_, ?_⟩
  · rw [hr.height]
    simpa using congrArg List.length h
  · rw [hr.cumulativeDifficulty, topDifficulty_congr hwork, getDifficultyForNextBlock_congr hwork]
  · rw [hr.scratchOffset, scratchpadOf_eq_pushBlocks, scratchpadOf_eq_pushBlocks, map_bl_of_key h]

omit h in
theorem RecordOK.key_eq {bei bei' : BlockExtendedInfo} (hr : RecordOK E rs bei)
    (hr' : RecordOK E rs bei') (hbl : bei.bl = bei'.bl) : bei.key = bei'.key := by
  simp only [BlockExtendedInfo.key, hbl, hr.height, hr'.height, hr.cumulativeDifficulty,
    hr'.cumulativeDifficulty, hr.scratchOffset, hr'.scratchOffset]

end Keys

namespace Line

variable {E : Env} {B : Set Block} {rs rs' : List BlockExtendedInfo} {bei bei' : BlockExtendedInfo}

theorem ne_nil (h : Line E B rs) : rs ≠ [] := by
  cases h <;> simp

theorem of_append_singleton (h : Line E B (rs ++ [bei])) (hne : rs ≠ []) :
    Line E B rs ∧ bei.bl ∈ B ∧ bei.bl.prevId = getTopBlockId E rs ∧
      getBlockHeight bei.bl = rs.length ∧ RecordOK E rs bei := by
  generalize hm : rs ++ [bei] = m at h
  cases h with
  | genesis _ _ _ =>
    have hlen := congrArg List.length hm
    simp only [List.length_append, List.length_cons, List.length_nil] at hlen
    exact absurd (List.length_eq_zero_iff.mp (by omega)) hne
  | snoc hl hb hp hh hr =>
    obtain ⟨rfl, he⟩ := List.append_inj' hm rfl
    obtain rfl := List.singleton_injective he
    exact ⟨hl, hb, hp, hh, hr⟩

theorem mem (h : Line E B rs) : ∀ bei ∈ rs, bei.bl ∈ B := by
  induction h with
  | genesis _ hb _ => simpa using hb
  | snoc _ hb _ _ _ ih =>
    intro bei' hmem
    rcases List.mem_append.mp hmem with hmem | hmem
    · exact ih bei' hmem
    · exact List.mem_singleton.mp hmem ▸ hb

theorem take (h : Line E B rs) {k : ℕ} (hk : k ≠ 0) : Line E B (rs.take k) := by
  induction h with
  | genesis h1 h2 h3 =>
    rw [List.take_of_length_le (by simp; omega)]
    exact .genesis h1 h2 h3
  | @snoc rs bei hl hb hp hh hr ih =>
    by_cases hle : k ≤ rs.length
    · rw [List.take_append_of_le_length hle]
      exact ih
    · rw [List.take_of_length_le (by simp; omega)]
      exact .snoc hl hb hp hh hr

theorem of_append (h : Line E B (rs ++ rs')) (hne : rs ≠ []) : Line E B rs := by
  have := h.take (List.length_pos_iff.mpr hne).ne'
  rwa [List.take_left] at this

theorem getBlockHeight_eq (h : Line E B (rs ++ [bei])) : getBlockHeight bei.bl = rs.length := by
  by_cases hne : rs = []
  · subst hne
    generalize hm : [] ++ [bei] = m at h
    cases h with
    | genesis hg _ _ =>
      obtain rfl := List.singleton_injective hm
      rw [hg]
      rfl
    | @snoc rs _ hl _ _ _ _ =>
      have hlen := congrArg List.length hm
      have := List.length_pos_iff.mpr hl.ne_nil
      simp only [List.length_append, List.length_cons, List.length_nil] at hlen
      omega
  · exact (h.of_append_singleton hne).2.2.2.1

theorem recordOK (h : Line E B (rs ++ [bei])) : RecordOK E rs bei := by
  by_cases hne : rs = []
  · subst hne
    generalize hm : [] ++ [bei] = m at h
    cases h with
    | genesis _ _ hr =>
      obtain rfl := List.singleton_injective hm
      exact hr
    | @snoc rs _ hl _ _ _ _ =>
      have hlen := congrArg List.length hm
      have := List.length_pos_iff.mpr hl.ne_nil
      simp only [List.length_append, List.length_cons, List.length_nil] at hlen
      omega
  · exact (h.of_append_singleton hne).2.2.2.2

theorem unique (hinj : Set.InjOn (getBlockHash E) B) (h : Line E B (rs ++ [bei]))
    (h' : Line E B (rs' ++ [bei'])) (hbl : bei.bl = bei'.bl) :
    (rs ++ [bei]).map BlockExtendedInfo.key = (rs' ++ [bei']).map BlockExtendedInfo.key := by
  -- by the length of the first line; the second is as long, since blocks name their heights
  induction hn : rs.length generalizing rs rs' bei bei' with
  | zero =>
    have hlen : rs'.length = 0 := by
      rw [← h'.getBlockHeight_eq, ← hbl, h.getBlockHeight_eq, hn]
    obtain rfl := List.length_eq_zero_iff.mp hn
    obtain rfl := List.length_eq_zero_iff.mp hlen
    simpa using h.recordOK.key_eq h'.recordOK hbl
  | succ k ih =>
    have hlen : rs'.length = k + 1 := by
      rw [← h'.getBlockHeight_eq, ← hbl, h.getBlockHeight_eq, hn]
    obtain ⟨q, c, rfl⟩ := (List.eq_nil_or_concat' rs).resolve_left (by rintro rfl; simp at hn)
    obtain ⟨q', c', rfl⟩ := (List.eq_nil_or_concat' rs').resolve_left (by rintro rfl; simp at hlen)
    obtain ⟨hl, -, hp, -, hr⟩ := h.of_append_singleton (by simp)
    obtain ⟨hl', -, hp', -, hr'⟩ := h'.of_append_singleton (by simp)
    have hid : getBlockHash E c.bl = getBlockHash E c'.bl := by
      rw [hbl, hp'] at hp
      simpa [getTopBlockId] using hp.symm
    have hc : c.bl = c'.bl := hinj (hl.mem c (by simp)) (hl'.mem c' (by simp)) hid
    have hq := ih hl hl' hc (by simpa using hn)
    have hsplit : ∀ l : List BlockExtendedInfo, ∀ e, (l ++ [e]).map BlockExtendedInfo.key =
        l.map BlockExtendedInfo.key ++ [e.key] := fun l e => by simp
    rw [hsplit (q ++ [c]), hsplit (q' ++ [c']), hq, (hr.congr hq).key_eq hr' hbl]

/-- A block behind one line can be put behind any line with the same top block. -/
theorem attach (hinj : Set.InjOn (getBlockHash E) B) (h : Line E B (rs ++ [bei])) (hne : rs ≠ [])
    (h' : Line E B rs') (htop : getTopBlockId E rs = getTopBlockId E rs') :
    Line E B (rs' ++ [bei]) := by
  obtain ⟨hl, hb, hp, hh, hr⟩ := h.of_append_singleton hne
  obtain ⟨q, c, rfl⟩ := (List.eq_nil_or_concat' rs).resolve_left hne
  obtain ⟨q', c', rfl⟩ := (List.eq_nil_or_concat' rs').resolve_left h'.ne_nil
  have hc : c.bl = c'.bl :=
    hinj (hl.mem c (by simp)) (h'.mem c' (by simp)) (by simpa [getTopBlockId] using htop)
  have hq := unique hinj hl h' hc
  refine .snoc h' hb (hp.trans htop) ?_ (hr.congr hq)
  rw [hh]
  simpa using congrArg List.length hq

theorem recordOK_at {k : ℕ} (h : Line E B rs) (hk : rs[k]? = some bei) :
    RecordOK E (rs.take k) bei := by
  have hl := h.take (k := k + 1) (by omega)
  rw [List.take_add_one, hk] at hl
  exact hl.recordOK

end Line

theorem getBlockHeight_of_prevalidate {b : Block} {h : ℕ}
    (hm : prevalidateMinerTransaction b h = true) : getBlockHeight b = h := by
  obtain ⟨g, hg, hh⟩ := vin_of_prevalidate hm
  rw [getBlockHeight, hg]
  exact hh

theorem Line.push {E : Env} {B : Set Block} {cps : Checkpoints} {t : ℕ} {chain : List ChainBlock}
    {c : ChainBlock} (h : Line E B (blocksOf chain)) (hc : ValidNext E cps t chain c)
    (hb : c.bei.bl ∈ B) : Line E B (blocksOf (chain ++ [c])) := by
  obtain ⟨r, d, -, hbei⟩ := hc.record
  have hone : blocksOf (chain ++ [c]) = blocksOf chain ++ [c.bei] := by simp [blocksOf]
  obtain ⟨last, hlast⟩ : ∃ last, (blocksOf chain).getLast? = some last :=
    ⟨_, List.getLast?_eq_getLast_of_ne_nil h.ne_nil⟩
  rw [hone]
  refine .snoc h hb hc.header.prevId ?_ ⟨?_, ?_, ?_⟩
  · exact getBlockHeight_of_prevalidate hc.header.miner
  · rw [hbei]
    rfl
  · rw [hbei]
    simp only [nextBlockExtendedInfo, hlast, topDifficulty]
    exact BitVec.add_comm _ _
  · rw [hbei]
    rfl

/-- Every alternative block is stored under its id with the record of its line, and passed the
checkpoint of its height. -/
def AltsOK (E : Env) (B : Set Block) (cps : Checkpoints) (alts : Map Hash BlockExtendedInfo) : Prop :=
  ∀ id bei, alts.get id = some bei → id = getBlockHash E bei.bl ∧
    (∃ rs, rs ≠ [] ∧ Line E B (rs ++ [bei])) ∧
    (cps.isInCheckpointZone bei.height = true → cps.checkBlock bei.height id = true)

theorem AltsOK.erase {E : Env} {B : Set Block} {cps : Checkpoints} {alts : Map Hash BlockExtendedInfo}
    (h : AltsOK E B cps alts) (id : Hash) : AltsOK E B cps (alts.erase id) := by
  intro id' bei hget
  rw [Map.get_erase] at hget
  split_ifs at hget
  exact h id' bei hget

theorem AltsOK.set {E : Env} {B : Set Block} {cps : Checkpoints} {alts : Map Hash BlockExtendedInfo}
    (h : AltsOK E B cps alts) {rs : List BlockExtendedInfo} {bei : BlockExtendedInfo} (hne : rs ≠ [])
    (hl : Line E B (rs ++ [bei]))
    (hcp : cps.isInCheckpointZone bei.height = true →
      cps.checkBlock bei.height (getBlockHash E bei.bl) = true) :
    AltsOK E B cps (alts.set (getBlockHash E bei.bl) bei) := by
  intro id bei' hget
  rw [Map.get_set] at hget
  split_ifs at hget with hid
  · obtain rfl := Option.some.inj hget
    exact ⟨hid, ⟨rs, hne, hl⟩, fun hz => hid ▸ hcp hz⟩
  · exact h id bei' hget

/-- The branch that `handle_alternative_block` collects from `id` downwards. -/
inductive Branch (alts : Map Hash BlockExtendedInfo) : Hash → AltChain → Prop
  | nil {id : Hash} : alts.get id = none → Branch alts id []
  | snoc {id : Hash} {bei : BlockExtendedInfo} {l : AltChain} : alts.get id = some bei →
      Branch alts bei.bl.prevId l → Branch alts id (l ++ [(id, bei)])

theorem altChainGo_of_branch {alts : Map Hash BlockExtendedInfo} {id : Hash} {l : AltChain}
    (h : Branch alts id l) {k : ℕ} (hk : l.length < k) (acc : AltChain) :
    altChainGo alts k id acc = some (l ++ acc) := by
  induction h generalizing k acc with
  | nil hnone =>
    obtain ⟨k, rfl⟩ := Nat.exists_eq_add_one_of_ne_zero (Nat.ne_zero_of_lt hk)
    simp [altChainGo, hnone]
  | @snoc id bei l hget _ ih =>
    obtain ⟨k, rfl⟩ := Nat.exists_eq_add_one_of_ne_zero (Nat.ne_zero_of_lt hk)
    rw [List.length_append, List.length_singleton] at hk
    simp only [altChainGo, hget]
    rw [ih (by omega)]
    simp

section Alts

variable {E : Env} {B : Set Block} {cps : Checkpoints} {alts : Map Hash BlockExtendedInfo}

/-- The parent of an alternative block, if it is one as well, is one lower. -/
theorem AltsOK.parent_height (hinj : Set.InjOn (getBlockHash E) B) (h : AltsOK E B cps alts)
    {id : Hash} {bei bei' : BlockExtendedInfo} (hget : alts.get id = some bei)
    (hget' : alts.get bei.bl.prevId = some bei') : bei'.height + 1 = bei.height := by
  obtain ⟨-, ⟨rs, hne, hl⟩, -⟩ := h id bei hget
  obtain ⟨hid', ⟨rs', hne', hl'⟩, -⟩ := h _ bei' hget'
  obtain ⟨q, c, rfl⟩ := (List.eq_nil_or_concat' rs).resolve_left hne
  obtain ⟨hq, -, hp, -, hr⟩ := hl.of_append_singleton hne
  have hc : c.bl = bei'.bl := by
    refine hinj (hq.mem c (by simp)) (hl'.mem bei' (by simp)) ?_
    rw [← hid', hp]
    simp [getTopBlockId]
  have hkey := congrArg List.length (Line.unique hinj hq hl' hc)
  rw [hr.height, hl'.recordOK.height]
  simpa using hkey.symm

theorem AltsOK.exists_branch (hinj : Set.InjOn (getBlockHash E) B) (h : AltsOK E B cps alts)
    (id : Hash) : ∃ l, Branch alts id l := by
  cases hget : alts.get id with
  | none => exact ⟨[], .nil hget⟩
  | some bei =>
    -- the height goes down from parent to parent
    induction hn : bei.height generalizing id bei with
    | zero =>
      obtain ⟨-, ⟨rs, hne, hl⟩, -⟩ := h id bei hget
      have := List.length_pos_iff.mpr hne
      rw [← hl.recordOK.height, hn] at this
      omega
    | succ k ih =>
      cases hget' : alts.get bei.bl.prevId with
      | none => exact ⟨_, .snoc hget (.nil hget')⟩
      | some bei' =>
        have hheight := h.parent_height hinj hget hget'
        obtain ⟨l, hl⟩ := ih bei.bl.prevId bei' hget' (by omega)
        exact ⟨_, .snoc hget hl⟩

theorem Branch.get {id : Hash} {l : AltChain} (h : Branch alts id l) :
    ∀ e ∈ l, alts.get e.1 = some e.2 := by
  induction h with
  | nil _ => simp
  | snoc hget _ ih =>
    intro e he
    rcases List.mem_append.mp he with he | he
    · exact ih e he
    · rw [List.mem_singleton.mp he]
      exact hget

/-- The blocks of a branch are below the block its end is the parent of. -/
theorem Branch.height_lt (hinj : Set.InjOn (getBlockHash E) B) (hok : AltsOK E B cps alts)
    {id : Hash} {l : AltChain} (h : Branch alts id l) {bei : BlockExtendedInfo}
    (hget : alts.get id = some bei) : ∀ e ∈ l, e.2.height ≤ bei.height := by
  induction h generalizing bei with
  | nil hnone => simp
  | @snoc id bei' l hget' hl ih =>
    obtain rfl : bei' = bei := Option.some.inj (hget'.symm.trans hget)
    intro e he
    rcases List.mem_append.mp he with he | he
    · cases hp : alts.get bei'.bl.prevId with
      | none =>
        cases hl with
        | nil _ => simp at he
        | snoc hsome _ => simp [hp] at hsome
      | some bei'' =>
        have := ih hp e he
        have := hok.parent_height hinj hget hp
        omega
    · rw [List.mem_singleton.mp he]

theorem Branch.nodup (hinj : Set.InjOn (getBlockHash E) B) (hok : AltsOK E B cps alts)
    {id : Hash} {l : AltChain} (h : Branch alts id l) : (l.map Prod.fst).Nodup := by
  induction h with
  | nil _ => simp
  | @snoc id bei l hget hl ih =>
    rw [List.map_append, List.nodup_append]
    refine ⟨ih, by simp, fun a ha a' ha' he => ?_⟩
    simp only [List.map_cons, List.map_nil, List.mem_singleton] at ha'
    obtain ⟨e, hmem, rfl⟩ := List.mem_map.mp ha
    -- an entry under the same id would be as high as its descendant
    have hsame : e.2 = bei := by
      have := hl.get e hmem
      rw [he, ha', hget] at this
      exact (Option.some.inj this).symm
    cases hp : alts.get bei.bl.prevId with
    | none =>
      cases hl with
      | nil _ => simp at hmem
      | snoc hsome _ => simp [hp] at hsome
    | some bei' =>
      have h1 := hl.height_lt hinj hok hp e hmem
      have h2 := hok.parent_height hinj hget hp
      rw [hsame] at h1
      omega

theorem AltsOK.altChainOf_eq (hinj : Set.InjOn (getBlockHash E) B) (h : AltsOK E B cps alts)
    (id : Hash) : ∃ l, altChainOf alts id = some l ∧ Branch alts id l := by
  obtain ⟨l, hl⟩ := h.exists_branch hinj id
  refine ⟨l, ?_, hl⟩
  have hcard : l.length ≤ alts.keys.card := by
    have hsub : (l.map Prod.fst).toFinset ⊆ alts.keys := by
      intro x hx
      obtain ⟨e, he, rfl⟩ := List.mem_map.mp (List.mem_toFinset.mp hx)
      exact Map.mem_keys.mpr ⟨e.2, hl.get e he⟩
    have := Finset.card_le_card hsub
    rwa [List.toFinset_card_of_nodup (hl.nodup hinj h), List.length_map] at this
  have := altChainGo_of_branch hl (k := alts.keys.card + 1) (by omega) []
  rwa [List.append_nil] at this

/-- The id below the front of a branch. -/
def branchBase (id : Hash) (l : AltChain) : Hash :=
  match l.head? with
  | none => id
  | some front => front.2.bl.prevId

theorem Branch.line (hinj : Set.InjOn (getBlockHash E) B) (hok : AltsOK E B cps alts)
    {id : Hash} {l : AltChain} (h : Branch alts id l) {rs : List BlockExtendedInfo}
    (hrs : Line E B rs) (hbase : branchBase id l = getTopBlockId E rs) :
    Line E B (rs ++ l.map Prod.snd) ∧ getTopBlockId E (rs ++ l.map Prod.snd) = id := by
  induction h with
  | nil _ => exact ⟨by simpa using hrs, by simpa [branchBase] using hbase.symm⟩
  | @snoc id bei l hget _ ih =>
    have hbase' : branchBase bei.bl.prevId l = getTopBlockId E rs := by
      rw [← hbase]
      cases l <;> rfl
    obtain ⟨hline, htop⟩ := ih hbase'
    obtain ⟨hid, ⟨q, hne, hq⟩, -⟩ := hok id bei hget
    have hp := (hq.of_append_singleton hne).2.2.1
    rw [List.map_append, List.map_singleton, ← List.append_assoc]
    refine ⟨hq.attach hinj hne hline (hp.symm.trans htop.symm), ?_⟩
    simp [getTopBlockId, hid]

end Alts

/-- The branch a block is attached to is a line behind the main chain that ends in the block's
parent. -/
structure Spliced (E : Env) (B : Set Block) (n : Node) (prevId : Hash) (a : Attachment) : Prop where
  line : Line E B (n.blocks.take a.connectionHeight ++ a.branch)
  top : getTopBlockId E (n.blocks.take a.connectionHeight ++ a.branch) = prevId
  pos : 1 ≤ a.connectionHeight
  le : a.connectionHeight ≤ n.blocks.length
  prevHeight : a.prevHeight + 1 = a.connectionHeight + a.branch.length
  prevDifficulty : a.prevDifficulty = topDifficulty (n.blocks.take a.connectionHeight ++ a.branch)
  alts : ∀ e ∈ a.altChain, n.alternativeChains.get e.1 = some e.2

theorem getTopBlockId_take {E : Env} {rs : List BlockExtendedInfo} {bei : BlockExtendedInfo} {h : ℕ}
    (hget : rs[h]? = some bei) : getTopBlockId E (rs.take (h + 1)) = getBlockHash E bei.bl ∧
      topDifficulty (rs.take (h + 1)) = bei.cumulativeDifficulty := by
  have htake : rs.take (h + 1) = rs.take h ++ [bei] := by
    rw [List.take_add_one, hget]
    rfl
  simp [htake, getTopBlockId, topDifficulty]

theorem attach_spliced {E : Env} {B : Set Block} {cps : Checkpoints} {n : Node} {prevId : Hash}
    {l : AltChain} {a : Attachment} (hinj : Set.InjOn (getBlockHash E) B)
    (hmain : Line E B n.blocks) (halts : AltsOK E B cps n.alternativeChains)
    (hidx : ∀ h, n.blocksIndex.get prevId = some h →
      ∃ bei, n.blocks[h]? = some bei ∧ getBlockHash E bei.bl = prevId)
    (hb : Branch n.alternativeChains prevId l) (ha : attach E n prevId l = some a) :
    Spliced E B n prevId a ∧ a.altChain = l := by
  unfold Boolberry.attach at ha
  rcases List.eq_nil_or_concat' l with rfl | ⟨l', e, rfl⟩
  · -- the parent is on the main chain
    simp only [List.head?_nil] at ha
    cases hi : n.blocksIndex.get prevId with
    | none => simp [hi] at ha
    | some h =>
      obtain ⟨bei, hbei, hid⟩ := hidx h hi
      simp only [hi, hbei, Option.some.injEq] at ha
      subst ha
      obtain ⟨htop, hdiff⟩ := getTopBlockId_take (E := E) hbei
      have hlt := (List.getElem?_eq_some_iff.mp hbei).1
      refine ⟨⟨?_, ?_, Nat.le_add_left 1 h, hlt, rfl, ?_, by simp⟩, rfl⟩
      · simpa [Attachment.branch] using hmain.take (k := h + 1) (by omega)
      · simpa [Attachment.branch, hid] using htop
      · simpa [Attachment.branch] using hdiff.symm
  · obtain ⟨front, hfront⟩ : ∃ front, (l' ++ [e]).head? = some front := by
      cases l' <;> simp
    have hlast : (l' ++ [e]).getLast? = some e := by simp
    simp only [hfront, hlast] at ha
    split_ifs at ha with hlen
    cases hget : n.blocks[front.2.height - 1]? with
    | none => simp [hget] at ha
    | some bei =>
      simp only [hget] at ha
      split_ifs at ha with hid
      obtain rfl := Option.some.inj ha
      -- the front is not a genesis block, so there is a block below it
      have hpos : 1 ≤ front.2.height := by
        obtain ⟨-, ⟨rs, hne, hl⟩, -⟩ :=
          halts front.1 front.2 (hb.get front (List.mem_of_mem_head? hfront))
        rw [hl.recordOK.height]
        exact List.length_pos_iff.mpr hne
      obtain ⟨htop, -⟩ := getTopBlockId_take (E := E) hget
      rw [Nat.sub_add_cancel hpos] at htop
      have hbase : branchBase prevId (l' ++ [e]) = getTopBlockId E (n.blocks.take front.2.height) := by
        rw [branchBase, hfront, htop, hid]
      obtain ⟨hline, hend⟩ := hb.line hinj halts (hmain.take (by omega)) hbase
      have hrec : RecordOK E (n.blocks.take front.2.height ++ l'.map Prod.snd) e.2 := by
        have := hline
        rw [List.map_append, List.map_singleton, ← List.append_assoc] at this
        exact this.recordOK
      have hheight := hrec.height
      rw [List.length_append, List.length_take, List.length_map] at hheight
      refine ⟨⟨hline, hend, hpos, by simp only; omega, ?_, ?_, hb.get⟩, rfl⟩
      · simp only [Attachment.branch, List.length_map, List.length_append, List.length_singleton]
        omega
      · simp only [Attachment.branch, List.map_append, List.map_singleton, ← List.append_assoc,
          topDifficulty_append_singleton]

section Added

variable {E : Env} {B : Set Block} {cps : Checkpoints} {n n' : Node} {b : Block} {a : Attachment}

/-- The records of the branch fit the main chain it is on. -/
theorem Spliced.attached (hmain : Line E B n.blocks) (ha : Spliced E B n b.prevId a)
    (hlt : a.connectionHeight < n.blocks.length) : Attached E n a := by
  refine ⟨?_, ha.prevHeight, ha.prevDifficulty⟩
  have hoff : scratchOffsetAt n.blocks a.connectionHeight =
      (scratchpadOf E (n.blocks.take a.connectionHeight)).length := by
    have hget : n.blocks[a.connectionHeight]? = some n.blocks[a.connectionHeight] :=
      List.getElem?_eq_getElem hlt
    rw [scratchOffsetAt, hget]
    exact (hmain.recordOK_at hget).scratchOffset
  have htake : (n.blocks.take a.connectionHeight).length = a.connectionHeight := by
    rw [List.length_take]
    omega
  have hline := ha.line
  have hpos := ha.pos
  generalize a.branch = branch at hline
  induction branch using List.reverseRecOn with
  | nil => exact .nil
  | append_singleton branch bei ih =>
    rw [← List.append_assoc] at hline
    have hpre := ih (hline.of_append (by
      intro hnil
      have := congrArg List.length hnil
      rw [List.length_append, htake, List.length_nil] at this
      omega))
    have hrec := hline.recordOK
    have hheight : bei.height = a.connectionHeight + branch.length := by
      rw [hrec.height, List.length_append, htake]
    refine hpre.snoc ⟨hheight, ?_, ?_⟩
    · rw [hrec.cumulativeDifficulty, hheight,
        getNextDifficultyForAlternativeChain_eq hpos ha.le fun _ => hpre.head_height]
    · rw [hrec.scratchOffset, scratchpadOf_append, pushBlocks_length, hoff]

theorem addAlternativeBlock_line {bvc : BlockVerificationContext} {altChain : AltChain}
    (hmain : Line E B n.blocks) (hb : b ∈ B) (ha : Spliced E B n b.prevId a)
    (h : addAlternativeBlock E bvc n b a = .ok (altChain, n')) :
    ∃ bei, bei.bl = b ∧ a.connectionHeight < n.blocks.length ∧
      altChain = a.altChain ++ [(getBlockHash E b, bei)] ∧
      Line E B (n.blocks.take a.connectionHeight ++ a.branch ++ [bei]) ∧
      (n.checkpoints.isInCheckpointZone bei.height = true →
        n.checkpoints.checkBlock bei.height (getBlockHash E b) = true) ∧
      n'.toChainStores = n.toChainStores ∧ n'.checkpoints = n.checkpoints ∧
      n'.alternativeChains = n.alternativeChains.set (getBlockHash E b) bei := by
  obtain ⟨bei, diff, pow, hpow, -, -, hcp, hminer, -, rfl, hs, hc, halt⟩ := addAlternativeBlock_ok h
  obtain ⟨connection, patches, -, hget, -, rfl, rfl, -⟩ := altProofOfWork_some hpow
  have hlt := (List.getElem?_eq_some_iff.mp hget).1
  have hatt := ha.attached hmain hlt
  have hoff := (hmain.recordOK_at hget).scratchOffset
  have hlen : (n.blocks.take a.connectionHeight ++ a.branch).length = a.prevHeight + 1 := by
    rw [List.length_append, List.length_take, ha.prevHeight]
    omega
  refine ⟨_, rfl, hlt, rfl, ?_, hcp, hs, hc, halt⟩
  refine .snoc ha.line hb ha.top.symm ?_ ⟨hlen.symm, ?_, ?_⟩
  · rw [hlen]
    exact getBlockHeight_of_prevalidate hminer
  · simp only
    rw [ha.prevDifficulty, ha.prevHeight,
      getNextDifficultyForAlternativeChain_eq ha.pos ha.le fun _ => hatt.branch.head_height]
  · simp only
    rw [scratchpadOf_append, pushBlocks_length, hoff]

end Added

end Boolberry
