import Boolberry.Rollback
import Boolberry.Sides

/-!
# Reorganisations

One call of `add_new_block` leaves the main chain alone, extends it by the new
block, or replaces it by a heavier one. This needs blocks that can be popped
again: a switch that fails half-way pops the blocks it has pushed before it puts
the old ones back.
-/

namespace Boolberry
open KeyValue TxMemoryPool

/-- The cumulative difficulty of a line of blocks of `B` does not wrap. -/
def WorkFits (E : Env) (B : Set Block) : Prop :=
  ∀ rs bei, Line E B (rs ++ [bei]) →
    (topDifficulty rs).toNat + (getDifficultyForNextBlock rs).toNat < 2 ^ 128

/-- Blocks whose coinbases pay to keys, whose ids do not collide and whose difficulties add up. -/
structure SoundBlocks (E : Env) (B : Set Block) : Prop where
  genesis : generateGenesisBlock ∈ B
  toKey : ∀ b ∈ B, ∀ o ∈ b.minerTx.vout, o.isToKey = true
  inj : Set.InjOn (getBlockHash E) B
  work : WorkFits E B

section Work

variable {E : Env} {B : Set Block} {rs rs' : List BlockExtendedInfo} {bei bei' : BlockExtendedInfo}

theorem Line.topDifficulty_le (hwork : WorkFits E B) (h : Line E B (rs ++ [bei])) :
    topDifficulty rs ≤ bei.cumulativeDifficulty := by
  have hfit := hwork rs bei h
  rw [h.recordOK.cumulativeDifficulty, BitVec.le_def, BitVec.toNat_add, Nat.mod_eq_of_lt hfit]
  exact Nat.le_add_right _ _

theorem Line.difficulty_le (hwork : WorkFits E B) (h : Line E B rs) :
    ∀ bei ∈ rs, bei.cumulativeDifficulty ≤ topDifficulty rs := by
  induction h with
  | @genesis g _ _ _ =>
    intro bei hmem
    rw [List.mem_singleton.mp hmem]
    exact BitVec.le_refl g.cumulativeDifficulty
  | @snoc rs g hl hb hp hh hr ih =>
    have hle := Line.topDifficulty_le hwork (.snoc hl hb hp hh hr)
    intro bei hmem
    rw [topDifficulty_append_singleton]
    rcases List.mem_append.mp hmem with hmem | hmem
    · exact BitVec.le_trans (ih bei hmem) hle
    · rw [List.mem_singleton.mp hmem]
      exact BitVec.le_refl _

theorem Line.key_of_blocks (hinj : Set.InjOn (getBlockHash E) B) (h : Line E B rs)
    (h' : Line E B rs') (hbl : rs.map BlockExtendedInfo.bl = rs'.map BlockExtendedInfo.bl) :
    rs.map BlockExtendedInfo.key = rs'.map BlockExtendedInfo.key := by
  obtain ⟨q, c, rfl⟩ := (List.eq_nil_or_concat' rs).resolve_left h.ne_nil
  obtain ⟨q', c', rfl⟩ := (List.eq_nil_or_concat' rs').resolve_left h'.ne_nil
  rw [List.map_append, List.map_append] at hbl
  exact h.unique hinj h' (List.singleton_injective (List.append_inj' hbl rfl).2)

theorem Line.difficulty_eq (hinj : Set.InjOn (getBlockHash E) B) (h : Line E B (rs ++ [bei]))
    (h' : Line E B (rs' ++ [bei'])) (hbl : bei.bl = bei'.bl) :
    bei.cumulativeDifficulty = bei'.cumulativeDifficulty := by
  have hkey := congrArg List.getLast? (h.unique hinj h' hbl)
  simp only [List.map_append, List.map_singleton, List.getLast?_concat, Option.some.injEq] at hkey
  exact congrArg (fun k : Block × ℕ × WideDifficulty × ℕ => k.2.2.1) hkey

theorem Line.upTo {k : ℕ} (h : Line E B rs) (hk : rs[k]? = some bei) :
    Line E B (rs.take k ++ [bei]) := by
  have hl := h.take (k := k + 1) (by omega)
  rwa [List.take_add_one, hk] at hl

end Work

/-- The node represents `chain` with exact flags; its blocks and its alternative blocks are lines of
blocks of `B`. -/
structure Settled (E : Env) (cps : Checkpoints) (B : Set Block) (T : Set TransactionPrefix) (t : ℕ)
    (chain : List ChainBlock) (n : Node) : Prop where
  exact : Exact E cps T t chain n
  line : Line E B (blocksOf chain)
  alts : AltsOK E B cps n.alternativeChains

namespace Settled

variable {E : Env} {cps : Checkpoints} {B : Set Block} {T : Set TransactionPrefix} {t now : ℕ}
  {chain : List ChainBlock} {n : Node}

theorem mono {t' : ℕ} (hle : t ≤ t') (h : Settled E cps B T t chain n) :
    Settled E cps B T t' chain n :=
  ⟨h.exact.mono hle, h.line, h.alts⟩

theorem frame {n' : Node} (h : Settled E cps B T t chain n)
    (hs : n'.toChainStores = n.toChainStores) (hc : n'.checkpoints = n.checkpoints)
    (ha : AltsOK E B cps n'.alternativeChains) : Settled E cps B T t chain n' :=
  ⟨h.exact.frame hs hc, h.line, ha⟩

theorem blocks (h : Settled E cps B T t chain n) : n.blocks = blocksOf chain := h.exact.rep.blocks

theorem lineBlocks (h : Settled E cps B T t chain n) : Line E B n.blocks := by
  rw [h.blocks]
  exact h.line

theorem readable (hB : SoundBlocks E B) (h : Settled E cps B T t chain n) :
    ∀ c ∈ chain, Readable E c.bei.bl := by
  intro c hc
  obtain ⟨i, hi⟩ := List.mem_iff_getElem?.mp hc
  obtain ⟨_, hn, -⟩ := h.exact.valid.at hi
  exact (readable_iff hn).mpr (hB.toKey _ (h.line.mem c.bei (List.mem_map_of_mem hc)))

theorem eraseAlt (id : Hash) (h : Settled E cps B T t chain n) :
    Settled E cps B T t chain { n with alternativeChains := n.alternativeChains.erase id } :=
  h.frame rfl rfl (h.alts.erase id)

theorem addBlockAsInvalid (bei : BlockExtendedInfo) (id : Hash) (h : Settled E cps B T t chain n) :
    Settled E cps B T t chain (Boolberry.addBlockAsInvalid n bei id) := by
  obtain ⟨hs, hf⟩ := addBlockAsInvalid_stores n bei id
  exact h.frame hs hf.checkpoints (by rw [hf.alternativeChains]; exact h.alts)

theorem orphanRest (rest : AltChain) (h : Settled E cps B T t chain n) :
    Settled E cps B T t chain (Boolberry.orphanRest n rest) := by
  unfold Boolberry.orphanRest
  cases rest.head? with
  | none => exact h
  | some first =>
    simp only
    induction rest generalizing n with
    | nil => exact h
    | cons e l ih => exact ih ((h.addBlockAsInvalid first.2 first.1).eraseAlt e.1)

theorem eraseAltChain (l : AltChain) (h : Settled E cps B T t chain n) :
    Settled E cps B T t chain (Boolberry.eraseAltChain n l) := by
  refine h.frame rfl rfl ?_
  have halts := h.alts
  unfold Boolberry.eraseAltChain
  simp only
  generalize n.alternativeChains = alts at halts
  induction l generalizing alts with
  | nil => exact halts
  | cons e l ih => exact ih _ (halts.erase e.1)

theorem push (hT : SpendsOnce E cps T) {bl : Block} (hb : bl ∈ B) (bvc : BlockVerificationContext)
    (h : Settled E cps B T now chain n) :
    let r := handleBlockToMainChain E now bvc n bl
    (r.1 = true ∧ r.2.1 = { bvc with addedToMainChain := true } ∧
      ∃ c, c.bei.bl = bl ∧ Settled E cps B T now (chain ++ [c]) r.2.2 ∧
        Recalls (zoneAt cps chain) bl.txHashes (Known E chain n.toChainStores)
          (Known E (chain ++ [c]) r.2.2.toChainStores)) ∨
    (r.1 = false ∧ Settled E cps B T now chain r.2.2 ∧
      Recalls (zoneAt cps chain) bl.txHashes (Known E chain n.toChainStores)
        (Known E chain r.2.2.toChainStores)) := by
  intro r
  rcases h.exact.push hT now bl bvc with ⟨h1, h2, c, rfl, hp, he⟩ | ⟨h1, -, he, hrec, hf⟩
  · rw [max_self] at he
    have hvalid := hp.valid
    have hrec := hp.recalls
    rw [h.exact.checkpoints] at hvalid hrec
    refine Or.inl ⟨h1, h2, c, rfl, ⟨he, h.line.push hvalid hb, ?_⟩, hrec⟩
    rw [hp.frame.alternativeChains]
    exact h.alts
  · refine Or.inr ⟨h1, ⟨he, h.line, ?_⟩, hrec⟩
    rw [hf.alternativeChains]
    exact h.alts

/-- A rollback on a settled node restores the old chain and nothing else. -/
theorem rollback (hB : SoundBlocks E B) (hT : SpendsOnce E cps T) {pre done post : List ChainBlock}
    (h : Settled E cps B T now (pre ++ done) n) (hne : pre ≠ [])
    (hv : ValidChain E cps now (pre ++ post)) (hline : Line E B (blocksOf (pre ++ post)))
    (hr : Recoverable cps (Known E (pre ++ done) n.toChainStores) pre.length post) :
    let n' := (rollbackBlockchainSwitching E now n (post.map fun c => c.bei.bl) pre.length).2
    Settled E cps B T now (pre ++ post) n' ∧ SameSides n n' := by
  obtain ⟨n', hroll, he, hf⟩ := h.exact.rollback hT hne
    (fun c hc => h.readable hB c (by simp [hc])) hv hr
  rw [max_self] at he
  have hsides := rollbackBlockchainSwitching_sides (E := E) (s := pre.length) (n := n)
    (l := post.map fun c => c.bei.bl) (by rw [hroll])
  rw [hroll] at hsides ⊢
  exact ⟨⟨he, hline, by rw [hf.alternativeChains]; exact h.alts⟩, hsides⟩

end Settled

/-- The new block `bei` makes the branch it is attached to heavier than the main chain. -/
structure Heavier (E : Env) (cps : Checkpoints) (B : Set Block) (n : Node) (a : Attachment)
    (bei : BlockExtendedInfo) : Prop where
  passed : cps.isHeightPassedZone (getBlockHeight bei.bl) (n.blocks.length - 1) = false
  pos : 1 ≤ a.connectionHeight
  lt : a.connectionHeight < n.blocks.length
  line : Line E B (n.blocks.take a.connectionHeight ++ (a.branch ++ [bei]))
  checkpoint : ∀ rec ∈ a.branch ++ [bei], cps.isInCheckpointZone rec.height = true →
    cps.checkBlock rec.height (getBlockHash E rec.bl) = true
  heavier : topDifficulty n.blocks < bei.cumulativeDifficulty

section Safe

variable {E : Env} {cps : Checkpoints} {B : Set Block} {T : Set TransactionPrefix} {t : ℕ}
  {pre post : List ChainBlock} {n : Node} {a : Attachment} {bei : BlockExtendedInfo}

theorem Heavier.take_eq (h : Settled E cps B T t (pre ++ post) n)
    (hpre : pre.length = a.connectionHeight) :
    n.blocks.take a.connectionHeight = blocksOf pre := by
  rw [h.blocks, blocksOf_append, ← hpre]
  exact List.take_left' (blocksOf_length pre)

theorem Heavier.get (hw : Heavier E cps B n a bei) {j : ℕ} {rec : BlockExtendedInfo}
    (hj : (a.branch ++ [bei])[j]? = some rec) :
    (n.blocks.take a.connectionHeight ++ (a.branch ++ [bei]))[a.connectionHeight + j]? = some rec ∧
      rec.height = a.connectionHeight + j := by
  have hlen : (n.blocks.take a.connectionHeight).length = a.connectionHeight := by
    rw [List.length_take]
    exact Nat.min_eq_left hw.lt.le
  have hget : (n.blocks.take a.connectionHeight ++ (a.branch ++ [bei]))[a.connectionHeight + j]? =
      some rec := by
    rw [List.getElem?_append_right (by omega), hlen, Nat.add_sub_cancel_left]
    exact hj
  refine ⟨hget, ?_⟩
  rw [(hw.line.recordOK_at hget).height, List.length_take]
  have := (List.getElem?_eq_some_iff.mp hget).1
  omega

/-- A branch block below the last checkpoint takes no transaction of an old block above it: the
main chain and the branch have both passed that checkpoint, so they are the same up to it. -/
theorem Heavier.safe (hB : SoundBlocks E B) (h : Settled E cps B T t (pre ++ post) n)
    (hpre : pre.length = a.connectionHeight) (hw : Heavier E cps B n a bei) {i j : ℕ}
    {rec : BlockExtendedInfo} {c : ChainBlock} (hj : (a.branch ++ [bei])[j]? = some rec)
    (hzj : cps.isInCheckpointZone (pre.length + j) = true) (hi : post[i]? = some c)
    (hzi : cps.isInCheckpointZone (pre.length + i) = false) {te : TxEntry} (hte : te ∈ c.txs) :
    te.id ∉ rec.bl.txHashes := by
  have hpos := hw.pos
  -- the last checkpoint
  simp only [Checkpoints.isInCheckpointZone, decide_eq_true_eq, decide_eq_false_iff_not,
    not_and, not_le] at hzj hzi
  obtain ⟨hne, hjz⟩ := hzj
  have hzi := hzi hne
  obtain ⟨z, hz, hsup⟩ := Finset.exists_mem_eq_sup cps.keys (Finset.nonempty_iff_ne_empty.mpr hne) id
  simp only [id] at hsup
  rw [hsup] at hjz hzi
  have hic := (List.getElem?_eq_some_iff.mp hi).1
  have hlast : n.blocks.length = pre.length + post.length := by
    rw [h.blocks, blocksOf_length, List.length_append]
  obtain ⟨p, hp⟩ := Map.mem_keys.mp hz
  -- the new block is above it
  have hheight : z < a.connectionHeight + a.branch.length := by
    have hh := hw.line
    rw [← List.append_assoc] at hh
    have hh := hh.getBlockHeight_eq
    rw [List.length_append, List.length_take, Nat.min_eq_left hw.lt.le] at hh
    have hpass := hw.passed
    simp only [Checkpoints.isHeightPassedZone, hh] at hpass
    by_contra hle
    rw [if_neg (by omega)] at hpass
    exact of_decide_eq_false hpass ⟨z, hz, by omega, by omega⟩
  -- both chains have their checkpointed block
  obtain ⟨rec', hrec'⟩ : ∃ rec', (a.branch ++ [bei])[z - pre.length]? = some rec' :=
    ⟨_, List.getElem?_eq_getElem (by simp; omega)⟩
  obtain ⟨c', hc'⟩ : ∃ c', post[z - pre.length]? = some c' :=
    ⟨_, List.getElem?_eq_getElem (by omega)⟩
  obtain ⟨hget', hrz⟩ := hw.get hrec'
  have hsum : a.connectionHeight + (z - pre.length) = z := by omega
  rw [hsum] at hget' hrz
  have hat : ∀ k d, post[k]? = some d → (pre ++ post)[pre.length + k]? = some d := by
    intro k d hd
    rw [List.getElem?_append_right (Nat.le_add_right _ _), Nat.add_sub_cancel_left]
    exact hd
  have hmain : (pre ++ post)[z]? = some c' := by
    have := hat _ _ hc'
    rwa [show pre.length + (z - pre.length) = z by omega] at this
  have hid' : getBlockHash E c'.bei.bl = p := h.exact.valid.checkpoint (by omega) hmain hp
  have hidr : getBlockHash E rec'.bl = p := by
    have := hw.checkpoint rec' (List.mem_of_getElem? hrec')
    rw [hrz] at this
    exact checkBlock_of_get hp (this (isInCheckpointZone_of_mem hz))
  have hmainb : (blocksOf (pre ++ post))[z]? = some c'.bei := by
    rw [blocksOf, List.getElem?_map, hmain]
    rfl
  have hbl : rec'.bl = c'.bei.bl := by
    refine hB.inj (hw.line.mem rec' (List.mem_of_getElem? hget'))
      (h.line.mem c'.bei (List.mem_of_getElem? hmainb)) ?_
    rw [hidr, hid']
  -- so they agree at the branch block's height
  have hkeys := (hw.line.upTo hget').unique hB.inj (h.line.upTo hmainb) hbl
  have hbls := map_bl_of_key hkeys
  obtain ⟨d, hd⟩ : ∃ d, post[j]? = some d := ⟨_, List.getElem?_eq_getElem (by omega)⟩
  have hsame : rec.bl = d.bei.bl := by
    obtain ⟨hgetj, -⟩ := hw.get hj
    have hdb : (blocksOf (pre ++ post))[a.connectionHeight + j]? = some d.bei := by
      rw [← hpre, blocksOf, List.getElem?_map, hat j d hd]
      rfl
    have hup : ∀ (rs : List BlockExtendedInfo) (r : BlockExtendedInfo), rs[z]? = some r →
        rs.take z ++ [r] = rs.take (z + 1) := fun rs r hr => by
      rw [List.take_add_one, hr]
      rfl
    rw [hup _ _ hget', hup _ _ hmainb] at hbls
    have := congrArg (fun l => l[a.connectionHeight + j]?) hbls
    simp only [List.getElem?_map, List.getElem?_take_of_lt (show a.connectionHeight + j < z + 1 by
      omega), hgetj, hdb, Option.map_some, Option.some.injEq] at this
    exact this
  obtain ⟨_, hnd, -⟩ := h.exact.valid.at (hat j d hd)
  rw [hsame, ← hnd.txIds]
  exact id_notMem_of_nodup h.exact.nodup_ids (hat i c hi) (hat j d hd) (by omega) hte

end Safe

/-- The old chain can be put back from what the node knows. -/
structure Returnable (E : Env) (cps : Checkpoints) (B : Set Block) (now : ℕ)
    (pre post : List ChainBlock) (known : Hash → Option Transaction) : Prop where
  valid : ValidChain E cps now (pre ++ post)
  line : Line E B (blocksOf (pre ++ post))
  nodup : ((entriesOf E (pre ++ post)).map TxEntry.id).Nodup
  recoverable : Recoverable cps known pre.length post

section Switch

variable {E : Env} {cps : Checkpoints} {B : Set Block} {T : Set TransactionPrefix} {now : ℕ}
  {pre post : List ChainBlock}

theorem Returnable.recalls {known known' : Hash → Option Transaction} {zone : Bool}
    {ids : List Hash} (hr : Returnable E cps B now pre post known)
    (hrec : Recalls zone ids known known')
    (hsafe : ∀ i c, post[i]? = some c → zone = true →
      cps.isInCheckpointZone (pre.length + i) = false → ∀ te ∈ c.txs, te.id ∉ ids) :
    Returnable E cps B now pre post known' :=
  ⟨hr.valid, hr.line, hr.nodup, hr.recoverable.recalls hrec hsafe⟩

theorem Settled.rolledBack (hB : SoundBlocks E B) (hT : SpendsOnce E cps T)
    {done : List ChainBlock} {n : Node} (h : Settled E cps B T now (pre ++ done) n) (hne : pre ≠ [])
    (hr : Returnable E cps B now pre post (Known E (pre ++ done) n.toChainStores)) :
    let n' := (rollbackBlockchainSwitching E now n (post.map fun c => c.bei.bl) pre.length).2
    Settled E cps B T now (pre ++ post) n' ∧ SameSides n n' :=
  h.rollback hB hT hne hr.valid hr.line hr.recoverable

/-- Connecting a branch pushes all its blocks or ends with the old chain and without the blocks of
the branch from some block on. -/
theorem connectAltChain_spec (hB : SoundBlocks E B) (hT : SpendsOnce E cps T) {l : AltChain}
    {done : List ChainBlock} {n : Node} (h : Settled E cps B T now (pre ++ done) n) (hne : pre ≠ [])
    (hr : Returnable E cps B now pre post (Known E (pre ++ done) n.toChainStores))
    (hl : ∀ e ∈ l, e.1 = getBlockHash E e.2.bl ∧ e.2.bl ∈ B)
    (hsafe : ∀ j e, l[j]? = some e →
      cps.isInCheckpointZone ((pre ++ done).length + j) = true →
      ∀ i c, post[i]? = some c → cps.isInCheckpointZone (pre.length + i) = false →
      ∀ te ∈ c.txs, te.id ∉ e.2.bl.txHashes) :
    match connectAltChain E now (post.map fun c => c.bei.bl) pre.length l n with
    | .ok n' => (∃ cs, cs.map (fun c => c.bei.bl) = l.map (fun e => e.2.bl) ∧
        Settled E cps B T now (pre ++ (done ++ cs)) n' ∧
        Returnable E cps B now pre post (Known E (pre ++ (done ++ cs)) n'.toChainStores)) ∧
        SameSides n n'
    | .error n' => Settled E cps B T now (pre ++ post) n' ∧
        ∃ taken e rest, l = taken ++ e :: rest ∧ Dropped (e :: rest) n n' := by
  induction l generalizing done n with
  | nil => exact ⟨⟨[], rfl, by simpa using h, by simpa using hr⟩, .refl n⟩
  | cons e rest ih =>
    have hfirst : zoneAt cps (pre ++ done) = true → ∀ i c, post[i]? = some c →
        cps.isInCheckpointZone (pre.length + i) = false → ∀ te ∈ c.txs, te.id ∉ e.2.bl.txHashes :=
      fun hz => hsafe 0 e rfl hz
    obtain ⟨hkey, heB⟩ := hl e (by simp)
    unfold connectAltChain
    rcases h.push hT heB {} with ⟨h1, h2, c, hbl, h', hrec⟩ | ⟨h1, h', hrec⟩
    · -- the block went in
      have hsides := handleBlockToMainChain_sides h1
      simp only [h1, h2, Bool.true_and, if_true]
      rw [List.append_assoc] at h' hrec
      -- a push in the zone cuts signatures, but of no transaction that an old block needs whole
      have hr' := hr.recalls hrec fun i c hc hz hi te hte => hfirst hz i c hc hi te hte
      have hrest := ih h' hr' (fun e' he' => hl e' (by simp [he'])) fun j e' he' hz => by
        refine hsafe (j + 1) e' he' ?_
        rw [← hz]
        congr 1
        simp only [List.length_append, List.length_singleton]
        omega
      generalize connectAltChain E now (post.map fun c => c.bei.bl) pre.length rest
        (handleBlockToMainChain E now {} n e.2.bl).2.2 = r at hrest
      cases r with
      | error n' =>
        obtain ⟨hset, taken, e', rest', rfl, hdrop⟩ := hrest
        exact ⟨hset, e :: taken, e', rest', rfl, hdrop.of_sides hsides⟩
      | ok n' =>
        obtain ⟨⟨cs, hcs, hset, hret⟩, hsides'⟩ := hrest
        refine ⟨⟨c :: cs, by simp [hcs, hbl], ?_, ?_⟩, hsides.trans hsides'⟩
        · simpa using hset
        · simpa using hret
    · -- it did not, and the rollback brings the old chain back
      simp only [h1, Bool.false_and, Bool.false_eq_true, if_false]
      have hmarks := handleBlockToMainChain_marks E now {} n e.2.bl
      have halts := (handleBlockToMainChain_effect E now {} n e.2.bl).1.alternativeChains
      generalize (handleBlockToMainChain E now {} n e.2.bl) = r at *
      have hr' := hr.recalls hrec fun i c hc hz hi te hte => hfirst hz i c hc hi te hte
      obtain ⟨hset, hsides⟩ := h'.rolledBack hB hT hne hr'
      refine ⟨((hset.addBlockAsInvalid _ _).eraseAlt e.1).orphanRest rest, [], e, rest, rfl, ?_⟩
      rw [← hkey] at hmarks ⊢
      refine Dropped.refused e rest (hsides.alternativeChains.trans halts) fun id hid => ?_
      rw [hsides.invalidBlocks]
      exact hmarks.other id hid

/-- `handle` takes a block that is no heavier than the main chain, or refuses it; the main chain
stays. -/
def Light (E : Env) (cps : Checkpoints) (B : Set Block) (T : Set TransactionPrefix) (now : ℕ)
    (handle : Node → Block → Option (Bool × Node)) : Prop :=
  ∀ (chain : List ChainBlock) (n : Node) (b : Block), Settled E cps B T now chain n → b ∈ B →
    (∀ rs bei, Line E B (rs ++ [bei]) → bei.bl = b →
      bei.cumulativeDifficulty ≤ topDifficulty n.blocks) →
    ∃ r, handle n b = some r ∧ r.2.toChainStores = n.toChainStores ∧
      Settled E cps B T now chain r.2

theorem pushOldChain_spec {handle : Node → Block → Option (Bool × Node)}
    (hh : Light E cps B T now handle) {chain : List ChainBlock} {l : List Block} {n : Node}
    (h : Settled E cps B T now chain n) (hl : ∀ b ∈ l, b ∈ B)
    (hlight : ∀ b ∈ l, ∀ rs bei, Line E B (rs ++ [bei]) → bei.bl = b →
      bei.cumulativeDifficulty ≤ topDifficulty n.blocks) :
    ∃ r, pushOldChain handle l n = some r ∧ r.2.toChainStores = n.toChainStores ∧
      Settled E cps B T now chain r.2 := by
  induction l generalizing n with
  | nil => exact ⟨(true, n), rfl, rfl, h⟩
  | cons b l ih =>
    obtain ⟨⟨ok, n₁⟩, hr, hs, h₁⟩ := hh chain n b h (hl b (by simp)) (hlight b (by simp))
    unfold pushOldChain
    cases ok with
    | false => exact ⟨(false, n₁), by simp [hr], hs, h₁⟩
    | true =>
      have hblocks : n₁.blocks = n.blocks := congrArg ChainStores.blocks hs
      obtain ⟨r, hrest, hs', h'⟩ := ih h₁ (fun b' hb' => hl b' (by simp [hb'])) fun b' hb' => by
        rw [hblocks]
        exact hlight b' (by simp [hb'])
      exact ⟨r, by simp [hr, hrest], hs'.trans hs, h'⟩

variable {n : Node} {a : Attachment} {bei : BlockExtendedInfo}

theorem Line.light {rs rs' : List BlockExtendedInfo} (hinj : Set.InjOn (getBlockHash E) B)
    (hwork : WorkFits E B) (h : Line E B rs)
    (hlt : topDifficulty rs < topDifficulty rs') {b : Block} (hb : b ∈ rs.map BlockExtendedInfo.bl) :
    ∀ q rec, Line E B (q ++ [rec]) → rec.bl = b →
      rec.cumulativeDifficulty ≤ topDifficulty rs' := by
  intro q rec hq hrec
  obtain ⟨old, hold, rfl⟩ := List.mem_map.mp hb
  obtain ⟨i, hi⟩ := List.mem_iff_getElem?.mp hold
  rw [hq.difficulty_eq hinj (h.upTo hi) hrec]
  exact BitVec.le_trans (h.difficulty_le hwork old hold) (BitVec.le_of_lt hlt)

theorem Heavier.exists_split {chain : List ChainBlock} (h : Settled E cps B T now chain n)
    (hw : Heavier E cps B n a bei) :
    ∃ pre post, chain = pre ++ post ∧ pre.length = a.connectionHeight ∧ pre ≠ [] ∧ post ≠ [] := by
  have hpos := hw.pos
  have hlt := hw.lt
  rw [h.blocks, blocksOf_length] at hlt
  have hpre : (chain.take a.connectionHeight).length = a.connectionHeight := by
    rw [List.length_take]
    omega
  refine ⟨_, _, (List.take_append_drop a.connectionHeight chain).symm, hpre, ?_, ?_⟩
  · intro hnil
    rw [hnil, List.length_nil] at hpre
    omega
  · intro hnil
    have := congrArg List.length hnil
    rw [List.length_drop, List.length_nil] at this
    omega

theorem Attachment.map_snd (a : Attachment) (id : Hash) (bei : BlockExtendedInfo) :
    (a.altChain ++ [(id, bei)]).map Prod.snd = a.branch ++ [bei] := by
  simp [Attachment.branch]

/-- A switch pops the blocks above the connection and goes on with the branch. -/
theorem switchToAlternativeBlockchain_popped (hB : SoundBlocks E B) (hT : SpendsOnce E cps T)
    (handle : Node → Block → Option (Bool × Node)) (id : Hash)
    (h : Settled E cps B T now (pre ++ post) n) (hw : Heavier E cps B n a bei)
    (hpre : pre.length = a.connectionHeight) (hne : pre ≠ []) :
    ∃ n₁, Settled E cps B T now pre n₁ ∧ SameSides n n₁ ∧
      Known E pre n₁.toChainStores = Known E (pre ++ post) n.toChainStores ∧
      switchToAlternativeBlockchain E now handle n (a.altChain ++ [(id, bei)]) =
        match connectAltChain E now (post.map fun c => c.bei.bl) pre.length
          (a.altChain ++ [(id, bei)]) n₁ with
        | .error n => some (false, n)
        | .ok n =>
            match pushOldChain handle (post.map fun c => c.bei.bl) n with
            | none => none
            | some (false, n) => some (false,
                (rollbackBlockchainSwitching E now n (post.map fun c => c.bei.bl) pre.length).2)
            | some (true, n) => some (true, eraseAltChain n (a.altChain ++ [(id, bei)])) := by
  have hlt := hw.lt
  -- the split is where the branch is connected
  obtain ⟨front, hfront⟩ : ∃ front, (a.altChain ++ [(id, bei)]).head? = some front := by
    cases a.altChain <;> simp
  have hsplit : front.2.height = pre.length := by
    have hget : (a.branch ++ [bei])[0]? = some front.2 := by
      rw [← a.map_snd id, List.getElem?_map, ← List.head?_eq_getElem?, hfront]
      rfl
    rw [(hw.get hget).2, hpre, Nat.add_zero]
  have hcount : n.blocks.length - pre.length = post.length := by
    rw [h.blocks, blocksOf_length, List.length_append]
    omega
  obtain ⟨n₁, hpop, he₁, hknown, hf₁⟩ := h.exact.popBlocks hT now [] hne
    fun c hc => h.readable hB c (by simp [hc])
  have hsides := popBlocks_sides E now pre.length post.length n []
  rw [List.append_nil] at hpop
  rw [hpop] at hsides
  have hline := h.line
  rw [blocksOf_append] at hline
  refine ⟨n₁, ⟨he₁, hline.of_append (by simpa [blocksOf] using hne), ?_⟩, hsides, hknown, ?_⟩
  · rw [hf₁.alternativeChains]
    exact h.alts
  · unfold switchToAlternativeBlockchain
    simp only [hfront, hsplit, hcount]
    rw [if_neg (by omega)]
    generalize popBlocks E now pre.length post.length n [] = popped at hpop
    subst hpop
    rfl

/-- A switch connects the branch, or ends with the old chain and without the blocks of the branch from
some block on. -/
theorem switch_connected (hB : SoundBlocks E B) (hT : SpendsOnce E cps T) {id : Hash}
    (hid : id = getBlockHash E bei.bl) (h : Settled E cps B T now (pre ++ post) n)
    (hw : Heavier E cps B n a bei) (halts : ∀ e ∈ a.altChain, n.alternativeChains.get e.1 = some e.2)
    (hpre : pre.length = a.connectionHeight) (hne : pre ≠ []) {n₁ : Node}
    (h₁ : Settled E cps B T now pre n₁) (hknown : Known E pre n₁.toChainStores =
      Known E (pre ++ post) n.toChainStores) :
    match connectAltChain E now (post.map fun c => c.bei.bl) pre.length
      (a.altChain ++ [(id, bei)]) n₁ with
    | .ok n₂ => (∃ cs, cs.map (fun c => c.bei.bl) = (a.branch ++ [bei]).map BlockExtendedInfo.bl ∧
        Settled E cps B T now (pre ++ cs) n₂ ∧
        Returnable E cps B now pre post (Known E (pre ++ cs) n₂.toChainStores) ∧
        topDifficulty (blocksOf (pre ++ post)) < topDifficulty n₂.blocks) ∧ SameSides n₁ n₂
    | .error n₂ => Settled E cps B T now (pre ++ post) n₂ ∧
        ∃ taken e rest, a.altChain ++ [(id, bei)] = taken ++ e :: rest ∧
          Dropped (e :: rest) n₁ n₂ := by
  have hr₁ : Returnable E cps B now pre post (Known E (pre ++ []) n₁.toChainStores) := by
    rw [List.append_nil, hknown]
    exact ⟨h.exact.valid, h.line, h.exact.nodup_ids, h.exact.recoverable hne⟩
  have hmem : ∀ e ∈ a.altChain ++ [(id, bei)], e.1 = getBlockHash E e.2.bl ∧ e.2.bl ∈ B := by
    intro e hin
    refine ⟨?_, hw.line.mem e.2
      (List.mem_append_right _ (a.map_snd id bei ▸ List.mem_map_of_mem hin))⟩
    rcases List.mem_append.mp hin with hin | hin
    · exact (h.alts e.1 e.2 (halts e hin)).1
    · rw [List.mem_singleton.mp hin]
      exact hid
  have h₁' : Settled E cps B T now (pre ++ []) n₁ := by rwa [List.append_nil]
  have hcon := connectAltChain_spec hB hT h₁' hne hr₁ hmem
    fun j e hj hz i c hc hi te hte => by
      refine hw.safe hB h hpre (j := j) ?_ (by simpa using hz) hc hi hte
      rw [← a.map_snd id, List.getElem?_map, hj]
      rfl
  generalize connectAltChain E now (post.map fun c => c.bei.bl) pre.length
    (a.altChain ++ [(id, bei)]) n₁ = q at hcon
  cases q with
  | error n₂ => exact hcon
  | ok n₂ =>
    obtain ⟨⟨cs, hcs, h₂, hr₂⟩, hsides⟩ := hcon
    rw [List.nil_append] at h₂ hr₂
    have hcs' : cs.map (fun c => c.bei.bl) = (a.branch ++ [bei]).map BlockExtendedInfo.bl := by
      rw [hcs, ← a.map_snd id, List.map_map]
      rfl
    refine ⟨⟨cs, hcs', h₂, hr₂, ?_⟩, hsides⟩
    have hbls : (blocksOf (pre ++ cs)).map BlockExtendedInfo.bl =
        (n.blocks.take a.connectionHeight ++ (a.branch ++ [bei])).map BlockExtendedInfo.bl := by
      rw [Heavier.take_eq h hpre, blocksOf_append, List.map_append, List.map_append, ← hcs',
        blocksOf, blocksOf, List.map_map, List.map_map]
      rfl
    have hkeys := h₂.line.key_of_blocks hB.inj hw.line hbls
    rw [h₂.blocks, topDifficulty_congr (map_work_of_key hkeys), ← List.append_assoc,
      topDifficulty_append_singleton, ← h.blocks]
    exact hw.heavier

/-- A switch to a heavier branch ends with that branch or with the old chain. -/
theorem switchToAlternativeBlockchain_spec (hB : SoundBlocks E B) (hT : SpendsOnce E cps T)
    {handle : Node → Block → Option (Bool × Node)} (hh : Light E cps B T now handle)
    {chain : List ChainBlock} {id : Hash} (hid : id = getBlockHash E bei.bl)
    (h : Settled E cps B T now chain n) (hw : Heavier E cps B n a bei)
    (halts : ∀ e ∈ a.altChain, n.alternativeChains.get e.1 = some e.2) :
    ∃ r, switchToAlternativeBlockchain E now handle n (a.altChain ++ [(id, bei)]) = some r ∧
      (r.1 = false → Settled E cps B T now chain r.2) ∧
      (r.1 = true → ∃ chain', Settled E cps B T now chain' r.2 ∧
        (blocksOf chain').map BlockExtendedInfo.bl =
          (n.blocks.take a.connectionHeight ++ (a.branch ++ [bei])).map BlockExtendedInfo.bl) := by
  obtain ⟨pre, post, rfl, hpre, hne, -⟩ := hw.exists_split h
  obtain ⟨n₁, h₁, -, hknown, hsw⟩ := switchToAlternativeBlockchain_popped hB hT handle id h
    hw hpre hne
  have hcon := switch_connected hB hT hid h hw halts hpre hne h₁ hknown
  rw [hsw]
  generalize connectAltChain E now (post.map fun c => c.bei.bl) pre.length
    (a.altChain ++ [(id, bei)]) n₁ = q at hcon
  cases q with
  | error n₂ => exact ⟨(false, n₂), rfl, fun _ => hcon.1, by simp⟩
  | ok n₂ =>
    obtain ⟨⟨cs, hcs, h₂, hr₂, hheavy⟩, -⟩ := hcon
    have hold : ∀ b ∈ post.map (fun c => c.bei.bl),
        b ∈ (blocksOf (pre ++ post)).map BlockExtendedInfo.bl := by
      intro b hb
      obtain ⟨c, hc, rfl⟩ := List.mem_map.mp hb
      exact List.mem_map_of_mem (List.mem_map_of_mem (List.mem_append_right _ hc))
    obtain ⟨⟨ok, n₃⟩, hpush, hs₃, h₃⟩ := pushOldChain_spec hh (l := post.map fun c => c.bei.bl) h₂
      (fun b hb => by
        obtain ⟨rec, hrec, rfl⟩ := List.mem_map.mp (hold b hb)
        exact h.line.mem rec hrec)
      fun b hb => h.line.light hB.inj hB.work hheavy (hold b hb)
    simp only [hpush]
    cases ok with
    | true =>
      refine ⟨_, rfl, by simp, fun _ => ⟨_, h₃.eraseAltChain _, ?_⟩⟩
      rw [Heavier.take_eq h hpre, blocksOf_append, List.map_append, List.map_append, ← hcs,
        blocksOf, blocksOf, List.map_map, List.map_map]
      rfl
    | false =>
      have hr₃ : Returnable E cps B now pre post (Known E (pre ++ cs) n₃.toChainStores) := by
        rw [hs₃]
        exact hr₂
      exact ⟨_, rfl, fun _ => (h₃.rolledBack hB hT hne hr₃).1, by simp⟩

end Switch

section Alternative

variable {E : Env} {cps : Checkpoints} {B : Set Block} {T : Set TransactionPrefix} {t now : ℕ}
  {chain : List ChainBlock} {n : Node} {b : Block}

/-- What it means for a settled node that a block was taken as an alternative one. -/
structure TakenAs (E : Env) (cps : Checkpoints) (B : Set Block) (n : Node) (b : Block) (a : Attachment)
    (bei : BlockExtendedInfo) (n₁ : Node) : Prop where
  bl : bei.bl = b
  stores : n₁.toChainStores = n.toChainStores
  spliced : Spliced E B n b.prevId a
  fresh : n.alternativeChains.get (getBlockHash E b) = none
  alts : n₁.alternativeChains = n.alternativeChains.set (getBlockHash E b) bei
  invalid : n₁.invalidBlocks = n.invalidBlocks
  heavier : topDifficulty n.blocks < bei.cumulativeDifficulty → Heavier E cps B n₁ a bei

theorem TakenAs.blocks {a : Attachment} {bei : BlockExtendedInfo} {n₁ : Node}
    (h : TakenAs E cps B n b a bei n₁) : n₁.blocks = n.blocks := congrArg ChainStores.blocks h.stores

theorem TakenAs.below {a : Attachment} {bei : BlockExtendedInfo} {n₁ : Node}
    (h : TakenAs E cps B n b a bei n₁) :
    ∀ e ∈ a.altChain, n₁.alternativeChains.get e.1 = some e.2 := by
  intro e he
  have hget := h.spliced.alts e he
  rw [h.alts, Map.get_set]
  split_ifs with hid
  · rw [hid, h.fresh] at hget
    cases hget
  · exact hget

/-- A block that is taken on a node whose blocks and alternative blocks are lines of blocks of `B`. -/
theorem TakenOn.takenAs (hinj : Set.InjOn (getBlockHash E) B) (hcp : n.checkpoints = cps)
    (hmain : Line E B n.blocks) (halts : AltsOK E B cps n.alternativeChains)
    (hidx : ∀ k, n.blocksIndex.get b.prevId = some k →
      ∃ bei, n.blocks[k]? = some bei ∧ getBlockHash E bei.bl = b.prevId) (hb : b ∈ B)
    {a : Attachment} {altChain : AltChain} {n₁ : Node} (ht : TakenOn E n b a altChain n₁) :
    ∃ bei, altChain = a.altChain ++ [(getBlockHash E b, bei)] ∧ TakenAs E cps B n b a bei n₁ ∧
      n₁.checkpoints = n.checkpoints ∧ AltsOK E B cps n₁.alternativeChains := by
  obtain ⟨hpass, hchain, hatt, bvc, hr⟩ := ht
  obtain ⟨l, hl, hbranch⟩ := halts.altChainOf_eq hinj b.prevId
  obtain rfl : l = a.altChain := Option.some.inj (hl.symm.trans hchain)
  obtain ⟨ha, -⟩ := attach_spliced hinj hmain halts hidx hbranch hatt
  obtain ⟨-, -, -, -, -, -, -, -, hnew, -, -⟩ := addAlternativeBlock_taken hr
  have hinvalid := addAlternativeBlock_sides E bvc n b a
  rw [hr] at hinvalid
  obtain ⟨bei, hbl, hlt, rfl, hline, hcheck, hs, hc, halt⟩ := addAlternativeBlock_line hmain hb ha hr
  rw [hcp] at hcheck hpass
  have hblocks : n₁.blocks = n.blocks := congrArg ChainStores.blocks hs
  refine ⟨bei, rfl, ⟨hbl, hs, ha, hnew, halt, hinvalid, fun hheavy => ⟨?_, ha.pos, ?_, ?_, ?_, ?_⟩⟩,
    hc, ?_⟩
  · rw [hbl, hblocks]
    exact hpass
  · rw [hblocks]
    exact hlt
  · rw [hblocks, ← List.append_assoc]
    exact hline
  · intro rec hrec
    rcases List.mem_append.mp hrec with hrec | hrec
    · obtain ⟨e, hmem, rfl⟩ := List.mem_map.mp hrec
      obtain ⟨hid, -, hpassed⟩ := halts e.1 e.2 (ha.alts e hmem)
      rw [← hid]
      exact hpassed
    · rw [List.mem_singleton.mp hrec, hbl]
      exact hcheck
  · rw [hblocks]
    exact hheavy
  · rw [halt, ← hbl]
    exact halts.set ha.line.ne_nil hline (by rw [hbl]; exact hcheck)

theorem Settled.taken (hB : SoundBlocks E B) (h : Settled E cps B T t chain n) (hb : b ∈ B)
    {a : Attachment} {altChain : AltChain} {n₁ : Node} (ht : TakenOn E n b a altChain n₁) :
    ∃ bei, altChain = a.altChain ++ [(getBlockHash E b, bei)] ∧ TakenAs E cps B n b a bei n₁ ∧
      Settled E cps B T t chain n₁ := by
  have hidx : ∀ k, n.blocksIndex.get b.prevId = some k →
      ∃ bei, n.blocks[k]? = some bei ∧ getBlockHash E bei.bl = b.prevId := by
    intro k hk
    rw [h.exact.rep.blocksIndex] at hk
    rw [h.blocks]
    exact (blocksIndexOf_get h.exact.valid b.prevId k).mp hk
  obtain ⟨bei, hchain, htaken, hc, halts⟩ :=
    ht.takenAs hB.inj h.exact.checkpoints h.lineBlocks h.alts hidx hb
  exact ⟨bei, hchain, htaken, h.frame htaken.stores hc halts⟩

/-- A call of `handle_alternative_block` leaves the main chain alone or comes to a switch to a
heavier branch. -/
theorem handleAlternativeBlock_cases (now : ℕ) (hB : SoundBlocks E B) (fuel : ℕ)
    (bvc : BlockVerificationContext) (h : Settled E cps B T t chain n) (hb : b ∈ B) :
    (∃ r, handleAlternativeBlock E now (fuel + 1) bvc n b = some r ∧
      r.2.2.toChainStores = n.toChainStores ∧ Settled E cps B T t chain r.2.2) ∨
    ∃ a bei n₁, TakenAs E cps B n b a bei n₁ ∧ Settled E cps B T t chain n₁ ∧
      Heavier E cps B n₁ a bei ∧
      handleAlternativeBlock E now (fuel + 1) bvc n b =
        match switchToAlternativeBlockchain E now
          (fun n b => (handleAlternativeBlock E now fuel {} n b).map fun r => (r.1, r.2.2)) n₁
          (a.altChain ++ [(getBlockHash E b, bei)]) with
        | none => none
        | some (true, n) => some (true, { bvc with addedToMainChain := true }, n)
        | some (false, n) => some (false, { bvc with verifivationFailed := true }, n) := by
  rw [handleAlternativeBlock]
  cases hpass : n.checkpoints.isHeightPassedZone (getBlockHeight b) (n.blocks.length - 1) with
  | true => exact Or.inl ⟨_, rfl, rfl, h⟩
  | false =>
    simp only [Bool.false_eq_true, if_false]
    cases (n.alternativeChains.get b.prevId).isNone && (n.blocksIndex.get b.prevId).isNone with
    | true => exact Or.inl ⟨_, rfl, rfl, h⟩
    | false =>
      simp only [Bool.false_eq_true, if_false]
      obtain ⟨l, hl, -⟩ := h.alts.altChainOf_eq hB.inj b.prevId
      simp only [hl]
      cases hatt : attach E n b.prevId l with
      | none => exact Or.inl ⟨_, rfl, rfl, h⟩
      | some a =>
        obtain ⟨rfl, -⟩ := attach_effect hatt
        have hadd := addAlternativeBlock_effect E bvc n b a
        cases hr : addAlternativeBlock E bvc n b a with
        | error r =>
          simp only [hr] at hadd ⊢
          obtain ⟨-, hs, hf, -⟩ := hadd
          exact Or.inl ⟨r, rfl, hs, h.frame hs hf.checkpoints (by
            rw [hf.alternativeChains]
            exact h.alts)⟩
        | ok q =>
          obtain ⟨altChain, n₁⟩ := q
          obtain ⟨bei, rfl, ht, h₁⟩ := h.taken hB hb ⟨hpass, hl, hatt, bvc, hr⟩
          have htop : topDifficulty ((a.altChain ++ [(getBlockHash E b, bei)]).map Prod.snd) =
              bei.cumulativeDifficulty := by
            rw [List.map_append, List.map_singleton, topDifficulty_append_singleton]
          simp only [hr, htop, ht.blocks]
          by_cases hheavy : topDifficulty n.blocks < bei.cumulativeDifficulty
          · rw [if_pos hheavy]
            exact Or.inr ⟨a, bei, n₁, ht, h₁, ht.heavier hheavy, rfl⟩
          · rw [if_neg hheavy]
            exact Or.inl ⟨_, rfl, ht.stores, h₁⟩

/-- The nested calls of a switch are for blocks that are no heavier than the main chain. -/
theorem light_handleAlternativeBlock (hB : SoundBlocks E B) (fuel : ℕ) :
    Light E cps B T now
      fun n b => (handleAlternativeBlock E now (fuel + 1) {} n b).map fun r => (r.1, r.2.2) := by
  intro chain n b h hb hle
  rcases handleAlternativeBlock_cases now hB fuel {} h hb with
    ⟨r, hr, hs, h'⟩ | ⟨a, bei, n₁, ht, -, hw, -⟩
  · exact ⟨(r.1, r.2.2), by simp only [hr, Option.map_some], hs, h'⟩
  · have hline := hw.line
    rw [← List.append_assoc] at hline
    have hheavy := hw.heavier
    rw [ht.blocks] at hheavy
    exact absurd hheavy (BitVec.not_lt.mpr (hle _ bei hline ht.bl))

end Alternative

/-- The stores of the node are those of `chain`. -/
def Holds (E : Env) (chain : List ChainBlock) (n : Node) : Prop :=
  Rep E (exactFlags (entriesOf E chain)) chain n.toChainStores

/-- The old chain was extended by `b` alone. -/
def Extended (E : Env) (n n' : Node) (b : Block) : Prop :=
  ∃ chain c, Holds E chain n ∧ Holds E (chain ++ [c]) n' ∧ c.bei.bl = b

/-- The old chain was replaced by a heavier one, which is not the old one with one more block. -/
def Replaced (E : Env) (n n' : Node) : Prop :=
  ∃ chain chain', Holds E chain n ∧ Holds E chain' n' ∧
    topDifficulty n.blocks < topDifficulty n'.blocks ∧ ∀ bei, n'.blocks ≠ n.blocks ++ [bei]

/-- Exactly one of the three outcomes. -/
def Outcome (E : Env) (n n' : Node) (b : Block) : Prop :=
  (Restored n n' ∧ ¬Extended E n n' b ∧ ¬Replaced E n n') ∨
  (¬Restored n n' ∧ Extended E n n' b ∧ ¬Replaced E n n') ∨
  (¬Restored n n' ∧ ¬Extended E n n' b ∧ Replaced E n n')

section Outcome

variable {E : Env} {n n' : Node} {b : Block}

theorem Extended.blocks (h : Extended E n n' b) : ∃ bei, n'.blocks = n.blocks ++ [bei] := by
  obtain ⟨chain, c, hn, hn', -⟩ := h
  refine ⟨c.bei, ?_⟩
  rw [hn.blocks, hn'.blocks]
  simp [blocksOf]

theorem Outcome.of_restored (h : Restored n n') : Outcome E n n' b := by
  refine Or.inl ⟨h, fun hx => ?_, fun hx => ?_⟩
  · obtain ⟨bei, hbei⟩ := hx.blocks
    have := congrArg List.length (hbei.symm.trans h.blocks)
    simp at this
  · obtain ⟨-, -, -, -, hlt, -⟩ := hx
    rw [h.blocks] at hlt
    exact absurd hlt (BitVec.lt_irrefl _)

theorem Outcome.of_extended (h : Extended E n n' b) : Outcome E n n' b := by
  obtain ⟨bei, hbei⟩ := h.blocks
  refine Or.inr (Or.inl ⟨fun hx => ?_, h, fun hx => ?_⟩)
  · have := congrArg List.length (hbei.symm.trans hx.blocks)
    simp at this
  · obtain ⟨-, -, -, -, -, hno⟩ := hx
    exact hno bei hbei

theorem Outcome.of_replaced (h : Replaced E n n') : Outcome E n n' b := by
  refine Or.inr (Or.inr ⟨fun hx => ?_, fun hx => ?_, h⟩)
  · obtain ⟨-, -, -, -, hlt, -⟩ := h
    rw [hx.blocks] at hlt
    exact absurd hlt (BitVec.lt_irrefl _)
  · obtain ⟨-, -, -, -, -, hno⟩ := h
    obtain ⟨bei, hbei⟩ := hx.blocks
    exact hno bei hbei

theorem Restored.of_holds {chain : List ChainBlock} (h : Holds E chain n) (h' : Holds E chain n') :
    Restored n n' := by
  refine ⟨?_, ?_, ?_, ?_, ?_, ?_, ?_⟩
  · rw [h.blocks, h'.blocks]
  · rw [h.blocksIndex, h'.blocksIndex]
  · rw [h.txs.index, h'.txs.index]
  · rw [h.txs.index, h'.txs.index]
  · rw [h.txs.index, h'.txs.index]
  · refine AliasDb.equiv_of_history h'.txs.aliases.addrOK h.txs.aliases.addrOK fun name => ?_
    rw [h'.txs.aliases.history, h.txs.aliases.history]
  · rw [h.scratchpad, h'.scratchpad]

variable {cps : Checkpoints} {B : Set Block} {T : Set TransactionPrefix} {t now : ℕ}
  {chain : List ChainBlock}

theorem Settled.addNewBlock (hB : SoundBlocks E B) (hT : SpendsOnce E cps T)
    (h : Settled E cps B T t chain n) (hle : t ≤ now) (hb : b ∈ B) {fuel : ℕ} (hfuel : 2 ≤ fuel)
    (bvc : BlockVerificationContext) :
    ∃ r, Boolberry.addNewBlock E now fuel bvc n b = some r ∧
      (∃ chain', Settled E cps B T now chain' r.2.2) ∧ Outcome E n r.2.2 b ∧
      (r.1 = false → Restored n r.2.2) ∧ topDifficulty n.blocks ≤ topDifficulty r.2.2.blocks := by
  have h := h.mono hle
  -- whatever ends with the old chain is fine
  have hsame : ∀ r : Bool × BlockVerificationContext × Node, Settled E cps B T now chain r.2.2 →
      (∃ chain', Settled E cps B T now chain' r.2.2) ∧ Outcome E n r.2.2 b ∧
      (r.1 = false → Restored n r.2.2) ∧
      topDifficulty n.blocks ≤ topDifficulty r.2.2.blocks := by
    intro r hr
    have hres : Restored n r.2.2 := .of_holds h.exact.rep hr.exact.rep
    refine ⟨⟨chain, hr⟩, .of_restored hres, fun _ => hres, ?_⟩
    rw [hres.blocks]
    exact BitVec.le_refl _
  unfold Boolberry.addNewBlock
  split_ifs with hhave hprev
  · exact ⟨_, rfl, hsame _ h⟩
  · obtain ⟨fuel, rfl⟩ : ∃ k, fuel = k + 1 + 1 := ⟨fuel - 2, by omega⟩
    rcases handleAlternativeBlock_cases now hB (fuel + 1)
        { bvc with addedToMainChain := false } h hb with
      ⟨r, hr, -, h'⟩ | ⟨a, bei, n₁, ht, h₁, hw, hr⟩
    · exact ⟨r, hr, hsame r h'⟩
    have hbl := ht.bl
    obtain ⟨⟨ok, n₂⟩, hswitch, hfalse, htrue⟩ := switchToAlternativeBlockchain_spec hB hT
      (light_handleAlternativeBlock hB fuel)
      (show getBlockHash E b = getBlockHash E bei.bl by rw [hbl]) h₁ hw ht.below
    rw [hr, hswitch]
    cases ok with
    | false => exact ⟨_, rfl, hsame (false, _, n₂) (hfalse rfl)⟩
    | true =>
      obtain ⟨chain', h', hbls⟩ := htrue rfl
      have hblocks := ht.blocks
      have hkeys := h'.line.key_of_blocks hB.inj hw.line hbls
      have hlt : topDifficulty n.blocks < topDifficulty n₂.blocks := by
        rw [h'.blocks, topDifficulty_congr (map_work_of_key hkeys), ← List.append_assoc,
          topDifficulty_append_singleton, ← hblocks]
        exact hw.heavier
      refine ⟨_, rfl, ⟨chain', h'⟩, .of_replaced ⟨chain, chain', h.exact.rep, h'.exact.rep, hlt, ?_⟩,
        by simp, BitVec.le_of_lt hlt⟩
      -- the new top is `b`, which does not follow the old one
      intro last hlast
      have hline := h'.lineBlocks
      rw [hlast] at hline
      have hprev' := (hline.of_append_singleton h.lineBlocks.ne_nil).2.2.1
      rw [← h'.blocks, hlast, ← List.append_assoc, List.map_append, List.map_append] at hbls
      have hlastb : last.bl = b :=
        (List.singleton_injective (List.append_inj' hbls rfl).2).trans hbl
      exact hprev (hlastb ▸ hprev')
  · rcases h.push hT hb bvc with ⟨h1, h2, c, rfl, h', -⟩ | ⟨h1, h', -⟩
    · have hext : Extended E n (handleBlockToMainChain E now bvc n c.bei.bl).2.2 c.bei.bl :=
        ⟨chain, c, h.exact.rep, h'.exact.rep, rfl⟩
      refine ⟨_, rfl, ⟨_, h'⟩, .of_extended hext, by simp [h1], ?_⟩
      have hline := h'.line
      rw [h.blocks, h'.blocks]
      rw [blocksOf_append] at hline ⊢
      have hone : blocksOf [c] = [c.bei] := rfl
      rw [hone] at hline ⊢
      rw [topDifficulty_append_singleton]
      exact hline.topDifficulty_le hB.work
    · exact ⟨_, rfl, hsame _ h'⟩

end Outcome

end Boolberry
