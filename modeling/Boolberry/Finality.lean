import Boolberry.CheckpointZone
import Boolberry.Outcomes

/-!
# Checkpoints are final

Nothing looks at the checkpoints when a switch takes blocks off. The blocks up to a
checkpoint stay because no branch leaves the main chain at its height or below: an
alternative block is refused if it declares a height that is passed, so a branch
grows past a checkpoint only through the checkpoint's block, and that one is on the
main chain and not among the alternative blocks. The exception is a rollback that
fails: it leaves the block in both places, but below one that cannot be popped.
-/

namespace Boolberry
open KeyValue

/-- The node represents a valid chain; its blocks and its alternative blocks are lines of blocks of
`B`. -/
structure Lined (E : Env) (cps : Checkpoints) (B : Set Block) (n : Node) : Prop where
  inv : ChainInv E cps n
  line : Line E B n.blocks
  alts : AltsOK E B cps n.alternativeChains

/-- The top block cannot be popped. -/
def TopUnreadable (E : Env) (n : Node) : Prop :=
  ∃ bei, n.blocks.getLast? = some bei ∧ ¬Readable E bei.bl

theorem Line.branch_height {E : Env} {B : Set Block} {l branch : List BlockExtendedInfo} {j : ℕ}
    {bei : BlockExtendedInfo} (h : Line E B (l ++ branch)) (hj : branch[j]? = some bei) :
    bei.height = l.length + j := by
  have hget : (l ++ branch)[l.length + j]? = some bei := by
    rw [List.getElem?_append_right (Nat.le_add_right _ _), Nat.add_sub_cancel_left]
    exact hj
  have hlt := (List.getElem?_eq_some_iff.mp hget).1
  rw [(h.recordOK_at hget).height, List.length_take]
  omega

namespace Lined

variable {E : Env} {cps : Checkpoints} {B : Set Block} {n n' : Node}

theorem checkpoints (h : Lined E cps B n) : n.checkpoints = cps := by
  obtain ⟨_, _, hcp, -, -⟩ := h.inv
  exact hcp

theorem frame (h : Lined E cps B n) (hs : n'.toChainStores = n.toChainStores)
    (hc : n'.checkpoints = n.checkpoints) (ha : AltsOK E B cps n'.alternativeChains) :
    Lined E cps B n' := by
  refine ⟨(chainInv_store E cps 0).frame n n' hs hc h.inv, ?_, ha⟩
  rw [hs]
  exact h.line

theorem index (h : Lined E cps B n) {id : Hash} {k : ℕ} (hk : n.blocksIndex.get id = some k) :
    ∃ bei, n.blocks[k]? = some bei ∧ getBlockHash E bei.bl = id := by
  obtain ⟨F, chain, -, ⟨t, hv⟩, hrep⟩ := h.inv
  rw [hrep.blocksIndex] at hk
  rw [hrep.blocks]
  exact (blocksIndexOf_get hv id k).mp hk

theorem declared (h : Lined E cps B n) {k : ℕ} {bei : BlockExtendedInfo}
    (hk : n.blocks[k]? = some bei) : getBlockHeight bei.bl = k := by
  have hlt := (List.getElem?_eq_some_iff.mp hk).1
  rw [(h.line.upTo hk).getBlockHeight_eq, List.length_take]
  omega

theorem push (now : ℕ) (h : Lined E cps B n) {bl : Block} (hb : bl ∈ B) (bvc : BlockVerificationContext) :
    Lined E cps B (handleBlockToMainChain E now bvc n bl).2.2 := by
  have hinv := (chainInv_store E cps now).push n bvc bl h.inv
  obtain ⟨F, chain, hcp, ⟨t, hv⟩, hrep⟩ := h.inv
  have hline := h.line
  rw [hrep.blocks] at hline
  rcases handleBlockToMainChain_spec now bl bvc hrep with ⟨-, -, c, rfl, hp⟩ | ⟨-, -, hr⟩
  · refine ⟨hinv, ?_, by rw [hp.frame.alternativeChains]; exact h.alts⟩
    rw [hp.rep.blocks]
    exact hline.push hp.valid hb
  · obtain ⟨R, es, hrep', -⟩ := hr.rep
    refine ⟨hinv, ?_, by rw [hr.frame.alternativeChains]; exact h.alts⟩
    rw [hrep'.blocks]
    exact hline

/-- A pop fails at a block that cannot be read back and at the genesis block. -/
theorem pop_cases (now : ℕ) (h : Lined E cps B n) :
    (popBlockFromBlockchain E now n = (false, n) ∧ (n.blocks.length ≤ 1 ∨ TopUnreadable E n)) ∨
    ∃ n', popBlockFromBlockchain E now n = (true, n') ∧ Lined E cps B n' ∧
      n'.blocks = n.blocks.dropLast ∧ SameFrame n n' ∧ ¬TopUnreadable E n := by
  have hinv := (chainInv_store E cps now).pop n h.inv
  obtain ⟨F, chain, hcp, ⟨t, hv⟩, hrep⟩ := h.inv
  obtain ⟨chain, c, rfl⟩ := (List.eq_nil_or_concat' chain).resolve_left hv.ne_nil
  have hlen : n.blocks.length = chain.length + 1 := by
    rw [hrep.blocks, blocksOf_length, List.length_append, List.length_singleton]
  have hblocks : n.blocks = blocksOf chain ++ [c.bei] := by
    rw [hrep.blocks, blocksOf_append]
    rfl
  by_cases hr : Readable E c.bei.bl
  swap
  · refine Or.inl ⟨popBlockFromBlockchain_unreadable now hrep hr, Or.inr ⟨c.bei, ?_, hr⟩⟩
    rw [hblocks, List.getLast?_concat]
  by_cases hne : chain = []
  · refine Or.inl ⟨?_, Or.inl (by simp [hlen, hne])⟩
    simp [popBlockFromBlockchain, hlen, hne]
  · obtain ⟨-, hc⟩ := hv.of_append_singleton hne
    obtain ⟨n', hpop, hrep', -, hf⟩ := popBlockFromBlockchain_readable now hrep hc hne hr
    have hblocks' : n'.blocks = n.blocks.dropLast := by
      rw [hrep'.blocks, hblocks, List.dropLast_concat]
    rw [hpop] at hinv
    refine Or.inr ⟨n', hpop, ⟨hinv, ?_, by rw [hf.alternativeChains]; exact h.alts⟩, hblocks', hf, ?_⟩
    · rw [hblocks', hblocks, List.dropLast_concat]
      have hline := h.line
      rw [hblocks] at hline
      exact hline.of_append (by simpa [blocksOf] using hne)
    · rintro ⟨bei, hlast, hbei⟩
      rw [hblocks, List.getLast?_concat, Option.some.injEq] at hlast
      exact hbei (hlast ▸ hr)

/-- A block taken as an alternative block is the last of a branch of consecutive heights. -/
theorem add (hinj : Set.InjOn (getBlockHash E) B) (h : Lined E cps B n) {b : Block} (hb : b ∈ B)
    {bvc : BlockVerificationContext} {a : Attachment} {altChain : AltChain}
    (hchain : altChainOf n.alternativeChains b.prevId = some a.altChain)
    (hatt : attach E n b.prevId a.altChain = some a)
    (hr : addAlternativeBlock E bvc n b a = .ok (altChain, n')) :
    Lined E cps B n' ∧ n'.blocks = n.blocks ∧ 1 ≤ a.connectionHeight ∧
      (∀ j e, altChain[j]? = some e → e.2.height = a.connectionHeight + j) ∧
      ∃ bei, altChain = a.altChain ++ [(getBlockHash E b, bei)] ∧ bei.height = getBlockHeight b ∧
        n'.alternativeChains = n.alternativeChains.set (getBlockHash E b) bei := by
  obtain ⟨l, hl, hbranch⟩ := h.alts.altChainOf_eq hinj b.prevId
  obtain rfl : l = a.altChain := Option.some.inj (hl.symm.trans hchain)
  obtain ⟨ha, -⟩ := attach_spliced hinj h.line h.alts (fun k hk => h.index hk) hbranch hatt
  obtain ⟨bei, rfl, hlt, rfl, hline, hcp, hs, hc, halt⟩ := addAlternativeBlock_line h.line hb ha hr
  rw [h.checkpoints] at hcp
  refine ⟨h.frame hs hc ?_, by rw [hs], ha.pos, fun j e hj => ?_, bei, rfl, ?_, halt⟩
  · rw [halt]
    exact h.alts.set ha.line.ne_nil hline hcp
  · have hj' : (a.branch ++ [bei])[j]? = some e.2 := by
      have := congrArg (Option.map Prod.snd) hj
      rwa [← List.getElem?_map, List.map_append] at this
    rw [List.append_assoc] at hline
    rw [hline.branch_height hj', List.length_take, Nat.min_eq_left hlt.le]
  · rw [hline.recordOK.height, hline.getBlockHeight_eq]

end Lined

theorem lined_alt {E : Env} {cps : Checkpoints} {B : Set Block} (now : ℕ)
    (hinj : Set.InjOn (getBlockHash E) B) :
    AltInvariant E now (Lined E cps B) (· ∈ B) (· ∈ B) (1 ≤ ·) where
  push n bvc bl hn hb := hn.push now hb bvc
  pop n s hn _ _ := by
    rcases hn.pop_cases now with ⟨hpop, -⟩ | ⟨n', hpop, hn', -⟩
    · rw [hpop]
      exact hn
    · rw [hpop]
      exact hn'
  invalid n bei id hn := by
    obtain ⟨hs, hf⟩ := addBlockAsInvalid_stores n bei id
    exact hn.frame hs hf.checkpoints (by rw [hf.alternativeChains]; exact hn.alts)
  erase n id hn := hn.frame rfl rfl (hn.alts.erase id)
  add bvc n b a hn hb _ hchain hatt := by
    have heff := addAlternativeBlock_effect E bvc n b a
    split
    · rename_i r hr
      rw [hr] at heff
      obtain ⟨-, hs, hf, -⟩ := heff
      exact hn.frame hs hf.checkpoints (by rw [hf.alternativeChains]; exact hn.alts)
    · rename_i r hr
      obtain ⟨hn', -, hpos, hheights, -⟩ := hn.add hinj hb hchain hatt hr
      refine ⟨hn', fun front hfront => ?_⟩
      rw [List.head?_eq_getElem?] at hfront
      rw [hheights 0 front hfront]
      exact hpos
  main n s h bei hn _ _ hbei :=
    have hb := hn.line.mem bei (List.mem_of_getElem? hbei)
    ⟨hb, hb⟩
  alt n id bei hn hget := by
    obtain ⟨-, ⟨rs, -, hl⟩, -⟩ := hn.alts id bei hget
    exact hl.mem bei (by simp)

/-- A block at height `p` or above cannot be popped. -/
def Pinned (E : Env) (p : ℕ) (n : Node) : Prop :=
  ∃ u bei, p ≤ u ∧ n.blocks[u]? = some bei ∧ ¬Readable E bei.bl

/-- No branch that a switch may be for has a block at height `p`. -/
def Unforked (p : ℕ) (n : Node) : Prop :=
  ∀ id bei, n.alternativeChains.get id = some bei → bei.height ≠ p

/-- The chain starts with the blocks `l` up to height `p`, and they cannot be popped. -/
structure Held (E : Env) (p : ℕ) (l : List BlockExtendedInfo) (n : Node) : Prop where
  length : l.length = p + 1
  blocks : l <+: n.blocks
  fork : Unforked p n ∨ Pinned E p n

/-- The chain does not reach height `p`, or its blocks up to there cannot be popped. -/
def Kept (E : Env) (p : ℕ) (n : Node) : Prop :=
  n.blocks.length ≤ p ∨ Unforked p n ∨ Pinned E p n

section Held

variable {E : Env} {cps : Checkpoints} {B : Set Block} {now : ℕ} {l : List BlockExtendedInfo}

theorem prefix_dropLast {α : Type} {l l' : List α} (h : l <+: l') (hlt : l.length < l'.length) :
    l <+: l'.dropLast := by
  refine List.prefix_of_prefix_length_le h (List.dropLast_prefix l') ?_
  rw [List.length_dropLast]
  omega

theorem prefix_push (E : Env) (now : ℕ) (bvc : BlockVerificationContext) {n : Node} (bl : Block)
    (h : l <+: n.blocks) : l <+: (handleBlockToMainChain E now bvc n bl).2.2.blocks := by
  obtain ⟨-, ⟨-, hnot⟩ | ⟨-, hput⟩⟩ := handleBlockToMainChain_effect E now bvc n bl
  · rw [hnot.same.blocks]
    exact h
  · obtain ⟨bei, -, -, hblocks⟩ := hput.blocks
    rw [hblocks]
    exact h.trans (List.prefix_append _ _)

/-- Without an alternative block at the height of a checkpoint that is passed, every branch starts
above it. -/
theorem unforked_alt (now : ℕ) (hinj : Set.InjOn (getBlockHash E) B) {p : ℕ} (hp : p ∈ cps.keys)
    (hl : l.length = p + 1) :
    AltInvariant E now (fun n => Lined E cps B n ∧ l <+: n.blocks ∧ Unforked p n) (· ∈ B) (· ∈ B)
      (p < ·) where
  push n bvc bl hn hb := by
    obtain ⟨hf, -⟩ := handleBlockToMainChain_effect E now bvc n bl
    refine ⟨hn.1.push now hb bvc, prefix_push E now bvc bl hn.2.1, ?_⟩
    rw [Unforked, hf.alternativeChains]
    exact hn.2.2
  pop n s hn hs hlt := by
    rcases hn.1.pop_cases now with ⟨hpop, -⟩ | ⟨n', hpop, hn', hblocks, hf, -⟩
    · rw [hpop]
      exact hn
    · rw [hpop]
      refine ⟨hn', ?_, ?_⟩
      · rw [hblocks]
        exact prefix_dropLast hn.2.1 (by omega)
      · rw [Unforked, hf.alternativeChains]
        exact hn.2.2
  invalid n bei id hn := by
    obtain ⟨hs, hf⟩ := addBlockAsInvalid_stores n bei id
    refine ⟨(lined_alt now hinj).invalid n bei id hn.1, ?_, ?_⟩
    · rw [hs]
      exact hn.2.1
    · rw [Unforked, hf.alternativeChains]
      exact hn.2.2
  erase n id hn := by
    refine ⟨(lined_alt now hinj).erase n id hn.1, hn.2.1, fun id' bei hget => ?_⟩
    rw [Map.get_erase] at hget
    split_ifs at hget
    exact hn.2.2 id' bei hget
  add bvc n b a hn hb hpass hchain hatt := by
    have hlined := (lined_alt now hinj).add bvc n b a hn.1 hb hpass hchain hatt
    have heff := addAlternativeBlock_effect E bvc n b a
    split
    · rename_i r hr
      rw [hr] at heff hlined
      obtain ⟨-, hs, hf, -⟩ := heff
      refine ⟨hlined, ?_, ?_⟩
      · rw [hs]
        exact hn.2.1
      · rw [Unforked, hf.alternativeChains]
        exact hn.2.2
    · rename_i r hr
      obtain ⟨altChain, n'⟩ := r
      obtain ⟨hn', hblocks, -, hheights, bei, rfl, hdecl, halts⟩ := hn.1.add hinj hb hchain hatt hr
      -- a height that is not passed is above the checkpoint
      have habove : p < bei.height := by
        by_contra hle
        have hlen := hn.2.1.length_le
        rw [hn.1.checkpoints, isHeightPassedZone_of_mem hp (by omega) (by omega)] at hpass
        cases hpass
      refine ⟨⟨hn', by rw [hblocks]; exact hn.2.1, fun id bei' hget => ?_⟩, fun front hfront => ?_⟩
      · rw [halts, Map.get_set] at hget
        split_ifs at hget
        · rw [← Option.some.inj hget]
          omega
        · exact hn.2.2 id bei' hget
      · -- a branch that starts below would have a block at the height of the checkpoint
        rw [List.head?_eq_getElem?] at hfront
        have hstart := hheights 0 front hfront
        have hend := hheights a.altChain.length (getBlockHash E b, bei) List.getElem?_concat_length
        by_contra hle
        obtain ⟨e, he⟩ : ∃ e, a.altChain[p - a.connectionHeight]? = some e :=
          ⟨_, List.getElem?_eq_getElem (by simp only at hend; omega)⟩
        have hheight := hheights (p - a.connectionHeight) e (by
          rw [List.getElem?_append_left (List.getElem?_eq_some_iff.mp he).1]
          exact he)
        exact hn.2.2 e.1 e.2 (altChainOf_get hchain e (List.mem_of_getElem? he)) (by omega)
  main n s h bei hn hs hle hbei :=
    (lined_alt now hinj).main n s h bei hn.1 (Nat.one_le_of_lt hs) hle hbei
  alt n id bei hn hget := (lined_alt now hinj).alt n id bei hn.1 hget

theorem pinned_alt (now : ℕ) (hinj : Set.InjOn (getBlockHash E) B) {bei : BlockExtendedInfo}
    (hbei : ¬Readable E bei.bl) :
    AltInvariant E now (fun n => Lined E cps B n ∧ l ++ [bei] <+: n.blocks) (· ∈ B) (· ∈ B)
      (1 ≤ ·) where
  push n bvc bl hn hb := ⟨hn.1.push now hb bvc, prefix_push E now bvc bl hn.2⟩
  pop n s hn hs hlt := by
    rcases hn.1.pop_cases now with ⟨hpop, -⟩ | ⟨n', hpop, hn', hblocks, -, htop⟩
    · rw [hpop]
      exact hn
    · rw [hpop]
      refine ⟨hn', ?_⟩
      rw [hblocks]
      refine prefix_dropLast hn.2 (lt_of_le_of_ne hn.2.length_le fun hlen => htop ⟨bei, ?_, hbei⟩)
      -- the chain would end with that block
      rw [← hn.2.eq_of_length hlen, List.getLast?_concat]
  invalid n bei id hn := by
    obtain ⟨hs, hf⟩ := addBlockAsInvalid_stores n bei id
    refine ⟨(lined_alt now hinj).invalid n bei id hn.1, ?_⟩
    rw [hs]
    exact hn.2
  erase n id hn := ⟨(lined_alt now hinj).erase n id hn.1, hn.2⟩
  add bvc n b a hn hb hpass hchain hatt := by
    have hlined := (lined_alt now hinj).add bvc n b a hn.1 hb hpass hchain hatt
    have heff := addAlternativeBlock_effect E bvc n b a
    split
    · rename_i r hr
      rw [hr] at heff hlined
      refine ⟨hlined, ?_⟩
      rw [heff.2.1]
      exact hn.2
    · rename_i r hr
      rw [hr] at heff hlined
      refine ⟨⟨hlined.1, ?_⟩, hlined.2⟩
      rw [heff.1]
      exact hn.2
  main n s h bei hn hs hle hbei := (lined_alt now hinj).main n s h bei hn.1 hs hle hbei
  alt n id bei hn hget := (lined_alt now hinj).alt n id bei hn.1 hget

theorem Held.exists_alt (now : ℕ) (hinj : Set.InjOn (getBlockHash E) B) {p : ℕ} (hp : p ∈ cps.keys)
    {n : Node} (hn : Lined E cps B n) (h : Held E p l n) :
    ∃ P R, AltInvariant E now P (· ∈ B) (· ∈ B) R ∧ P n ∧
      ∀ m, P m → Lined E cps B m ∧ Held E p l m := by
  rcases h.fork with hfork | ⟨u, bei, hle, hget, hbei⟩
  · exact ⟨_, _, unforked_alt now hinj hp h.length, ⟨hn, h.blocks, hfork⟩,
      fun m hm => ⟨hm.1, h.length, hm.2.1, Or.inl hm.2.2⟩⟩
  · have hlt := (List.getElem?_eq_some_iff.mp hget).1
    have htake : n.blocks.take (u + 1) = n.blocks.take u ++ [bei] := by
      rw [List.take_add_one, hget]
      rfl
    have hlen : (n.blocks.take u ++ [bei]).length = u + 1 := by
      rw [← htake, List.length_take]
      omega
    have hpre : n.blocks.take u ++ [bei] <+: n.blocks := htake ▸ List.take_prefix _ _
    refine ⟨_, _, pinned_alt now hinj (l := n.blocks.take u) hbei, ⟨hn, hpre⟩, fun m hm =>
      ⟨hm.1, h.length, ?_, Or.inr ⟨u, bei, hle, ?_, hbei⟩⟩⟩
    · refine (List.prefix_of_prefix_length_le h.blocks hpre ?_).trans hm.2
      rw [h.length, hlen]
      omega
    · obtain ⟨rest, hrest⟩ := hm.2
      rw [← hrest, List.getElem?_append_left (by omega), ← htake, List.getElem?_take_of_lt (by omega)]
      exact hget

theorem Kept.held {p : ℕ} {n : Node} (h : Kept E p n) (hlt : p < n.blocks.length) :
    Held E p (n.blocks.take (p + 1)) n :=
  ⟨by rw [List.length_take]; omega, List.take_prefix _ _, h.resolve_left (by omega)⟩

theorem Kept.of_top {p : ℕ} {n : Node} (h : TopUnreadable E n) : Kept E p n := by
  obtain ⟨bei, hlast, hbei⟩ := h
  by_cases hle : n.blocks.length ≤ p
  · exact Or.inl hle
  · rw [List.getLast?_eq_getElem?] at hlast
    exact Or.inr (Or.inr ⟨_, bei, by omega, hlast, hbei⟩)

end Held

/-- The blocks are the same, and every alternative block was one before. -/
structure Fewer (n n' : Node) : Prop where
  same : SameBlocks n n'
  alts : ∀ id bei, n'.alternativeChains.get id = some bei → n.alternativeChains.get id = some bei

namespace Fewer

variable {n n' n'' : Node}

theorem refl (n : Node) : Fewer n n := ⟨⟨rfl, rfl⟩, fun _ _ h => h⟩

theorem trans (h : Fewer n n') (h' : Fewer n' n'') : Fewer n n'' :=
  ⟨⟨h'.same.blocks.trans h.same.blocks, h'.same.blocksIndex.trans h.same.blocksIndex⟩,
    fun id bei hget => h.alts id bei (h'.alts id bei hget)⟩

theorem addBlockAsInvalid (n : Node) (bei : BlockExtendedInfo) (id : Hash) :
    Fewer n (Boolberry.addBlockAsInvalid n bei id) := by
  obtain ⟨-, hf⟩ := addBlockAsInvalid_stores n bei id
  exact ⟨(addBlockAsInvalid_effect n bei id).1, fun _ _ h => by rwa [hf.alternativeChains] at h⟩

theorem erase (n : Node) (id : Hash) :
    Fewer n { n with alternativeChains := n.alternativeChains.erase id } := by
  refine ⟨⟨rfl, rfl⟩, fun id' bei hget => ?_⟩
  rw [Map.get_erase] at hget
  split_ifs at hget
  exact hget

theorem orphanRest (n : Node) (rest : AltChain) : Fewer n (Boolberry.orphanRest n rest) := by
  unfold Boolberry.orphanRest
  cases rest.head? with
  | none => exact refl n
  | some first =>
    simp only
    induction rest generalizing n with
    | nil => exact refl n
    | cons e l ih =>
      rw [List.foldl_cons]
      exact ((addBlockAsInvalid n first.2 first.1).trans (erase _ e.1)).trans (ih _)

theorem eraseAltChain (n : Node) (l : AltChain) : Fewer n (Boolberry.eraseAltChain n l) := by
  unfold Boolberry.eraseAltChain
  induction l generalizing n with
  | nil => exact refl n
  | cons e l ih => exact (erase n e.1).trans (ih _)

end Fewer

theorem Kept.of_fewer {E : Env} {p : ℕ} {n n' : Node} (h : Kept E p n) (hf : Fewer n n') :
    Kept E p n' := by
  rcases h with h | h | ⟨u, bei, hle, hget, hbei⟩
  · exact Or.inl (by rw [hf.same.blocks]; exact h)
  · exact Or.inr (Or.inl fun id bei hget => h id bei (hf.alts id bei hget))
  · exact Or.inr (Or.inr ⟨u, bei, hle, by rw [hf.same.blocks]; exact hget, hbei⟩)

section Switch

variable {E : Env} {cps : Checkpoints} {B : Set Block} {now : ℕ} {n : Node} {p : ℕ}

/-- The pops of a switch end at its height or at a block that cannot be popped. -/
theorem Lined.popBlocks (now : ℕ) {s : ℕ} (hs : 1 ≤ s) (k : ℕ) (hn : Lined E cps B n)
    (hk : n.blocks.length = s + k) (popped : List Block) :
    match Boolberry.popBlocks E now s k n popped with
    | .ok r => Lined E cps B r.2 ∧ r.2.blocks = n.blocks.take s ∧
        r.1 = (n.blocks.drop s).map BlockExtendedInfo.bl ++ popped
    | .error n' => Lined E cps B n' ∧ TopUnreadable E n' := by
  induction k generalizing n popped with
  | zero =>
    have hle : n.blocks.length ≤ s := hk.le
    refine ⟨hn, (List.take_of_length_le hle).symm, ?_⟩
    rw [List.drop_eq_nil_of_le hle]
    rfl
  | succ k ih =>
    obtain ⟨bei, hbei⟩ : ∃ bei, n.blocks[s + k]? = some bei :=
      ⟨_, List.getElem?_eq_getElem (by omega)⟩
    unfold Boolberry.popBlocks
    simp only [hbei]
    rcases hn.pop_cases now with ⟨hpop, hwhy⟩ | ⟨n', hpop, hn', hblocks, -, -⟩
    · rw [hpop]
      exact ⟨hn, hwhy.resolve_left (by omega)⟩
    · rw [hpop]
      simp only [if_true]
      have hih := ih hn' (by rw [hblocks, List.length_dropLast, hk]; rfl) (bei.bl :: popped)
      have hsplit : n.blocks = n'.blocks ++ [bei] := by
        have hlast : n.blocks.getLast? = some bei := by
          rw [List.getLast?_eq_getElem?, hk]
          exact hbei
        rw [hblocks, List.dropLast_append_getLast? bei hlast]
      have hlen : n'.blocks.length = s + k := by
        rw [hblocks, List.length_dropLast, hk]
        rfl
      split at hih
      · obtain ⟨hm, htake, hl⟩ := hih
        refine ⟨hm, ?_, ?_⟩
        · rw [htake, hsplit, List.take_append_of_le_length (by omega)]
        · rw [hl, hsplit, List.drop_append_of_le_length (by omega), List.map_append]
          simp
      · exact hih

theorem returnOriginalChain_length (E : Env) (now : ℕ) (l : List Block) (n : Node) :
    (returnOriginalChain E now l n).2.blocks.length ≤ n.blocks.length + l.length := by
  induction l generalizing n with
  | nil => exact le_rfl
  | cons bl l ih =>
    have hpush : (handleBlockToMainChain E now {} n bl).2.2.blocks.length ≤ n.blocks.length + 1 := by
      obtain ⟨-, ⟨-, hnot⟩ | ⟨-, hput⟩⟩ := handleBlockToMainChain_effect E now {} n bl
      · rw [hnot.same.blocks]
        omega
      · obtain ⟨bei, -, -, hblocks⟩ := hput.blocks
        rw [hblocks, List.length_append, List.length_singleton]
    have hih := ih (handleBlockToMainChain E now {} n bl).2.2
    unfold returnOriginalChain
    simp only [List.length_cons]
    split
    · omega
    · simp only
      omega

/-- A rollback to a chain that did not reach `p` does not leave it there, unless at a block that
cannot be popped. -/
theorem Lined.rollback_kept (now : ℕ) (hn : Lined E cps B n) {s : ℕ} (hs : 1 ≤ s) {l : List Block}
    (hl : s + l.length ≤ p) : Kept E p (rollbackBlockchainSwitching E now n l s).2 := by
  have hback : ∀ m : Node, m.blocks.length ≤ s → Kept E p (returnOriginalChain E now l m).2 := by
    intro m hm
    have := returnOriginalChain_length E now l m
    exact Or.inl (by omega)
  unfold rollbackBlockchainSwitching
  by_cases hlen : n.blocks.length ≤ s
  · rw [Nat.sub_eq_zero_of_le hlen]
    exact hback n hlen
  · have hpop := hn.popBlocks now hs (n.blocks.length - s) (by omega) []
    split at hpop
    · rename_i r hr
      rw [hr]
      refine hback r.2 ?_
      rw [hpop.2.1, List.length_take]
      omega
    · rename_i n' hr
      rw [hr]
      exact Kept.of_top hpop.2

theorem Lined.connect_kept (now : ℕ) (hn : Lined E cps B n) {s : ℕ} (hs : 1 ≤ s) {l : List Block}
    (hl : s + l.length ≤ p) {altChain : AltChain} (halt : ∀ e ∈ altChain, e.2.bl ∈ B) :
    match connectAltChain E now l s altChain n with
    | .ok n' => Lined E cps B n'
    | .error n' => Kept E p n' := by
  induction altChain generalizing n with
  | nil => exact hn
  | cons e rest ih =>
    have hpush := hn.push now (halt e (by simp)) {}
    unfold connectAltChain
    cases hr : (handleBlockToMainChain E now {} n e.2.bl).1 &&
        (handleBlockToMainChain E now {} n e.2.bl).2.1.addedToMainChain with
    | true =>
      simp only [hr, if_true]
      exact ih hpush fun e' he' => halt e' (by simp [he'])
    | false =>
      simp only [hr]
      refine (hpush.rollback_kept now hs hl).of_fewer ?_
      exact ((Fewer.addBlockAsInvalid _ e.2 _).trans (.erase _ e.1)).trans (.orphanRest _ rest)

/-- A switch of a chain below `p` to a branch that reaches `p` is rolled back: the old blocks are not
taken as alternative ones any more. -/
theorem Lined.switch_kept (hn : Lined E cps B n) (hlen : n.blocks.length ≤ p)
    {handle : Node → Block → Option (Bool × Node)}
    (hh : ∀ n b r, Lined E cps B n ∧ Kept E p n → b ∈ B → handle n b = some r →
      Lined E cps B r.2 ∧ Kept E p r.2)
    (hrefuse : ∀ n b r, Lined E cps B n → getBlockHeight b ≤ p → p < n.blocks.length →
      handle n b = some r → r = (false, n))
    {altChain : AltChain} (halt : ∀ e ∈ altChain, e.2.bl ∈ B)
    (hfront : ∀ front, altChain.head? = some front → 1 ≤ front.2.height) {r : Bool × Node}
    (hr : switchToAlternativeBlockchain E now handle n altChain = some r) : Kept E p r.2 := by
  unfold switchToAlternativeBlockchain at hr
  cases hhead : altChain.head? with
  | none =>
    simp only [hhead, Option.some.injEq] at hr
    rw [← hr]
    exact Or.inl hlen
  | some front =>
    have hs := hfront front hhead
    simp only [hhead] at hr
    split_ifs at hr with hshort
    · rw [← Option.some.inj hr]
      exact Or.inl hlen
    have hpop := hn.popBlocks now hs (n.blocks.length - front.2.height) (by omega) []
    cases hp : Boolberry.popBlocks E now front.2.height (n.blocks.length - front.2.height) n []
      with
    | error n₁ =>
      simp only [hp, Option.some.injEq] at hr hpop
      rw [← hr]
      exact Kept.of_top hpop.2
    | ok q =>
      obtain ⟨popped, n₁⟩ := q
      simp only [hp, List.append_nil] at hr hpop
      obtain ⟨hn₁, -, rfl⟩ := hpop
      have hpopped : front.2.height +
          ((n.blocks.drop front.2.height).map BlockExtendedInfo.bl).length ≤ p := by
        rw [List.length_map, List.length_drop]
        omega
      -- a branch block that fails rolls back by itself; what is left is a branch that went in whole
      have hcon := hn₁.connect_kept now hs hpopped halt
      cases hc : connectAltChain E now ((n.blocks.drop front.2.height).map BlockExtendedInfo.bl)
          front.2.height altChain n₁ with
      | error n₂ =>
        simp only [hc, Option.some.injEq] at hr hcon
        rw [← hr]
        exact hcon
      | ok n₂ =>
        simp only [hc] at hr hcon
        by_cases hreach : p < n₂.blocks.length
        · -- the first old block declares a height that is passed now
          obtain ⟨bei, hbei⟩ : ∃ bei, n.blocks[front.2.height]? = some bei :=
            ⟨_, List.getElem?_eq_getElem (by omega)⟩
          have hcons : (n.blocks.drop front.2.height).map BlockExtendedInfo.bl =
              bei.bl :: (n.blocks.drop (front.2.height + 1)).map BlockExtendedInfo.bl := by
            rw [List.drop_eq_getElem?_toList_append, hbei]
            rfl
          have hdecl := hn.declared hbei
          cases hb : handle n₂ bei.bl with
          | none =>
            simp only [hcons, pushOldChain, hb] at hr
            cases hr
          | some q =>
            obtain rfl := hrefuse n₂ bei.bl q hcon (by omega) hreach hb
            simp only [hcons, pushOldChain, hb, Option.some.injEq] at hr
            rw [← hr]
            exact hcon.rollback_kept now hs (hcons ▸ hpopped)
        · have hold : ∀ bl ∈ (n.blocks.drop front.2.height).map BlockExtendedInfo.bl, bl ∈ B := by
            intro bl hbl
            obtain ⟨bei, hbei, rfl⟩ := List.mem_map.mp hbl
            exact hn.line.mem bei (List.mem_of_mem_drop hbei)
          cases ho : pushOldChain handle
              ((n.blocks.drop front.2.height).map BlockExtendedInfo.bl) n₂ with
          | none =>
            simp only [ho] at hr
            cases hr
          | some q =>
            obtain ⟨hn₃, hkept⟩ := AltInvariant.pushOldChain hh ⟨hcon, Or.inl (by omega)⟩ hold ho
            obtain ⟨b, n₃⟩ := q
            cases b with
            | true =>
              simp only [ho, Option.some.injEq] at hr
              rw [← hr]
              exact hkept.of_fewer (.eraseAltChain n₃ altChain)
            | false =>
              simp only [ho, Option.some.injEq] at hr
              rw [← hr]
              exact Lined.rollback_kept now hn₃ hs hpopped

/-- The induction is on the depth of the calls that a switch makes. -/
theorem kept_handleAlternativeBlock (hinj : Set.InjOn (getBlockHash E) B) (hp : p ∈ cps.keys)
    {fuel : ℕ} {bvc : BlockVerificationContext} {b : Block}
    {r : Bool × BlockVerificationContext × Node} (hn : Lined E cps B n) (h : Kept E p n) (hb : b ∈ B)
    (hr : handleAlternativeBlock E now fuel bvc n b = some r) : Kept E p r.2.2 := by
  induction fuel generalizing bvc n b r with
  | zero => simp [handleAlternativeBlock] at hr
  | succ fuel ih =>
    by_cases hreach : p < n.blocks.length
    · obtain ⟨P, R, halt, hP, hheld⟩ := (h.held hreach).exists_alt now hinj hp hn
      exact Or.inr (hheld _ (halt.handleAlternativeBlock hP hb hr)).2.fork
    rcases (lined_alt now hinj).handleAlternativeBlock_cases hn hb hr with
      ⟨-, hs⟩ | ⟨n₁, altChain, ok, hn₁, hs, hget, hfront, hsw⟩
    · refine Or.inl ?_
      rw [hs]
      omega
    · have hblocks : n₁.blocks = n.blocks := congrArg ChainStores.blocks hs
      refine hn₁.switch_kept (by rw [hblocks]; omega) (fun m b q hm hb hq => ?_)
        (fun m b q hm hle hlt hq => ?_) (fun e he => (lined_alt now hinj).alt n₁ _ _ hn₁ (hget e he))
        hfront hsw
      · obtain ⟨r', hr', rfl⟩ := Option.map_eq_some_iff.mp hq
        exact ⟨(lined_alt now hinj).handleAlternativeBlock hm.1 hb hr', ih hm.1 hm.2 hb hr'⟩
      · obtain ⟨r', hr', rfl⟩ := Option.map_eq_some_iff.mp hq
        cases fuel with
        | zero => simp [handleAlternativeBlock] at hr'
        | succ fuel =>
          unfold handleAlternativeBlock at hr'
          rw [hm.checkpoints, isHeightPassedZone_of_mem hp hle (by omega), if_pos rfl] at hr'
          rw [← Option.some.inj hr']

/-- The block of a checkpoint that is put on top of the chain is not an alternative one. -/
theorem kept_addNewBlock (hinj : Set.InjOn (getBlockHash E) B) (hp : p ∈ cps.keys) {fuel : ℕ}
    {bvc : BlockVerificationContext} {b : Block} {r : Bool × BlockVerificationContext × Node}
    (hn : Lined E cps B n) (h : Kept E p n) (hb : b ∈ B)
    (hr : addNewBlock E now fuel bvc n b = some r) : Kept E p r.2.2 := by
  by_cases hreach : p < n.blocks.length
  · obtain ⟨P, R, halt, hP, hheld⟩ := (h.held hreach).exists_alt now hinj hp hn
    exact Or.inr (hheld _ (halt.addNewBlock hP (fun _ => hb) (fun _ => hb) hr)).2.fork
  unfold addNewBlock at hr
  split_ifs at hr with hhave hprev
  · rw [← Option.some.inj hr]
    exact h
  · exact kept_handleAlternativeBlock hinj hp hn h hb hr
  rw [← Option.some.inj hr]
  obtain ⟨hf, ⟨-, hnot⟩ | ⟨-, hput⟩⟩ := handleBlockToMainChain_effect E now bvc n b
  · refine Or.inl ?_
    rw [hnot.same.blocks]
    omega
  obtain ⟨bei, rfl, -, hblocks⟩ := hput.blocks
  by_cases hlast : n.blocks.length < p
  · refine Or.inl ?_
    rw [hblocks, List.length_append, List.length_singleton]
    omega
  obtain rfl : p = n.blocks.length := by omega
  refine Or.inr (Or.inl fun id alt hget hheight => ?_)
  -- both blocks have the hash of the checkpoint
  rw [hf.alternativeChains] at hget
  have hzone := isInCheckpointZone_of_mem hp
  obtain ⟨hash, hhash⟩ := Map.mem_keys.mp hp
  have hmain := hput.checkpoint
  rw [hn.checkpoints] at hmain
  have halt := (hn.alts id alt hget).2.2
  rw [hheight] at halt
  have hid : n.alternativeChains.get (getBlockHash E bei.bl) = some alt := by
    rw [checkBlock_of_get hhash (hmain hzone), ← checkBlock_of_get hhash (halt hzone)]
    exact hget
  simp [haveBlock, hid] at hhave

end Switch

/-- The blocks of a run. -/
def blocksIn (events : List Event) : Set Block :=
  insert generateGenesisBlock {b | ∃ now fuel, Event.block now fuel b ∈ events}

theorem mem_blocksIn_map (now fuel : ℕ) {l : List Block} {b : Block}
    (h : b ∈ blocksIn (l.map (Event.block now fuel))) : b ∈ generateGenesisBlock :: l := by
  rcases h with rfl | ⟨_, _, hb⟩
  · exact List.mem_cons_self
  · obtain ⟨b', hb', heq⟩ := List.mem_map.mp hb
    obtain ⟨-, -, rfl⟩ := Event.block.inj heq
    exact List.mem_cons_of_mem _ hb'

section Run

variable {E : Env} {cps : Checkpoints} {B : Set Block} {n n' : Node} {e : Event}

theorem Lined.event (hinj : Set.InjOn (getBlockHash E) B) (hn : Lined E cps B n)
    (hb : ∀ now fuel b, e = .block now fuel b → b ∈ B) (he : e.apply E n = some n') :
    Lined E cps B n' := by
  by_cases hblock : e.isBlock = true
  · cases e with
    | block now fuel b =>
      obtain ⟨r, hr, rfl⟩ := Option.map_eq_some_iff.mp he
      have hb := hb now fuel b rfl
      exact (lined_alt now hinj).addNewBlock hn (fun _ => hb) (fun _ => hb) hr
    | _ => simp [Event.isBlock] at hblock
  · obtain ⟨hs, -, -, halts⟩ := Event.effect (by simpa using hblock) he
    refine ⟨chainInv_event hn.inv he, ?_, fun id bei hget => hn.alts id bei (halts id bei hget)⟩
    rw [hs.blocks]
    exact hn.line

/-- An event other than a block has no more alternative blocks behind it. -/
theorem Event.fewer (hb : e.isBlock = false) (he : e.apply E n = some n') : Fewer n n' := by
  obtain ⟨hs, -, -, halts⟩ := Event.effect hb he
  exact ⟨hs, halts⟩

theorem kept_event (hinj : Set.InjOn (getBlockHash E) B) {p : ℕ} (hp : p ∈ cps.keys)
    (hn : Lined E cps B n) (h : Kept E p n) (hb : ∀ now fuel b, e = .block now fuel b → b ∈ B)
    (he : e.apply E n = some n') : Kept E p n' := by
  by_cases hblock : e.isBlock = true
  · cases e with
    | block now fuel b =>
      obtain ⟨r, hr, rfl⟩ := Option.map_eq_some_iff.mp he
      exact kept_addNewBlock hinj hp hn h (hb now fuel b rfl) hr
    | _ => simp [Event.isBlock] at hblock
  · exact h.of_fewer (Event.fewer (by simpa using hblock) he)

theorem held_event (hinj : Set.InjOn (getBlockHash E) B) {p : ℕ} (hp : p ∈ cps.keys)
    {l : List BlockExtendedInfo} (hn : Lined E cps B n) (h : Held E p l n)
    (hb : ∀ now fuel b, e = .block now fuel b → b ∈ B) (he : e.apply E n = some n') :
    Held E p l n' := by
  by_cases hblock : e.isBlock = true
  · cases e with
    | block now fuel b =>
      obtain ⟨r, hr, rfl⟩ := Option.map_eq_some_iff.mp he
      have hb := hb now fuel b rfl
      obtain ⟨P, R, halt, hP, hheld⟩ := h.exists_alt now hinj hp hn
      exact (hheld _ (halt.addNewBlock hP (fun _ => hb) (fun _ => hb) hr)).2
    | _ => simp [Event.isBlock] at hblock
  · have hf := Event.fewer (by simpa using hblock) he
    have hkept := Kept.of_fewer (Or.inr h.fork) hf
    have hlen := h.blocks.length_le
    rw [h.length, ← hf.same.blocks] at hlen
    exact ⟨h.length, by rw [hf.same.blocks]; exact h.blocks, hkept.resolve_left (by omega)⟩

theorem lined_of_init (hg : generateGenesisBlock ∈ B) {now : ℕ} {n₀ : Node}
    (hinit : initNode E now cps = some n₀) :
    Lined E cps B n₀ ∧ n₀.alternativeChains = ∅ := by
  have hinv := chainInv_of_reachable ⟨now, n₀, [], hinit, rfl⟩
  obtain ⟨c, hgen, hc, -, hrep, halts, -⟩ := initNode_spec hinit
  refine ⟨⟨hinv, ?_, ?_⟩, halts⟩
  · rw [hrep.blocks]
    obtain ⟨r, d, -, hbei⟩ := hc.record
    refine .genesis hgen (hgen ▸ hg) ?_
    rw [hbei]
    exact ⟨rfl, rfl, rfl⟩
  · rw [halts]
    intro id bei hget
    simp at hget

end Run

/-- From genesis on, the blocks up to a checkpoint that is reached never change, and behind the
genesis block the main chain has the block of every checkpoint, as long as the ids of the blocks of
the run do not collide. -/
theorem checkpoints_final (E : Env) (cps : Checkpoints) (now : ℕ) (n₀ n : Node)
    (events events' : List Event) (hinj : Set.InjOn (getBlockHash E) (blocksIn (events ++ events')))
    (hinit : initNode E now cps = some n₀) (hrun : run E n₀ events = some n) :
    (∀ p ∈ cps.keys, p < n.blocks.length → ∀ n', run E n events' = some n' →
      n'.blocks.take (p + 1) = n.blocks.take (p + 1)) ∧
    ∀ p hash bei, cps.get p = some hash → 1 ≤ p → n.blocks[p]? = some bei →
      getBlockHash E bei.bl = hash := by
  have hmem : ∀ e ∈ events ++ events', ∀ now fuel b, e = Event.block now fuel b →
      b ∈ blocksIn (events ++ events') := by
    rintro e he now fuel b rfl
    exact Set.mem_insert_of_mem _ ⟨now, fuel, he⟩
  obtain ⟨hlined₀, halts₀⟩ := lined_of_init (B := blocksIn (events ++ events'))
    (Set.mem_insert _ _) hinit
  have hlined : Lined E cps (blocksIn (events ++ events')) n :=
    run_induction (fun _ _ _ hn hb he => hn.event hinj hb he) hlined₀
      (fun e he => hmem e (by simp [he])) hrun
  refine ⟨fun p hp hlt n' hrun' => ?_, fun p hash bei hget hpos hbei => ?_⟩
  · have hkept : Lined E cps (blocksIn (events ++ events')) n ∧ Kept E p n := by
      refine run_induction (P := fun m => Lined E cps _ m ∧ Kept E p m) (fun _ _ _ hn hb he => ?_)
        ⟨hlined₀, Or.inr (Or.inl ?_)⟩ (fun e he => hmem e (by simp [he])) hrun
      · exact ⟨hn.1.event hinj hb he, kept_event hinj hp hn.1 hn.2 hb he⟩
      · intro id bei hget
        rw [halts₀] at hget
        simp at hget
    have hheld : Lined E cps (blocksIn (events ++ events')) n' ∧
        Held E p (n.blocks.take (p + 1)) n' := by
      refine run_induction (P := fun m => Lined E cps _ m ∧ Held E p _ m)
        (fun _ _ _ hn hb he => ?_) ⟨hlined, hkept.2.held hlt⟩ (fun e he => hmem e (by simp [he]))
        hrun'
      exact ⟨hn.1.event hinj hb he, held_event hinj hp hn.1 hn.2 hb he⟩
    have htake := List.prefix_iff_eq_take.mp hheld.2.blocks
    rw [hheld.2.length] at htake
    exact htake.symm
  · obtain ⟨F, chain, -, ⟨t, hv⟩, hrep⟩ := hlined.inv
    rw [hrep.blocks, blocksOf, List.getElem?_map] at hbei
    obtain ⟨c, hc, rfl⟩ := Option.map_eq_some_iff.mp hbei
    exact hv.checkpoint (by omega) hc hget

/-- A heavier side chain that forks below a checkpoint is left aside. -/
theorem checkpoints_final_sampleFork : ∃ cps n₀ n n' events', initNode sampleEnv 0 cps = some n₀ ∧
    1 ∈ cps.keys ∧ n.blocks.length = 2 ∧ events'.length = 2 ∧ run sampleEnv n events' = some n' ∧
    n'.blocks.take 2 = n.blocks.take 2 := by
  have hdec : (initNode sampleEnv 0 ∅).bind (fun m => (sampleFork m).bind fun (a₁, b₁, b₂) =>
      (initNode sampleEnv 0 ((∅ : Checkpoints).set 1 (getBlockHash sampleEnv a₁))).bind fun n₀ =>
      (run sampleEnv n₀ [.block 0 2 a₁]).bind fun n =>
      (run sampleEnv n [.block 0 2 b₁, .block 0 2 b₂]).map fun _ =>
        decide (n.blocks.length = 2) &&
        decide ([generateGenesisBlock, a₁, b₁, b₂].map (getBlockHash sampleEnv)).Nodup) =
      some true := by decide +kernel
  obtain ⟨m, -, h⟩ := Option.bind_eq_some_iff.mp hdec
  obtain ⟨⟨a₁, b₁, b₂⟩, -, h⟩ := Option.bind_eq_some_iff.mp h
  obtain ⟨n₀, hinit, h⟩ := Option.bind_eq_some_iff.mp h
  obtain ⟨n, hrun, h⟩ := Option.bind_eq_some_iff.mp h
  obtain ⟨n', hrun', h⟩ := Option.map_eq_some_iff.mp h
  simp only [Bool.and_eq_true, decide_eq_true_eq] at h
  obtain ⟨hlen, hnodup⟩ := h
  have hmem : (1 : ℕ) ∈ ((∅ : Checkpoints).set 1 (getBlockHash sampleEnv a₁)).keys :=
    Map.mem_keys.mpr ⟨_, Map.get_set_self _ _ _⟩
  have hinj : Set.InjOn (getBlockHash sampleEnv)
      (blocksIn ([.block 0 2 a₁] ++ [.block 0 2 b₁, .block 0 2 b₂])) := by
    intro b hb b' hb' heq
    exact List.inj_on_of_nodup_map hnodup (mem_blocksIn_map 0 2 hb) (mem_blocksIn_map 0 2 hb') heq
  refine ⟨_, n₀, n, n', _, hinit, hmem, hlen, rfl, hrun', ?_⟩
  exact (checkpoints_final sampleEnv _ 0 n₀ n _ _ hinj hinit hrun).1 1 hmem (by omega) n' hrun'

/-- The genesis block is on the chain before the checkpoints are set, and is not compared with a
checkpoint at its height. -/
theorem genesis_checkpoint_unchecked : ¬∀ (E : Env) (cps : Checkpoints) (now : ℕ) (n₀ n : Node)
    (events events' : List Event), Set.InjOn (getBlockHash E) (blocksIn (events ++ events')) →
    initNode E now cps = some n₀ → run E n₀ events = some n →
    (∀ p ∈ cps.keys, p < n.blocks.length → ∀ n', run E n events' = some n' →
      n'.blocks.take (p + 1) = n.blocks.take (p + 1)) ∧
    ∀ p hash bei, cps.get p = some hash → n.blocks[p]? = some bei →
      getBlockHash E bei.bl = hash := by
  intro h
  have hdec : (initNode sampleEnv 0 ((∅ : Checkpoints).set 0 0)).bind (fun n₀ =>
      n₀.blocks[0]?.map fun bei => decide (getBlockHash sampleEnv bei.bl ≠ 0)) = some true := by
    decide +kernel
  obtain ⟨n₀, hinit, hd⟩ := Option.bind_eq_some_iff.mp hdec
  obtain ⟨bei, hbei, hne⟩ := Option.map_eq_some_iff.mp hd
  have hinj : Set.InjOn (getBlockHash sampleEnv) (blocksIn ([] ++ [])) := by
    intro b hb b' hb' _
    have hb := List.mem_singleton.mp (mem_blocksIn_map 0 0 (l := []) hb)
    have hb' := List.mem_singleton.mp (mem_blocksIn_map 0 0 (l := []) hb')
    rw [hb, hb']
  exact of_decide_eq_true hne
    ((h sampleEnv _ 0 n₀ n₀ [] [] hinj hinit rfl).2 0 0 bei (Map.get_set_self _ _ _) hbei)

end Boolberry
