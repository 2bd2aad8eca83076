import Boolberry.SpentFlags
import Boolberry.Lines

/-!
# Rolling a switch back

`rollback_blockchain_switching` pops what the switch has pushed and pushes the old
blocks again. It succeeds when every block it pops can be read back and the
transactions of the old blocks are still known with the signatures they had.
-/

namespace Boolberry
open KeyValue TxMemoryPool

/-- The transactions of the blocks `post`, the first of which was at height `h`, are known as these
blocks had them. -/
def Recoverable (cps : Checkpoints) (known : Hash → Option Transaction) (h : ℕ)
    (post : List ChainBlock) : Prop :=
  ∀ i c, post[i]? = some c → ∀ te ∈ c.txs,
    ∃ tx, known te.id = some tx ∧ cutIn (cps.isInCheckpointZone (h + i)) tx = te.tx

/-- They stay so when other transactions come and go, and when signatures are cut that the blocks
do not have. -/
theorem Recoverable.recalls {cps : Checkpoints} {known known' : Hash → Option Transaction} {h : ℕ}
    {post : List ChainBlock} {zone : Bool} {ids : List Hash} (hr : Recoverable cps known h post)
    (hrec : Recalls zone ids known known')
    (hsafe : ∀ i c, post[i]? = some c → zone = true → cps.isInCheckpointZone (h + i) = false →
      ∀ te ∈ c.txs, te.id ∉ ids) : Recoverable cps known' h post := by
  intro i c hc te hte
  obtain ⟨tx, hknown, hcut⟩ := hr i c hc te hte
  rcases hrec te.id with he | ⟨hmem, he⟩
  · exact ⟨tx, he.trans hknown, hcut⟩
  · refine ⟨cutIn zone tx, by rw [he, hknown]; rfl, ?_⟩
    cases hz : zone with
    | false => exact hcut
    | true =>
      cases hi : cps.isInCheckpointZone (h + i) with
      | false => exact absurd hmem (hsafe i c hc hz hi te hte)
      | true =>
        rw [cutIn_cutIn, ← hi]
        exact hcut

theorem Recoverable.tail {cps : Checkpoints} {known : Hash → Option Transaction} {h : ℕ}
    {c : ChainBlock} {post : List ChainBlock} (hr : Recoverable cps known h (c :: post)) :
    Recoverable cps known (h + 1) post := by
  intro i c' hc' te hte
  have := hr (i + 1) c' hc' te hte
  rwa [show h + (i + 1) = h + 1 + i by omega] at this

theorem id_notMem_of_nodup {E : Env} {chain : List ChainBlock} {i j : ℕ} {c d : ChainBlock}
    (hnd : ((entriesOf E chain).map TxEntry.id).Nodup) (hc : chain[i]? = some c)
    (hd : chain[j]? = some d) (hij : i ≠ j) {te : TxEntry} (hte : te ∈ c.txs) :
    te.id ∉ d.txs.map TxEntry.id := by
  have hmap : (entriesOf E chain).map TxEntry.id =
      (chain.map fun c => (c.entries E).map TxEntry.id).flatten := by
    rw [entriesOf, List.map_flatMap]
    rfl
  rw [hmap, List.nodup_flatten] at hnd
  have hpair := hnd.2
  rw [List.pairwise_map] at hpair
  have hdisj : List.Disjoint ((c.entries E).map TxEntry.id) ((d.entries E).map TxEntry.id) := by
    obtain ⟨hi, rfl⟩ := List.getElem?_eq_some_iff.mp hc
    obtain ⟨hj, rfl⟩ := List.getElem?_eq_some_iff.mp hd
    rcases Nat.lt_or_gt_of_ne hij with hlt | hgt
    · exact List.pairwise_iff_getElem.mp hpair i j hi hj hlt
    · exact (List.pairwise_iff_getElem.mp hpair j i hj hi hgt).symm
  intro hmem
  refine hdisj (a := te.id) ?_ ?_
  · exact List.mem_map_of_mem (by simp [ChainBlock.entries, hte])
  · rw [ChainBlock.entries, List.map_cons]
    exact List.mem_cons_of_mem _ hmem

namespace Exact

variable {E : Env} {cps : Checkpoints} {T : Set TransactionPrefix} {t now : ℕ}
  {pre post : List ChainBlock} {n : Node}

theorem nodup_ids {chain : List ChainBlock} (h : Exact E cps T t chain n) :
    ((entriesOf E chain).map TxEntry.id).Nodup := h.rep.txs.linked.nodup_ids

/-- The transactions of the main chain are known as its blocks have them. -/
theorem recoverable (h : Exact E cps T t (pre ++ post) n) (hne : pre ≠ []) :
    Recoverable cps (Known E (pre ++ post) n.toChainStores) pre.length post := by
  intro i c hc te hte
  have hget : (pre ++ post)[pre.length + i]? = some c := by
    rw [List.getElem?_append_right (Nat.le_add_right _ _), Nat.add_sub_cancel_left]
    exact hc
  obtain ⟨cps', hn, hcps⟩ := h.valid.at hget
  have hpos := List.length_pos_iff.mpr hne
  obtain rfl := hcps (by omega)
  have hlen : ((pre ++ post).take (pre.length + i)).length = pre.length + i := by
    rw [List.length_take]
    have := (List.getElem?_eq_some_iff.mp hget).1
    omega
  have htxs := hn.txs
  rw [hlen] at htxs
  refine ⟨te.tx, h.rep.known ?_ (htxs.not_coinbase te hte), htxs.cutIn te hte⟩
  exact List.mem_flatMap_of_mem (List.mem_of_getElem? hget) (by simp [ChainBlock.entries, hte])

theorem popBlocks (hT : SpendsOnce E cps T) (now : ℕ) (popped : List Block)
    (h : Exact E cps T t (pre ++ post) n) (hne : pre ≠ [])
    (hread : ∀ c ∈ post, Readable E c.bei.bl) :
    ∃ n', Boolberry.popBlocks E now pre.length post.length n popped =
        .ok (post.map (fun c => c.bei.bl) ++ popped, n') ∧ Exact E cps T t pre n' ∧
      Known E pre n'.toChainStores = Known E (pre ++ post) n.toChainStores ∧ SameFrame n n' := by
  induction post using List.reverseRecOn generalizing n popped with
  | nil => exact ⟨n, rfl, by simpa using h, by simp, SameFrame.refl n⟩
  | append_singleton post c ih =>
    have hget : n.blocks[pre.length + post.length]? = some c.bei := by
      rw [h.rep.blocks]
      simp [blocksOf]
    rw [← List.append_assoc] at h ⊢
    obtain ⟨n₁, hpop, h₁, hknown₁, hf₁⟩ := h.pop hT now (by simp [hne]) (hread c (by simp))
    obtain ⟨n₂, hpops, h₂, hknown₂, hf₂⟩ := ih (c.bei.bl :: popped) h₁ fun c' hc' =>
      hread c' (by simp [hc'])
    refine ⟨n₂, ?_, h₂, hknown₂.trans hknown₁, hf₁.trans hf₂⟩
    rw [List.length_append, List.length_singleton]
    unfold Boolberry.popBlocks
    simp only [hget, hpop, if_true, hpops]
    simp

/-- The next block of a valid chain goes in if the transactions of the rest of that chain are known,
and they stay known. -/
theorem pushNext {c : ChainBlock} (h : Exact E cps T t pre n) (hne : pre ≠ [])
    (hv : ValidChain E cps now (pre ++ c :: post))
    (hr : Recoverable cps (Known E pre n.toChainStores) pre.length (c :: post)) :
    let r := handleBlockToMainChain E now {} n c.bei.bl
    r.1 = true ∧ r.2.1.addedToMainChain = true ∧ Exact E cps T (max t now) (pre ++ [c]) r.2.2 ∧
      Recoverable cps (Known E (pre ++ [c]) r.2.2.toChainStores) (pre ++ [c]).length post ∧
      SameFrame n r.2.2 := by
  have hc : ValidNext E cps now pre c := by
    have hv' := hv
    rw [List.append_cons] at hv'
    exact ((hv'.of_append (by simp)).of_append_singleton hne).2
  rw [← h.checkpoints] at hc
  have hpool : ∀ te ∈ c.txs, ∃ d, n.txs.pool.transactions.get te.id = some d ∧
      cutIn (zoneAt n.checkpoints pre) d.tx = te.tx := by
    intro te hte
    obtain ⟨tx, hknown, hcut⟩ := hr 0 c rfl te hte
    have hid : te.id ∉ (entriesOf E pre).map TxEntry.id := fun hmem =>
      hc.txs.id_notMem te hte (by simp [hmem])
    obtain ⟨d, hd, rfl⟩ := pool_of_known hid hknown
    exact ⟨d, hd, by rw [h.checkpoints]; exact hcut⟩
  obtain ⟨h1, h2, hp⟩ := handleBlockToMainChain_complete {} h.rep hc hpool
  refine ⟨h1, by rw [h2], h.of_pushed hp, ?_, hp.frame⟩
  -- what is left of the chain has other transactions
  rw [List.length_append, List.length_singleton]
  refine hr.tail.recalls hp.recalls fun i c' hc' _ _ te hte => ?_
  rw [← hc.txIds]
  refine id_notMem_of_nodup hv.linked.nodup_ids (i := pre.length + (i + 1)) (j := pre.length) ?_ ?_
    (by omega) hte
  · rw [List.getElem?_append_right (Nat.le_add_right _ _), Nat.add_sub_cancel_left]
    exact hc'
  · simp

/-- The second loop of the rollback puts the old blocks back. -/
theorem returnOriginalChain (h : Exact E cps T t pre n) (hne : pre ≠ [])
    (hv : ValidChain E cps now (pre ++ post))
    (hr : Recoverable cps (Known E pre n.toChainStores) pre.length post) :
    ∃ n', Boolberry.returnOriginalChain E now (post.map fun c => c.bei.bl) n = (true, n') ∧
      Exact E cps T (max t now) (pre ++ post) n' ∧ SameFrame n n' := by
  induction post generalizing pre t n with
  | nil => exact ⟨n, rfl, by simpa using h.mono (le_max_left t now), SameFrame.refl n⟩
  | cons c post ih =>
    obtain ⟨h1, h2, h', hrest, hf⟩ := h.pushNext hne hv hr
    rw [List.append_cons] at hv
    obtain ⟨n', hret, h'', hf'⟩ := ih h' (by simp) hv hrest
    refine ⟨n', ?_, ?_, hf.trans hf'⟩
    · rw [List.map_cons, Boolberry.returnOriginalChain]
      simp only [h1, h2, Bool.and_self, if_true]
      exact hret
    · rw [List.append_cons, ← max_eq_left (le_max_right t now)]
      exact h''

theorem rollback (hT : SpendsOnce E cps T) {done : List ChainBlock}
    (h : Exact E cps T t (pre ++ done) n) (hne : pre ≠ [])
    (hread : ∀ c ∈ done, Readable E c.bei.bl) (hv : ValidChain E cps now (pre ++ post))
    (hr : Recoverable cps (Known E (pre ++ done) n.toChainStores) pre.length post) :
    ∃ n', rollbackBlockchainSwitching E now n (post.map fun c => c.bei.bl) pre.length = (true, n') ∧
      Exact E cps T (max t now) (pre ++ post) n' ∧ SameFrame n n' := by
  obtain ⟨n₁, hpop, h₁, hknown, hf₁⟩ := h.popBlocks hT now [] hne hread
  rw [← hknown] at hr
  obtain ⟨n₂, hret, h₂, hf₂⟩ := h₁.returnOriginalChain hne hv hr
  refine ⟨n₂, ?_, h₂, hf₁.trans hf₂⟩
  have hcount : n.blocks.length - pre.length = done.length := by
    rw [h.rep.blocks, blocksOf_length, List.length_append]
    omega
  rw [rollbackBlockchainSwitching, hcount, hpop]
  exact hret

end Exact

end Boolberry
