import Boolberry.MainChain

/-!
# Taking blocks off and putting them back

What the two loops of a switch and the rollback do to a node that represents a
valid chain, as long as every block they pop can be read back.
-/

namespace Boolberry
open KeyValue TxMemoryPool

section Pop

variable {E : Env} {cps : Checkpoints} {t : ℕ} {F : Flags} {n : Node}

/-- Popping readable blocks succeeds; only flags that these blocks set are cleared. -/
theorem popBlocks_spec (now : ℕ) {pre post : List ChainBlock} (popped : List Block)
    (hv : ValidChain E cps t (pre ++ post)) (hrep : Rep E F (pre ++ post) n.toChainStores)
    (hne : pre ≠ []) (hread : ∀ c ∈ post, Readable E c.bei.bl) :
    ∃ n', popBlocks E now pre.length post.length n popped =
        .ok (post.map (fun c => c.bei.bl) ++ popped, n') ∧
      Rep E (F.mark (blockRefs (entriesOf E pre) (entriesOf E post)) false) pre n'.toChainStores ∧
      Known E pre n'.toChainStores = Known E (pre ++ post) n.toChainStores ∧ SameFrame n n' := by
  induction post using List.reverseRecOn generalizing F n popped with
  | nil =>
    refine ⟨n, rfl, ?_, by simp, SameFrame.refl n⟩
    simpa [entriesOf, blockRefs, Flags.mark_nil] using hrep
  | append_singleton post c ih =>
    rw [← List.append_assoc] at hv hrep
    obtain ⟨hv', hc⟩ := hv.of_append_singleton (by simp [hne])
    obtain ⟨n₁, hpop, hrep₁, hknown₁, hf₁⟩ :=
      popBlockFromBlockchain_readable now hrep hc (by simp [hne]) (hread c (by simp))
    obtain ⟨n₂, hpops, hrep₂, hknown₂, hf₂⟩ :=
      ih (c.bei.bl :: popped) hv' hrep₁ fun c' hc' => hread c' (by simp [hc'])
    have hget : n.blocks[pre.length + post.length]? = some c.bei := by
      rw [hrep.blocks]
      simp [blocksOf]
    refine ⟨n₂, ?_, ?_, ?_, hf₁.trans hf₂⟩
    · rw [List.length_append, List.length_singleton]
      unfold popBlocks
      simp only [hget, hpop, if_true, hpops]
      simp
    · have hone : entriesOf E [c] = c.entries E := by simp [entriesOf]
      rw [entriesOf_append, hone, blockRefs_append, ← entriesOf_append, Flags.mark_comm,
        ← Flags.mark_append]
      exact hrep₂
    · rw [hknown₂, hknown₁, ← List.append_assoc]

end Pop

end Boolberry
