import Boolberry.Reorganisation

/-!
# Runs of settled nodes

With blocks that can be popped, ids that do not collide, a clock that does not go
back and outputs that are spent directly only once, every call of `add_new_block`
in a run has one of three outcomes. A coinbase output that is not `txout_to_key`
breaks this: the failed switch leaves the block behind.
-/

namespace Boolberry
open KeyValue TxMemoryPool

/-- Blocks of `B`, given the depth of calls they need, and transactions of `T`. -/
def Event.Within (B : Set Block) (T : Set TransactionPrefix) : Event → Prop
  | .block _ fuel b => b ∈ B ∧ 2 ≤ fuel
  | e => e.BringsFrom T

theorem AltsOK.filter {E : Env} {B : Set Block} {cps : Checkpoints} {alts : Map Hash BlockExtendedInfo}
    (h : AltsOK E B cps alts) (p : BlockExtendedInfo → Bool) : AltsOK E B cps (alts.filter p) := by
  intro id bei hget
  rw [Map.get_filter, Option.filter_eq_some_iff] at hget
  exact h id bei hget.1

section Run

variable {E : Env} {cps : Checkpoints} {B : Set Block} {T : Set TransactionPrefix} {t : ℕ}

theorem Settled.event {chain : List ChainBlock} {n n' : Node} {e : Event}
    (h : Settled E cps B T t chain n) (hb : e.isBlock = false) (hq : e.BringsFrom T)
    (he : e.apply E n = some n') : Settled E cps B T t chain n' := by
  refine ⟨h.exact.event hb hq he, h.line, ?_⟩
  cases e with
  | block now fuel bl => simp [Event.isBlock] at hb
  | transaction now tx kept =>
    obtain rfl := Option.some.inj he
    obtain ⟨-, hf, -⟩ := handleIncomingTx_spec now tx kept h.exact.rep
    rw [hf.alternativeChains]
    exact h.alts
  | removeStuck now order =>
    obtain rfl := Option.some.inj he
    exact h.alts
  | pruneAltBlocks =>
    obtain rfl := Option.some.inj he
    exact h.alts.filter _

end Run

/-- A fork behind the genesis block of `n`: one block, and two blocks. -/
def sampleFork (n : Node) : Option (Block × Block × Block) :=
  let a₁ := sampleBlock sampleEnv n.blocks 0 [] 0 sampleKey
  let b₁ := sampleBlock sampleEnv n.blocks 1 [] 0 sampleKey
  (run sampleEnv n [.block 0 2 b₁]).map fun m =>
    (a₁, b₁, sampleBlock sampleEnv m.blocks 1 [] 0 sampleKey)

/-- A branch of three blocks on the genesis block: the first pays to a script, the second pays too
much. -/
def scriptFork (n : Node) : Option (List Block) :=
  let b₁ := sampleBlock sampleEnv n.blocks 1 [] 0 (.toScript ⟨[], []⟩)
  (run sampleEnv n [.block 0 2 b₁]).map fun m =>
    let b₂ := sampleBlock sampleEnv m.blocks 1 [] 1 sampleKey
    let b₃ := sampleBlock sampleEnv (m.blocks ++ [⟨b₂, 2, 0, 0, 0, 0, 0⟩]) 1 [] 0 sampleKey
    [b₁, b₂, b₃]

end Boolberry
