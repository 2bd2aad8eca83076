import Boolberry.Lib.FiniteMap
import Boolberry.Basic
import Mathlib.Data.Finset.Max
import Mathlib.Order.Lattice.Nat

/-!
# Checkpoints

`checkpoints.cpp`: the ordered map from heights to the hashes expected there.
-/

namespace Boolberry
open KeyValue

abbrev Checkpoints := Map ℕ Hash

namespace Checkpoints

/-- `get_top_checkpoint_height`: the last key, `0` when there is none. -/
def getTopCheckpointHeight (c : Checkpoints) : ℕ := c.keys.sup id

def isInCheckpointZone (c : Checkpoints) (height : ℕ) : Bool :=
  decide (c.keys ≠ ∅ ∧ height ≤ c.keys.sup id)

/-- `is_height_passed_zone`: `lower_bound(height)` exists and is at most the last block's height. -/
def isHeightPassedZone (c : Checkpoints) (height blockchainLastBlockHeight : ℕ) : Bool :=
  if blockchainLastBlockHeight < height then false
  else decide (∃ p ∈ c.keys, height ≤ p ∧ p ≤ blockchainLastBlockHeight)

def checkBlock (c : Checkpoints) (height : ℕ) (h : Hash) : Bool :=
  match c.get height with
  | none => true
  | some p => decide (p = h)

end Checkpoints

section Zone

variable {cps : Checkpoints} {p h last : ℕ}

theorem isInCheckpointZone_iff :
    cps.isInCheckpointZone h = true ↔ cps.keys ≠ ∅ ∧ h ≤ cps.getTopCheckpointHeight := by
  simp [Checkpoints.isInCheckpointZone, Checkpoints.getTopCheckpointHeight]

theorem isInCheckpointZone_of_mem (hp : p ∈ cps.keys) : cps.isInCheckpointZone p = true := by
  refine isInCheckpointZone_iff.mpr ⟨Finset.ne_empty_of_mem hp, ?_⟩
  exact Finset.le_sup (f := id) hp

/-- The height of a checkpoint that is reached is passed, with all below. -/
theorem isHeightPassedZone_of_mem (hp : p ∈ cps.keys) (hh : h ≤ p) (hlast : p ≤ last) :
    cps.isHeightPassedZone h last = true := by
  unfold Checkpoints.isHeightPassedZone
  rw [if_neg (by omega), decide_eq_true_eq]
  exact ⟨p, hp, hh, hlast⟩

theorem checkBlock_of_get {id id' : Hash} (hget : cps.get h = some id)
    (hcheck : cps.checkBlock h id' = true) : id' = id := by
  simp only [Checkpoints.checkBlock, hget, decide_eq_true_eq] at hcheck
  exact hcheck.symm

end Zone

end Boolberry
