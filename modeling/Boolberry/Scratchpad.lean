import Boolberry.Lib.XorPatch
import Boolberry.FormatUtils

/-!
# The scratchpad

`scratchpad_helpers.h`: every block appends its addendum to the scratchpad and
xors each new entry into an older cell chosen by the entry itself.
-/

namespace Boolberry
open KeyValue XorPatch

/-- `hash_together` of two 32-byte values. -/
def hashTogether (E : Env) (a b : BitVec 256) : Hash := E.cnFastHash (hashBytes a ++ hashBytes b)

/-- The cell an entry updates in a scratchpad of `globalStartEntry` cells. -/
def rndUpdInd (globalStartEntry : ℕ) (v : Hash) : ℕ := v.toNat % 2 ^ 64 % globalStartEntry

/-- `get_scratchpad_patch` over a run of entries. -/
def getScratchpadPatch (globalStartEntry : ℕ) (entries : List Hash) (patch : Map ℕ Hash) :
    Map ℕ Hash :=
  if globalStartEntry = 0 then patch else collect (rndUpdInd globalStartEntry) patch entries

/-- The output part of `get_block_scratchpad_addendum`: stops at an output that is not `txout_to_key`. -/
def addendumOuts (E : Env) (prevId : Hash) : List TxOut → Bool × List Hash
  | [] => (true, [])
  | o :: l =>
      match o.target with
      | .toKey k => ((addendumOuts E prevId l).1,
          hashTogether E prevId k.key :: (addendumOuts E prevId l).2)
      | _ => (false, [])

/-- `get_block_scratchpad_addendum`: the return value, and the entries pushed up to there. -/
def getBlockScratchpadAddendum (E : Env) (b : Block) : Bool × List Hash :=
  let start := if getBlockHeight b = 0 then [] else [b.prevId]
  match parseAndValidateTxExtra E b.minerTx with
  | none => (false, start)
  | some info =>
      let outs := addendumOuts E b.prevId b.minerTx.vout
      (outs.1, start ++ [info.txPubKey, getTxTreeHash E b] ++ outs.2)

/-- The entries a block adds, whatever `get_block_scratchpad_addendum` returns. -/
def blockAddendum (E : Env) (b : Block) : List Hash := (getBlockScratchpadAddendum E b).2

/-- `push_block_scratchpad_data(global_start_entry, b, scratchpd, patch)`; the
return value of `get_block_scratchpad_addendum` is dropped there. -/
def pushBlockScratchpadDataPatch (E : Env) (globalStartEntry : ℕ) (b : Block)
    (scratchpd : List Hash) (patch : Map ℕ Hash) : List Hash × Map ℕ Hash :=
  (scratchpd ++ blockAddendum E b, getScratchpadPatch globalStartEntry (blockAddendum E b) patch)

/-- `push_block_scratchpad_data(b, scratchpd)`, which always succeeds. -/
def pushBlockScratchpadData (E : Env) (b : Block) (scratchpd : List Hash) : List Hash :=
  let r := pushBlockScratchpadDataPatch E scratchpd.length b scratchpd ∅
  apply r.2 r.1

/-- `pop_block_scratchpad_data(b, scratchpd)`. -/
def popBlockScratchpadData (E : Env) (b : Block) (scratchpd : List Hash) : Option (List Hash) :=
  let addendum := getBlockScratchpadAddendum E b
  if addendum.1 then
    let rest := scratchpd.length - addendum.2.length
    some ((apply (getScratchpadPatch rest addendum.2 ∅) scratchpd).take rest)
  else none

/-- The cell a proof-of-work lookup reads. -/
def scratchpadAccessor (scratchpd : List Hash) (index : UInt64) : Hash :=
  scratchpd.getD (index.toNat % scratchpd.length) nullHash

theorem val_getScratchpadPatch_of_le {g i : ℕ} (l : List Hash) (h : g ≤ i) :
    val (getScratchpadPatch g l ∅) i = 0 := by
  unfold getScratchpadPatch
  split_ifs with hg
  · simp
  · rw [val_collect, val_empty, total_eq_zero]
    · simp
    · intro v _
      have : rndUpdInd g v < g := Nat.mod_lt _ (by omega)
      omega

theorem pushBlockScratchpadData_eq (E : Env) (b : Block) (s : List Hash) :
    pushBlockScratchpadData E b s =
      apply (getScratchpadPatch s.length (blockAddendum E b) ∅) s ++ blockAddendum E b :=
  apply_append _ _ fun _ h => val_getScratchpadPatch_of_le _ h

@[simp] theorem pushBlockScratchpadData_length (E : Env) (b : Block) (s : List Hash) :
    (pushBlockScratchpadData E b s).length = s.length + (blockAddendum E b).length := by
  rw [pushBlockScratchpadData_eq, List.length_append, apply_length]

theorem popBlockScratchpadData_push (E : Env) (b : Block) (s : List Hash)
    (h : (getBlockScratchpadAddendum E b).1 = true) :
    popBlockScratchpadData E b (pushBlockScratchpadData E b s) = some s := by
  have hrest : (pushBlockScratchpadData E b s).length - (getBlockScratchpadAddendum E b).2.length =
      s.length := by
    rw [pushBlockScratchpadData_length]
    exact Nat.add_sub_cancel _ _
  simp only [popBlockScratchpadData, h, if_true, hrest]
  congr 1
  have happ := apply_append (p := getScratchpadPatch s.length (blockAddendum E b) ∅)
    (apply (getScratchpadPatch s.length (blockAddendum E b) ∅) s) (blockAddendum E b)
    (fun i hi => val_getScratchpadPatch_of_le _ (by simpa using hi))
  rw [pushBlockScratchpadData_eq]
  change List.take _ (apply (getScratchpadPatch s.length (blockAddendum E b) ∅) _) = s
  rw [happ, apply_apply, List.take_left]

theorem popBlockScratchpadData_eq_none (E : Env) (b : Block) (s : List Hash)
    (h : (getBlockScratchpadAddendum E b).1 = false) : popBlockScratchpadData E b s = none := by
  simp [popBlockScratchpadData, h]

/-- The addendum is readable exactly when the extra parses and every output is `txout_to_key`. -/
theorem addendumOuts_fst (E : Env) (p : Hash) (l : List TxOut) :
    (addendumOuts E p l).1 = true ↔ ∀ o ∈ l, ∃ k, o.target = .toKey k := by
  induction l with
  | nil => simp [addendumOuts]
  | cons o l ih =>
    cases ho : o.target with
    | toKey k => simp [addendumOuts, ho, ih]
    | toScript s => simp [addendumOuts, ho]
    | toScripthash s => simp [addendumOuts, ho]

end Boolberry
