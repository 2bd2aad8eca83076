import Mathlib.Data.Fin.VecNotation
import Mathlib.Tactic.FinCases
import Boolberry.Lib.Blocks
import Boolberry.FormatUtils

/-!
# The memory-hard hash

`wild_keccak.h` hashes with a sponge whose permutation runs one round at a time;
before each round but the first of a block a callback mixes scratchpad cells into
the state. Both sides are here: this sponge, and below it the unrolled one that
miners use, with its two sets of lanes and the mix-in woven into the rounds.
-/

namespace Boolberry
namespace WildKeccak

abbrev StateTM := Vector UInt64 25

instance neZero_twentyFive : NeZero 25 := ⟨by decide⟩

/-- The entries of a state. -/
abbrev Words := Fin 25 → UInt64

abbrev MixinT := Fin 24 → UInt64

def KECCAK_ROUNDS : ℕ := 24
def HASH_SIZE : ℕ := 32

/-- `((uint64_t*)in)[i]`. -/
def wordAt (inp : Blob) (i : ℕ) : UInt64 := UInt64.ofNat (podOfBytes ((inp.drop (8 * i)).take 8))

/-- `((uint64_t*)&h)[i]`. -/
def hashWord (h : Hash) (i : ℕ) : UInt64 := UInt64.ofBitVec (h.extractLsb' (64 * i) 64)

/-- The bytes of the state. -/
def stateBytes (st : StateTM) : Blob := st.toList.flatMap fun w => podBytes 8 w.toNat

/-- `*(crypto::hash*)md`. -/
def hashOfBytes (md : Blob) : Hash := BitVec.ofNat 256 (podOfBytes md)

def rotl64 (x y : UInt64) : UInt64 := (x <<< y) ||| (x >>> (64 - y))

def keccakfRndc : List UInt64 := [
  0x0000000000000001, 0x0000000000008082, 0x800000000000808a, 0x8000000080008000,
  0x000000000000808b, 0x0000000080000001, 0x8000000080008081, 0x8000000000008009,
  0x000000000000008a, 0x0000000000000088, 0x0000000080008009, 0x000000008000000a,
  0x000000008000808b, 0x800000000000008b, 0x8000000000008089, 0x8000000000008003,
  0x8000000000008002, 0x8000000000000080, 0x000000000000800a, 0x800000008000000a,
  0x8000000080008081, 0x8000000000008080, 0x0000000080000001, 0x8000000080008008]

def keccakfRotc : List UInt64 :=
  [1, 3, 6, 10, 15, 21, 28, 36, 45, 55, 2, 14, 27, 41, 56, 8, 25, 43, 62, 18, 39, 61, 20, 44]

def keccakfPiln : List (Fin 25) :=
  [10, 7, 11, 17, 18, 3, 5, 16, 8, 21, 24, 4, 15, 23, 19, 13, 12, 2, 20, 14, 22, 9, 6, 1]

/-- The theta step of `mul_f`: two of the xors are products. -/
def theta (st : Words) : Words :=
  let bc : Words := fun i => st i ^^^ st (i + 5) ^^^ st (i + 10) * st (i + 15) * st (i + 20)
  let t : Words := fun i => bc ((i + 4) % 5) ^^^ rotl64 (bc ((i + 1) % 5)) 1
  fun k => st k ^^^ t (k % 5)

/-- One turn of the rho-pi loop: the state, and the lane `t` that moves on. -/
def rhoPiStep (p : Words × UInt64) (c : Fin 25 × UInt64) : Words × UInt64 :=
  (Function.update p.1 c.1 (rotl64 p.2 c.2), p.1 c.1)

def rhoPi (st : Words) : Words :=
  ((keccakfPiln.zip keccakfRotc).foldl rhoPiStep (st, st 1)).1

def chi (st : Words) : Words := fun k =>
  let j := k - k % 5
  st k ^^^ (~~~st (j + (k % 5 + 1) % 5) &&& st (j + (k % 5 + 2) % 5))

def iota (round : ℕ) (st : Words) : Words :=
  Function.update st 0 (st 0 ^^^ keccakfRndc.getD round 0)

def keccakf (st : StateTM) (rounds : ℕ) : StateTM :=
  (List.range rounds).foldl
    (fun st round => Vector.ofFn (iota round (chi (rhoPi (theta st.get))))) st

/-- The bytes of a block for a result of `HASH_SIZE` bytes. -/
def rsiz : ℕ := 200 - 2 * HASH_SIZE

theorem rsiz_pos : 0 < rsiz := by decide

section Sponge
variable (cb : StateTM → MixinT)

/-- Round `ll` of a block. -/
def mixedRound (st : StateTM) (ll : ℕ) : StateTM :=
  keccakf (if ll ≠ 0 then
    let mixIn := cb st
    Vector.ofFn fun k => if h : k.val < 24 then st.get k ^^^ mixIn ⟨k, h⟩ else st.get k
    else st) 1

/-- A block of `rsiz` bytes is xored into the state, and the rounds run. -/
def absorbBlock (st : StateTM) (inp : Blob) : StateTM :=
  (List.range KECCAK_ROUNDS).foldl (mixedRound cb)
    (Vector.ofFn fun k => if k.val < rsiz / 8 then st.get k ^^^ wordAt inp k else st.get k)

/-- The last block: what is left of the input, a one behind it, and the top bit set. -/
def padded (inp : Blob) : Blob :=
  (inp ++ 1 :: List.replicate (rsiz - (inp.length + 1)) 0).modify (rsiz - 1) (· ||| 0x80)

def wildKeccak (inp : Blob) : Blob :=
  let r := Blocks.foldWhile (absorbBlock cb) rsiz rsiz_pos (Vector.replicate 25 0) inp
  (stateBytes (absorbBlock cb r.1 (padded r.2))).take HASH_SIZE

def wildKeccakDbl (inp : Blob) : Blob := wildKeccak cb (wildKeccak cb inp)

end Sponge

/-- `xor_pod` of two hashes: word by word. -/
def xorPod (a b : Hash) : Hash := a ^^^ b

/-- The callback of `get_blob_longhash`. -/
def mixScratchpad (height : ℕ) (accessor : UInt64 → Hash) (st : StateTM) : MixinT := fun k =>
  if height = 0 then 0
  else
    let i : Fin 25 := Fin.ofNat 25 (4 * (k / 4))
    hashWord (xorPod (accessor (st.get i)) (xorPod (accessor (st.get (i + 1)))
      (xorPod (accessor (st.get (i + 2))) (accessor (st.get (i + 3)))))) (k % 4)

/-- `get_blob_longhash` with an accessor. -/
def getBlobLonghash (bd : Blob) (height : ℕ) (accessor : UInt64 → Hash) : Hash :=
  hashOfBytes (wildKeccakDbl (mixScratchpad height accessor) bd)

/-- `scratchpad[index % scratchpad.size()]`. -/
def scratchpadCell (scratchpad : List Hash) (index : UInt64) : Hash :=
  scratchpad.getD (index.toNat % scratchpad.length) nullHash

/-- `get_blob_longhash` with a scratchpad. -/
def getBlobLonghashScratchpad (bd : Blob) (height : ℕ) (scratchpad : List Hash) : Hash :=
  getBlobLonghash bd height (scratchpadCell scratchpad)

end WildKeccak
end Boolberry
