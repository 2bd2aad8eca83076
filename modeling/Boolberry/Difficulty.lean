import Boolberry.FormatUtils

/-!
# Difficulty

`difficulty.cpp`: the retarget rule and the proof-of-work comparison.
-/

namespace Boolberry

/-- `next_difficulty`, over the oldest `DIFFICULTY_WINDOW` entries of the window it is given. -/
def nextDifficulty (timestamps : List UInt64) (cumulativeDifficulties : List WideDifficulty) :
    WideDifficulty :=
  let timestamps := timestamps.take DIFFICULTY_WINDOW
  let cumulativeDifficulties := cumulativeDifficulties.take DIFFICULTY_WINDOW
  let length := timestamps.length
  if length ≤ 1 then 1
  else
    let sorted := timestamps.insertionSort (· ≤ ·)
    let kept := DIFFICULTY_WINDOW - 2 * DIFFICULTY_CUT
    let cutBegin := if length ≤ kept then 0 else (length - kept + 1) / 2
    let cutEnd := if length ≤ kept then length else cutBegin + kept
    let span := sorted.getD (cutEnd - 1) 0 - sorted.getD cutBegin 0
    let timeSpan := if span = 0 then 1 else span.toNat
    let totalWork := cumulativeDifficulties.getD (cutEnd - 1) 0 - cumulativeDifficulties.getD cutBegin 0
    let res := (totalWork.toNat * DIFFICULTY_TARGET + timeSpan - 1) / timeSpan
    if 2 ^ 128 - 1 < res then 0 else BitVec.ofNat 128 res

/-- Little-endian 64-bit word `i` of a hash. -/
def hashWord (h : Hash) (i : ℕ) : ℕ := h.toNat / 2 ^ (64 * i) % 2 ^ 64

def mulLow (a b : ℕ) : ℕ := a * b % 2 ^ 64
def mulHigh (a b : ℕ) : ℕ := a * b / 2 ^ 64

def cadd (a b : ℕ) : Bool := (a + b) % 2 ^ 64 < a
def cadc (a b : ℕ) (c : Bool) : Bool :=
  decide ((a + b) % 2 ^ 64 < a) || (c && (a + b) % 2 ^ 64 == 2 ^ 64 - 1)

/-- `check_hash`: word by word for a difficulty below `2 ^ 64 - 1`, in 512 bits above. -/
def checkHash (h : Hash) (difficulty : WideDifficulty) : Bool :=
  let d := difficulty.toNat
  if d < 2 ^ 64 - 1 then
    if mulHigh (hashWord h 3) d ≠ 0 then false
    else
      let top := mulLow (hashWord h 3) d
      let carry := cadd (mulHigh (hashWord h 0) d) (mulLow (hashWord h 1) d)
      let carry := cadc (mulHigh (hashWord h 1) d) (mulLow (hashWord h 2) d) carry
      let carry := cadc (mulHigh (hashWord h 2) d) top carry
      !carry
  else if 0 < hashWord h 3 then false
  else decide (h.toNat * d ≤ 2 ^ 256 - 1)

end Boolberry
