import Boolberry.KeccakSponge

/-!
# Both hashes are one

The unrolled hash of miners is the hash that validates blocks, for every blob and
every scratchpad that is not empty.
-/

namespace Boolberry
namespace WildKeccak

/-- A rotation joins two parts without common bits, so it may be an `or` or an `xor`. -/
theorem rol64_eq (a : UInt64) {n : UInt64} (h : 0 < n.toNat ∧ n.toNat < 64) :
    rol64 a n = rotl64 a n := by
  have hleft : (n.toBitVec % 64).toNat = n.toNat := by
    simpa using Nat.mod_eq_of_lt h.2
  have hright : ((64 - n).toBitVec % 64).toNat = 64 - n.toNat := by
    have hsub : (64 - n).toNat = 64 - n.toNat :=
      UInt64.toNat_sub_of_le _ _ (UInt64.le_iff_toNat_le.mpr (by simpa using h.2.le))
    rw [BitVec.toNat_umod, UInt64.toNat_toBitVec, hsub]
    exact Nat.mod_eq_of_lt (by simp; omega)
  apply UInt64.toBitVec_inj.mp
  rw [rol64, rotl64, UInt64.toBitVec_xor, UInt64.toBitVec_or, UInt64.toBitVec_shiftLeft,
    UInt64.toBitVec_shiftRight, BitVec.shiftLeft_eq', BitVec.ushiftRight_eq', hleft, hright]
  apply BitVec.eq_of_getLsbD_eq
  intro i hi
  rw [BitVec.getLsbD_xor, BitVec.getLsbD_or, BitVec.getLsbD_shiftLeft, BitVec.getLsbD_ushiftRight]
  by_cases hlt : i < n.toNat
  · simp [hlt]
  · -- beyond the last bit
    rw [BitVec.getLsbD_of_ge a.toBitVec (64 - n.toNat + i) (by omega), Bool.xor_false, Bool.or_false]
theorem rhoPi_eq (st : Words) : rhoPi st = ![st 0, rotl64 (st 6) 44, rotl64 (st 12) 43,
    rotl64 (st 18) 21, rotl64 (st 24) 14, rotl64 (st 3) 28, rotl64 (st 9) 20, rotl64 (st 10) 3,
    rotl64 (st 16) 45, rotl64 (st 22) 61, rotl64 (st 1) 1, rotl64 (st 7) 6, rotl64 (st 13) 25,
    rotl64 (st 19) 8, rotl64 (st 20) 18, rotl64 (st 4) 27, rotl64 (st 5) 36, rotl64 (st 11) 10,
    rotl64 (st 17) 15, rotl64 (st 23) 56, rotl64 (st 2) 62, rotl64 (st 8) 55, rotl64 (st 14) 39,
    rotl64 (st 15) 41, rotl64 (st 21) 2] := by
  funext k
  fin_cases k <;> rfl

/-- The lanes after the theta step. -/
def thetaLanes (X : Lanes) : Lanes :=
  let C := prepareWildTheta X
  let Da := C.u ^^^ rotl64 C.e 1
  let De := C.a ^^^ rotl64 C.i 1
  let Di := C.e ^^^ rotl64 C.o 1
  let Do := C.i ^^^ rotl64 C.u 1
  let Du := C.o ^^^ rotl64 C.a 1
  { ba := X.ba ^^^ Da
    be := X.be ^^^ De
    bi := X.bi ^^^ Di
    bo := X.bo ^^^ Do
    bu := X.bu ^^^ Du
    ga := X.ga ^^^ Da
    ge := X.ge ^^^ De
    gi := X.gi ^^^ Di
    go := X.go ^^^ Do
    gu := X.gu ^^^ Du
    ka := X.ka ^^^ Da
    ke := X.ke ^^^ De
    ki := X.ki ^^^ Di
    ko := X.ko ^^^ Do
    ku := X.ku ^^^ Du
    ma := X.ma ^^^ Da
    me := X.me ^^^ De
    mi := X.mi ^^^ Di
    mo := X.mo ^^^ Do
    mu := X.mu ^^^ Du
    sa := X.sa ^^^ Da
    se := X.se ^^^ De
    si := X.si ^^^ Di
    so := X.so ^^^ Do
    su := X.su ^^^ Du }

theorem theta_eq (X : Lanes) : theta X.words = (thetaLanes X).words := by
  funext k
  fin_cases k <;> rfl

theorem chi_iota_eq (B : Words) :
    iota 0 (chi B) = ![B 0 ^^^ (~~~B 1 &&& B 2) ^^^ keccakfRndc.getD 0 0,
      B 1 ^^^ (~~~B 2 &&& B 3), B 2 ^^^ (~~~B 3 &&& B 4), B 3 ^^^ (~~~B 4 &&& B 0),
      B 4 ^^^ (~~~B 0 &&& B 1), B 5 ^^^ (~~~B 6 &&& B 7), B 6 ^^^ (~~~B 7 &&& B 8),
      B 7 ^^^ (~~~B 8 &&& B 9), B 8 ^^^ (~~~B 9 &&& B 5), B 9 ^^^ (~~~B 5 &&& B 6),
      B 10 ^^^ (~~~B 11 &&& B 12), B 11 ^^^ (~~~B 12 &&& B 13), B 12 ^^^ (~~~B 13 &&& B 14),
      B 13 ^^^ (~~~B 14 &&& B 10), B 14 ^^^ (~~~B 10 &&& B 11), B 15 ^^^ (~~~B 16 &&& B 17),
      B 16 ^^^ (~~~B 17 &&& B 18), B 17 ^^^ (~~~B 18 &&& B 19), B 18 ^^^ (~~~B 19 &&& B 15),
      B 19 ^^^ (~~~B 15 &&& B 16), B 20 ^^^ (~~~B 21 &&& B 22), B 21 ^^^ (~~~B 22 &&& B 23),
      B 22 ^^^ (~~~B 23 &&& B 24), B 23 ^^^ (~~~B 24 &&& B 20), B 24 ^^^ (~~~B 20 &&& B 21)] := by
  funext k
  fin_cases k <;> rfl

theorem get_ofFn (f : Words) : (Vector.ofFn f).get = f := by
  funext k
  exact Vector.getElem_ofFn ..

theorem round_eq (X : Lanes) :
    keccakf (copyToState X) 1 = copyToState (thetaRhoPiChiIota 0 (prepareWildTheta X) X) := by
  have hround : keccakf (copyToState X) 1 =
      Vector.ofFn (iota 0 (chi (rhoPi (theta (copyToState X).get)))) := rfl
  rw [hround, copyToState, get_ofFn, theta_eq, rhoPi_eq, chi_iota_eq, copyToState]
  congr 1
  simp (disch := decide) only [thetaRhoPiChiIota, rol64_eq]
  rfl

theorem hashWord_xorPod (a b : Hash) (i : ℕ) :
    hashWord (xorPod a b) i = hashWord a i ^^^ hashWord b i := by
  rw [hashWord, xorPod, BitVec.extractLsb'_xor, UInt64.ofBitVec_xor]
  rfl

section Rounds
variable {scratchpad : List Hash} {height : ℕ}

theorem scratchpadWords_addr (x : UInt64) {off : ℕ} (hoff : off < 4) :
    scratchpadWords scratchpad (scratchPadAddr scratchpad.length x + off) =
      hashWord (scratchpadCell scratchpad x) off := by
  have hdiv : (scratchPadAddr scratchpad.length x + off) / 4 = x.toNat % scratchpad.length := by
    rw [scratchPadAddr, Nat.shiftLeft_eq]
    omega
  have hmod : (scratchPadAddr scratchpad.length x + off) % 4 = off := by
    rw [scratchPadAddr, Nat.shiftLeft_eq]
    omega
  rw [scratchpadWords, hdiv, hmod, scratchpadCell]

theorem readScratchPadData_eq (A B C D : UInt64) {off : ℕ} (hoff : off < 4) :
    readScratchPadData (scratchpadWords scratchpad) scratchpad.length A B C D off =
      hashWord (xorPod (scratchpadCell scratchpad A) (xorPod (scratchpadCell scratchpad B)
        (xorPod (scratchpadCell scratchpad C) (scratchpadCell scratchpad D)))) off := by
  rw [readScratchPadData, scratchpadWords_addr A hoff, scratchpadWords_addr B hoff,
    scratchpadWords_addr C hoff, scratchpadWords_addr D hoff, hashWord_xorPod, hashWord_xorPod,
    hashWord_xorPod, UInt64.xor_assoc, UInt64.xor_assoc]

/-- Mixing in block by block is mixing in at once: no block reads a lane of another. -/
theorem mix_eq (hh : height ≠ 0) (X : Lanes) :
    (Vector.ofFn fun k : Fin 25 => if h : k.val < 24 then (copyToState X).get k ^^^
        mixScratchpad height (scratchpadCell scratchpad) (copyToState X) ⟨k, h⟩
      else (copyToState X).get k) =
      copyToState (updateWildToState (scratchpadWords scratchpad) scratchpad.length X) := by
  refine congrArg Vector.ofFn (funext fun k => ?_)
  simp (disch := decide) only [updateWildToState, updateWildStateBlock, readScratchPadData_eq,
    mixScratchpad, if_neg hh, copyToState, get_ofFn]
  fin_cases k <;> rfl

theorem mixedRound_eq (hh : height ≠ 0) (X : Lanes) {ll : ℕ} (hll : ll ≠ 0) :
    mixedRound (mixScratchpad height (scratchpadCell scratchpad)) (copyToState X) ll =
      copyToState (wildRound (scratchpadWords scratchpad) scratchpad.length X) := by
  rw [mixedRound, if_pos hll, wildRound, ← round_eq, ← mix_eq hh]

theorem mixedRounds_eq (hh : height ≠ 0) {l : List ℕ} (hl : ∀ ll ∈ l, ll ≠ 0) (X : Lanes) :
    l.foldl (mixedRound (mixScratchpad height (scratchpadCell scratchpad))) (copyToState X) =
      copyToState ((wildRound (scratchpadWords scratchpad) scratchpad.length)^[l.length] X) := by
  induction l generalizing X with
  | nil => rfl
  | cons ll l ih =>
    rw [List.foldl_cons, mixedRound_eq hh X (hl ll List.mem_cons_self),
      ih fun x hx => hl x (List.mem_cons_of_mem _ hx)]
    rfl

theorem copyFromStateAndXor1088bits_eq (st : StateTM) (input : ℕ → UInt64) :
    copyToState (copyFromStateAndXor1088bits st input) =
      Vector.ofFn fun k => if k.val < rsiz / 8 then st.get k ^^^ input k else st.get k := by
  rw [copyToState]
  congr 1
  funext k
  fin_cases k <;> rfl

theorem keccakAbsorb1088bits_eq (scratchpad : List Hash) (hh : height ≠ 0) (st : StateTM) (data : Blob) :
    keccakAbsorb1088bits (scratchpadWords scratchpad) (scratchpad.length * 4) st data =
      absorbBlock (mixScratchpad height (scratchpadCell scratchpad)) st data := by
  have hsize : (scratchpad.length * 4) >>> 2 = scratchpad.length := by
    rw [Nat.shiftRight_eq_div_pow]
    omega
  have hrange : List.range KECCAK_ROUNDS = 0 :: List.range' 1 23 := by decide
  rw [absorbBlock, ← copyFromStateAndXor1088bits_eq, hrange, List.foldl_cons, keccakAbsorb1088bits,
    permutationAfterXoring1088bits, hsize]
  -- the first round has no mix-in
  rw [show ∀ X, mixedRound (mixScratchpad height (scratchpadCell scratchpad)) (copyToState X) 0 =
    copyToState (thetaRhoPiChiIota 0 (prepareWildTheta X) X) from fun X => round_eq X,
    mixedRounds_eq hh (by decide)]
  rfl

end Rounds

theorem wordAt_append {l tail : Blob} {i : ℕ} (h : 8 * i + 8 ≤ l.length) :
    wordAt (l ++ tail) i = wordAt l i := by
  have hlen : 8 ≤ (l.drop (8 * i)).length := by
    rw [List.length_drop]
    omega
  rw [wordAt, wordAt, List.drop_append_of_le_length (by omega), List.take_append_of_le_length hlen]

theorem absorbBlock_append (cb : StateTM → MixinT) (st : StateTM) {l : Blob} (tail : Blob)
    (h : l.length = rsiz) : absorbBlock cb st (l ++ tail) = absorbBlock cb st l := by
  unfold absorbBlock
  congr 2
  funext k
  by_cases hk : k.val < rsiz / 8
  · rw [if_pos hk, if_pos hk, wordAt_append]
    rw [h]
    have : rsiz = 136 := rfl
    omega
  · rw [if_neg hk, if_neg hk]

theorem modify_append {α : Type} {l tail : List α} {f : α → α} {i : ℕ} (h : i < l.length) :
    (l ++ tail).modify i f = l.modify i f ++ tail := by
  induction l generalizing i with
  | nil => simp at h
  | cons a l ih =>
    cases i with
    | zero => rfl
    | succ i => 
      rw [List.cons_append, List.modify_succ_cons, List.modify_succ_cons, ih (by simpa using h)]
      rfl

theorem modify_length {α : Type} (l tail : List α) (a : α) (f : α → α) :
    (l ++ a :: tail).modify l.length f = l ++ f a :: tail := by
  induction l with
  | nil => rfl
  | cons b l ih => 
    rw [List.cons_append, List.length_cons, List.modify_succ_cons, ih]
    rfl

theorem padded_length {rest : Blob} (h : rest.length < rsiz) : (padded rest).length = rsiz := by
  have : rsiz = 136 := rfl
  simp only [padded, List.length_modify, List.length_append, List.length_cons, List.length_replicate]
  omega

/-- The queue of a sponge that holds the bytes `rest`. -/
def queueOf (rest : Blob) : Blob := rest ++ List.replicate (192 - rest.length) 0

theorem queue_padded {rest : Blob} (h : rest.length < rsiz) :
    ((memset (queueOf rest) rest.length 0 (136 - rest.length)).modify rest.length (· ||| 1)).modify 135
      (· ||| 0x80) = padded rest ++ List.replicate 56 0 := by
  have hr : rsiz = 136 := rfl
  have htail : (List.replicate (192 - rest.length) (0 : UInt8)).drop (136 - rest.length) =
      List.replicate 56 0 := by
    rw [List.drop_replicate]
    congr 1
    omega
  have hmemset : memset (queueOf rest) rest.length 0 (136 - rest.length) =
      rest ++ 0 :: (List.replicate (135 - rest.length) 0 ++ List.replicate 56 0) := by
    rw [memset, queueOf, List.take_left, List.drop_append, List.drop_of_length_le (by omega),
      show rest.length + (136 - rest.length) - rest.length = 136 - rest.length by omega, htail,
      show 136 - rest.length = (135 - rest.length) + 1 by omega, List.replicate_succ]
    simp
  rw [hmemset, modify_length, ← List.cons_append, ← List.append_assoc, modify_append]
  · rw [padded, hr, show 136 - (rest.length + 1) = 135 - rest.length by omega]
    rfl
  · simp only [List.length_append, List.length_cons, List.length_replicate]
    omega

section Sponge
variable (pscratchpd : ℕ → UInt64) (sz : ℕ)

/-- The sponge after it has absorbed whole blocks into `st` and holds the bytes `rest`. -/
def holding (st : StateTM) (rest : Blob) : SpongeState :=
  { init256 with state := st, dataQueue := queueOf rest, bitsInQueue := rest.length * 8 }

theorem absorbPartial_eq (st : StateTM) (data : Blob) {j : ℕ} (hlt : data.length - j < 136) :
    absorbPartial pscratchpd sz data (data.length * 8) (j * 8) (holding st []) =
      (j * 8 + (data.length - j) * 8, holding st (data.drop j)) := by
  have hrate : rate = 1088 := rfl
  have hblock : (data.length * 8 - j * 8) % 2 ^ 32 = (data.length - j) * 8 := by omega
  have hfit : ¬rate < ((data.length - j) * 8 + (holding st []).bitsInQueue) % 2 ^ 32 := by
    simp only [holding, List.length_nil, Nat.zero_mul]
    omega
  have hnotfull : ¬(holding st []).bitsInQueue + (data.length - j) * 8 = rate := by
    simp only [holding, List.length_nil, Nat.zero_mul]
    omega
  unfold absorbPartial
  simp only [hblock, if_neg hfit, Nat.mul_mod_left, Nat.sub_zero, if_neg hnotfull, lt_irrefl, if_false,
    Nat.add_zero]
  congr 1
  have hcopy : memcpy (queueOf []) 0 data j (data.length - j) = queueOf (data.drop j) := by
    rw [memcpy, queueOf, queueOf, List.take_zero, List.nil_append, List.nil_append, Nat.zero_add,
      List.drop_replicate, List.length_nil, Nat.sub_zero, List.length_drop]
    congr 1
    exact List.take_of_length_le (by rw [List.length_drop])
  simp only [holding, List.length_nil, Nat.zero_mul, Nat.zero_div, Nat.mul_div_cancel _ (show 0 < 8 by decide),
    Nat.zero_add, hcopy, List.length_drop]

theorem absorbLoop_rest (st : StateTM) (data : Blob) {j : ℕ} (hj : j ≤ data.length)
    (hlt : data.length - j < 136) (turns : ℕ) (hturns : j < data.length → 0 < turns) :
    absorbLoop pscratchpd sz data (data.length * 8) (turns + 1) (j * 8) (holding st []) =
      some (holding st (data.drop j)) := by
  have hrate : rate = 1088 := rfl
  unfold absorbLoop
  by_cases hend : j = data.length
  · rw [if_neg (by omega), hend, List.drop_length]
  · obtain ⟨t, rfl⟩ : ∃ t, turns = t + 1 := ⟨turns - 1, by have := hturns (by omega); omega⟩
    rw [if_pos (by omega), if_neg (by omega), absorbPartial_eq pscratchpd sz st data hlt]
    simp only
    unfold absorbLoop
    rw [if_neg (by omega)]

theorem absorb_init256 (data : Blob) :
    absorb pscratchpd sz init256 data (data.length * 8) =
      some (0, holding
        (Blocks.foldCount (keccakAbsorb1088bits pscratchpd sz) 136 (data.length / 136) init256.state
          data).1
        (data.drop (data.length / 136 * 136))) := by
  have hrate : rate = 1088 := rfl
  have hinit : init256 = holding init256.state [] := rfl
  unfold absorb
  rw [if_neg (by decide), if_neg (by decide)]
  by_cases hwhole : 136 ≤ data.length
  · obtain ⟨turns, hturns⟩ : ∃ turns, data.length * 8 = turns + 1 := ⟨data.length * 8 - 1, by omega⟩
    have hblocks : (data.length * 8 - 0) / rate = data.length / 136 := by
      rw [hrate]
      omega
    have hnext : 0 + data.length / 136 * rate = data.length / 136 * 136 * 8 := by
      rw [hrate]
      omega
    unfold absorbLoop
    rw [if_pos (by omega), if_pos ⟨rfl, by omega, by omega⟩]
    simp only [hblocks, hnext]
    have hrest := absorbLoop_rest pscratchpd sz
      (Blocks.foldCount (keccakAbsorb1088bits pscratchpd sz) 136 (data.length / 136) init256.state
        data).1 data (show data.length / 136 * 136 ≤ data.length by omega) (by omega) turns (by omega)
    rw [← hturns] at hrest
    exact congrArg _ hrest
  · have hzero : data.length / 136 = 0 := by omega
    have hrest := absorbLoop_rest pscratchpd sz init256.state data (Nat.zero_le _) (by omega)
      (data.length * 8) (by omega)
    rw [hzero, Nat.zero_mul]
    rw [Nat.zero_mul] at hrest
    exact congrArg _ hrest

theorem pad_holding (st : StateTM) {rest : Blob} (h : rest.length < 136) :
    padAndSwitchToSqueezingPhase pscratchpd sz (holding st rest) =
      let state := keccakAbsorb1088bits pscratchpd sz st (padded rest ++ List.replicate 56 0)
      { holding st rest with
        state := state
        dataQueue := memcpy (padded rest ++ List.replicate 56 0) 0 (stateBytes state) 0 136
        bitsInQueue := 0
        bitsAvailableForSqueezing := rate
        squeezing := true } := by
  have hrate : rate = 1088 := rfl
  have hbits : (holding st rest).bitsInQueue = rest.length * 8 := rfl
  have hfull : ¬rest.length * 8 + 1 = rate := by omega
  have hused : (rest.length * 8 + 7) / 8 = rest.length := by omega
  have hpos : rest.length * 8 / 8 = rest.length := by omega
  have htop : UInt8.ofNat (1 <<< ((rate - 1) % 8)) = 0x80 := by decide
  have hqueue := queue_padded h
  unfold padAndSwitchToSqueezingPhase
  simp only [hbits, if_neg hfull, hused, hpos, htop, Nat.mul_mod_left, absorbQueue]
  rw [← hqueue]
  rfl

theorem stateBytes_length (st : StateTM) : (stateBytes st).length = 200 := by
  simp [stateBytes, podBytes, List.length_flatMap]

theorem squeezeLoop_eq {s : SpongeState} (hs : s.bitsAvailableForSqueezing = rate) (turns : ℕ)
    (output : Blob) :
    squeezeLoop 256 (turns + 2) 0 s output = some (memcpy output 0 s.dataQueue 0 32) := by
  have hrate : rate = 1088 := rfl
  have hempty : ¬s.bitsAvailableForSqueezing = 0 := by omega
  have hpart : min s.bitsAvailableForSqueezing (256 - 0) = 256 := by omega
  rw [squeezeLoop, if_pos (by decide)]
  simp only [if_neg hempty, hpart, Nat.zero_add]
  rw [squeezeLoop, if_neg (by decide), hs]
  rfl

theorem squeeze_holding (st : StateTM) {rest md : Blob} (h : rest.length < 136)
    (hmd : md.length = 32) :
    squeeze pscratchpd sz (holding st rest) md 256 =
      some ((stateBytes (keccakAbsorb1088bits pscratchpd sz st
        (padded rest ++ List.replicate 56 0))).take 32) := by
  have hout : ∀ queue state, memcpy md 0 (memcpy queue 0 (stateBytes state) 0 136) 0 32 =
      (stateBytes state).take 32 := by
    intro queue state
    have hlen : 32 ≤ ((stateBytes state).take 136).length := by
      rw [List.length_take, stateBytes_length]
      decide
    rw [memcpy, memcpy, List.drop_of_length_le (l := md) (by omega), List.take_zero, List.take_zero,
      List.nil_append, List.nil_append, List.append_nil, List.drop_zero, List.drop_zero,
      List.take_append_of_le_length hlen, List.take_take]
    rfl
  unfold squeeze
  rw [if_neg (show ¬(holding st rest).squeezing = true from Bool.false_ne_true), pad_holding pscratchpd sz st h]
  dsimp only
  rw [if_neg (by decide), squeezeLoop_eq rfl 255]
  exact congrArg some (hout _ _)

end Sponge

section Hashes
variable {height : ℕ}

theorem wildKeccak_length (cb : StateTM → MixinT) (inp : Blob) : (wildKeccak cb inp).length = 32 := by
  rw [wildKeccak, List.length_take, stateBytes_length]
  rfl

theorem hash256_eq (scratchpad : List Hash) (hh : height ≠ 0) (data : Blob) {md : Blob} (hmd : md.length = 32) :
    hash256 (scratchpadWords scratchpad) (scratchpad.length * 4) data (data.length * 8) md =
      some (wildKeccak (mixScratchpad height (scratchpadCell scratchpad)) data) := by
  have hblock := keccakAbsorb1088bits_eq scratchpad hh
  have hlast : (data.drop (data.length / 136 * 136)).length < 136 := by
    rw [List.length_drop]
    omega
  rw [hash256, update, if_pos (Nat.mul_mod_left _ _), absorb_init256]
  refine (squeeze_holding _ _ _ hlast hmd).trans ?_
  rw [hblock, absorbBlock_append _ _ _ (padded_length hlast), Blocks.foldCount_congr _ _ hblock,
    wildKeccak, Blocks.foldWhile_eq, Blocks.foldCount_snd]
  rfl

end Hashes

/-- Whatever is hashed, the unrolled hash of miners returns what block validation computes from a
scratchpad that is not empty at any height but that of the genesis block. -/
theorem getBlobLonghashOpt_eq (blob : Blob) (scratchpad : List Hash) (height : ℕ)
    (hs : scratchpad ≠ []) (hh : 1 ≤ height) :
    getBlobLonghashOpt blob scratchpad = some (getBlobLonghashScratchpad blob height scratchpad) := by
  have hne : height ≠ 0 := Nat.one_le_iff_ne_zero.mp hh
  have hnull : (hashBytes nullHash).length = 32 := by decide
  have hmd := wildKeccak_length (mixScratchpad height (scratchpadCell scratchpad)) blob
  have hdbl := hash256_eq scratchpad hne
    (wildKeccak (mixScratchpad height (scratchpadCell scratchpad)) blob) hmd
  rw [hmd] at hdbl
  rw [getBlobLonghashOpt, if_neg (fun h => hs (List.length_eq_zero_iff.mp h)), wildKeccakDblOpt,
    hash256_eq scratchpad hne blob hnull]
  exact congrArg (Option.map hashOfBytes) hdbl

theorem getBlobLonghashOpt_eq_short :
    getBlobLonghashOpt [1, 2, 3] [5, 7] = some (getBlobLonghashScratchpad [1, 2, 3] 1 [5, 7]) :=
  getBlobLonghashOpt_eq [1, 2, 3] [5, 7] 1 (List.cons_ne_nil _ _) (Nat.le_refl 1)

end WildKeccak
end Boolberry
