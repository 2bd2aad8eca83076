import Boolberry.WildKeccak

/-!
# The unrolled memory-hard hash

`wild_keccak_dbl_opt` goes through the NIST interface of the reference sponge,
for a hash of 256 bits, whose permutation is unrolled: 24 rounds in turn from the
lanes `A` to the lanes `E` and back, with the scratchpad mixed in block by block.
-/

namespace Boolberry
namespace WildKeccak

structure Lanes where
  (ba be bi bo bu : UInt64)
  (ga ge gi go gu : UInt64)
  (ka ke ki ko ku : UInt64)
  (ma me mi mo mu : UInt64)
  (sa se si so su : UInt64)

/-- The variables `Ca`, `Ce`, `Ci`, `Co`, `Cu`. -/
structure Sheets where
  (a e i o u : UInt64)

def rol64 (a offset : UInt64) : UInt64 := (a <<< offset) ^^^ (a >>> (64 - offset))

def keccakF1600RoundConstants : List UInt64 := [
  0x0000000000000001, 0x0000000000008082, 0x800000000000808a, 0x8000000080008000,
  0x000000000000808b, 0x0000000080000001, 0x8000000080008081, 0x8000000000008009,
  0x000000000000008a, 0x0000000000000088, 0x0000000080008009, 0x000000008000000a,
  0x000000008000808b, 0x800000000000008b, 0x8000000000008089, 0x8000000000008003,
  0x8000000000008002, 0x8000000000000080, 0x000000000000800a, 0x800000008000000a,
  0x8000000080008081, 0x8000000000008080, 0x0000000080000001, 0x8000000080008008]

def prepareTheta (A : Lanes) : Sheets where
  a := A.ba ^^^ A.ga ^^^ A.ka ^^^ A.ma ^^^ A.sa
  e := A.be ^^^ A.ge ^^^ A.ke ^^^ A.me ^^^ A.se
  i := A.bi ^^^ A.gi ^^^ A.ki ^^^ A.mi ^^^ A.si
  o := A.bo ^^^ A.go ^^^ A.ko ^^^ A.mo ^^^ A.so
  u := A.bu ^^^ A.gu ^^^ A.ku ^^^ A.mu ^^^ A.su

def prepareWildTheta (X : Lanes) : Sheets where
  a := X.ba ^^^ X.ga ^^^ X.ka * X.ma * X.sa
  e := X.be ^^^ X.ge ^^^ X.ke * X.me * X.se
  i := X.bi ^^^ X.gi ^^^ X.ki * X.mi * X.si
  o := X.bo ^^^ X.go ^^^ X.ko * X.mo * X.so
  u := X.bu ^^^ X.gu ^^^ X.ku * X.mu * X.su

/-- The lanes `E`; those of `A`, which the macro updates too, are not read again. -/
def thetaRhoPiChiIota (i : ℕ) (C : Sheets) (A : Lanes) : Lanes :=
  let Da := C.u ^^^ rol64 C.e 1
  let De := C.a ^^^ rol64 C.i 1
  let Di := C.e ^^^ rol64 C.o 1
  let Do := C.i ^^^ rol64 C.u 1
  let Du := C.o ^^^ rol64 C.a 1
  let Bba := A.ba ^^^ Da
  let Bbe := rol64 (A.ge ^^^ De) 44
  let Bbi := rol64 (A.ki ^^^ Di) 43
  let Bbo := rol64 (A.mo ^^^ Do) 21
  let Bbu := rol64 (A.su ^^^ Du) 14
  let Bga := rol64 (A.bo ^^^ Do) 28
  let Bge := rol64 (A.gu ^^^ Du) 20
  let Bgi := rol64 (A.ka ^^^ Da) 3
  let Bgo := rol64 (A.me ^^^ De) 45
  let Bgu := rol64 (A.si ^^^ Di) 61
  let Bka := rol64 (A.be ^^^ De) 1
  let Bke := rol64 (A.gi ^^^ Di) 6
  let Bki := rol64 (A.ko ^^^ Do) 25
  let Bko := rol64 (A.mu ^^^ Du) 8
  let Bku := rol64 (A.sa ^^^ Da) 18
  let Bma := rol64 (A.bu ^^^ Du) 27
  let Bme := rol64 (A.ga ^^^ Da) 36
  let Bmi := rol64 (A.ke ^^^ De) 10
  let Bmo := rol64 (A.mi ^^^ Di) 15
  let Bmu := rol64 (A.so ^^^ Do) 56
  let Bsa := rol64 (A.bi ^^^ Di) 62
  let Bse := rol64 (A.go ^^^ Do) 55
  let Bsi := rol64 (A.ku ^^^ Du) 39
  let Bso := rol64 (A.ma ^^^ Da) 41
  let Bsu := rol64 (A.se ^^^ De) 2
  { ba := Bba ^^^ (~~~Bbe &&& Bbi) ^^^ keccakF1600RoundConstants.getD i 0
    be := Bbe ^^^ (~~~Bbi &&& Bbo)
    bi := Bbi ^^^ (~~~Bbo &&& Bbu)
    bo := Bbo ^^^ (~~~Bbu &&& Bba)
    bu := Bbu ^^^ (~~~Bba &&& Bbe)
    ga := Bga ^^^ (~~~Bge &&& Bgi)
    ge := Bge ^^^ (~~~Bgi &&& Bgo)
    gi := Bgi ^^^ (~~~Bgo &&& Bgu)
    go := Bgo ^^^ (~~~Bgu &&& Bga)
    gu := Bgu ^^^ (~~~Bga &&& Bge)
    ka := Bka ^^^ (~~~Bke &&& Bki)
    ke := Bke ^^^ (~~~Bki &&& Bko)
    ki := Bki ^^^ (~~~Bko &&& Bku)
    ko := Bko ^^^ (~~~Bku &&& Bka)
    ku := Bku ^^^ (~~~Bka &&& Bke)
    ma := Bma ^^^ (~~~Bme &&& Bmi)
    me := Bme ^^^ (~~~Bmi &&& Bmo)
    mi := Bmi ^^^ (~~~Bmo &&& Bmu)
    mo := Bmo ^^^ (~~~Bmu &&& Bma)
    mu := Bmu ^^^ (~~~Bma &&& Bme)
    sa := Bsa ^^^ (~~~Bse &&& Bsi)
    se := Bse ^^^ (~~~Bsi &&& Bso)
    si := Bsi ^^^ (~~~Bso &&& Bsu)
    so := Bso ^^^ (~~~Bsu &&& Bsa)
    su := Bsu ^^^ (~~~Bsa &&& Bse) }

def copyFromState (state : StateTM) : Lanes where
  ba := state.get 0
  be := state.get 1
  bi := state.get 2
  bo := state.get 3
  bu := state.get 4
  ga := state.get 5
  ge := state.get 6
  gi := state.get 7
  go := state.get 8
  gu := state.get 9
  ka := state.get 10
  ke := state.get 11
  ki := state.get 12
  ko := state.get 13
  ku := state.get 14
  ma := state.get 15
  me := state.get 16
  mi := state.get 17
  mo := state.get 18
  mu := state.get 19
  sa := state.get 20
  se := state.get 21
  si := state.get 22
  so := state.get 23
  su := state.get 24

def copyFromStateAndXor1088bits (state : StateTM) (input : ℕ → UInt64) : Lanes where
  ba := state.get 0 ^^^ input 0
  be := state.get 1 ^^^ input 1
  bi := state.get 2 ^^^ input 2
  bo := state.get 3 ^^^ input 3
  bu := state.get 4 ^^^ input 4
  ga := state.get 5 ^^^ input 5
  ge := state.get 6 ^^^ input 6
  gi := state.get 7 ^^^ input 7
  go := state.get 8 ^^^ input 8
  gu := state.get 9 ^^^ input 9
  ka := state.get 10 ^^^ input 10
  ke := state.get 11 ^^^ input 11
  ki := state.get 12 ^^^ input 12
  ko := state.get 13 ^^^ input 13
  ku := state.get 14 ^^^ input 14
  ma := state.get 15 ^^^ input 15
  me := state.get 16 ^^^ input 16
  mi := state.get 17
  mo := state.get 18
  mu := state.get 19
  sa := state.get 20
  se := state.get 21
  si := state.get 22
  so := state.get 23
  su := state.get 24

/-- The lanes in the order of the state. -/
def Lanes.words (X : Lanes) : Words :=
  ![X.ba, X.be, X.bi, X.bo, X.bu, X.ga, X.ge, X.gi, X.go, X.gu, X.ka, X.ke, X.ki, X.ko, X.ku,
    X.ma, X.me, X.mi, X.mo, X.mu, X.sa, X.se, X.si, X.so, X.su]

def copyToState (X : Lanes) : StateTM := Vector.ofFn X.words

section Wild
variable (pscratchpd : ℕ → UInt64) (scrHashesSize : ℕ)

/-- `prepareScratchPadAddr`. -/
def scratchPadAddr (x : UInt64) : ℕ := (x.toNat % scrHashesSize) <<< 2

/-- `readScratchPadData` at the addresses of four lanes. -/
def readScratchPadData (A B C D : UInt64) (off : ℕ) : UInt64 :=
  pscratchpd (scratchPadAddr scrHashesSize A + off) ^^^
    pscratchpd (scratchPadAddr scrHashesSize B + off) ^^^
    pscratchpd (scratchPadAddr scrHashesSize C + off) ^^^
    pscratchpd (scratchPadAddr scrHashesSize D + off)

/-- The addresses are taken from all four lanes before the first one is updated. -/
def updateWildStateBlock (A B C D : UInt64) : UInt64 × UInt64 × UInt64 × UInt64 :=
  let data := readScratchPadData pscratchpd scrHashesSize A B C D
  (A ^^^ data 0, B ^^^ data 1, C ^^^ data 2, D ^^^ data 3)

def updateWildToState (X : Lanes) : Lanes :=
  let r := updateWildStateBlock pscratchpd scrHashesSize X.ba X.be X.bi X.bo
  let X := { X with ba := r.1, be := r.2.1, bi := r.2.2.1, bo := r.2.2.2 }
  let r := updateWildStateBlock pscratchpd scrHashesSize X.bu X.ga X.ge X.gi
  let X := { X with bu := r.1, ga := r.2.1, ge := r.2.2.1, gi := r.2.2.2 }
  let r := updateWildStateBlock pscratchpd scrHashesSize X.go X.gu X.ka X.ke
  let X := { X with go := r.1, gu := r.2.1, ka := r.2.2.1, ke := r.2.2.2 }
  let r := updateWildStateBlock pscratchpd scrHashesSize X.ki X.ko X.ku X.ma
  let X := { X with ki := r.1, ko := r.2.1, ku := r.2.2.1, ma := r.2.2.2 }
  let r := updateWildStateBlock pscratchpd scrHashesSize X.me X.mi X.mo X.mu
  let X := { X with me := r.1, mi := r.2.1, mo := r.2.2.1, mu := r.2.2.2 }
  let r := updateWildStateBlock pscratchpd scrHashesSize X.sa X.se X.si X.so
  { X with sa := r.1, se := r.2.1, si := r.2.2.1, so := r.2.2.2 }

/-- `wild_round(S, T)`: the lanes `T`. -/
def wildRound (S : Lanes) : Lanes :=
  let S := updateWildToState pscratchpd scrHashesSize S
  thetaRhoPiChiIota 0 (prepareWildTheta S) S

def wildRounds (A : Lanes) : Lanes :=
  let E := thetaRhoPiChiIota 0 (prepareWildTheta A) A
  let A := wildRound pscratchpd scrHashesSize E
  let E := wildRound pscratchpd scrHashesSize A
  let A := wildRound pscratchpd scrHashesSize E
  let E := wildRound pscratchpd scrHashesSize A
  let A := wildRound pscratchpd scrHashesSize E
  let E := wildRound pscratchpd scrHashesSize A
  let A := wildRound pscratchpd scrHashesSize E
  let E := wildRound pscratchpd scrHashesSize A
  let A := wildRound pscratchpd scrHashesSize E
  let E := wildRound pscratchpd scrHashesSize A
  let A := wildRound pscratchpd scrHashesSize E
  let E := wildRound pscratchpd scrHashesSize A
  let A := wildRound pscratchpd scrHashesSize E
  let E := wildRound pscratchpd scrHashesSize A
  let A := wildRound pscratchpd scrHashesSize E
  let E := wildRound pscratchpd scrHashesSize A
  let A := wildRound pscratchpd scrHashesSize E
  let E := wildRound pscratchpd scrHashesSize A
  let A := wildRound pscratchpd scrHashesSize E
  let E := wildRound pscratchpd scrHashesSize A
  let A := wildRound pscratchpd scrHashesSize E
  let E := wildRound pscratchpd scrHashesSize A
  wildRound pscratchpd scrHashesSize E

end Wild

/-- `KeccakPermutationOnWordsAfterXoring1088bits`. -/
def permutationAfterXoring1088bits (pscratchpd : ℕ → UInt64) (pscratchpdSz : ℕ) (state : StateTM)
    (input : ℕ → UInt64) : StateTM :=
  copyToState (wildRounds pscratchpd (pscratchpdSz >>> 2) (copyFromStateAndXor1088bits state input))

/-- `KeccakPermutationOnWords`, without a scratchpad. -/
def permutationOnWords (state : StateTM) : StateTM :=
  copyToState ((List.range 24).foldl (fun A i => thetaRhoPiChiIota i (prepareTheta A) A)
    (copyFromState state))

def memcpy (dst : Blob) (off : ℕ) (src : Blob) (srcOff count : ℕ) : Blob :=
  dst.take off ++ (src.drop srcOff).take count ++ dst.drop (off + count)

def memset (dst : Blob) (off : ℕ) (c : UInt8) (count : ℕ) : Blob :=
  dst.take off ++ List.replicate count c ++ dst.drop (off + count)

/-- The bits of a block for a hash of 256 bits. -/
def rate : ℕ := 1088

structure SpongeState where
  state : StateTM
  dataQueue : Blob
  bitsInQueue : ℕ
  fixedOutputLength : ℕ
  squeezing : Bool
  bitsAvailableForSqueezing : ℕ

/-- `Init(state, 256)`. -/
def init256 : SpongeState where
  state := Vector.replicate 25 0
  dataQueue := List.replicate 192 0
  bitsInQueue := 0
  fixedOutputLength := 256
  squeezing := false
  bitsAvailableForSqueezing := 0

section Sponge
variable (pscratchpd : ℕ → UInt64) (pscratchpdSz : ℕ)

def keccakAbsorb1088bits (state : StateTM) (data : Blob) : StateTM :=
  permutationAfterXoring1088bits pscratchpd pscratchpdSz state (wordAt data)

/-- `AbsorbQueue` and `AbsorbQueue2`. -/
def absorbQueue (s : SpongeState) : SpongeState :=
  { s with state := keccakAbsorb1088bits pscratchpd pscratchpdSz s.state s.dataQueue, bitsInQueue := 0 }

/-- The branch of the loop of `Absorb` that fills the queue: the next position and the state. -/
def absorbPartial (data : Blob) (databitlen i : ℕ) (s : SpongeState) : ℕ × SpongeState :=
  let partialBlock := (databitlen - i) % 2 ^ 32
  let partialBlock :=
    if rate < (partialBlock + s.bitsInQueue) % 2 ^ 32 then rate - s.bitsInQueue else partialBlock
  let partialByte := partialBlock % 8
  let partialBlock := partialBlock - partialByte
  let s := { s with
    dataQueue := memcpy s.dataQueue (s.bitsInQueue / 8) data (i / 8) (partialBlock / 8)
    bitsInQueue := s.bitsInQueue + partialBlock }
  let i := i + partialBlock
  let s := if s.bitsInQueue = rate then absorbQueue pscratchpd pscratchpdSz s else s
  if 0 < partialByte then
    let mask : UInt8 := UInt8.ofNat ((1 <<< partialByte) - 1)
    (i + partialByte, { s with
      dataQueue := s.dataQueue.set (s.bitsInQueue / 8) (data.getD (i / 8) 0 &&& mask)
      bitsInQueue := s.bitsInQueue + partialByte })
  else (i, s)

/-- The loop of `Absorb` from bit `i` on; `none` when the turns do not suffice. -/
def absorbLoop (data : Blob) (databitlen : ℕ) : ℕ → ℕ → SpongeState → Option SpongeState
  | 0, _, _ => none
  | turns + 1, i, s =>
      if i < databitlen then
        if s.bitsInQueue = 0 ∧ rate ≤ databitlen ∧ i ≤ databitlen - rate then
          let wholeBlocks := (databitlen - i) / rate
          let r := Blocks.foldCount (keccakAbsorb1088bits pscratchpd pscratchpdSz) (rate / 8)
            wholeBlocks s.state (data.drop (i / 8))
          absorbLoop data databitlen turns (i + wholeBlocks * rate) { s with state := r.1 }
        else
          let r := absorbPartial pscratchpd pscratchpdSz data databitlen i s
          absorbLoop data databitlen turns r.1 r.2
      else some s

/-- `Absorb`: what it returns and the state; no turn of the loop is without a bit of the input. -/
def absorb (s : SpongeState) (data : Blob) (databitlen : ℕ) : Option (ℕ × SpongeState) :=
  if s.bitsInQueue % 8 ≠ 0 then some (1, s)
  else if s.squeezing then some (1, s)
  else (absorbLoop pscratchpd pscratchpdSz data databitlen (databitlen + 1) 0 s).map fun s => (0, s)

def padAndSwitchToSqueezingPhase (s : SpongeState) : SpongeState :=
  let one : UInt8 := UInt8.ofNat (1 <<< (s.bitsInQueue % 8))
  let top : UInt8 := UInt8.ofNat (1 <<< ((rate - 1) % 8))
  let s :=
    if s.bitsInQueue + 1 = rate then
      let s := absorbQueue pscratchpd pscratchpdSz
        { s with dataQueue := s.dataQueue.modify (s.bitsInQueue / 8) (· ||| one) }
      { s with dataQueue := memset s.dataQueue 0 0 (rate / 8) }
    else
      let used := (s.bitsInQueue + 7) / 8
      { s with
        dataQueue := (memset s.dataQueue used 0 (rate / 8 - used)).modify (s.bitsInQueue / 8)
          (· ||| one) }
  let s := absorbQueue pscratchpd pscratchpdSz
    { s with dataQueue := s.dataQueue.modify ((rate - 1) / 8) (· ||| top) }
  { s with
    dataQueue := memcpy s.dataQueue 0 (stateBytes s.state) 0 (rate / 64 * 8)
    bitsAvailableForSqueezing := rate
    squeezing := true }

/-- The loop of `Squeeze` from bit `i` of the output on. -/
def squeezeLoop (outputLength : ℕ) : ℕ → ℕ → SpongeState → Blob → Option Blob
  | 0, _, _, _ => none
  | turns + 1, i, s, output =>
      if i < outputLength then
        let s :=
          if s.bitsAvailableForSqueezing = 0 then
            let state := permutationOnWords s.state
            { s with
              state := state
              dataQueue := memcpy s.dataQueue 0 (stateBytes state) 0 (rate / 64 * 8)
              bitsAvailableForSqueezing := rate }
          else s
        let partialBlock := min s.bitsAvailableForSqueezing (outputLength - i)
        let output := memcpy output (i / 8) s.dataQueue ((rate - s.bitsAvailableForSqueezing) / 8)
          (partialBlock / 8)
        squeezeLoop outputLength turns (i + partialBlock)
          { s with bitsAvailableForSqueezing := s.bitsAvailableForSqueezing - partialBlock } output
      else some output

/-- `Squeeze`: the output it leaves. -/
def squeeze (s : SpongeState) (output : Blob) (outputLength : ℕ) : Option Blob :=
  let s := if s.squeezing then s else padAndSwitchToSqueezingPhase pscratchpd pscratchpdSz s
  if outputLength % 8 ≠ 0 then some output else squeezeLoop outputLength (outputLength + 1) 0 s output

def update (s : SpongeState) (data : Blob) (databitlen : ℕ) : Option (ℕ × SpongeState) :=
  if databitlen % 8 = 0 then absorb pscratchpd pscratchpdSz s data databitlen
  else
    match absorb pscratchpd pscratchpdSz s data (databitlen - databitlen % 8) with
    | none => none
    | some (0, s) =>
        let lastByte := data.getD (databitlen / 8) 0 >>> UInt8.ofNat (8 - databitlen % 8)
        absorb pscratchpd pscratchpdSz s [lastByte] (databitlen % 8)
    | some r => some r

/-- `Hash(256, data, databitlen, hashval)`: what `hashval` holds afterwards. -/
def hash256 (data : Blob) (databitlen : ℕ) (hashval : Blob) : Option Blob :=
  match update pscratchpd pscratchpdSz init256 data databitlen with
  | none => none
  | some (0, s) => squeeze pscratchpd pscratchpdSz s hashval s.fixedOutputLength
  | some _ => some hashval

def wildKeccakDblOpt (inp md : Blob) : Option Blob :=
  match hash256 pscratchpd pscratchpdSz inp (inp.length * 8) md with
  | none => none
  | some md => hash256 pscratchpd pscratchpdSz md (HASH_SIZE * 8) md

end Sponge

/-- `(const UINT64*)&scratchpad[0]`. -/
def scratchpadWords (scratchpad : List Hash) (a : ℕ) : UInt64 :=
  hashWord (scratchpad.getD (a / 4) nullHash) (a % 4)

/-- `get_blob_longhash_opt`; `none` if a loop did not end. -/
def getBlobLonghashOpt (blob : Blob) (scratchpad : List Hash) : Option Hash :=
  if scratchpad.length = 0 then some (getBlobLonghashScratchpad blob 0 scratchpad)
  else (wildKeccakDblOpt (scratchpadWords scratchpad) (scratchpad.length * 4) blob
    (hashBytes nullHash)).map hashOfBytes

end WildKeccak
end Boolberry
