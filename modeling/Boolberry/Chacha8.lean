import Mathlib.Data.List.GetD
import Boolberry.ExtraEntries

/-!
# chacha8

The stream cipher of `chacha8.c` and `do_chacha_crypt`. Blocks of 64 bytes are taken as
sixteen words and xored with the words of a key stream; a last, shorter block goes through
`tmp`, whose bytes behind the data are whatever stood there. The cipher is its own inverse,
and what it makes of a byte depends on that byte and its position only.
-/

namespace Boolberry

namespace Chacha8

abbrev State : Type := Vector UInt32 16

/-- `rol32`. -/
def rotate (v c : UInt32) : UInt32 := (v <<< c) ||| (v >>> (32 - c))

def quarterround (x : State) (a b c d : Fin 16) : State :=
  let x := x.set a (x[a] + x[b])
  let x := x.set d (rotate (x[d] ^^^ x[a]) 16)
  let x := x.set c (x[c] + x[d])
  let x := x.set b (rotate (x[b] ^^^ x[c]) 12)
  let x := x.set a (x[a] + x[b])
  let x := x.set d (rotate (x[d] ^^^ x[a]) 8)
  let x := x.set c (x[c] + x[d])
  x.set b (rotate (x[b] ^^^ x[c]) 7)

/-- The body of the loop over `i`. -/
def doubleRound (x : State) : State :=
  let x := quarterround x 0 4 8 12
  let x := quarterround x 1 5 9 13
  let x := quarterround x 2 6 10 14
  let x := quarterround x 3 7 11 15
  let x := quarterround x 0 5 10 15
  let x := quarterround x 1 6 11 12
  let x := quarterround x 2 7 8 13
  quarterround x 3 4 9 14

/-- The words a block is xored with. -/
def blockWords (j : State) : List UInt32 :=
  let x := doubleRound (doubleRound (doubleRound (doubleRound j)))
  (Vector.zipWith (· + ·) x j).toList

/-- `U8TO32_LITTLE` of the four bytes from `i` on. -/
def load32 (p : Blob) (i : ℕ) : UInt32 := UInt32.ofNat (podOfBytes ((p.drop i).take 4))

/-- `U32TO8_LITTLE`. -/
def store32 (v : UInt32) : Blob := podBytes 4 v.toNat

/-- `sigma`, "expand 32-byte k". -/
def sigma : Blob :=
  [0x65, 0x78, 0x70, 0x61, 0x6e, 0x64, 0x20, 0x33, 0x32, 0x2d, 0x62, 0x79, 0x74, 0x65, 0x20, 0x6b]

/-- `j0` to `j15` at the start. -/
def initial (key iv : Blob) : State :=
  #v[load32 sigma 0, load32 sigma 4, load32 sigma 8, load32 sigma 12,
    load32 key 0, load32 key 4, load32 key 8, load32 key 12,
    load32 key 16, load32 key 20, load32 key 24, load32 key 28,
    0, 0, load32 iv 0, load32 iv 4]

/-- `PLUSONE(j12)`, with the carry into `j13`. -/
def nextBlock (j : State) : State :=
  let j := j.set 12 (j[12] + 1)
  if j[12] = 0 then j.set 13 (j[13] + 1) else j

/-- One block of data, word by word, from word `i` on. -/
def xorWords (data : Blob) : List UInt32 → ℕ → Blob
  | [], _ => []
  | w :: words, i => store32 (w ^^^ load32 data (4 * i)) ++ xorWords data words (i + 1)

/-- The `for (;;)` loop, at most `n` blocks. -/
def cryptBlocks (tmp : Vector UInt8 64) : ℕ → State → Blob → Blob
  | 0, _, _ => []
  | n + 1, j, data =>
      if data.length < 64 then
        (xorWords (data ++ tmp.toList.drop data.length) (blockWords j) 0).take data.length
      else if data.length = 64 then xorWords data (blockWords j) 0
      else xorWords data (blockWords j) 0 ++ cryptBlocks tmp n (nextBlock j) (data.drop 64)

/-- `chacha8`; every block but the last has 64 bytes. -/
def chacha8 (tmp : Vector UInt8 64) (data key iv : Blob) : Blob :=
  if data.length = 0 then [] else cryptBlocks tmp (data.length / 64 + 1) (initial key iv) data

/-- `do_chacha_crypt`: the key is the hash of what is given, the vector is zero. -/
def doChachaCrypt (E : Env) (tmp : Vector UInt8 64) (data keyBuff : Blob) : Blob :=
  chacha8 tmp data (hashBytes (E.cnFastHash keyBuff)) (List.replicate 8 0)

/-- The bytes of the key stream from the block of `j` on. -/
def keyStream : ℕ → State → Blob
  | 0, _ => []
  | n + 1, j => (blockWords j).flatMap store32 ++ keyStream n (nextBlock j)

def xorBytes (data stream : Blob) : Blob := List.zipWith (· ^^^ ·) data stream

theorem blockWords_length (j : State) : (blockWords j).length = 16 := by
  simp [blockWords]

@[simp] theorem store32_length (v : UInt32) : (store32 v).length = 4 := by simp [store32]

theorem flatMap_store32_length (l : List UInt32) : (l.flatMap store32).length = 4 * l.length := by
  induction l with
  | nil => rfl
  | cons w l ih =>
    rw [List.flatMap_cons, List.length_append, ih, store32_length, List.length_cons]
    omega

theorem keyStream_length (n : ℕ) (j : State) : (keyStream n j).length = 64 * n := by
  induction n generalizing j with
  | zero => rfl
  | succ n ih =>
    rw [keyStream, List.length_append, ih, flatMap_store32_length, blockWords_length]
    omega

theorem xor_byte (a b i : ℕ) :
    UInt8.ofNat ((a ^^^ b) / 256 ^ i % 256) =
      UInt8.ofNat (a / 256 ^ i % 256) ^^^ UInt8.ofNat (b / 256 ^ i % 256) := by
  have hpow : (256 : ℕ) ^ i = 2 ^ (8 * i) := by rw [pow_mul]; norm_num
  have hdiv : (a ^^^ b) / 256 ^ i % 256 = (a / 256 ^ i % 256) ^^^ (b / 256 ^ i % 256) := by
    rw [hpow, ← Nat.shiftRight_eq_div_pow, ← Nat.shiftRight_eq_div_pow, ← Nat.shiftRight_eq_div_pow,
      Nat.shiftRight_xor_distrib, show (256 : ℕ) = 2 ^ 8 by norm_num, Nat.xor_mod_two_pow]
  rw [hdiv]
  apply UInt8.toNat_inj.mp
  have ha : a / 256 ^ i % 256 < 2 ^ 8 := Nat.mod_lt _ (by norm_num)
  have hb : b / 256 ^ i % 256 < 2 ^ 8 := Nat.mod_lt _ (by norm_num)
  rw [UInt8.toNat_ofNat', UInt8.toNat_xor, UInt8.toNat_ofNat', UInt8.toNat_ofNat',
    Nat.mod_eq_of_lt (Nat.xor_lt_two_pow ha hb), Nat.mod_eq_of_lt ha, Nat.mod_eq_of_lt hb]

theorem store32_xor (w : UInt32) {l : Blob} (hl : l.length = 4) :
    store32 (w ^^^ UInt32.ofNat (podOfBytes l)) = xorBytes l (store32 w) := by
  have hlt : podOfBytes l < 2 ^ 32 := by
    have h := podValue_lt l
    rw [hl] at h
    rw [ExtraReader.podOfBytes_eq]
    omega
  have hback : podBytes 4 (podOfBytes l) = l := by
    rw [ExtraReader.podOfBytes_eq, ← hl]
    exact podBytes_podValue l
  unfold xorBytes
  conv_rhs => rw [← hback]
  unfold store32 podBytes
  rw [UInt32.toNat_xor, UInt32.toNat_ofNat', Nat.mod_eq_of_lt hlt, List.zipWith_map]
  rw [List.zipWith_self]
  apply List.map_congr_left
  intro i _
  rw [xor_byte, UInt8.xor_comm]

theorem xorWords_eq (data : Blob) (words : List UInt32) (i : ℕ)
    (hlen : 4 * i + 4 * words.length ≤ data.length) :
    xorWords data words i = xorBytes (data.drop (4 * i)) (words.flatMap store32) := by
  induction words generalizing i with
  | nil => simp [xorWords, xorBytes]
  | cons w words ih =>
    rw [List.length_cons] at hlen
    have hword : ((data.drop (4 * i)).take 4).length = 4 := by
      rw [List.length_take, List.length_drop]
      omega
    have hsplit : data.drop (4 * i) = (data.drop (4 * i)).take 4 ++ data.drop (4 * (i + 1)) := by
      rw [show 4 * (i + 1) = 4 * i + 4 by ring, ← List.drop_drop, List.take_append_drop]
    rw [xorWords, load32, store32_xor w hword, ih (i + 1) (by omega), List.flatMap_cons]
    conv_rhs => rw [hsplit]
    exact (List.zipWith_append (by rw [hword, store32_length])).symm

theorem xorBytes_append_right (data s t : Blob) (h : data.length ≤ s.length) :
    xorBytes data (s ++ t) = xorBytes data s := by
  induction data generalizing s with
  | nil => rfl
  | cons c data ih =>
    cases s with
    | nil => simp at h
    | cons k s =>
      show (c ^^^ k) :: xorBytes data (s ++ t) = (c ^^^ k) :: xorBytes data s
      rw [ih s (by simpa using h)]

theorem xorBytes_take (data pad s : Blob) (h : data.length ≤ s.length) :
    (xorBytes (data ++ pad) s).take data.length = xorBytes data s := by
  induction data generalizing s with
  | nil => rfl
  | cons c data ih =>
    cases s with
    | nil => simp at h
    | cons k s =>
      show (c ^^^ k) :: (xorBytes (data ++ pad) s).take data.length = (c ^^^ k) :: xorBytes data s
      rw [ih s (by simpa using h)]

/-- The cipher is the xor with the key stream, whatever stood in `tmp`. -/
theorem cryptBlocks_eq (tmp : Vector UInt8 64) (n : ℕ) (j : State) (data : Blob)
    (hn : data.length < 64 * n) : cryptBlocks tmp n j data = xorBytes data (keyStream n j) := by
  induction n generalizing j data with
  | zero => omega
  | succ n ih =>
    have hwords : ((blockWords j).flatMap store32).length = 64 := by
      rw [flatMap_store32_length, blockWords_length]
    have hblock {d : Blob} (hd : 64 ≤ d.length) :
        xorWords d (blockWords j) 0 = xorBytes d ((blockWords j).flatMap store32) := by
      rw [xorWords_eq d _ 0 (by rw [blockWords_length]; omega), Nat.mul_zero, List.drop_zero]
    rw [cryptBlocks, keyStream]
    by_cases hlt : data.length < 64
    · rw [if_pos hlt, hblock (by rw [List.length_append, List.length_drop, Vector.length_toList]; omega),
        xorBytes_take _ _ _ (by omega), xorBytes_append_right _ _ _ (by omega)]
    rw [if_neg hlt]
    by_cases heq : data.length = 64
    · rw [if_pos heq, hblock (by omega), xorBytes_append_right _ _ _ (by omega)]
    rw [if_neg heq, hblock (by omega), ih _ _ (by rw [List.length_drop]; omega)]
    have hsplit := List.take_append_drop 64 data
    have htake : (data.take 64).length = 64 := by rw [List.length_take]; omega
    have hfirst : xorBytes data ((blockWords j).flatMap store32) =
        xorBytes (data.take 64) ((blockWords j).flatMap store32) := by
      unfold xorBytes
      conv_lhs => rw [← hsplit, ← List.append_nil ((blockWords j).flatMap store32)]
      rw [List.zipWith_append (by rw [htake, hwords]), List.zipWith_nil_right, List.append_nil]
    rw [hfirst]
    conv_rhs => rw [← hsplit]
    exact (List.zipWith_append (by rw [htake, hwords])).symm

theorem chacha8_eq (tmp : Vector UInt8 64) (data key iv : Blob) :
    chacha8 tmp data key iv =
      xorBytes data (keyStream (data.length / 64 + 1) (initial key iv)) := by
  unfold chacha8
  by_cases h : data.length = 0
  · rw [if_pos h, List.length_eq_zero_iff.mp h]
    rfl
  · rw [if_neg h, cryptBlocks_eq tmp _ _ _ (by omega)]

theorem xorBytes_length (data stream : Blob) (h : data.length ≤ stream.length) :
    (xorBytes data stream).length = data.length := by
  rw [xorBytes, List.length_zipWith, Nat.min_eq_left h]

theorem xorBytes_xorBytes (data stream : Blob) (h : data.length ≤ stream.length) :
    xorBytes (xorBytes data stream) stream = data := by
  induction data generalizing stream with
  | nil => rfl
  | cons c data ih =>
    cases stream with
    | nil => simp at h
    | cons k stream =>
      show (c ^^^ k ^^^ k) :: xorBytes (xorBytes data stream) stream = c :: data
      rw [ih stream (by simpa using h), UInt8.xor_assoc, UInt8.xor_self, UInt8.xor_zero]

theorem chacha8_length (tmp : Vector UInt8 64) (data key iv : Blob) :
    (chacha8 tmp data key iv).length = data.length := by
  rw [chacha8_eq tmp, xorBytes_length _ _ (by rw [keyStream_length]; omega)]

/-- Encrypting twice gives the data back, for any bytes left in `tmp` the two times. -/
theorem chacha8_chacha8 (tmp tmp' : Vector UInt8 64) (data key iv : Blob) :
    chacha8 tmp' (chacha8 tmp data key iv) key iv = data := by
  rw [chacha8_eq tmp', chacha8_length tmp, chacha8_eq tmp,
    xorBytes_xorBytes _ _ (by rw [keyStream_length]; omega)]

theorem doChachaCrypt_length (E : Env) (tmp : Vector UInt8 64) (data keyBuff : Blob) :
    (doChachaCrypt E tmp data keyBuff).length = data.length := chacha8_length tmp _ _ _

theorem doChachaCrypt_doChachaCrypt (E : Env) (tmp tmp' : Vector UInt8 64) (data keyBuff : Blob) :
    doChachaCrypt E tmp' (doChachaCrypt E tmp data keyBuff) keyBuff = data :=
  chacha8_chacha8 tmp tmp' _ _ _

end Chacha8
end Boolberry
