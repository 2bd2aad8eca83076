import Boolberry.Lib.LimbProgram
import Boolberry.RingSignatures
import Mathlib.Data.Int.Bitwise

/-!
# Scalars in limbs

`sc_reduce`, `sc_reduce32`, `sc_add`, `sc_sub`, `sc_mulsub`, `sc_check` and `sc_isnonzero` of
`crypto-ops.c` as they compute: 21-bit limbs in `int64_t`, with carries and folds. On all bytes they
give what `Crypto` takes them to give, and nothing overflows.
-/

namespace Boolberry
namespace ScalarLimbs

open LimbProgram

def radix : Radix where
  w := 21
  d := 12
  consts := [666643, 470296, 654183, -997805, 136657, -683901]
  maxInt := 2 ^ 63

def byteAt (s : Blob) (k : ℕ) : ℕ := (s.getD k 0).toNat

def load3 (s : Blob) (k : ℕ) : ℕ :=
  byteAt s k ||| byteAt s (k + 1) <<< 8 ||| byteAt s (k + 2) <<< 16

def load4 (s : Blob) (k : ℕ) : ℕ :=
  byteAt s k ||| byteAt s (k + 1) <<< 8 ||| byteAt s (k + 2) <<< 16 ||| byteAt s (k + 3) <<< 24

/-- For each limb the bytes that are loaded, where they start, and how far they are shifted. -/
def loads : List (ℕ × ℕ × ℕ) :=
  [(3, 0, 0), (4, 2, 5), (3, 5, 2), (4, 7, 7), (4, 10, 4), (3, 13, 1), (4, 15, 6), (3, 18, 3),
   (3, 21, 0), (4, 23, 5), (3, 26, 2), (4, 28, 7), (4, 31, 4), (3, 34, 1), (4, 36, 6), (3, 39, 3),
   (3, 42, 0), (4, 44, 5), (3, 47, 2), (4, 49, 7), (4, 52, 4), (3, 55, 1), (4, 57, 6), (4, 60, 3)]

def loadLimb (s : Blob) (load : ℕ × ℕ × ℕ) : ℕ :=
  (if load.1 = 3 then load3 s load.2.1 else load4 s load.2.1) >>> load.2.2

/-- `n` limbs; the last one is not masked. -/
def loadLimbs (n : ℕ) (s : Blob) : Limbs :=
  Radix.ofList <| (List.range n).map fun i =>
    let x := loadLimb s (loads.getD i (0, 0, 0))
    if i + 1 < n then (2097151 &&& x : ℕ) else x

/-- For each byte the limb it is taken from, the shift, and how far the next limb is shifted into it. -/
def stores : List (ℕ × ℕ × Option ℕ) :=
  [(0, 0, none), (0, 8, none), (0, 16, some 5), (1, 3, none), (1, 11, none), (1, 19, some 2),
   (2, 6, none), (2, 14, some 7), (3, 1, none), (3, 9, none), (3, 17, some 4), (4, 4, none),
   (4, 12, none), (4, 20, some 1), (5, 7, none), (5, 15, some 6), (6, 2, none), (6, 10, none),
   (6, 18, some 3), (7, 5, none), (7, 13, none), (8, 0, none), (8, 8, none), (8, 16, some 5),
   (9, 3, none), (9, 11, none), (9, 19, some 2), (10, 6, none), (10, 14, some 7), (11, 1, none),
   (11, 9, none), (11, 17, none)]

def storeByte (s : Limbs) : ℕ × ℕ × Option ℕ → UInt8
  | (i, r, none) => UInt8.ofInt (s i >>> r)
  | (i, r, some t) => UInt8.ofInt (Int.lor (s i >>> r) (s (i + 1) <<< t))

def store (s : Limbs) : Blob := stores.map (storeByte s)

/-- `n` rounded carries from every second limb. -/
def rounds (i n : ℕ) : List Step := (List.range n).map fun j => .round (i + 2 * j)

/-- The `n` highest limbs from `i` downwards. -/
def folds (i n : ℕ) : List Step := (List.range n).map fun j => .fold (i - j)

/-- The carries of twelve limbs, as they start in `sc_reduce32`, `sc_add` and `sc_sub`. -/
def reduce12 : List Step := rounds 0 6 ++ rounds 1 6 ++ [.fold 12]

/-- `sc_reduce` up to its last carries. -/
def reduce24 : List Step :=
  folds 23 6 ++ rounds 6 6 ++ rounds 7 5 ++ folds 17 6 ++ [.clear 12] ++ reduce12

/-- `none` is an overflow of `int64_t`. -/
def finished (p : List Step) (s : Limbs) : Option Blob := (radix.run (p ++ radix.finish) s).map store

def scReduce (s : Blob) : Option Blob := finished reduce24 (loadLimbs 24 s)

def scReduce32 (s : Blob) : Option Blob := finished reduce12 (loadLimbs 12 s)

/-- Limb by limb. -/
def limbwise (f : ℤ → ℤ → ℤ) (a b : Limbs) : Option Limbs := do
  let l ← (List.range 12).mapM fun i => radix.checked (f (a i) (b i))
  some (Radix.ofList l)

def scAdd (a b : Blob) : Option Blob := do
  let s ← limbwise (· + ·) (loadLimbs 12 a) (loadLimbs 12 b)
  finished reduce12 s

def scSub (a b : Blob) : Option Blob := do
  let s ← limbwise (· - ·) (loadLimbs 12 a) (loadLimbs 12 b)
  finished reduce12 s

/-- `c - ab`. -/
def scMulsub (a b c : Blob) : Option Blob := do
  let s ← radix.mulSub 12 (loadLimbs 12 a) (loadLimbs 12 b) (loadLimbs 12 c)
  finished (rounds 0 12 ++ rounds 1 11 ++ reduce24) s

def signum (a : ℤ) : ℤ := a >>> (63 : ℕ) - (-a) >>> (63 : ℕ)

def scCheck (s : Blob) : ℤ :=
  (signum (1559614444 - load4 s 0) + signum (1477600026 - load4 s 4) * 2 ^ 1 +
    signum (2734136534 - load4 s 8) * 2 ^ 2 + signum (350157278 - load4 s 12) * 2 ^ 3 +
    signum (-load4 s 16) * 2 ^ 4 + signum (-load4 s 20) * 2 ^ 5 + signum (-load4 s 24) * 2 ^ 6 +
    signum (268435456 - load4 s 28) * 2 ^ 7) >>> (8 : ℕ)

def scIsnonzero (s : Blob) : ℤ :=
  ((((s.take 32).foldl (· ||| ·) 0).toNat : ℤ) - 1) >>> (8 : ℕ) + 1

theorem radix_modulus : radix.modulus = groupOrder := by decide +kernel

theorem radix_consts : radix.constsValue radix.consts ≤ 0 := by decide +kernel

theorem certify_reduce12 : radix.certify reduce12 (List.replicate 13 (-2 ^ 26, 2 ^ 26)) = true := by
  decide +kernel

theorem certify_reduce24 : radix.certify reduce24 (List.replicate 24 (0, 2 ^ 29)) = true := by
  decide +kernel

theorem certify_mulsub : radix.certify (rounds 0 12 ++ rounds 1 11 ++ reduce24)
    (List.replicate 23 (-(12 * 2 ^ 50), 2 ^ 25) ++ [(0, 0)]) = true := by
  decide +kernel

theorem byteAt_eq (s : Blob) (k : ℕ) : byteAt s k = podValue s / 256 ^ k % 256 := by
  induction s generalizing k with
  | nil => simp [byteAt, podValue]
  | cons c s ih =>
    have hc := c.toNat_lt
    cases k with
    | zero =>
      rw [pow_zero, Nat.div_one, podValue, Nat.add_mul_mod_self_left, Nat.mod_eq_of_lt hc]
      rfl
    | succ k =>
      have hdiv : podValue (c :: s) / 256 = podValue s := by
        rw [podValue]
        omega
      rw [pow_succ', ← Nat.div_div_eq_div_mul, hdiv, ← ih k]
      rfl

theorem or_shiftLeft {a i : ℕ} (ha : a < 2 ^ i) (b : ℕ) : a ||| b <<< i = a + b * 2 ^ i := by
  rw [Nat.or_comm, ← Nat.shiftLeft_add_eq_or_of_lt ha, Nat.shiftLeft_eq, Nat.add_comm]

theorem load3_eq (s : Blob) (k : ℕ) : load3 s k = podValue s / 256 ^ k % 2 ^ 24 := by
  unfold load3
  simp only [byteAt_eq, pow_succ, ← Nat.div_div_eq_div_mul]
  generalize podValue s / 256 ^ k = x
  have h1 : x % 256 < 2 ^ 8 := by omega
  have h2 : x % 256 + x / 256 % 256 * 2 ^ 8 < 2 ^ 16 := by omega
  rw [or_shiftLeft h1, or_shiftLeft h2]
  omega

theorem load4_eq (s : Blob) (k : ℕ) : load4 s k = podValue s / 256 ^ k % 2 ^ 32 := by
  have h3 := load3_eq s k
  have hlt : load3 s k < 2 ^ 24 := by
    rw [h3]
    exact Nat.mod_lt _ (by decide)
  have h : load4 s k = load3 s k + byteAt s (k + 3) * 2 ^ 24 := or_shiftLeft hlt _
  rw [h, h3, byteAt_eq]
  simp only [pow_succ, ← Nat.div_div_eq_div_mul]
  omega

theorem loads_spec : ∀ i < 24, let l := loads.getD i (0, 0, 0)
    (l.1 = 3 ∨ l.1 = 4) ∧ 8 * l.2.1 + l.2.2 = 21 * i ∧ l.2.2 + 21 ≤ 8 * l.1 := by
  decide

theorem loadLimb_eq (s : Blob) {i : ℕ} (hi : i < 24) : loadLimb s (loads.getD i (0, 0, 0)) =
    podValue s / 256 ^ (loads.getD i (0, 0, 0)).2.1 % 2 ^ (8 * (loads.getD i (0, 0, 0)).1) /
      2 ^ (loads.getD i (0, 0, 0)).2.2 := by
  obtain ⟨h | h, -⟩ := loads_spec i hi
  · unfold loadLimb
    rw [h, if_pos rfl, load3_eq, Nat.shiftRight_eq_div_pow]
  · unfold loadLimb
    rw [h, if_neg (by decide), load4_eq, Nat.shiftRight_eq_div_pow]

theorem mod_pow_div_mod {x b r w : ℕ} (h : r + w ≤ b) :
    x % 2 ^ b / 2 ^ r % 2 ^ w = x / 2 ^ r % 2 ^ w := by
  obtain ⟨c, rfl⟩ := Nat.exists_eq_add_of_le h
  rw [Nat.add_assoc, pow_add, Nat.mod_mul_right_div_self, pow_add, Nat.mod_mul_right_mod]

theorem loadLimb_mask (s : Blob) {i : ℕ} (hi : i < 24) :
    2097151 &&& loadLimb s (loads.getD i (0, 0, 0)) = podValue s / 2 ^ (21 * i) % 2 ^ 21 := by
  obtain ⟨-, hpos, hroom⟩ := loads_spec i hi
  have hmask : 2097151 = 2 ^ 21 - 1 := rfl
  rw [loadLimb_eq s hi, hmask, Nat.and_comm, Nat.and_two_pow_sub_one_eq_mod, mod_pow_div_mod hroom,
    pow_bytes, Nat.div_div_eq_div_mul, ← pow_add, hpos]

/-- Limbs of 32 and of 64 bytes: the last load reaches the last byte. -/
def Loaded (n len : ℕ) : Prop := (n = 12 ∧ len = 32) ∨ (n = 24 ∧ len = 64)

theorem loadLimb_last {n len : ℕ} (hn : Loaded n len) {s : Blob} (hs : s.length = len) :
    loadLimb s (loads.getD (n - 1) (0, 0, 0)) = podValue s / 2 ^ (21 * (n - 1)) := by
  have hlt := podValue_lt s
  rw [hs, pow_bytes] at hlt
  have hi : n - 1 < 24 := by rcases hn with ⟨rfl, -⟩ | ⟨rfl, -⟩ <;> decide
  have hlast : 8 * (loads.getD (n - 1) (0, 0, 0)).2.1 + 8 * (loads.getD (n - 1) (0, 0, 0)).1 =
      8 * len := by rcases hn with ⟨rfl, rfl⟩ | ⟨rfl, rfl⟩ <;> decide
  obtain ⟨-, hpos, -⟩ := loads_spec (n - 1) hi
  have hsmall : podValue s / 2 ^ (8 * (loads.getD (n - 1) (0, 0, 0)).2.1) <
      2 ^ (8 * (loads.getD (n - 1) (0, 0, 0)).1) := by
    rw [Nat.div_lt_iff_lt_mul (Nat.two_pow_pos _), ← pow_add, Nat.add_comm, hlast]
    exact hlt
  rw [loadLimb_eq s hi, pow_bytes, Nat.mod_eq_of_lt hsmall, Nat.div_div_eq_div_mul, ← pow_add, hpos]

theorem loadLimbs_digits {n len : ℕ} (hn : Loaded n len) {s : Blob} (hs : s.length = len) :
    (∀ i < n - 1, loadLimbs n s i = (podValue s / 2 ^ (21 * i) % 2 ^ 21 : ℕ)) ∧
      loadLimbs n s (n - 1) = (podValue s / 2 ^ (21 * (n - 1)) : ℕ) ∧
      ∀ i, n ≤ i → loadLimbs n s i = 0 := by
  have hn' : 1 ≤ n ∧ n ≤ 24 := by rcases hn with ⟨rfl, -⟩ | ⟨rfl, -⟩ <;> decide
  unfold loadLimbs
  refine ⟨?_, ?_, ?_⟩
  · intro i hi
    rw [Radix.ofList_map_range, if_pos (by omega)]
    dsimp only
    rw [if_pos (by omega), loadLimb_mask s (by omega)]
  · rw [Radix.ofList_map_range, if_pos (by omega)]
    dsimp only
    rw [if_neg (by omega), loadLimb_last hn hs]
  · intro i hi
    rw [Radix.ofList_map_range, if_neg (by omega)]

theorem value_loadLimbs {n len : ℕ} (hn : Loaded n len) {s : Blob} (hs : s.length = len) :
    radix.value n (loadLimbs n s) = podValue s := by
  obtain ⟨hlow, hlast, -⟩ := loadLimbs_digits hn hs
  have hpos : n - 1 + 1 = n := by rcases hn with ⟨rfl, -⟩ | ⟨rfl, -⟩ <;> rfl
  have h := @Radix.value_of_digits radix (n - 1) (loadLimbs n s) (podValue s) hlow hlast
  rwa [hpos] at h

theorem loadLimbs_bounds {n len : ℕ} (hn : Loaded n len) {s : Blob} (hs : s.length = len) (i : ℕ) :
    0 ≤ loadLimbs n s i ∧ loadLimbs n s i < 2 ^ (8 * len - 21 * (n - 1)) := by
  obtain ⟨hlow, hlast, hzero⟩ := loadLimbs_digits hn hs
  have hbits : 21 ≤ 8 * len - 21 * (n - 1) ∧ 21 * (n - 1) ≤ 8 * len := by
    rcases hn with ⟨rfl, rfl⟩ | ⟨rfl, rfl⟩ <;> decide
  have hpow : (2 : ℤ) ^ 21 ≤ 2 ^ (8 * len - 21 * (n - 1)) := pow_le_pow_right₀ (by decide) hbits.1
  rcases lt_trichotomy i (n - 1) with hi | rfl | hi
  · have hlt : podValue s / 2 ^ (21 * i) % 2 ^ 21 < 2 ^ 21 := Nat.mod_lt _ (by decide)
    rw [hlow i hi]
    exact ⟨Int.natCast_nonneg _, (by exact_mod_cast hlt : _ < (2 : ℤ) ^ 21).trans_le hpow⟩
  · have hlt := podValue_lt s
    rw [hs, pow_bytes, ← Nat.sub_add_cancel hbits.2, pow_add, ← Nat.div_lt_iff_lt_mul
      (Nat.two_pow_pos _)] at hlt
    rw [hlast]
    exact ⟨Int.natCast_nonneg _, by exact_mod_cast hlt⟩
  · rw [hzero i (by omega)]
    exact ⟨le_rfl, by positivity⟩

theorem ofInt_natCast (n : ℕ) : UInt8.ofInt n = UInt8.ofNat (n % 256) := by
  unfold UInt8.ofInt
  have h : ((n : ℤ) % 2 ^ 8).toNat = n % 256 := by omega
  rw [h]

theorem stores_spec : ∀ j < 32, let e := stores.getD j (0, 0, none)
    e.1 < 12 ∧ 21 * e.1 + e.2.1 = 8 * j ∧
      (e.2.2 = none ∧ (e.2.1 + 8 ≤ 21 ∨ e.1 = 11) ∨
        ∃ t ≤ 7, e.2.2 = some t ∧ e.2.1 + t = 21 ∧ e.1 < 11) := by
  decide +kernel

theorem join_limbs {y r t : ℕ} (hr : r + t = 21) {z : ℕ}
    (hz : z % 2 ^ 21 = y / 2 ^ 21 % 2 ^ 21) :
    (y % 2 ^ 21 / 2 ^ r ||| z <<< t) % 256 = y / 2 ^ r % 256 := by
  have hpow : 2 ^ 21 = 2 ^ r * 2 ^ t := by rw [← pow_add, hr]
  have hlow : y % 2 ^ 21 / 2 ^ r < 2 ^ t := by
    rw [Nat.div_lt_iff_lt_mul (Nat.two_pow_pos _), Nat.mul_comm, ← hpow]
    exact Nat.mod_lt _ (by decide)
  have hy : y / 2 ^ r = y % 2 ^ 21 / 2 ^ r + y / 2 ^ 21 * 2 ^ t := by
    conv_lhs => rw [← Nat.mod_add_div y (2 ^ 21)]
    conv_lhs => rw [show 2 ^ 21 * (y / 2 ^ 21) = 2 ^ r * (2 ^ t * (y / 2 ^ 21)) by rw [hpow, Nat.mul_assoc]]
    rw [Nat.add_mul_div_left _ _ (Nat.two_pow_pos r), Nat.mul_comm (2 ^ t)]
  have hmod : z ≡ y / 2 ^ 21 [MOD 256] :=
    (show z ≡ y / 2 ^ 21 [MOD 2 ^ 21] from hz).of_dvd (by decide)
  rw [or_shiftLeft hlow, hy]
  exact Nat.ModEq.add_left _ (hmod.mul_right _)

theorem store_eq {s : Limbs} {N : ℕ} (hs : ∀ i < 11, 0 ≤ s i ∧ s i < 2 ^ 21)
    (hval : radix.value 12 s = N) : store s = podBytes 32 N := by
  obtain ⟨hlow, hlast⟩ := @Radix.digits_of_value radix 11 s N hs hval
  have hlow (i : ℕ) (hi : i < 11) : s i = (N / 2 ^ (21 * i) % 2 ^ 21 : ℕ) := hlow i hi
  have hlast : s 11 = (N / 2 ^ (21 * 11) : ℕ) := hlast
  have hbyte (j : ℕ) (hj : j < 32) :
      storeByte s (stores.getD j (0, 0, none)) = UInt8.ofNat (N / 256 ^ j % 256) := by
    obtain ⟨hi, hpos, hcase⟩ := stores_spec j hj
    generalize stores.getD j (0, 0, none) = e at hi hpos hcase
    obtain ⟨i, r, o⟩ := e
    dsimp only at hi hpos hcase
    have hdiv : N / 256 ^ j = N / 2 ^ (21 * i) / 2 ^ r := by
      rw [Nat.div_div_eq_div_mul, ← pow_add, hpos, pow_bytes]
    have hshift (n : ℕ) : ((n : ℤ) >>> r) = (n >>> r : ℕ) := rfl
    rw [hdiv]
    rcases hcase with ⟨rfl, hroom⟩ | ⟨t, -, rfl, hr, hi⟩
    · rw [storeByte]
      by_cases hi11 : i = 11
      · subst hi11
        rw [hlast, hshift, ofInt_natCast, Nat.shiftRight_eq_div_pow]
      · rw [hlow i (by omega), hshift, ofInt_natCast, Nat.shiftRight_eq_div_pow]
        exact congrArg UInt8.ofNat (mod_pow_div_mod (w := 8) (by omega))
    · obtain ⟨z, hz, hzmod⟩ : ∃ z : ℕ, s (i + 1) = z ∧
          z % 2 ^ 21 = N / 2 ^ (21 * i) / 2 ^ 21 % 2 ^ 21 := by
        rw [Nat.div_div_eq_div_mul, ← pow_add, ← Nat.mul_succ]
        by_cases hi10 : i + 1 = 11
        · exact ⟨_, hi10 ▸ hlast, by rw [Nat.succ_eq_add_one, hi10]⟩
        · exact ⟨_, hlow (i + 1) (by omega), Nat.mod_mod _ _⟩
      rw [storeByte, hlow i hi, hz, hshift]
      have hor : Int.lor ((N / 2 ^ (21 * i) % 2 ^ 21) >>> r : ℕ) ((z : ℤ) <<< t) =
          ((N / 2 ^ (21 * i) % 2 ^ 21) / 2 ^ r ||| z <<< t : ℕ) := by
        rw [Nat.shiftRight_eq_div_pow]
        rfl
      rw [hor, ofInt_natCast, join_limbs hr hzmod]
  have hlen : stores.length = 32 := rfl
  unfold store podBytes
  apply List.ext_getElem
  · rw [List.length_map, List.length_map, List.length_range, hlen]
  · intro j hj _
    rw [List.length_map, hlen] at hj
    rw [List.getElem_map, List.getElem_map, List.getElem_range, ← hbyte j hj, List.getD_eq_getElem]

/-- A certified program does not overflow and ends with the bytes of the remainder. -/
theorem finished_eq {p : List Step} {b : Radix.Bounds} (h : radix.certify p b = true) {s : Limbs}
    (hb : Radix.Within b s) : finished p s =
      some (podBytes 32 (radix.value b.length s % groupOrder).toNat) := by
  obtain ⟨s', hrun, hval, hlimbs⟩ := Radix.run_of_certify (show _ ≤ 12 by decide) (by decide)
    radix_consts h hb
  rw [radix_modulus] at hval
  have hpos : 0 ≤ radix.value b.length s % groupOrder := Int.emod_nonneg _ (by
    rw [Ne, Nat.cast_eq_zero]
    exact groupOrder_pos.ne')
  rw [← Int.toNat_of_nonneg hpos] at hval
  unfold finished
  rw [hrun, Option.map_some, store_eq hlimbs hval]

theorem podValue_toNat {n : ℕ} (x : BitVec (8 * n)) : podValue (podBytes n x.toNat) = x.toNat := by
  apply podValue_podBytes
  rw [pow_bytes]
  exact x.isLt

theorem scalar_bytes (a : EcScalar) : podValue (hashBytes a) = a.toNat ∧ (hashBytes a).length = 32 :=
  ⟨@podValue_toNat 32 a, length_podBytes 32 _⟩

theorem loaded32 : Loaded 12 32 := .inl ⟨rfl, rfl⟩

theorem scalar_limbs (a : EcScalar) : radix.value 12 (loadLimbs 12 (hashBytes a)) = a.toNat ∧
    (∀ i, 0 ≤ loadLimbs 12 (hashBytes a) i ∧ loadLimbs 12 (hashBytes a) i < 2 ^ 25) ∧
      ∀ i, 12 ≤ i → loadLimbs 12 (hashBytes a) i = 0 := by
  obtain ⟨hval, hlen⟩ := scalar_bytes a
  obtain ⟨-, -, hzero⟩ := loadLimbs_digits loaded32 hlen
  refine ⟨?_, loadLimbs_bounds loaded32 hlen, hzero⟩
  rw [value_loadLimbs loaded32 hlen, hval]

theorem toNat_emod (n : ℕ) : ((n : ℤ) % groupOrder).toNat = n % groupOrder := by
  rw [← Int.natCast_mod, Int.toNat_natCast]

theorem reduce12_eq {s : Limbs} (h : ∀ i < 13, -2 ^ 26 ≤ s i ∧ s i ≤ 2 ^ 26) (hzero : s 12 = 0) :
    finished reduce12 s = some (podBytes 32 (radix.value 12 s % groupOrder).toNat) := by
  have hval : radix.value 13 s = radix.value 12 s := by
    rw [Radix.value_succ, hzero, zero_mul, add_zero]
  rw [finished_eq certify_reduce12 (Radix.within_replicate h), List.length_replicate, hval]

theorem scReduce_eq (s : BitVec 512) :
    scReduce (podBytes 64 s.toNat) = some (hashBytes (Boolberry.scReduce s)) := by
  have hn : Loaded 24 64 := .inr ⟨rfl, rfl⟩
  have hlen := length_podBytes 64 s.toNat
  have hb : Radix.Within (List.replicate 24 (0, 2 ^ 29)) (loadLimbs 24 (podBytes 64 s.toNat)) := by
    apply Radix.within_replicate
    intro i _
    obtain ⟨h0, h1⟩ := loadLimbs_bounds hn hlen i
    exact ⟨h0, h1.le⟩
  have hval : podValue (podBytes 64 s.toNat) = s.toNat := @podValue_toNat 64 s
  unfold scReduce
  rw [finished_eq certify_reduce24 hb, List.length_replicate, value_loadLimbs hn hlen, hval, toNat_emod,
    hashBytes, toNat_scReduce]

theorem scReduce32_eq (s : EcScalar) :
    scReduce32 (hashBytes s) = some (hashBytes (Boolberry.scReduce32 s)) := by
  obtain ⟨hval, hbounds, hzero⟩ := scalar_limbs s
  have h : ∀ i < 13, -2 ^ 26 ≤ loadLimbs 12 (hashBytes s) i ∧ loadLimbs 12 (hashBytes s) i ≤ 2 ^ 26 := by
    intro i _
    obtain ⟨h0, h1⟩ := hbounds i
    constructor <;> omega
  unfold scReduce32
  rw [reduce12_eq h (hzero 12 le_rfl), hval, toNat_emod, hashBytes, toNat_scReduce32]

theorem limbwise_eq {f : ℤ → ℤ → ℤ} {a b : Limbs}
    (h : ∀ i, -2 ^ 26 ≤ f (a i) (b i) ∧ f (a i) (b i) ≤ 2 ^ 26) :
    limbwise f a b = some (Radix.ofList ((List.range 12).map fun i => f (a i) (b i))) := by
  unfold limbwise
  rw [Radix.mapM_eq_some fun i _ => ?_]
  · rfl
  · obtain ⟨h0, h1⟩ := h i
    have hmax : radix.maxInt = 2 ^ 63 := rfl
    exact if_pos ⟨by omega, by omega⟩

theorem limbwise_finished {f : ℤ → ℤ → ℤ} {g : ℤ} {a b : EcScalar}
    (h : ∀ x y : ℤ, 0 ≤ x ∧ x < 2 ^ 25 → 0 ≤ y ∧ y < 2 ^ 25 → -2 ^ 26 ≤ f x y ∧ f x y ≤ 2 ^ 26)
    (hval : ∑ i ∈ Finset.range 12, f (loadLimbs 12 (hashBytes a) i) (loadLimbs 12 (hashBytes b) i) *
      2 ^ (21 * i) = g) :
    ((limbwise f (loadLimbs 12 (hashBytes a)) (loadLimbs 12 (hashBytes b))).bind
      (finished reduce12)) = some (podBytes 32 (g % groupOrder).toNat) := by
  obtain ⟨-, ha, -⟩ := scalar_limbs a
  obtain ⟨-, hb, -⟩ := scalar_limbs b
  have hsum : radix.value 12 (Radix.ofList ((List.range 12).map fun i =>
      f (loadLimbs 12 (hashBytes a) i) (loadLimbs 12 (hashBytes b) i))) = g := by
    rw [← hval]
    apply Finset.sum_congr rfl
    intro i hi
    rw [Radix.ofList_map_range, if_pos (Finset.mem_range.mp hi)]
    rfl
  rw [limbwise_eq fun i => h _ _ (ha i) (hb i), Option.bind_some, reduce12_eq, hsum]
  · intro i _
    rw [Radix.ofList_map_range]
    split
    · exact h _ _ (ha i) (hb i)
    · decide
  · rw [Radix.ofList_map_range, if_neg (by decide)]

theorem scAdd_eq (a b : EcScalar) :
    scAdd (hashBytes a) (hashBytes b) = some (hashBytes (Boolberry.scAdd a b)) := by
  obtain ⟨ha, -⟩ := scalar_limbs a
  obtain ⟨hb, -⟩ := scalar_limbs b
  have hval : ∑ i ∈ Finset.range 12, (loadLimbs 12 (hashBytes a) i + loadLimbs 12 (hashBytes b) i) *
      2 ^ (21 * i) = ((a.toNat + b.toNat : ℕ) : ℤ) := by
    rw [Nat.cast_add, ← ha, ← hb]
    simp only [add_mul, Finset.sum_add_distrib]
    rfl
  have h := limbwise_finished (f := (· + ·)) (fun x y hx hy => by constructor <;> omega) hval
  have hsum : podBytes 32 ((a.toNat + b.toNat) % groupOrder) = hashBytes (Boolberry.scAdd a b) := by
    rw [hashBytes, toNat_scAdd]
  rw [toNat_emod, hsum] at h
  exact h

theorem scSub_eq (a b : EcScalar) :
    scSub (hashBytes a) (hashBytes b) = some (hashBytes (Boolberry.scSub a b)) := by
  obtain ⟨ha, -⟩ := scalar_limbs a
  obtain ⟨hb, -⟩ := scalar_limbs b
  have hval : ∑ i ∈ Finset.range 12, (loadLimbs 12 (hashBytes a) i - loadLimbs 12 (hashBytes b) i) *
      2 ^ (21 * i) = (a.toNat : ℤ) - b.toNat := by
    rw [← ha, ← hb]
    simp only [sub_mul, Finset.sum_sub_distrib]
    rfl
  have h := limbwise_finished (f := (· - ·)) (fun x y hx hy => by constructor <;> omega) hval
  have hdiff : podBytes 32 (((a.toNat : ℤ) - b.toNat) % groupOrder).toNat =
      hashBytes (Boolberry.scSub a b) := by
    rw [hashBytes, toNat_scSub]
    rfl
  rw [hdiff] at h
  exact h

theorem scMulsub_eq (a b c : EcScalar) : scMulsub (hashBytes a) (hashBytes b) (hashBytes c) =
    some (hashBytes (Boolberry.scMulsub a b c)) := by
  obtain ⟨ha, habounds, -⟩ := scalar_limbs a
  obtain ⟨hb, hbbounds, -⟩ := scalar_limbs b
  obtain ⟨hc, hcbounds, hzero⟩ := scalar_limbs c
  have hab : ∀ i j, 0 ≤ loadLimbs 12 (hashBytes a) i * loadLimbs 12 (hashBytes b) j ∧
      loadLimbs 12 (hashBytes a) i * loadLimbs 12 (hashBytes b) j ≤ 2 ^ 25 * 2 ^ 25 := fun i j =>
    ⟨mul_nonneg (habounds i).1 (hbbounds j).1,
      mul_le_mul (habounds i).2.le (hbbounds j).2.le (hbbounds j).1 (by positivity)⟩
  have hmax : radix.maxInt = 2 ^ 63 := rfl
  obtain ⟨s, hs, hval, hlast, hbounds⟩ := @Radix.mulSub_spec radix 12 (by decide) _ _ _ (2 ^ 25 * 2 ^ 25)
    (2 ^ 25) hab (fun k => ⟨(hcbounds k).1, (hcbounds k).2.le⟩) hzero (by rw [hmax]; norm_num)
    (by rw [hmax]; norm_num)
  have hwithin : Radix.Within (List.replicate 23 (-(12 * 2 ^ 50), 2 ^ 25) ++ [(0, 0)]) s := by
    refine (Radix.within_replicate fun i _ => ?_).concat ?_
    · obtain ⟨h0, h1⟩ := hbounds i
      exact ⟨by norm_num at h0 ⊢; omega, h1⟩
    · rw [List.length_replicate, hlast 23 (by decide)]
      exact ⟨le_rfl, le_rfl⟩
  have hlen : (List.replicate 23 ((-(12 * 2 ^ 50), 2 ^ 25) : ℤ × ℤ) ++ [(0, 0)]).length = 23 + 1 := rfl
  have hvalue : radix.value 23 s = (c.toNat : ℤ) - (a.toNat * b.toNat : ℕ) := by
    rw [Nat.cast_mul, ← ha, ← hb, ← hc]
    exact hval
  have hres : podBytes 32 (((c.toNat : ℤ) - (a.toNat * b.toNat : ℕ)) % groupOrder).toNat =
      hashBytes (Boolberry.scMulsub a b c) := by
    rw [hashBytes, toNat_scMulsub]
    rfl
  unfold scMulsub
  rw [hs, Option.bind_eq_bind, Option.bind_some, finished_eq certify_mulsub hwithin, hlen,
    Radix.value_succ, hlast 23 (by decide), zero_mul, add_zero, hvalue, hres]

/-- On all bytes the limb arithmetic of `crypto-ops.c` gives the reduced results modulo the order of the
base point, and no operation overflows. -/
theorem sc_arithmetic (s : BitVec 512) (a b c : EcScalar) :
    scReduce (podBytes 64 s.toNat) = some (hashBytes (Boolberry.scReduce s)) ∧
      scReduce32 (hashBytes a) = some (hashBytes (Boolberry.scReduce32 a)) ∧
      scAdd (hashBytes a) (hashBytes b) = some (hashBytes (Boolberry.scAdd a b)) ∧
      scSub (hashBytes a) (hashBytes b) = some (hashBytes (Boolberry.scSub a b)) ∧
      scMulsub (hashBytes a) (hashBytes b) (hashBytes c) =
        some (hashBytes (Boolberry.scMulsub a b c)) :=
  ⟨scReduce_eq s, scReduce32_eq a, scAdd_eq a b, scSub_eq a b, scMulsub_eq a b c⟩

theorem signum_eq {a : ℤ} (hlow : -2 ^ 63 < a) (hhigh : a < 2 ^ 63) :
    signum a = if 0 < a then 1 else if a < 0 then -1 else 0 := by
  unfold signum
  rw [Int.shiftRight_eq_div_pow, Int.shiftRight_eq_div_pow]
  split
  · omega
  · split <;> omega

/-- Pairs of words, the lowest first: their signs as `sc_check` weighs them. -/
def signSum : List (ℕ × ℕ) → ℤ
  | [] => 0
  | (x, y) :: l => signum (x - y) + 2 * signSum l

def wordsValue : List ℕ → ℕ
  | [] => 0
  | x :: l => x + 2 ^ 32 * wordsValue l

theorem signSum_spec {l : List (ℕ × ℕ)} (h : ∀ p ∈ l, p.1 < 2 ^ 32 ∧ p.2 < 2 ^ 32) :
    (0 < signSum l ↔ wordsValue (l.map Prod.snd) < wordsValue (l.map Prod.fst)) ∧
      (signSum l < 0 ↔ wordsValue (l.map Prod.fst) < wordsValue (l.map Prod.snd)) ∧
      -2 ^ l.length < signSum l ∧ signSum l < 2 ^ l.length := by
  induction l with
  | nil => decide
  | cons p l ih =>
    obtain ⟨x, y⟩ := p
    obtain ⟨⟨hx, hy⟩, hl⟩ := List.forall_mem_cons.mp h
    obtain ⟨hpos, hneg, hlow, hhigh⟩ := ih hl
    have hpow : (2 : ℤ) ^ ((x, y) :: l).length = 2 * 2 ^ l.length := by
      rw [List.length_cons, pow_succ, mul_comm]
    simp only at hx hy
    rw [hpow]
    simp only [signSum, List.map_cons, wordsValue, signum_eq (show -2 ^ 63 < (x : ℤ) - y by omega) (by omega)]
    split
    · omega
    · split <;> omega

theorem word_eq (s : Blob) (i : ℕ) : load4 s (4 * i) = podValue s / (2 ^ 32) ^ i % 2 ^ 32 := by
  rw [load4_eq, pow_mul]
  rfl

/-- What `sc_check` compares. -/
def checkWords (s : Blob) : List (ℕ × ℕ) :=
  [(1559614444, load4 s 0), (1477600026, load4 s 4), (2734136534, load4 s 8), (350157278, load4 s 12),
   (0, load4 s 16), (0, load4 s 20), (0, load4 s 24), (268435456, load4 s 28)]

theorem scCheck_signSum (s : Blob) : scCheck s = signSum (checkWords s) >>> (8 : ℕ) := by
  unfold scCheck checkWords
  simp only [signSum, Nat.cast_zero, zero_sub, Nat.cast_ofNat]
  congr 1
  ring

theorem checkWords_lt (s : Blob) : ∀ p ∈ checkWords s, p.1 < 2 ^ 32 ∧ p.2 < 2 ^ 32 := by
  have hload (k : ℕ) : load4 s k < 2 ^ 32 := by
    rw [load4_eq]
    exact Nat.mod_lt _ (by decide)
  simp only [checkWords, List.forall_mem_cons, hload, and_true]
  decide

theorem checkWords_fst (s : Blob) : wordsValue ((checkWords s).map Prod.fst) = groupOrder - 1 := by
  simp only [checkWords, List.map_cons, List.map_nil]
  decide +kernel

theorem checkWords_snd (a : EcScalar) : wordsValue ((checkWords (hashBytes a)).map Prod.snd) = a.toNat := by
  have hlt := a.isLt
  have hword (i : ℕ) : load4 (hashBytes a) (4 * i) = a.toNat / 2 ^ (32 * i) % 2 ^ 32 := by
    rw [word_eq, (scalar_bytes a).1, pow_mul]
  simp only [checkWords, List.map_cons, List.map_nil, wordsValue]
  rw [hword 0, hword 1, hword 2, hword 3, hword 4, hword 5, hword 6, hword 7]
  omega

theorem scCheck_eq (a : EcScalar) :
    scCheck (hashBytes a) = if Boolberry.scCheck a then 0 else -1 := by
  obtain ⟨-, hneg, hlow, hhigh⟩ := signSum_spec (checkWords_lt (hashBytes a))
  have hpos := groupOrder_pos
  have hlen : (checkWords (hashBytes a)).length = 8 := rfl
  rw [checkWords_fst, checkWords_snd] at hneg
  rw [hlen] at hlow hhigh
  rw [scCheck_signSum, Int.shiftRight_eq_div_pow]
  unfold Boolberry.scCheck
  by_cases h : a.toNat < groupOrder
  · rw [if_pos (decide_eq_true h)]
    omega
  · rw [if_neg (by rw [decide_eq_true_iff]; exact h)]
    omega

theorem foldl_or_eq_zero (l : Blob) (acc : UInt8) :
    l.foldl (· ||| ·) acc = 0 ↔ acc = 0 ∧ podValue l = 0 := by
  induction l generalizing acc with
  | nil => simp [podValue]
  | cons c l ih =>
    have hc : c = 0 ↔ c.toNat = 0 := UInt8.toNat_inj.symm
    rw [List.foldl_cons, ih, UInt8.or_eq_zero_iff, podValue, hc, and_assoc]
    refine and_congr_right fun _ => ?_
    omega

theorem scIsnonzero_eq (a : EcScalar) : scIsnonzero (hashBytes a) = if a = 0 then 0 else 1 := by
  obtain ⟨hval, hlen⟩ := scalar_bytes a
  have hor := foldl_or_eq_zero (hashBytes a) 0
  have ha : a = 0 ↔ a.toNat = 0 := BitVec.toNat_inj.symm
  have hlt := ((hashBytes a).foldl (· ||| ·) 0).toNat_lt
  have hzero : (hashBytes a).foldl (· ||| ·) 0 = 0 ↔ ((hashBytes a).foldl (· ||| ·) 0).toNat = 0 :=
    UInt8.toNat_inj.symm
  rw [hval, hzero] at hor
  unfold scIsnonzero
  rw [List.take_of_length_le hlen.le, Int.shiftRight_eq_div_pow]
  split
  · next h =>
    rw [hor.mpr ⟨rfl, ha.mp h⟩]
    rfl
  · next h =>
    have hne : ((hashBytes a).foldl (· ||| ·) 0).toNat ≠ 0 := fun h0 => h (ha.mpr (hor.mp h0).2)
    omega

/-- The comparisons without branches are the comparisons. -/
theorem sc_comparisons (a : EcScalar) :
    (scCheck (hashBytes a) = 0 ↔ a.toNat < groupOrder) ∧ (scCheck (hashBytes a) ≠ 0 →
      scCheck (hashBytes a) = -1) ∧ scIsnonzero (hashBytes a) = if a = 0 then 0 else 1 := by
  refine ⟨?_, ?_, scIsnonzero_eq a⟩
  · rw [scCheck_eq]
    unfold Boolberry.scCheck
    by_cases h : a.toNat < groupOrder <;> simp [h]
  · rw [scCheck_eq]
    split
    · exact fun h => absurd rfl h
    · exact fun _ => rfl

end ScalarLimbs
end Boolberry
