import Boolberry.ArchiveRoundTrip
import Boolberry.IntUtil
import Boolberry.Lib.Blocks
import Boolberry.Lib.Numerals

/-!
# Base 58

`base58.cpp` codes eight bytes in eleven letters and a shorter last block in the fewest letters that hold
it. What it writes it reads back, and it reads nothing else.
-/

namespace Boolberry
namespace Base58

/-- `123456789ABCDEFGHJKLMNPQRSTUVWXYZabcdefghijkmnopqrstuvwxyz`. -/
def alphabet : Blob := [
  49, 50, 51, 52, 53, 54, 55, 56, 57,
  65, 66, 67, 68, 69, 70, 71, 72, 74, 75, 76, 77, 78, 80, 81, 82, 83, 84, 85, 86, 87, 88, 89, 90,
  97, 98, 99, 100, 101, 102, 103, 104, 105, 106, 107, 109, 110, 111, 112, 113, 114, 115, 116, 117, 118,
  119, 120, 121, 122]

def alphabetSize : ℕ := alphabet.length
def encodedBlockSizes : List ℕ := [0, 2, 3, 5, 6, 7, 9, 10, 11]
def fullBlockSize : ℕ := encodedBlockSizes.length - 1
def fullEncodedBlockSize : ℕ := encodedBlockSizes.getD fullBlockSize 0

/-- `alphabet[i]`. -/
def letter (i : ℕ) : UInt8 := alphabet.getD i 0

/-- `encoded_block_sizes[i]`. -/
def encodedBlockSize (i : ℕ) : ℕ := encodedBlockSizes.getD i 0

/-- The table of `reverse_alphabet`. -/
def reverseAlphabetData : List ℤ :=
  (List.range alphabetSize).foldl (fun data i => data.set (letter i - letter 0).toNat i)
    (List.replicate ((letter (alphabetSize - 1) - letter 0).toNat + 1) (-1))

/-- A letter is a signed `char`: one below the first gives an index behind the table. -/
def reverseAlphabet (c : UInt8) : ℤ :=
  let idx := (c.toInt8.toInt64 - (letter 0).toInt8.toInt64).toUInt64
  reverseAlphabetData.getD idx.toNat (-1)

/-- The table of `decoded_block_sizes`. -/
def decodedBlockSizesData : List ℤ :=
  (List.range (fullBlockSize + 1)).foldl (fun data i => data.set (encodedBlockSize i) i)
    (List.replicate (fullEncodedBlockSize + 1) (-1))

def decodedBlockSizes (encodedBlockSize : ℕ) : ℤ := decodedBlockSizesData.getD encodedBlockSize (-1)

def uint8beTo64 (data : Blob) : UInt64 := data.foldl (fun res c => res <<< 8 ||| c.toUInt64) 0

/-- The last `size` of the eight bytes, highest first. -/
def uint64To8be (num : UInt64) (size : ℕ) : Blob :=
  (podBytes 8 num.toNat).reverse.drop (8 - size)

/-- The loop of `encode_block`, from `res[i - 1]` down; `none` when it leaves the block. -/
def encodeDigits : ℕ → UInt64 → Blob → Option Blob
  | 0, num, res => if num = 0 then some res else none
  | i + 1, num, res =>
      if num = 0 then some res
      else encodeDigits i (num / UInt64.ofNat alphabetSize)
        (res.set i (letter (num % UInt64.ofNat alphabetSize).toNat))

/-- `encode_block`, on letters that are all the first. -/
def encodeBlock (block : Blob) : Option Blob :=
  encodeDigits (encodedBlockSize block.length) (uint8beTo64 block)
    (List.replicate (encodedBlockSize block.length) (letter 0))

/-- The loop of `decode_block`, which reads the last letter first. -/
def decodeDigits : Blob → UInt64 → UInt64 → Option UInt64
  | [], resNum, _ => some resNum
  | c :: block, resNum, order =>
      let digit := reverseAlphabet c
      if digit < 0 then none
      else
        let product := mul128 order (UInt64.ofNat digit.toNat)
        let tmp := resNum + product.2
        if tmp < resNum ∨ 0 ≠ product.1 then none
        else decodeDigits block tmp (order * UInt64.ofNat alphabetSize)

def decodeBlock (block : Blob) : Option Blob :=
  let resSize := decodedBlockSizes block.length
  if resSize ≤ 0 then none
  else
    match decodeDigits block.reverse 0 1 with
    | none => none
    | some resNum =>
        if resSize.toNat < fullBlockSize ∧ 1 <<< (8 * UInt64.ofNat resSize.toNat) ≤ resNum then none
        else some (uint64To8be resNum resSize.toNat)

def encode (data : Blob) : Option Blob :=
  if data = [] then some []
  else Blocks.mapCount encodeBlock fullBlockSize (data.length / fullBlockSize) data

def decode (enc : Blob) : Option Blob :=
  if enc = [] then some []
  else if decodedBlockSizes (enc.length % fullEncodedBlockSize) < 0 then none
  else Blocks.mapCount decodeBlock fullEncodedBlockSize (enc.length / fullEncodedBlockSize) enc

theorem reverseAlphabet_letter {d : ℕ} (hd : d < 58) : reverseAlphabet (letter d) = d := by
  have htable : ∀ d < 58, reverseAlphabet (letter d) = d := by decide +kernel
  exact htable d hd

theorem letter_inj {d d' : ℕ} (hd : d < 58) (hd' : d' < 58) (h : letter d = letter d') : d = d' := by
  have := congrArg reverseAlphabet h
  rw [reverseAlphabet_letter hd, reverseAlphabet_letter hd'] at this
  exact Int.ofNat_inj.mp this

theorem letter_reverseAlphabet {c : UInt8} (hc : ¬reverseAlphabet c < 0) :
    ∃ d < 58, c = letter d ∧ reverseAlphabet c = d := by
  have htable : ∀ n < 256, ¬reverseAlphabet (UInt8.ofNat n) < 0 →
      (reverseAlphabet (UInt8.ofNat n)).toNat < 58 ∧
        UInt8.ofNat n = letter (reverseAlphabet (UInt8.ofNat n)).toNat := by
    decide +kernel
  have h := htable c.toNat c.toNat_lt
  rw [UInt8.ofNat_toNat] at h
  exact ⟨_, (h hc).1, (h hc).2, (Int.toNat_of_nonneg (Int.not_lt.mp hc)).symm⟩

theorem pow_le_encodedBlockSize {n : ℕ} (hn : n ≤ 8) : 256 ^ n ≤ 58 ^ encodedBlockSize n := by
  have htable : ∀ n < 9, 256 ^ n ≤ 58 ^ encodedBlockSize n := by decide
  exact htable n (Nat.lt_succ_of_le hn)

theorem decodedBlockSizes_encodedBlockSize {n : ℕ} (hn : n ≤ 8) :
    encodedBlockSize n ≤ 11 ∧ decodedBlockSizes (encodedBlockSize n) = n := by
  have htable : ∀ n < 9, encodedBlockSize n ≤ 11 ∧ decodedBlockSizes (encodedBlockSize n) = n := by decide
  exact htable n (Nat.lt_succ_of_le hn)

theorem encodedBlockSize_decodedBlockSizes {m : ℕ} (hm : m ≤ 11) (hpos : ¬decodedBlockSizes m ≤ 0) :
    ∃ n : ℕ, n ≤ 8 ∧ 0 < n ∧ decodedBlockSizes m = n ∧ encodedBlockSize n = m := by
  have htable : ∀ m < 12, ¬decodedBlockSizes m ≤ 0 →
      (decodedBlockSizes m).toNat ≤ 8 ∧ encodedBlockSize (decodedBlockSizes m).toNat = m := by decide
  obtain ⟨hle, hsize⟩ := htable m (Nat.lt_succ_of_le hm) hpos
  exact ⟨_, hle, by omega, (Int.toNat_of_nonneg (by omega)).symm, hsize⟩

theorem toNat_uint8beTo64 {data : Blob} (h : data.length ≤ 8) :
    (uint8beTo64 data).toNat = podValue data.reverse := by
  unfold uint8beTo64
  induction data using List.reverseRecOn with
  | nil => rfl
  | append_singleton data c ih =>
    rw [List.length_append, List.length_singleton] at h
    have hlt : podValue data.reverse < 256 ^ 7 := by
      have := podValue_lt data.reverse
      rw [List.length_reverse] at this
      exact this.trans_le (Nat.pow_le_pow_right (by decide) (by omega))
    rw [List.foldl_append, List.foldl_cons, List.foldl_nil, List.reverse_append, List.reverse_singleton,
      List.singleton_append, podValue, UInt64.toNat_or, UInt64.toNat_shiftLeft, ih (by omega),
      UInt8.toNat_toUInt64]
    change podValue data.reverse <<< 8 % 2 ^ 64 ||| c.toNat = _
    rw [Nat.mod_eq_of_lt (by rw [Nat.shiftLeft_eq]; omega), ← Nat.shiftLeft_add_eq_or_of_lt c.toNat_lt,
      Nat.shiftLeft_eq]
    omega

theorem uint64To8be_eq (num : UInt64) {size : ℕ} (h : size ≤ 8) :
    uint64To8be num size = (podBytes size num.toNat).reverse := by
  unfold uint64To8be podBytes
  rw [List.drop_reverse, List.length_map, List.length_range, ← List.map_take, List.take_range]
  congr 3
  omega

theorem encodeDigits_eq {i : ℕ} {num : UInt64} (h : num.toNat < 58 ^ i) (tail : Blob) :
    encodeDigits i num (List.replicate i (letter 0) ++ tail) =
      some (((Numerals.digits 58 i num.toNat).map letter).reverse ++ tail) := by
  induction i generalizing num tail with
  | zero =>
    have hnum : num = 0 := UInt64.toNat_inj.mp (by rw [pow_zero] at h; simpa using h)
    rw [encodeDigits, if_pos hnum]
    rfl
  | succ i ih =>
    rw [encodeDigits]
    split_ifs with hnum
    · subst hnum
      rw [UInt64.toNat_zero, Numerals.digits_zero_right, List.map_replicate, List.reverse_replicate]
    · have hset : (List.replicate (i + 1) (letter 0) ++ tail).set i
          (letter (num % UInt64.ofNat alphabetSize).toNat) =
          List.replicate i (letter 0) ++ letter (num.toNat % 58) :: tail := by
        rw [List.replicate_succ', List.append_assoc, List.set_append_right i _ (by rw [List.length_replicate]),
          List.length_replicate, Nat.sub_self, List.singleton_append, List.set_cons_zero, UInt64.toNat_mod]
        rfl
      have hquot : (num / UInt64.ofNat alphabetSize).toNat = num.toNat / 58 := UInt64.toNat_div _ _
      rw [hset, ih (by rw [hquot]; rw [pow_succ'] at h; exact Nat.div_lt_of_lt_mul h), hquot,
        Numerals.digits, List.map_cons, List.reverse_cons, List.append_assoc, List.singleton_append]

/-- The two tests of `decode_block` notice every overflow. -/
theorem overflow_iff (resNum order digit : UInt64) :
    (resNum + (mul128 order digit).2 < resNum ∨ 0 ≠ (mul128 order digit).1) ↔
      2 ^ 64 ≤ resNum.toNat + order.toNat * digit.toNat := by
  have hproduct := mul128_exact order digit
  have hres := resNum.toNat_lt
  have hlo := (mul128 order digit).2.toNat_lt
  have hhi : 0 ≠ (mul128 order digit).1 ↔ 0 < (mul128 order digit).1.toNat := by
    rw [Nat.pos_iff_ne_zero, ne_comm, ← UInt64.toNat_inj.ne]
    rfl
  rw [hhi, UInt64.lt_iff_toNat_lt, UInt64.toNat_add]
  omega

theorem toNat_add_mul128 {resNum order digit : UInt64}
    (h : ¬2 ^ 64 ≤ resNum.toNat + order.toNat * digit.toNat) :
    (resNum + (mul128 order digit).2).toNat = resNum.toNat + order.toNat * digit.toNat := by
  have hproduct := mul128_exact order digit
  rw [UInt64.toNat_add]
  omega

/-- The letters that are taken are those of digits whose sum does not overflow. -/
theorem decodeDigits_eq_some {l : Blob} {resNum order r : UInt64} {k : ℕ} (hk : order.toNat = 58 ^ k % 2 ^ 64)
    (hlen : k + l.length ≤ 11) :
    decodeDigits l resNum order = some r ↔ ∃ ds : List ℕ, (∀ d ∈ ds, d < 58) ∧ l = ds.map letter ∧
      r.toNat = resNum.toNat + 58 ^ k * Nat.ofDigits 58 ds := by
  induction l generalizing resNum order k with
  | nil =>
    rw [decodeDigits]
    constructor
    · intro h
      obtain rfl := Option.some.inj h
      exact ⟨[], List.forall_mem_nil _, rfl, rfl⟩
    · rintro ⟨ds, -, hds, hr⟩
      obtain rfl := List.map_eq_nil_iff.mp hds.symm
      rw [Nat.ofDigits_nil, Nat.mul_zero, Nat.add_zero] at hr
      rw [UInt64.toNat_inj.mp hr]
  | cons c l ih =>
    rw [List.length_cons] at hlen
    rw [decodeDigits]
    dsimp only
    have horder : order.toNat = 58 ^ k := by
      rw [hk, Nat.mod_eq_of_lt]
      exact (Nat.pow_le_pow_right (by decide) (show k ≤ 10 by omega)).trans_lt (by decide)
    have hnext : (order * UInt64.ofNat alphabetSize).toNat = 58 ^ (k + 1) % 2 ^ 64 := by
      rw [UInt64.toNat_mul, horder, pow_succ]
      rfl
    split_ifs with hdigit hover
    · -- no letter of the alphabet
      refine iff_of_false (fun h => nomatch h) ?_
      rintro ⟨_ | ⟨d, ds⟩, hlt, hds, -⟩
      · exact absurd hds (List.cons_ne_nil _ _)
      · rw [List.map_cons, List.cons.injEq] at hds
        rw [hds.1, reverseAlphabet_letter (List.forall_mem_cons.mp hlt).1] at hdigit
        omega
    all_goals
      obtain ⟨d, hd, rfl, hvalue⟩ := letter_reverseAlphabet hdigit
      have hnat : (UInt64.ofNat (reverseAlphabet (letter d)).toNat).toNat = d := by
        rw [hvalue, Int.toNat_natCast, UInt64.toNat_ofNat', Nat.mod_eq_of_lt (by omega)]
      rw [overflow_iff, horder, hnat] at hover
      have hsum : ∀ ds : List ℕ, resNum.toNat + 58 ^ k * Nat.ofDigits 58 (d :: ds) =
          resNum.toNat + 58 ^ k * d + 58 ^ (k + 1) * Nat.ofDigits 58 ds := by
        intro ds
        rw [Nat.ofDigits_cons, Nat.mul_add, pow_succ, Nat.mul_assoc, Nat.add_assoc]
    · refine iff_of_false (fun h => nomatch h) ?_
      rintro ⟨_ | ⟨d', ds⟩, hlt, hds, hr⟩
      · exact absurd hds (List.cons_ne_nil _ _)
      · rw [List.map_cons, List.cons.injEq] at hds
        obtain rfl := letter_inj hd (List.forall_mem_cons.mp hlt).1 hds.1
        have := r.toNat_lt
        rw [hsum] at hr
        omega
    · have htmp : (resNum + (mul128 order (UInt64.ofNat (reverseAlphabet (letter d)).toNat)).2).toNat =
          resNum.toNat + order.toNat * (UInt64.ofNat (reverseAlphabet (letter d)).toNat).toNat := by
        apply toNat_add_mul128
        rw [horder, hnat]
        exact hover
      rw [ih hnext (by omega), htmp, horder, hnat]
      constructor
      · rintro ⟨ds, hlt, rfl, hr⟩
        exact ⟨d :: ds, List.forall_mem_cons.mpr ⟨hd, hlt⟩, rfl, by rw [hsum, hr]⟩
      · rintro ⟨_ | ⟨d', ds⟩, hlt, hds, hr⟩
        · exact absurd hds (List.cons_ne_nil _ _)
        · rw [List.map_cons, List.cons.injEq] at hds
          rw [List.forall_mem_cons] at hlt
          obtain rfl := letter_inj hd hlt.1 hds.1
          exact ⟨ds, hlt.2, hds.2, by rw [hr, hsum]⟩

/-- The last test of `decode_block` leaves the values that fit in `n` bytes. -/
theorem limit_iff {n : ℕ} (hn : n ≤ 8) (resNum : UInt64) :
    (n < fullBlockSize ∧ 1 <<< (8 * UInt64.ofNat n) ≤ resNum) ↔ 256 ^ n ≤ resNum.toNat := by
  have htable : ∀ n < 8, ((1 : UInt64) <<< (8 * UInt64.ofNat n)).toNat = 256 ^ n := by decide
  have hfull : fullBlockSize = 8 := rfl
  rw [hfull]
  rcases Nat.lt_or_ge n 8 with hlt | hge
  · rw [and_iff_right hlt, UInt64.le_iff_toNat_le, htable n hlt]
  · obtain rfl := Nat.le_antisymm hn hge
    refine iff_of_false (fun h => absurd h.1 (by omega)) ?_
    have := resNum.toNat_lt
    omega

theorem letters_inj {ds ds' : List ℕ} (h : ∀ d ∈ ds, d < 58) (h' : ∀ d ∈ ds', d < 58)
    (heq : (ds.map letter).reverse = (ds'.map letter).reverse) : ds = ds' := by
  have hback : ∀ ds : List ℕ, (∀ d ∈ ds, d < 58) →
      (ds.map letter).map (fun c => (reverseAlphabet c).toNat) = ds := by
    intro ds hds
    rw [List.map_map]
    refine (List.map_congr_left fun d hd => ?_).trans (List.map_id ds)
    rw [Function.comp_apply, reverseAlphabet_letter (hds d hd), Int.toNat_natCast, id]
  rw [← hback ds h, List.reverse_inj.mp heq, hback ds' h']

/-- The blocks that are read are the letters of numbers that fit in their bytes. -/
theorem decodeBlock_eq_some {block d : Blob} (hlen : block.length ≤ 11) :
    decodeBlock block = some d ↔ ∃ n ≤ 8, 0 < n ∧ encodedBlockSize n = block.length ∧
      ∃ ds : List ℕ, (∀ d ∈ ds, d < 58) ∧ block = (ds.map letter).reverse ∧
        Nat.ofDigits 58 ds < 256 ^ n ∧ d = (podBytes n (Nat.ofDigits 58 ds)).reverse := by
  unfold decodeBlock
  dsimp only
  by_cases hnone : decodedBlockSizes block.length ≤ 0
  · rw [if_pos hnone]
    refine iff_of_false (fun h => nomatch h) ?_
    rintro ⟨n, hn, hpos, hsize, -⟩
    rw [← hsize, (decodedBlockSizes_encodedBlockSize hn).2] at hnone
    omega
  · obtain ⟨n, hn, hpos, hres, hsize⟩ := encodedBlockSize_decodedBlockSizes hlen hnone
    have huniq : ∀ n' ≤ 8, encodedBlockSize n' = block.length → n' = n := by
      intro n' hn' hsize'
      have := (decodedBlockSizes_encodedBlockSize hn').2
      rw [hsize', hres] at this
      exact (Int.ofNat_inj.mp this).symm
    have hdigits : ∀ r, decodeDigits block.reverse 0 1 = some r ↔ ∃ ds : List ℕ, (∀ d ∈ ds, d < 58) ∧
        block = (ds.map letter).reverse ∧ r.toNat = Nat.ofDigits 58 ds := by
      intro r
      rw [@decodeDigits_eq_some block.reverse 0 1 r 0 rfl (by rw [List.length_reverse]; omega)]
      simp only [pow_zero, Nat.one_mul, UInt64.toNat_zero, Nat.zero_add, List.reverse_eq_iff]
    rw [if_neg hnone, hres, Int.toNat_natCast]
    cases hread : decodeDigits block.reverse 0 1 with
    | none =>
      refine iff_of_false (fun h => nomatch h) ?_
      rintro ⟨n', hn', -, -, ds, hlt, hblock, hfits, -⟩
      have hlt64 : Nat.ofDigits 58 ds < 2 ^ 64 :=
        hfits.trans_le (Nat.pow_le_pow_right (show 0 < 256 by decide) hn')
      have := (hdigits (UInt64.ofNat (Nat.ofDigits 58 ds))).mpr
        ⟨ds, hlt, hblock, by rw [UInt64.toNat_ofNat', Nat.mod_eq_of_lt hlt64]⟩
      rw [hread] at this
      cases this
    | some r =>
      obtain ⟨ds, hlt, hblock, hr⟩ := (hdigits r).mp hread
      dsimp only
      rw [uint64To8be_eq r hn, hr]
      split_ifs with hlimit
      all_goals rw [limit_iff hn, hr] at hlimit
      · refine iff_of_false (fun h => nomatch h) ?_
        rintro ⟨n', hn', -, hsize', ds', hlt', hblock', hfits, -⟩
        obtain rfl := huniq n' hn' hsize'
        rw [letters_inj hlt hlt' (hblock.symm.trans hblock')] at hlimit
        omega
      · constructor
        · intro h
          obtain rfl := Option.some.inj h
          exact ⟨n, hn, hpos, hsize, ds, hlt, hblock, Nat.lt_of_not_le hlimit, rfl⟩
        · rintro ⟨n', hn', -, hsize', ds', hlt', hblock', -, rfl⟩
          obtain rfl := huniq n' hn' hsize'
          rw [letters_inj hlt hlt' (hblock.symm.trans hblock')]

theorem encodeBlock_eq {block : Blob} (h : block.length ≤ 8) :
    encodeBlock block = some ((Numerals.digits 58 (encodedBlockSize block.length)
      (podValue block.reverse)).map letter).reverse := by
  have hlt := podValue_lt block.reverse
  rw [List.length_reverse, ← toNat_uint8beTo64 h] at hlt
  have := encodeDigits_eq (hlt.trans_le (pow_le_encodedBlockSize h)) []
  rw [List.append_nil, List.append_nil, toNat_uint8beTo64 h] at this
  exact this

theorem code_blocks : Blocks.Code encodeBlock decodeBlock fullBlockSize encodedBlockSize where
  full_pos := by decide
  size_zero := rfl
  size_pos := by decide
  size_lt := by decide
  dec_enc d hd hlen := by
    have hlt := podValue_lt d.reverse
    have hsize := pow_le_encodedBlockSize hlen
    rw [List.length_reverse] at hlt
    refine ⟨_, encodeBlock_eq hlen, by simp, ?_⟩
    refine (decodeBlock_eq_some ?_).mpr ⟨d.length, hlen, List.length_pos_of_ne_nil hd, by simp, _,
      fun _ => Numerals.lt_of_mem_digits (by decide), rfl, ?_, ?_⟩
    · simpa using (decodedBlockSizes_encodedBlockSize hlen).1
    · rw [Numerals.ofDigits_digits (hlt.trans_le hsize)]
      exact hlt
    · have := podBytes_podValue d.reverse
      rw [List.length_reverse] at this
      rw [Numerals.ofDigits_digits (hlt.trans_le hsize), this, List.reverse_reverse]
  enc_dec e d he hlen hdec := by
    obtain ⟨n, hn, hpos, hsize, ds, hlt, rfl, hfits, rfl⟩ := (decodeBlock_eq_some hlen).mp hdec
    have hbytes : (podBytes n (Nat.ofDigits 58 ds)).reverse.length = n := by simp
    refine ⟨List.ne_nil_of_length_pos (by omega), hbytes.trans_le hn, by rw [hbytes, hsize], ?_⟩
    rw [encodeBlock_eq (hbytes.trans_le hn), hbytes, List.reverse_reverse, podValue_podBytes hfits, hsize,
      List.length_reverse, List.length_map, Numerals.digits_ofDigits hlt]

theorem decode_encode (d : Blob) : ∃ s, encode d = some s ∧ decode s = some d := by
  by_cases hd : d = []
  · subst hd
    exact ⟨[], rfl, rfl⟩
  · obtain ⟨s, henc, hcount, hrest, hdec⟩ := code_blocks.decode_encode d
    have hlast : d.length % fullBlockSize ≤ 8 := (Nat.mod_lt _ code_blocks.full_pos).le
    refine ⟨s, by rw [encode, if_neg hd, henc], ?_⟩
    have hs : s ≠ [] := by
      rintro rfl
      rw [← hcount] at hdec
      exact hd (Option.some.inj hdec).symm
    rw [decode, if_neg hs, if_neg, ← hdec, ← hcount]
    · rfl
    · rw [show fullEncodedBlockSize = encodedBlockSize fullBlockSize from rfl, hrest,
        (decodedBlockSizes_encodedBlockSize hlast).2]
      omega

theorem encode_decode {s d : Blob} (h : decode s = some d) : encode d = some s := by
  unfold decode at h
  split_ifs at h with hs
  · obtain rfl := Option.some.inj h
    rw [hs]
    rfl
  · have henc := code_blocks.encode_decode h
    have hd : d ≠ [] := by
      rintro rfl
      exact hs (Option.some.inj henc).symm
    rw [encode, if_neg hd, henc]

theorem decode_iff {s d : Blob} : decode s = some d ↔ encode d = some s := by
  refine ⟨encode_decode, fun h => ?_⟩
  obtain ⟨s', henc, hdec⟩ := decode_encode d
  rw [h] at henc
  rwa [← Option.some.inj henc] at hdec

/-- Every byte string has an encoding, and the strings that are decoded are the encodings. -/
theorem decode_iff_encode (d s : Blob) :
    (∃ s, encode d = some s ∧ decode s = some d) ∧ (decode s = some d ↔ encode d = some s) :=
  ⟨decode_encode d, decode_iff⟩

/-- Ten letters hold more than seven bytes. -/
example : decode (List.replicate 10 122) = none := by decide +kernel

end Base58
end Boolberry
