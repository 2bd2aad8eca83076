import Boolberry.Core
import Boolberry.Lib.HighestBit
import Boolberry.Lib.MerkleTree

/-!
# The tree hash

`tree-hash.c` finds a power of two by smearing bits, hashes the leaves behind a border in pairs, and folds the
levels in the array it reads from. Its result is the root of the Merkle tree.
-/

namespace Boolberry
namespace TreeHash

def HASH_SIZE : UInt64 := 32

/-- The scratch array; a cell that has not been written has no value. -/
abbrev Scratch := List (Option Hash)

/-- `cn_fast_hash(src[i], 64, …)`, of two cells; `none` when one of them is not there. -/
def hashTwo (E : Env) (src : Scratch) (i : UInt64) : Option Hash :=
  (src[i.toNat]?).join.bind fun a => (src[i.toNat + 1]?).join.map fun b =>
    E.cnFastHash (hashBytes a ++ hashBytes b)

/-- A hash is written to `ints[j]`. -/
def store (ints : Scratch) (j : UInt64) (h : Hash) : Option Scratch :=
  if j.toNat < ints.length then some (ints.set j.toNat (some h)) else none

/-- `for (; j < cnt; i += 2, ++j) cn_fast_hash(src[i], 64, ints[j])`; the source is the input, or `ints`
as it is at that moment. -/
def pairLoop (E : Env) (src : Scratch → Scratch) (cnt : UInt64) :
    ℕ → UInt64 → UInt64 → Scratch → Option (UInt64 × Scratch)
  | 0, i, j, ints => if j < cnt then none else some (i, ints)
  | n + 1, i, j, ints =>
      if j < cnt then
        (hashTwo E (src ints) i).bind fun h =>
          (store ints j h).bind fun ints => pairLoop E src cnt n (i + 2) (j + 1) ints
      else some (i, ints)

/-- `while (cnt > 2)`. -/
def foldLevels (E : Env) : ℕ → UInt64 → Scratch → Option Scratch
  | 0, cnt, ints => if 2 < cnt then none else some ints
  | n + 1, cnt, ints =>
      if 2 < cnt then
        let cnt := cnt >>> 1
        (pairLoop E id cnt cnt.toNat 0 0 ints).bind fun r => foldLevels E n cnt r.2
      else some ints

def highestBit (cnt : UInt64) : UInt64 :=
  let cnt := ([1, 2, 4, 8, 16, 32] : List UInt64).foldl (fun cnt i => cnt ||| cnt >>> i) cnt
  cnt &&& ~~~(cnt >>> 1)

/-- `memcpy(ints, hashes, size)`. -/
def copyHashes (ints : Scratch) (hashes : List Hash) (size : UInt64) : Option Scratch :=
  let n := (size / HASH_SIZE).toNat
  if n ≤ ints.length ∧ n ≤ hashes.length then some ((hashes.take n).map some ++ ints.drop n) else none

/-- `tree_hash`; `none` when a read or a write is out of bounds or an assertion fails. -/
def treeHash (E : Env) (hashes : List Hash) : Option Hash :=
  let count := UInt64.ofNat hashes.length
  if count = 0 then none
  else if count = 1 then hashes[0]?
  else if count = 2 then hashTwo E (hashes.map some) 0
  else
    let cnt := highestBit (count - 1)
    let ints := List.replicate (cnt * HASH_SIZE / HASH_SIZE).toNat none
    (copyHashes ints hashes ((2 * cnt - count) * HASH_SIZE)).bind fun ints =>
      (pairLoop E (fun _ => hashes.map some) cnt cnt.toNat (2 * cnt - count) (2 * cnt - count) ints).bind
        fun r =>
          if r.1 = count then (foldLevels E 64 cnt r.2).bind fun ints => hashTwo E ints 0 else none

/-- The node over two hashes. -/
def hashNode (E : Env) (a b : Hash) : Hash := E.cnFastHash (hashBytes a ++ hashBytes b)

section Loops

variable {E : Env}

theorem hashTwo_eq {pre rest : Scratch} {a b : Hash} {i : UInt64} (hi : i.toNat = pre.length) :
    hashTwo E (pre ++ some a :: some b :: rest) i = some (hashNode E a b) := by
  unfold hashTwo
  have hnext : pre.length + 1 - pre.length = 1 := Nat.add_sub_cancel_left _ _
  rw [hi, List.getElem?_append_right le_rfl, Nat.sub_self, List.getElem?_append_right (Nat.le_succ _),
    Nat.succ_eq_add_one, hnext]
  rfl

theorem store_eq {pre rest : Scratch} {c : Option Hash} {j : UInt64} (hj : j.toNat = pre.length) (h : Hash) :
    store (pre ++ c :: rest) j h = some (pre ++ some h :: rest) := by
  have hlt : j.toNat < (pre ++ c :: rest).length := by
    rw [hj, List.length_append, List.length_cons]
    omega
  unfold store
  rw [if_pos hlt, hj, List.set_append_right _ _ le_rfl, Nat.sub_self, List.set_cons_zero]

theorem toNat_add_two {i : UInt64} (h : i.toNat + 2 < 2 ^ 64) : (i + 2).toNat = i.toNat + 2 := by
  rw [UInt64.toNat_add]
  exact Nat.mod_eq_of_lt h

theorem toNat_add_one {j : UInt64} (h : j.toNat + 1 < 2 ^ 64) : (j + 1).toNat = j.toNat + 1 := by
  rw [UInt64.toNat_add]
  exact Nat.mod_eq_of_lt h

/-- The leaves behind the border are hashed in pairs into the cells behind those that are written. -/
theorem leafLoop_eq {n fuel : ℕ} {i j cnt : UInt64} {pre tail done : List Hash}
    (hi : i.toNat = pre.length) (hj : j.toNat = done.length) (htail : tail.length = 2 * n)
    (hcnt : cnt.toNat = done.length + n) (hfuel : n ≤ fuel) (hlt : (pre ++ tail).length + 2 < 2 ^ 64) :
    ∃ i', i'.toNat = (pre ++ tail).length ∧
      pairLoop E (fun _ => (pre ++ tail).map some) cnt fuel i j (done.map some ++ List.replicate n none) =
        some (i', (done ++ MerkleTree.pairUp (hashNode E) tail).map some) := by
  induction n generalizing fuel i j pre tail done with
  | zero =>
    obtain rfl := List.length_eq_zero_iff.mp htail
    have hend : ¬j < cnt := by
      rw [UInt64.lt_iff_toNat_lt]
      omega
    refine ⟨i, by rw [List.append_nil, hi], ?_⟩
    cases fuel <;> simp [pairLoop, hend, MerkleTree.pairUp]
  | succ n ih =>
    obtain _ | ⟨a, _ | ⟨b, tail⟩⟩ := tail
    · simp at htail
    · simp at htail
      omega
    obtain ⟨fuel, rfl⟩ := Nat.exists_eq_add_one_of_ne_zero (show fuel ≠ 0 by omega)
    simp only [List.length_append, List.length_cons] at htail hlt
    have hnext : j < cnt := by
      rw [UInt64.lt_iff_toNat_lt]
      omega
    have hread : hashTwo E ((pre ++ a :: b :: tail).map some) i = some (hashNode E a b) := by
      rw [List.map_append]
      exact hashTwo_eq (by rw [List.length_map, hi])
    have hstore : store (done.map some ++ List.replicate (n + 1) none) j (hashNode E a b) =
        some ((done ++ [hashNode E a b]).map some ++ List.replicate n none) := by
      rw [List.replicate_succ, store_eq (by rw [List.length_map, hj]), List.map_append, List.append_assoc]
      rfl
    have hbound := cnt.toNat_lt
    obtain ⟨i', hi', hloop⟩ := @ih fuel (i + 2) (j + 1) (pre ++ [a, b]) tail (done ++ [hashNode E a b])
      (by rw [toNat_add_two (by omega), hi, List.length_append]; rfl)
      (by rw [toNat_add_one (by omega), hj, List.length_append]; rfl) (by omega)
      (by rw [hcnt, List.length_append, List.length_singleton]; omega) (by omega)
      (by simp only [List.length_append, List.length_cons, List.length_nil]; omega)
    have hsplit : pre ++ [a, b] ++ tail = pre ++ a :: b :: tail := by simp
    rw [hsplit] at hi' hloop
    refine ⟨i', hi', ?_⟩
    rw [pairLoop, if_pos hnext, hread, Option.bind_some, hstore, Option.bind_some, hloop, MerkleTree.pairUp,
      List.append_assoc, List.singleton_append]

/-- In place: the cells behind the ones written are read before they are overwritten. -/
theorem levelLoop_eq {n fuel : ℕ} {i j cnt : UInt64} {done tail : List Hash} {junk rest : Scratch}
    (hjunk : junk.length = done.length) (hi : i.toNat = 2 * done.length) (hj : j.toNat = done.length)
    (htail : tail.length = 2 * n) (hcnt : cnt.toNat = done.length + n) (hfuel : n ≤ fuel)
    (hlt : 2 * cnt.toNat + 2 < 2 ^ 64) :
    ∃ i' rest', pairLoop E id cnt fuel i j (done.map some ++ junk ++ tail.map some ++ rest) =
      some (i', (done ++ MerkleTree.pairUp (hashNode E) tail).map some ++ rest') := by
  induction n generalizing fuel i j done tail junk with
  | zero =>
    obtain rfl := List.length_eq_zero_iff.mp htail
    have hend : ¬j < cnt := by
      rw [UInt64.lt_iff_toNat_lt]
      omega
    refine ⟨i, junk ++ rest, ?_⟩
    cases fuel <;> simp [pairLoop, hend, MerkleTree.pairUp]
  | succ n ih =>
    obtain _ | ⟨a, _ | ⟨b, tail⟩⟩ := tail
    · simp at htail
    · simp at htail
      omega
    obtain ⟨fuel, rfl⟩ := Nat.exists_eq_add_one_of_ne_zero (show fuel ≠ 0 by omega)
    rw [List.length_cons, List.length_cons] at htail
    have hnext : j < cnt := by
      rw [UInt64.lt_iff_toNat_lt]
      omega
    have hread : hashTwo E (id (done.map some ++ junk ++ (a :: b :: tail).map some ++ rest)) i =
        some (hashNode E a b) := by
      rw [id, List.append_assoc]
      refine hashTwo_eq ?_
      rw [List.length_append, List.length_map, hjunk, hi]
      omega
    -- the cell that is written is the first behind `done`, and one of the two that were read when `done` is empty
    obtain ⟨x, junk', hmiddle⟩ : ∃ x junk', junk ++ [some a, some b] = x :: junk' := by
      cases junk with
      | nil => exact ⟨_, _, rfl⟩
      | cons x junk => exact ⟨x, _, rfl⟩
    have hlength := congrArg List.length hmiddle
    rw [List.length_append, List.length_cons, List.length_cons, List.length_cons, List.length_nil] at hlength
    have hcells : done.map some ++ junk ++ (a :: b :: tail).map some ++ rest =
        done.map some ++ x :: (junk' ++ tail.map some ++ rest) := by
      calc done.map some ++ junk ++ (a :: b :: tail).map some ++ rest
          = done.map some ++ ((junk ++ [some a, some b]) ++ (tail.map some ++ rest)) := by simp
        _ = done.map some ++ x :: (junk' ++ tail.map some ++ rest) := by
            rw [hmiddle, List.cons_append, List.append_assoc]
    have hstore : store (done.map some ++ junk ++ (a :: b :: tail).map some ++ rest) j (hashNode E a b) =
        some ((done ++ [hashNode E a b]).map some ++ junk' ++ tail.map some ++ rest) := by
      rw [hcells, store_eq (by rw [List.length_map, hj]), List.map_append, List.append_assoc, List.append_assoc,
        List.append_assoc, List.append_assoc]
      rfl
    obtain ⟨i', rest', hloop⟩ := @ih fuel (i + 2) (j + 1) (done ++ [hashNode E a b]) tail junk'
      (by rw [List.length_append, List.length_singleton]; omega)
      (by rw [toNat_add_two (by omega), hi, List.length_append, List.length_singleton]; omega)
      (by rw [toNat_add_one (by omega), hj, List.length_append, List.length_singleton]) (by omega)
      (by rw [hcnt, List.length_append, List.length_singleton]; omega) (by omega)
    refine ⟨i', rest', ?_⟩
    rw [pairLoop, if_pos hnext, hread, Option.bind_some, hstore, Option.bind_some, hloop, MerkleTree.pairUp,
      List.append_assoc, List.singleton_append]

theorem foldLevels_eq {d fuel : ℕ} {cnt : UInt64} {l : List Hash} {rest : Scratch}
    (hcnt : cnt.toNat = 2 ^ (d + 1)) (hl : l.length = 2 ^ (d + 1)) (hfuel : d ≤ fuel)
    (hlt : cnt.toNat + 2 < 2 ^ 64) :
    ∃ ints, foldLevels E fuel cnt (l.map some ++ rest) = some ints ∧
      hashTwo E ints 0 = MerkleTree.completeRoot (hashNode E) (d + 1) l := by
  induction d generalizing fuel cnt l rest with
  | zero =>
    have hend : ¬2 < cnt := by
      rw [UInt64.lt_iff_toNat_lt, hcnt]
      decide
    obtain ⟨a, b, rfl⟩ := List.length_eq_two.mp hl
    refine ⟨_, by cases fuel <;> rw [foldLevels, if_neg hend], ?_⟩
    exact @hashTwo_eq E [] rest a b 0 rfl
  | succ d ih =>
    obtain ⟨fuel, rfl⟩ := Nat.exists_eq_add_one_of_ne_zero (show fuel ≠ 0 by omega)
    have hpos : 0 < 2 ^ d := Nat.pow_pos (by decide)
    rw [pow_succ, pow_succ] at hcnt hl
    have hnext : 2 < cnt := by
      rw [UInt64.lt_iff_toNat_lt, hcnt]
      change 2 < _
      omega
    have hhalf : (cnt >>> 1).toNat = 2 ^ (d + 1) := by
      have hshift : (cnt >>> 1).toNat = cnt.toNat / 2 := by
        rw [UInt64.toNat_shiftRight, Nat.shiftRight_eq_div_pow]
        rfl
      rw [hshift, hcnt, pow_succ, Nat.mul_div_cancel _ (by decide)]
    obtain ⟨i', rest', hloop⟩ := @levelLoop_eq E (2 ^ (d + 1)) (cnt >>> 1).toNat 0 0 (cnt >>> 1) [] l [] rest
      rfl rfl rfl (by rw [hl, pow_succ, Nat.mul_comm]) (by rw [hhalf, List.length_nil, Nat.zero_add])
      (by rw [hhalf]) (by rw [hhalf, pow_succ]; omega)
    have hlevel : (MerkleTree.pairUp (hashNode E) l).length = 2 ^ (d + 1) :=
      MerkleTree.length_pairUp _ (by rw [hl, pow_succ, Nat.mul_comm])
    obtain ⟨ints, hfold, hroot⟩ := @ih fuel (cnt >>> 1) (MerkleTree.pairUp (hashNode E) l) rest' hhalf hlevel
      (by omega) (by rw [hhalf, pow_succ]; omega)
    refine ⟨ints, ?_, ?_⟩
    · rw [foldLevels, if_pos hnext]
      change (pairLoop E id (cnt >>> 1) (cnt >>> 1).toNat 0 0 (l.map some ++ rest)).bind _ = _
      have hloop' : pairLoop E id (cnt >>> 1) (cnt >>> 1).toNat 0 0 (l.map some ++ rest) =
          some (i', (MerkleTree.pairUp (hashNode E) l).map some ++ rest') := hloop
      rw [hloop', Option.bind_some, hfold]
    · rw [hroot, MerkleTree.completeRoot_pairUp _ (by rw [hl, pow_succ, pow_succ])]

end Loops

theorem toNat_highestBit {cnt : UInt64} (h : cnt ≠ 0) : (highestBit cnt).toNat = 2 ^ Nat.log2 cnt.toNat := by
  have hbits : cnt.toBitVec ≠ 0 := fun hzero => h (UInt64.toBitVec_inj.mp hzero)
  have hcode : (highestBit cnt).toBitVec = HighestBit.highest cnt.toBitVec 6 := rfl
  rw [← UInt64.toNat_toBitVec, hcode, HighestBit.toNat_highest hbits (by decide), UInt64.toNat_toBitVec]

/-- With three hashes or more, the array holds the border after the first loop, and the root of the complete
tree over it is the result. -/
theorem treeHash_many (E : Env) {hashes : List Hash} (h : 3 ≤ hashes.length)
    (hfits : HASH_SIZE.toNat * hashes.length < 2 ^ 64) :
    treeHash E hashes = MerkleTree.root (hashNode E) hashes := by
  obtain ⟨hbelow, habove⟩ := MerkleTree.log2_pred_spec (show 2 ≤ hashes.length by omega)
  have hsize : HASH_SIZE.toNat = 32 := rfl
  rw [hsize] at hfits
  have hcount : (UInt64.ofNat hashes.length).toNat = hashes.length := by
    rw [UInt64.toNat_ofNat', Nat.mod_eq_of_lt (by omega)]
  have hpred : (UInt64.ofNat hashes.length - 1).toNat = hashes.length - 1 := by
    rw [UInt64.toNat_sub_of_le _ _ (by rw [UInt64.le_iff_toNat_le, hcount]; change 1 ≤ _; omega), hcount]
    rfl
  have hsmall : ∀ m : UInt64, m.toNat < 3 → UInt64.ofNat hashes.length ≠ m := by
    rintro m hm rfl
    omega
  obtain ⟨d, hd⟩ : ∃ d, Nat.log2 (hashes.length - 1) = d + 1 := by
    refine Nat.exists_eq_add_one_of_ne_zero fun hzero => ?_
    rw [hzero] at habove
    omega
  have hcnt : (highestBit (UInt64.ofNat hashes.length - 1)).toNat = 2 ^ (d + 1) := by
    rw [toNat_highestBit, hpred, hd]
    intro hzero
    rw [hzero] at hpred
    change 0 = _ at hpred
    omega
  rw [hd] at hbelow habove
  have hkept : (2 * highestBit (UInt64.ofNat hashes.length - 1) - UInt64.ofNat hashes.length).toNat =
      2 * 2 ^ (d + 1) - hashes.length := by
    have hdouble : (2 * highestBit (UInt64.ofNat hashes.length - 1)).toNat = 2 * 2 ^ (d + 1) := by
      rw [UInt64.toNat_mul, hcnt]
      exact Nat.mod_eq_of_lt (by change 2 * 2 ^ (d + 1) < _; omega)
    rw [UInt64.toNat_sub_of_le _ _ (by rw [UInt64.le_iff_toNat_le, hdouble, hcount]; exact habove), hdouble,
      hcount]
  unfold treeHash MerkleTree.root
  dsimp only
  rw [if_neg (hsmall 0 (by decide)), if_neg (hsmall 1 (by decide)), if_neg (hsmall 2 (by decide)),
    if_neg (by omega), hd]
  generalize highestBit (UInt64.ofNat hashes.length - 1) = cnt at hcnt hkept ⊢
  generalize 2 * cnt - UInt64.ofNat hashes.length = kept at hkept ⊢
  have hcells : (cnt * HASH_SIZE / HASH_SIZE).toNat = 2 ^ (d + 1) := by
    rw [UInt64.toNat_div, UInt64.toNat_mul, hcnt, hsize, Nat.mod_eq_of_lt (by omega),
      Nat.mul_div_cancel _ (by decide)]
  have hcopied : (kept * HASH_SIZE / HASH_SIZE).toNat = kept.toNat := by
    rw [UInt64.toNat_div, UInt64.toNat_mul, hsize, Nat.mod_eq_of_lt (by omega),
      Nat.mul_div_cancel _ (by decide)]
  have hcopy : copyHashes (List.replicate (cnt * HASH_SIZE / HASH_SIZE).toNat none) hashes (kept * HASH_SIZE) =
      some ((hashes.take kept.toNat).map some ++ List.replicate (2 ^ (d + 1) - kept.toNat) none) := by
    unfold copyHashes
    dsimp only
    rw [hcells, hcopied, List.length_replicate, if_pos ⟨by omega, by omega⟩, List.drop_replicate]
  have htaken : (hashes.take kept.toNat).length = kept.toNat := List.length_take_of_le (by omega)
  have hsplit := List.take_append_drop kept.toNat hashes
  obtain ⟨i', hi', hloop⟩ := @leafLoop_eq E (2 ^ (d + 1) - kept.toNat) cnt.toNat kept kept cnt
    (hashes.take kept.toNat) (hashes.drop kept.toNat) (hashes.take kept.toNat) htaken.symm htaken.symm
    (by rw [List.length_drop]; omega) (by rw [htaken]; omega) (by omega) (by rw [hsplit]; omega)
  rw [hsplit] at hi' hloop
  have hborder : hashes.take kept.toNat ++ MerkleTree.pairUp (hashNode E) (hashes.drop kept.toNat) =
      MerkleTree.border (hashNode E) hashes := by
    unfold MerkleTree.border
    rw [hd, hkept]
  have hend : i' = UInt64.ofNat hashes.length := UInt64.toNat_inj.mp (hi'.trans hcount.symm)
  have hdepth : d ≤ 64 := by
    by_contra hdeep
    have := Nat.pow_le_pow_right (show 0 < 2 by decide) (show 64 ≤ d + 1 by omega)
    omega
  have hwhole := MerkleTree.length_border (hashNode E) (show 2 ≤ hashes.length by omega)
  obtain ⟨ints, hfold, hroot⟩ := @foldLevels_eq E d 64 cnt (MerkleTree.border (hashNode E) hashes) [] hcnt
    (by rw [hwhole, hd]) hdepth (by omega)
  rw [List.append_nil] at hfold
  rw [hcopy, Option.bind_some, hloop, Option.bind_some, hborder, if_pos hend, hfold, Option.bind_some, hroot]

theorem hashPairs_eq (E : Env) : ∀ l, hashPairs E l = MerkleTree.pairUp (hashNode E) l
  | [] => rfl
  | [_] => rfl
  | a :: b :: l => congrArg (hashNode E a b :: ·) (hashPairs_eq E l)

theorem treeHashLevels_eq (E : Env) {d fuel : ℕ} {l : List Hash} (hl : l.length = 2 ^ (d + 1))
    (hfuel : d ≤ fuel) : ∃ a b, treeHashLevels E fuel (2 ^ (d + 1)) l = [a, b] ∧
      MerkleTree.completeRoot (hashNode E) (d + 1) l = some (hashNode E a b) := by
  induction d generalizing fuel l with
  | zero =>
    obtain ⟨a, b, rfl⟩ := List.length_eq_two.mp hl
    exact ⟨a, b, by cases fuel <;> rfl, rfl⟩
  | succ d ih =>
    obtain ⟨fuel, rfl⟩ := Nat.exists_eq_add_one_of_ne_zero (show fuel ≠ 0 by omega)
    have hpos : 0 < 2 ^ d := Nat.pow_pos (by decide)
    have hhalf : 2 ^ (d + 1 + 1) / 2 = 2 ^ (d + 1) := by rw [pow_succ, Nat.mul_div_cancel _ (by decide)]
    have hbig : 2 < 2 ^ (d + 1 + 1) := by
      rw [pow_succ, pow_succ]
      omega
    have hlevel : (MerkleTree.pairUp (hashNode E) l).length = 2 ^ (d + 1) :=
      MerkleTree.length_pairUp _ (by rw [hl, pow_succ, Nat.mul_comm])
    obtain ⟨a, b, hlevels, hroot⟩ := @ih fuel (MerkleTree.pairUp (hashNode E) l) hlevel (by omega)
    refine ⟨a, b, ?_, ?_⟩
    · rw [treeHashLevels, if_pos hbig, hhalf, ← pow_succ, ← hl, List.take_length, hashPairs_eq, hlevels]
    · rw [← MerkleTree.completeRoot_pairUp _ hl, hroot]

theorem root_eq_treeHash (E : Env) {hashes : List Hash} (hne : hashes ≠ [])
    (hfits : HASH_SIZE.toNat * hashes.length < 2 ^ 64) :
    MerkleTree.root (hashNode E) hashes = some (Boolberry.treeHash E hashes) := by
  obtain _ | ⟨a, _ | ⟨b, _ | ⟨e, l⟩⟩⟩ := hashes
  · exact absurd rfl hne
  · rfl
  · rfl
  · have hlen : 3 ≤ (a :: b :: e :: l).length := by simp
    unfold Boolberry.treeHash
    dsimp only
    generalize a :: b :: e :: l = hashes at *
    obtain ⟨hbelow, habove⟩ := MerkleTree.log2_pred_spec (show 2 ≤ hashes.length by omega)
    obtain ⟨d, hd⟩ : ∃ d, Nat.log2 (hashes.length - 1) = d + 1 := by
      refine Nat.exists_eq_add_one_of_ne_zero fun hzero => ?_
      rw [hzero] at habove
      omega
    have hwhole := MerkleTree.length_border (hashNode E) (show 2 ≤ hashes.length by omega)
    rw [hd] at hwhole hbelow
    have hdepth : d ≤ 64 := by
      by_contra hdeep
      have := Nat.pow_le_pow_right (show 0 < 2 by decide) (show 64 ≤ d + 1 by omega)
      have hbytes : 32 * hashes.length < 2 ^ 64 := hfits
      omega
    obtain ⟨x, y, hlevels, hroot⟩ := @treeHashLevels_eq E d 64 _ hwhole hdepth
    unfold MerkleTree.border at hlevels
    rw [MerkleTree.root, if_neg (by omega), hd, hroot, hashPairs_eq]
    rw [hd] at hlevels
    dsimp only at hlevels
    rw [hlevels]
    simp [hashNode]

/-- `tree_hash` reads and writes within its arrays, its assertions hold, and it gives the root of the Merkle
tree over its hashes. -/
theorem treeHash_root (E : Env) {hashes : List Hash} (hne : hashes ≠ [])
    (hfits : HASH_SIZE.toNat * hashes.length < 2 ^ 64) :
    treeHash E hashes = MerkleTree.root (hashNode E) hashes ∧
      MerkleTree.root (hashNode E) hashes = some (Boolberry.treeHash E hashes) := by
  refine ⟨?_, root_eq_treeHash E hne hfits⟩
  obtain _ | ⟨a, _ | ⟨b, _ | ⟨e, l⟩⟩⟩ := hashes
  · exact absurd rfl hne
  · rfl
  · exact @hashTwo_eq E [] [] a b 0 rfl
  · exact treeHash_many E (by simp) hfits

/-- Five leaves: three are kept, two are hashed. -/
theorem treeHash_root_five : treeHash sampleEnv [1, 2, 3, 4, 5] =
    MerkleTree.root (hashNode sampleEnv) [1, 2, 3, 4, 5] ∧
      MerkleTree.root (hashNode sampleEnv) [1, 2, 3, 4, 5] = some (Boolberry.treeHash sampleEnv [1, 2, 3, 4, 5]) :=
  treeHash_root sampleEnv (by decide) (by decide)

end TreeHash
end Boolberry
