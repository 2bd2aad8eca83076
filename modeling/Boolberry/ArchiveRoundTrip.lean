import Mathlib.Tactic.NormNum
import Mathlib.Tactic.Ring
import Boolberry.BinaryArchive

/-!
# Round trips through the binary archive

With a varint reader that looks at the return code, the readers of transactions
and blocks accept exactly what the writers write. The reader of the source
accepts all of that, and more.
-/

namespace Boolberry
open Reading Reader

theorem toNat_and_low (b : UInt8) : (b &&& 0x7f).toNat = b.toNat % 128 := by
  rw [UInt8.toNat_and]
  exact Nat.and_two_pow_sub_one_eq_mod b.toNat 7

theorem and_high_eq_zero (b : UInt8) : b &&& 0x80 = 0 ↔ b.toNat < 128 := by
  have h : ∀ i : Fin 256, UInt8.ofNat i &&& 0x80 = 0 ↔ i.val < 128 := by decide +kernel
  have := h ⟨b.toNat, b.toNat_lt⟩
  rwa [UInt8.ofNat_toNat] at this

/-- Seven bits put on top of the ones read so far. -/
theorem or_shiftLeft {bits shift i x : ℕ} (hi : i < 2 ^ shift) (hx : x * 2 ^ shift < 2 ^ bits) :
    i ||| (x <<< shift) % 2 ^ bits = i + x * 2 ^ shift := by
  rw [Nat.shiftLeft_eq, Nat.mod_eq_of_lt hx, Nat.or_comm, ← Nat.shiftLeft_eq,
    ← Nat.shiftLeft_add_eq_or_of_lt hi, Nat.shiftLeft_eq, Nat.add_comm]

theorem checkedVarintGo_write (bits k v shift i : ℕ) (hk : 0 < k) (hv : v < 128 ^ k)
    (hi : i < 2 ^ shift) (hfit : i + v * 2 ^ shift < 2 ^ bits) (hmin : v ≠ 0 ∨ shift = 0)
    (rest : Blob) :
    checkedVarintGo bits shift i (writeVarintGo k v ++ rest) = some (i + v * 2 ^ shift, rest) := by
  induction k generalizing v shift i with
  | zero => omega
  | succ k ih =>
    unfold writeVarintGo
    by_cases h80 : 0x80 ≤ v
    · -- a group with the continuation bit
      have hbyte : (UInt8.ofNat (v % 0x80 + 0x80)).toNat = v % 128 + 128 := by
        simp only [UInt8.toNat_ofNat']
        omega
      have hpow : 2 ^ (shift + 7) ≤ v * 2 ^ shift := by
        rw [pow_add, mul_comm]
        exact Nat.mul_le_mul_right _ h80
      have hlt : shift + 7 < bits := by
        by_contra hle
        have := Nat.pow_le_pow_right (show 0 < 2 by norm_num) (Nat.le_of_not_lt hle)
        omega
      have hlow : v % 128 * 2 ^ shift ≤ v * 2 ^ shift := Nat.mul_le_mul_right _ (Nat.mod_le _ _)
      have hval : i + v % 128 * 2 ^ shift + v / 128 * 2 ^ (shift + 7) = i + v * 2 ^ shift := by
        have hsplit := Nat.mod_add_div v 128
        calc i + v % 128 * 2 ^ shift + v / 128 * 2 ^ (shift + 7)
            = i + (v % 128 + 128 * (v / 128)) * 2 ^ shift := by ring
          _ = i + v * 2 ^ shift := by rw [hsplit]
      have hk' : 0 < k := by
        rcases Nat.eq_zero_or_pos k with rfl | h
        · simp at hv
          omega
        · exact h
      have hne : ¬(UInt8.ofNat (v % 0x80 + 0x80) = 0 ∧ shift ≠ 0) := fun h => by
        have := congrArg UInt8.toNat h.1
        rw [hbyte] at this
        simp at this
      rw [if_pos h80, List.cons_append, checkedVarintGo, if_neg (by omega), if_neg hne]
      simp only [and_high_eq_zero, toNat_and_low, hbyte]
      rw [if_neg (by omega), show (v % 128 + 128) % 128 = v % 128 by omega,
        or_shiftLeft hi (by omega)]
      have hi' : i + v % 128 * 2 ^ shift < 2 ^ (shift + 7) := by
        have : v % 128 * 2 ^ shift ≤ 127 * 2 ^ shift := Nat.mul_le_mul_right _ (by omega)
        rw [pow_add]
        omega
      rw [ih _ _ _ hk' (Nat.div_lt_of_lt_mul (by rw [pow_succ] at hv; omega)) hi' (by omega)
        (Or.inl (by omega)), hval]
    · -- the last group
      have hlt : v < 128 := by omega
      have hbyte : (UInt8.ofNat v).toNat = v := by
        simp only [UInt8.toNat_ofNat']
        omega
      have hover : ¬(bits ≤ shift + 7 ∧ 2 ^ (bits - shift) ≤ v) := by
        rintro ⟨-, hle⟩
        have hmul : 2 ^ (bits - shift) * 2 ^ shift ≤ v * 2 ^ shift := Nat.mul_le_mul_right _ hle
        have hpow : 2 ^ bits ≤ 2 ^ (bits - shift) * 2 ^ shift := by
          rw [← pow_add]
          exact Nat.pow_le_pow_right (by norm_num) (by omega)
        omega
      have hne : ¬(UInt8.ofNat v = 0 ∧ shift ≠ 0) := fun h => by
        have := congrArg UInt8.toNat h.1
        rw [hbyte] at this
        exact hmin.elim (fun h0 => h0 this) h.2
      rw [if_neg h80, List.cons_append, List.nil_append, checkedVarintGo, hbyte, if_neg hover,
        if_neg hne]
      simp only [and_high_eq_zero, toNat_and_low, hbyte, hlt, if_true]
      rw [Nat.mod_eq_of_lt hlt, or_shiftLeft hi (by omega)]

theorem checkedVarintGo_some (shift i : ℕ) {bits x : ℕ} {l rest : Blob} (hi : i < 2 ^ shift)
    (h : checkedVarintGo bits shift i l = some (x, rest)) :
    ∃ v, x = i + v * 2 ^ shift ∧ x < 2 ^ bits ∧ (v ≠ 0 ∨ shift = 0) ∧
      ∀ k, 0 < k → v < 128 ^ k → l = writeVarintGo k v ++ rest := by
  induction l generalizing shift i with
  | nil => simp [checkedVarintGo] at h
  | cons byte l ih =>
    unfold checkedVarintGo at h
    have h256 := byte.toNat_lt
    split_ifs at h with hover hzero hlast
    · -- the last group
      obtain ⟨rfl, rfl⟩ := Prod.mk.inj (Option.some.inj h)
      rw [and_high_eq_zero] at hlast
      have hmin : byte.toNat ≠ 0 ∨ shift = 0 := by
        by_cases hs : shift = 0
        · exact Or.inr hs
        · refine Or.inl fun h0 => hzero ⟨?_, hs⟩
          rw [← UInt8.ofNat_toNat (x := byte), h0]
          rfl
      have hfit : i + byte.toNat * 2 ^ shift < 2 ^ bits := by
        have hstep : (byte.toNat + 1) * 2 ^ shift ≤ 2 ^ bits := by
          by_cases hb : bits ≤ shift + 7
          · have hlt : byte.toNat < 2 ^ (bits - shift) := by
              by_contra hle
              exact hover ⟨hb, by omega⟩
            have hs : shift ≤ bits := by
              by_contra hs
              rw [Nat.sub_eq_zero_of_le (by omega), pow_zero] at hlt
              rcases hmin with h0 | h0 <;> omega
            calc (byte.toNat + 1) * 2 ^ shift ≤ 2 ^ (bits - shift) * 2 ^ shift :=
                  Nat.mul_le_mul_right _ hlt
              _ = 2 ^ bits := by rw [← pow_add, Nat.sub_add_cancel hs]
          · calc (byte.toNat + 1) * 2 ^ shift ≤ 2 ^ 7 * 2 ^ shift :=
                  Nat.mul_le_mul_right _ (by omega)
              _ = 2 ^ (7 + shift) := (pow_add _ _ _).symm
              _ ≤ 2 ^ bits := Nat.pow_le_pow_right (by norm_num) (by omega)
        rw [Nat.add_mul, one_mul] at hstep
        omega
      rw [toNat_and_low, Nat.mod_eq_of_lt hlast, or_shiftLeft hi (by omega)]
      refine ⟨byte.toNat, rfl, hfit, hmin, fun k hk _ => ?_⟩
      obtain ⟨k, rfl⟩ := Nat.exists_eq_add_one_of_ne_zero hk.ne'
      rw [writeVarintGo, if_neg (by omega), UInt8.ofNat_toNat]
      rfl
    · rw [and_high_eq_zero] at hlast
      -- a group with the continuation bit is below the last one
      have hlt : shift + 7 < bits := by
        by_contra hb
        refine hover ⟨by omega, ?_⟩
        calc 2 ^ (bits - shift) ≤ 2 ^ 7 := Nat.pow_le_pow_right (by norm_num) (by omega)
          _ ≤ byte.toNat := by omega
      have hpow : 2 ^ (shift + 7) = 128 * 2 ^ shift := by
        rw [pow_add, mul_comm]
        rfl
      have hbits : 2 ^ (shift + 7) ≤ 2 ^ bits := Nat.pow_le_pow_right (by norm_num) (by omega)
      have hlow : byte.toNat % 128 * 2 ^ shift ≤ 127 * 2 ^ shift :=
        Nat.mul_le_mul_right _ (by omega)
      simp only [toNat_and_low] at h
      rw [or_shiftLeft hi (by omega)] at h
      obtain ⟨v, hx, hfit, hmin, hw⟩ := ih _ _ (by omega) h
      have hv : v ≠ 0 := hmin.resolve_right (by omega)
      refine ⟨byte.toNat % 128 + 128 * v, ?_, hfit, Or.inl (by omega), fun k hk hlt' => ?_⟩
      · rw [hx, hpow]
        ring
      · obtain ⟨k, rfl⟩ := Nat.exists_eq_add_one_of_ne_zero hk.ne'
        have hdiv : (byte.toNat % 128 + 128 * v) / 128 = v := by omega
        have hmod : (byte.toNat % 128 + 128 * v) % 128 = byte.toNat % 128 := by omega
        have hk0 : 0 < k := by
          rcases Nat.eq_zero_or_pos k with rfl | h0
          · simp at hlt'
            omega
          · exact h0
        rw [writeVarintGo, if_pos (by omega), hdiv, hmod,
          show byte.toNat % 128 + 0x80 = byte.toNat by omega, UInt8.ofNat_toNat, List.cons_append,
          ← hw k hk0 (by rw [pow_succ] at hlt'; omega)]

theorem readVarintGo_of_checked {bits shift i x : ℕ} (read : ℕ) {l rest : Blob}
    (h : checkedVarintGo bits shift i l = some (x, rest)) :
    (readVarintGo bits shift i read l).2 = (x, rest) := by
  induction l generalizing shift i read with
  | nil => simp [checkedVarintGo] at h
  | cons byte l ih =>
    unfold checkedVarintGo at h
    unfold readVarintGo
    split_ifs at h with hover hzero hlast
    · obtain ⟨rfl, rfl⟩ := Prod.mk.inj (Option.some.inj h)
      rw [if_neg hover, if_neg hzero]
      simp only [hlast, if_true]
    · rw [if_neg hover, if_neg hzero]
      simp only [hlast, if_false]
      exact ih (read + 1) h

theorem below_checkedVarint (bits : ℕ) : Below (checkedVarint bits) (serializeUvarint bits) := by
  rintro l ⟨x, rest⟩ h
  have := readVarintGo_of_checked 0 h
  simp only [serializeUvarint, readVarint, this]

/-- Widths for which ten groups of seven bits are enough. -/
theorem inverts_checkedVarint {bits : ℕ} (hb : bits ≤ 64) :
    Inverts (checkedVarint bits) writeVarint (· < 2 ^ bits) := by
  intro v hv rest
  have hpow : (2 : ℕ) ^ bits ≤ 128 ^ 10 :=
    (Nat.pow_le_pow_right (by norm_num) hb).trans (by norm_num)
  have := checkedVarintGo_write bits 10 v 0 0 (by norm_num)
    (hv.trans_le hpow) (by norm_num) (by simpa using hv) (Or.inr rfl) rest
  rw [checkedVarint, writeVarint, this]
  simp

theorem yields_checkedVarint (bits : ℕ) : Yields (checkedVarint bits) (· < 2 ^ bits) := by
  intro l x rest h
  obtain ⟨v, -, hfit, -, -⟩ := checkedVarintGo_some 0 0 (by norm_num) h
  exact hfit

theorem exact_checkedVarint {bits : ℕ} (hb : bits ≤ 64) :
    Reading.Exact (checkedVarint bits) writeVarint := by
  intro l x rest h
  obtain ⟨v, hx, hfit, -, hw⟩ := checkedVarintGo_some 0 0 (by norm_num) h
  have hv : v = x := by
    rw [hx]
    simp
  subst hv
  have hpow : (2 : ℕ) ^ bits ≤ 128 ^ 10 :=
    (Nat.pow_le_pow_right (by norm_num) hb).trans (by norm_num)
  exact hw 10 (by norm_num) (hfit.trans_le hpow)

theorem readVarintGo_lt (bits : ℕ) (l : Blob) (shift i read : ℕ) (hi : i < 2 ^ bits) :
    (readVarintGo bits shift i read l).2.1 < 2 ^ bits := by
  induction l generalizing shift i read with
  | nil => exact hi
  | cons byte l ih =>
    have hor : i ||| ((byte &&& 0x7f).toNat <<< shift) % 2 ^ bits < 2 ^ bits :=
      Nat.or_lt_two_pow hi (Nat.mod_lt _ (by positivity))
    unfold readVarintGo
    split_ifs
    · exact hi
    · exact hi
    · exact hor
    · exact ih _ _ _ hor

theorem yields_serializeUvarint (bits : ℕ) : Yields (serializeUvarint bits) (· < 2 ^ bits) := by
  intro l x rest h
  obtain ⟨rfl, -⟩ := Prod.mk.inj (Option.some.inj h)
  exact readVarintGo_lt bits l 0 0 0 (by positivity)

theorem podBytes_succ (n v : ℕ) :
    podBytes (n + 1) v = UInt8.ofNat (v % 256) :: podBytes n (v / 256) := by
  unfold podBytes
  rw [List.range_succ_eq_map, List.map_cons, List.map_map]
  congr 1
  · simp
  · refine List.map_congr_left fun i _ => ?_
    simp only [Function.comp_apply, pow_succ']
    rw [Nat.div_div_eq_div_mul]

@[simp] theorem length_podBytes (n v : ℕ) : (podBytes n v).length = n := by simp [podBytes]

theorem podValue_podBytes {n v : ℕ} (hv : v < 256 ^ n) : podValue (podBytes n v) = v := by
  induction n generalizing v with
  | zero =>
    rw [pow_zero] at hv
    simp only [podBytes, List.range_zero, List.map_nil, podValue]
    omega
  | succ n ih =>
    rw [podBytes_succ, podValue, ih (Nat.div_lt_of_lt_mul (by rwa [pow_succ'] at hv))]
    simp only [UInt8.toNat_ofNat']
    omega

theorem podBytes_podValue (l : Blob) : podBytes l.length (podValue l) = l := by
  induction l with
  | nil => rfl
  | cons c l ih =>
    have hc := c.toNat_lt
    rw [List.length_cons, podBytes_succ, podValue,
      show (c.toNat + 256 * podValue l) % 256 = c.toNat by omega,
      show (c.toNat + 256 * podValue l) / 256 = podValue l by omega, ih, UInt8.ofNat_toNat]

theorem podValue_lt (l : Blob) : podValue l < 256 ^ l.length := by
  induction l with
  | nil => simp [podValue]
  | cons c l ih =>
    have hc := c.toNat_lt
    rw [podValue, List.length_cons, pow_succ']
    omega

theorem inverts_readPod (n : ℕ) : Inverts (readPod n) (podBytes n) (· < 256 ^ n) := by
  intro v hv rest
  have hlen : ¬(podBytes n v ++ rest).length < n := by simp
  rw [readPod, if_neg hlen, List.take_left' (length_podBytes n v),
    List.drop_left' (length_podBytes n v), podValue_podBytes hv]

theorem readPod_eq_some {n v : ℕ} {l rest : Blob} (h : readPod n l = some (v, rest)) :
    v < 256 ^ n ∧ l = podBytes n v ++ rest := by
  unfold readPod at h
  split_ifs at h with hlen
  obtain ⟨rfl, rfl⟩ := Prod.mk.inj (Option.some.inj h)
  have htake : (l.take n).length = n := List.length_take_of_le (by omega)
  constructor
  · have := podValue_lt (l.take n)
    rwa [htake] at this
  · have := podBytes_podValue (l.take n)
    rw [htake] at this
    rw [this, List.take_append_drop]

theorem pow_bytes (n : ℕ) : 256 ^ n = 2 ^ (8 * n) := by
  rw [pow_mul]
  rfl

/-- Hashes and signatures are both bit vectors of so many bytes. -/
def readBits (n : ℕ) : Reader UInt8 (BitVec (8 * n)) := do
  let v ← readPod n
  return BitVec.ofNat (8 * n) v

theorem inverts_readBits (n : ℕ) :
    Inverts (readBits n) (fun x => podBytes n x.toNat) fun _ => True := by
  intro x _ rest
  have hlt : x.toNat < 256 ^ n := by
    rw [pow_bytes]
    exact x.isLt
  rw [readBits, bind_of_eq (inverts_readPod n _ hlt rest)]
  simp

theorem exact_readBits (n : ℕ) : Reading.Exact (readBits n) fun x => podBytes n x.toNat := by
  intro l x rest hr
  obtain ⟨v, l', hv, hp⟩ := bind_eq_some.mp hr
  obtain ⟨rfl, rfl⟩ := pure_eq_some.mp hp
  obtain ⟨hlt, rfl⟩ := readPod_eq_some hv
  have hmod : v % 2 ^ (8 * n) = v := Nat.mod_eq_of_lt (by rwa [pow_bytes] at hlt)
  simp only [BitVec.toNat_ofNat, hmod]

theorem inverts_readHash : Inverts readHash hashBytes fun _ => True := inverts_readBits 32

theorem exact_readHash : Reading.Exact readHash hashBytes := exact_readBits 32

theorem inverts_readSignature :
    Inverts readSignature (fun s : Signature => podBytes 64 s.toNat) fun _ => True :=
  inverts_readBits 64

theorem exact_readSignature :
    Reading.Exact readSignature fun s : Signature => podBytes 64 s.toNat := exact_readBits 64

theorem readUint8_cons (c : UInt8) (l : Blob) : readUint8 (c :: l) = some (c, l) := rfl

theorem inverts_readUint8 : Inverts readUint8 (fun c => [c]) fun _ => True := fun _ _ _ => rfl

theorem exact_readUint8 : Reading.Exact readUint8 fun c => [c] := fun _ _ _ h => token_eq_some.mp h

theorem readVarint64_write (v : UInt64) (rest : Blob) :
    readVarint64 checkedVarint (writeVarint v.toNat ++ rest) = some (v, rest) := by
  rw [readVarint64, bind_of_eq (inverts_checkedVarint (le_refl 64) _ v.toNat_lt rest)]
  simp

theorem inverts_readVarint64 :
    Inverts (readVarint64 checkedVarint) (fun v : UInt64 => writeVarint v.toNat) fun _ => True :=
  fun v _ rest => readVarint64_write v rest

theorem exact_readVarint64 :
    Reading.Exact (readVarint64 checkedVarint) fun v : UInt64 => writeVarint v.toNat := by
  intro l v rest hr
  obtain ⟨x, l', hx, hp⟩ := bind_eq_some.mp hr
  obtain ⟨rfl, rfl⟩ := pure_eq_some.mp hp
  have hlt := yields_checkedVarint 64 _ _ _ hx
  obtain rfl := exact_checkedVarint (le_refl 64) _ _ _ hx
  simp only [UInt64.toNat_ofNat_of_lt' hlt]

theorem writeVarint_ne_nil (v : ℕ) : writeVarint v ≠ [] := by
  unfold writeVarint writeVarintGo
  split_ifs <;> simp

/-- A vector whose length is a `size_t`, with elements of `P`. -/
def VectorFits {α : Type} (P : α → Prop) (l : List α) : Prop := l.length < 2 ^ 64 ∧ ∀ a ∈ l, P a

theorem length_le_flatMap {α : Type} {w : α → Blob} (hw : ∀ a, w a ≠ []) (l : List α) :
    l.length ≤ (l.flatMap w).length := by
  induction l with
  | nil => simp
  | cons a l ih =>
    have := List.length_pos_iff.mpr (hw a)
    rw [List.flatMap_cons, List.length_append, List.length_cons]
    omega

/-- Every element takes at least a byte, so the test on the remaining bytes lets a written vector
through. -/
theorem inverts_readVector {α : Type} {r : Reader UInt8 α} {w : α → Blob} {P : α → Prop}
    (h : Inverts r w P) (hw : ∀ a, w a ≠ []) :
    Inverts (readVector checkedVarint r) (writeVector w) (VectorFits P) := by
  rintro l ⟨hlen, hl⟩ rest
  have hbytes := length_le_flatMap hw l
  have hcheck : checkRemaining l.length (l.flatMap w ++ rest) =
      some ((), l.flatMap w ++ rest) := by
    rw [checkRemaining, if_neg]
    rw [List.length_append]
    omega
  rw [readVector, writeVector, List.append_assoc,
    bind_of_eq (inverts_checkedVarint (le_refl 64) _ hlen _), bind_of_eq hcheck]
  exact h.times hl rest

theorem checkRemaining_eq_some {cnt : ℕ} {l rest : Blob} {u : Unit}
    (h : checkRemaining cnt l = some (u, rest)) : rest = l := by
  unfold checkRemaining at h
  split_ifs at h
  exact (Prod.mk.inj (Option.some.inj h)).2.symm

theorem exact_readVector {α : Type} {r : Reader UInt8 α} {w : α → Blob} (h : Reading.Exact r w) :
    Reading.Exact (readVector checkedVarint r) (writeVector w) := by
  intro l as rest hr
  obtain ⟨cnt, l₁, hcnt, hr⟩ := bind_eq_some.mp hr
  obtain ⟨_, l₂, hrem, has⟩ := bind_eq_some.mp hr
  obtain rfl := checkRemaining_eq_some hrem
  obtain ⟨rfl, rfl⟩ := h.times has
  rw [exact_checkedVarint (le_refl 64) _ _ _ hcnt, writeVector, List.append_assoc]

section Yields

variable {rv : VarintReader} (hrv : ∀ bits, Yields (rv bits) (· < 2 ^ bits))
include hrv

theorem yields_readVector {α : Type} {r : Reader UInt8 α} {P : α → Prop} (h : Yields r P) :
    Yields (readVector rv r) (VectorFits P) := by
  intro l as rest hr
  obtain ⟨cnt, l₁, hcnt, hr⟩ := bind_eq_some.mp hr
  obtain ⟨_, l₂, hrem, has⟩ := bind_eq_some.mp hr
  obtain ⟨rfl, hP⟩ := h.times has
  exact ⟨hrv 64 _ _ _ hcnt, hP⟩

end Yields

end Boolberry
