import Mathlib.Tactic.FieldSimp
import Mathlib.Tactic.Ring
import Boolberry.HexStrings
import Boolberry.Lib.Numerals

/-!
# Amounts as texts

`print_money` and `parse_amount` of `currency_format_utils.cpp`. The printer works on numbers, the reader
on characters; both are measured against the decimal value of a text.
-/

namespace Boolberry
namespace MoneyTexts

def CURRENCY_DISPLAY_DECIMAL_POINT : ℕ := 12

def isDigit (c : UInt8) : Bool := 48 ≤ c && c ≤ 57

/-- The number a row of digits stands for. -/
def digitsValue (s : Blob) : ℕ := Nat.ofDigits 10 (s.reverse.map fun c => c.toNat - 48)

def wholePart (s : Blob) : Blob := s.takeWhile (· != 0x2e)

def fraction (s : Blob) : Blob := (s.dropWhile (· != 0x2e)).drop 1

/-- Digits, with at most one point before, between or behind them. -/
def IsDecimal (s : Blob) : Prop :=
  wholePart s ++ fraction s ≠ [] ∧ ∀ c ∈ wholePart s ++ fraction s, isDigit c = true

def decimalValue (s : Blob) : ℚ :=
  digitsValue (wholePart s) + digitsValue (fraction s) / 10 ^ (fraction s).length

def toString (amount : UInt64) : Blob :=
  if amount = 0 then [0x30] else ((Nat.digits 10 amount.toNat).map fun d => UInt8.ofNat (48 + d)).reverse

/-- `s.insert(pos, ".")`; throws when `pos` is past the end. -/
def insertPoint (s : Blob) (pos : UInt64) : Option Blob :=
  if pos.toNat ≤ s.length then some (s.take pos.toNat ++ 0x2e :: s.drop pos.toNat) else none

/-- Zeros in front when there are fewer than `size` characters. -/
def padTo (s : Blob) (size : UInt64) : Blob :=
  if UInt64.ofNat s.length < size then List.replicate (size - UInt64.ofNat s.length).toNat 0x30 ++ s else s

/-- The loop of `print_money`: zeros at the end go, at most `k` of them. -/
def dropZeros : ℕ → UInt64 → UInt64 → UInt64 × UInt64
  | 0, amount, z => (amount, z)
  | k + 1, amount, z => if amount ≠ 0 ∧ amount % 10 = 0 then dropZeros k (amount / 10) (z + 1) else (amount, z)

def printMoney (amount : UInt64) (trimZeros : Bool) : Option Blob :=
  let point := UInt64.ofNat CURRENCY_DISPLAY_DECIMAL_POINT
  if trimZeros then
    let r := if amount ≠ 0 then dropZeros (CURRENCY_DISPLAY_DECIMAL_POINT - 1) amount 0 else (amount, point - 1)
    let s := padTo (toString r.1) (point + 1 - r.2)
    insertPoint s (UInt64.ofNat s.length + r.2 - point)
  else
    let s := padTo (toString amount) (point + 1)
    insertPoint s (UInt64.ofNat s.length - point)

variable (lexicalCast : Blob → Option UInt64)

/-- What is taken of `boost::lexical_cast`: digits are read exactly, and fail past 64 bits. -/
def CastsDigits : Prop :=
  ∀ s : Blob, s ≠ [] → (∀ c ∈ s, isDigit c = true) →
    lexicalCast s = if digitsValue s < 2 ^ 64 then some (UInt64.ofNat (digitsValue s)) else none

def getXtypeFromString (s : Blob) : Option UInt64 := if s.all isDigit then lexicalCast s else none

/-- Zeros at the end of a fraction that is too long. -/
def eraseZeros (s : Blob) : ℕ → Blob × ℕ
  | 0 => (s, 0)
  | size + 1 =>
      if CURRENCY_DISPLAY_DECIMAL_POINT < size + 1 ∧ s.getLast? = some 0x30 then eraseZeros s.dropLast size
      else (s, size + 1)

/-- The end of `parse_amount`, with the point gone. -/
def parseDigits (s : Blob) (fractionSize : ℕ) : Option UInt64 :=
  if s = [] then none
  else if fractionSize < CURRENCY_DISPLAY_DECIMAL_POINT then
    getXtypeFromString lexicalCast (s ++ List.replicate (CURRENCY_DISPLAY_DECIMAL_POINT - fractionSize) 0x30)
  else getXtypeFromString lexicalCast s

def parseAmount (strAmount : Blob) : Option UInt64 :=
  let s := trim strAmount
  match s.findIdx? (· == 0x2e) with
  | some pointIndex =>
      let r := eraseZeros s (s.length - pointIndex - 1)
      if CURRENCY_DISPLAY_DECIMAL_POINT < r.2 then none
      else parseDigits lexicalCast (r.1.eraseIdx pointIndex) r.2
  | none => parseDigits lexicalCast s 0

theorem digitsValue_append (s t : Blob) : digitsValue (s ++ t) = digitsValue s * 10 ^ t.length + digitsValue t := by
  rw [digitsValue, List.reverse_append, List.map_append, Nat.ofDigits_append, List.length_map, List.length_reverse]
  change digitsValue t + 10 ^ t.length * digitsValue s = _
  rw [Nat.mul_comm, Nat.add_comm]

theorem digitsValue_zeros (k : ℕ) : digitsValue (List.replicate k 0x30) = 0 := by
  rw [digitsValue, List.reverse_replicate, List.map_replicate]
  exact Nat.ofDigits_replicate_zero

theorem digitsValue_append_zeros (s : Blob) (k : ℕ) :
    digitsValue (s ++ List.replicate k 0x30) = digitsValue s * 10 ^ k := by
  rw [digitsValue_append, digitsValue_zeros, List.length_replicate, Nat.add_zero]

theorem digitsValue_zeros_append (s : Blob) (k : ℕ) :
    digitsValue (List.replicate k 0x30 ++ s) = digitsValue s := by
  rw [digitsValue_append, digitsValue_zeros, Nat.zero_mul, Nat.zero_add]

theorem isDigit_of_mem_zeros {k : ℕ} {c : UInt8} (h : c ∈ List.replicate k 0x30) : isDigit c = true := by
  rw [List.eq_of_mem_replicate h]
  decide

theorem toNat_digit {d : ℕ} (h : d < 10) : (UInt8.ofNat (48 + d)).toNat = 48 + d :=
  Nat.mod_eq_of_lt (by omega)

theorem isDigit_digit {d : ℕ} (h : d < 10) : isDigit (UInt8.ofNat (48 + d)) = true := by
  have hall : ∀ d < 10, isDigit (UInt8.ofNat (48 + d)) = true := by decide
  exact hall d h

theorem digitsValue_toString (amount : UInt64) : digitsValue (toString amount) = amount.toNat := by
  rw [toString]
  split_ifs with h
  · subst h
    decide
  · have hback : (Nat.digits 10 amount.toNat).map ((fun c : UInt8 => c.toNat - 48) ∘ fun d => UInt8.ofNat (48 + d)) =
        Nat.digits 10 amount.toNat := by
      conv_rhs => rw [← List.map_id (Nat.digits 10 amount.toNat)]
      apply List.map_congr_left
      intro d hd
      rw [Function.comp_apply, toNat_digit (Nat.digits_lt_base (by decide) hd), Nat.add_sub_cancel_left, id]
    rw [digitsValue, List.reverse_reverse, List.map_map, hback, Nat.ofDigits_digits]

theorem isDigit_of_mem_toString {amount : UInt64} {c : UInt8} (h : c ∈ toString amount) : isDigit c = true := by
  rw [toString] at h
  split_ifs at h
  · rw [List.mem_singleton.mp h]
    decide
  · obtain ⟨d, hd, rfl⟩ := List.mem_map.mp (List.mem_reverse.mp h)
    exact isDigit_digit (Nat.digits_lt_base (by decide) hd)

theorem length_toString (amount : UInt64) : 0 < (toString amount).length ∧ (toString amount).length ≤ 20 := by
  rw [toString]
  split_ifs with h
  · decide
  · have hlt := amount.toNat_lt
    have hle : (Nat.digits 10 amount.toNat).length ≤ 20 :=
      (Nat.digits_length_le_iff (by decide) _).mpr (hlt.trans (by decide))
    have hpos : 0 < (Nat.digits 10 amount.toNat).length := by
      apply List.length_pos_of_ne_nil
      rw [Nat.digits_ne_nil_iff_ne_zero]
      exact fun hzero => h (UInt64.toNat_inj.mp hzero)
    rw [List.length_reverse, List.length_map]
    exact ⟨hpos, hle⟩

section

variable {lexicalCast}

theorem getXtypeFromString_eq (hcast : CastsDigits lexicalCast) {s : Blob} (hne : s ≠ [])
    (hdigits : ∀ c ∈ s, isDigit c = true) (hlt : digitsValue s < 2 ^ 64) :
    getXtypeFromString lexicalCast s = some (UInt64.ofNat (digitsValue s)) := by
  rw [getXtypeFromString, if_pos (List.all_eq_true.mpr hdigits), hcast s hne hdigits, if_pos hlt]

theorem getXtypeFromString_sound (hcast : CastsDigits lexicalCast) {s : Blob} {a : UInt64} (hne : s ≠ [])
    (h : getXtypeFromString lexicalCast s = some a) :
    (∀ c ∈ s, isDigit c = true) ∧ a.toNat = digitsValue s := by
  rw [getXtypeFromString, Option.ite_none_right_eq_some, List.all_eq_true] at h
  have hval := h.2
  rw [hcast s hne h.1, Option.ite_none_right_eq_some, Option.some_inj] at hval
  refine ⟨h.1, ?_⟩
  rw [← hval.2]
  exact Nat.mod_eq_of_lt hval.1

theorem parseDigits_eq {s : Blob} {n : ℕ} (hne : s ≠ []) (hn : n ≤ 12) :
    parseDigits lexicalCast s n = getXtypeFromString lexicalCast (s ++ List.replicate (12 - n) 0x30) := by
  rw [parseDigits, if_neg hne]
  split_ifs with hlt
  · rfl
  · have hfull : 12 - n = 0 := by
      change ¬n < 12 at hlt
      omega
    rw [hfull, List.replicate_zero, List.append_nil]

theorem parseDigits_sound (hcast : CastsDigits lexicalCast) {s : Blob} {n : ℕ} {a : UInt64} (hn : n ≤ 12)
    (h : parseDigits lexicalCast s n = some a) :
    s ≠ [] ∧ (∀ c ∈ s, isDigit c = true) ∧ a.toNat = digitsValue s * 10 ^ (12 - n) := by
  have hne : s ≠ [] := by
    intro hnil
    rw [parseDigits, if_pos hnil] at h
    cases h
  rw [parseDigits_eq hne hn] at h
  obtain ⟨hdigits, hval⟩ := getXtypeFromString_sound hcast (List.append_ne_nil_of_left_ne_nil hne _) h
  rw [digitsValue_append_zeros] at hval
  exact ⟨hne, fun c hc => hdigits c (List.mem_append_left _ hc), hval⟩

theorem eraseZeros_split (w f : Blob) : ∃ f' k, f = f' ++ List.replicate k 0x30 ∧
    eraseZeros (w ++ 0x2e :: f) f.length = (w ++ 0x2e :: f', f'.length) := by
  induction f using List.reverseRecOn with
  | nil => exact ⟨[], 0, rfl, rfl⟩
  | append_singleton f c ih =>
    have hbound : w ++ 0x2e :: (f ++ [c]) = (w ++ 0x2e :: f) ++ [c] := by simp
    rw [List.length_append, List.length_singleton, eraseZeros]
    split_ifs with hlong
    · rw [hbound, List.getLast?_concat, Option.some_inj] at hlong
      obtain ⟨f', k, hf, herase⟩ := ih
      refine ⟨f', k + 1, ?_, ?_⟩
      · rw [hlong.2, List.replicate_succ', ← List.append_assoc, ← hf]
      · rw [hbound, List.dropLast_concat, herase]
    · exact ⟨f ++ [c], 0, by simp, by simp⟩

theorem eraseZeros_of_le (s : Blob) {n : ℕ} (hn : n ≤ 12) : eraseZeros s n = (s, n) := by
  cases n with
  | zero => rfl
  | succ n =>
    rw [eraseZeros, if_neg]
    intro hlong
    exact absurd hlong.1 (Nat.not_lt.mpr hn)

theorem findIdx?_point {w : Blob} (hw : ∀ c ∈ w, c ≠ 0x2e) (f : Blob) :
    (w ++ 0x2e :: f).findIdx? (· == 0x2e) = some w.length := by
  have hnone : w.findIdx? (· == 0x2e) = none := by
    rw [List.findIdx?_eq_none_iff]
    intro c hc
    exact beq_eq_false_iff_ne.mpr (hw c hc)
  rw [List.findIdx?_append, hnone, List.findIdx?_cons]
  simp

theorem parts_of_point {w : Blob} (hw : ∀ c ∈ w, c ≠ 0x2e) (f : Blob) :
    wholePart (w ++ 0x2e :: f) = w ∧ fraction (w ++ 0x2e :: f) = f := by
  have hpass : ∀ c ∈ w, (c != 0x2e) = true := fun c hc => bne_iff_ne.mpr (hw c hc)
  constructor
  · rw [wholePart, List.takeWhile_append_of_pos hpass, List.takeWhile_cons_of_neg (by decide), List.append_nil]
  · rw [fraction, List.dropWhile_append_of_pos hpass, List.dropWhile_cons_of_neg (by decide)]
    rfl

theorem parts_of_no_point {s : Blob} (hs : ∀ c ∈ s, c ≠ 0x2e) : wholePart s = s ∧ fraction s = [] := by
  have hpass : ∀ c ∈ s, (c != 0x2e) = true := fun c hc => bne_iff_ne.mpr (hs c hc)
  constructor
  · exact List.takeWhile_eq_self_iff.mpr hpass
  · rw [fraction, List.dropWhile_eq_nil_iff.mpr hpass]
    rfl

theorem point_cases (s : Blob) :
    (∀ c ∈ s, c ≠ 0x2e) ∨ ∃ w f, s = w ++ 0x2e :: f ∧ ∀ c ∈ w, c ≠ 0x2e := by
  by_cases hpoint : (0x2e : UInt8) ∈ s
  · obtain ⟨w, f, hs, hw⟩ := List.eq_append_cons_of_mem hpoint
    exact Or.inr ⟨w, f, hs, fun c hc h => hw (h ▸ hc)⟩
  · exact Or.inl fun c hc h => hpoint (h ▸ hc)

theorem digit_clean {c : UInt8} (h : isDigit c = true) : isSpaceChar c = false ∧ c ≠ 0x2e := by
  simp only [isDigit, Bool.and_eq_true, decide_eq_true_eq, UInt8.le_iff_toNat_le] at h
  change 48 ≤ c.toNat ∧ c.toNat ≤ 57 at h
  constructor
  · simp only [isSpaceChar, Bool.or_eq_false_iff, Bool.and_eq_false_iff, beq_eq_false_iff_ne, ne_eq,
      decide_eq_false_iff_not, UInt8.le_iff_toNat_le, ← UInt8.toNat_inj]
    change ¬c.toNat = 32 ∧ (¬9 ≤ c.toNat ∨ ¬c.toNat ≤ 13)
    omega
  · intro hpoint
    rw [hpoint] at h
    exact absurd h.1 (by decide)

/-- Digits with a point among them, not more than twelve behind it, are read without the point. -/
theorem parseAmount_pointed {w f : Blob} (hdigits : ∀ c ∈ w ++ f, isDigit c = true) (hne : w ++ f ≠ [])
    (hshort : f.length ≤ 12) :
    parseAmount lexicalCast (w ++ 0x2e :: f) =
      getXtypeFromString lexicalCast (w ++ f ++ List.replicate (12 - f.length) 0x30) := by
  have htrim : trim (w ++ 0x2e :: f) = w ++ 0x2e :: f := by
    apply trim_of_no_space
    intro c hc
    rcases List.mem_append.mp hc with hc | hc
    · exact (digit_clean (hdigits c (List.mem_append_left _ hc))).1
    · rcases List.mem_cons.mp hc with rfl | hc
      · decide
      · exact (digit_clean (hdigits c (List.mem_append_right _ hc))).1
  have hw : ∀ c ∈ w, c ≠ 0x2e := fun c hc => (digit_clean (hdigits c (List.mem_append_left _ hc))).2
  have hsize : (w ++ 0x2e :: f).length - w.length - 1 = f.length := by
    rw [List.length_append, List.length_cons]
    omega
  have herase : (w ++ 0x2e :: f).eraseIdx w.length = w ++ f := by
    rw [List.eraseIdx_append_of_length_le le_rfl, Nat.sub_self, List.eraseIdx_cons_zero]
  unfold parseAmount
  dsimp only
  rw [htrim, findIdx?_point hw]
  dsimp only
  rw [hsize, eraseZeros_of_le _ hshort]
  dsimp only
  rw [if_neg (show ¬CURRENCY_DISPLAY_DECIMAL_POINT < f.length from Nat.not_lt.mpr hshort), herase,
    parseDigits_eq hne hshort]

/-- What is read off a text is its decimal value, in the smallest unit. -/
theorem parseAmount_sound (hcast : CastsDigits lexicalCast) {text : Blob} {a : UInt64}
    (h : parseAmount lexicalCast text = some a) :
    IsDecimal (trim text) ∧ (a.toNat : ℚ) = decimalValue (trim text) * 10 ^ CURRENCY_DISPLAY_DECIMAL_POINT := by
  unfold parseAmount at h
  dsimp only at h
  generalize trim text = s at h ⊢
  rcases point_cases s with hs | ⟨w, f, rfl, hw⟩
  · have hnone : s.findIdx? (· == 0x2e) = none := by
      rw [List.findIdx?_eq_none_iff]
      intro c hc
      exact beq_eq_false_iff_ne.mpr (hs c hc)
    obtain ⟨hwhole, hfraction⟩ := parts_of_no_point hs
    rw [hnone] at h
    obtain ⟨hne, hdigits, hval⟩ := parseDigits_sound hcast (Nat.zero_le 12) h
    rw [IsDecimal, decimalValue, hwhole, hfraction, List.append_nil, hval]
    refine ⟨⟨hne, hdigits⟩, ?_⟩
    rw [show digitsValue [] = 0 from rfl, Nat.cast_zero, zero_div, add_zero, CURRENCY_DISPLAY_DECIMAL_POINT, Nat.sub_zero]
    push_cast
    rfl
  · obtain ⟨f', k, rfl, herase⟩ := eraseZeros_split w f
    obtain ⟨hwhole, hfraction⟩ := parts_of_point hw (f' ++ List.replicate k 0x30)
    have hsize : (w ++ 0x2e :: (f' ++ List.replicate k 0x30)).length - w.length - 1 =
        (f' ++ List.replicate k 0x30).length := by
      rw [List.length_append, List.length_cons]
      omega
    have hpoint : (w ++ 0x2e :: f').eraseIdx w.length = w ++ f' := by
      rw [List.eraseIdx_append_of_length_le le_rfl, Nat.sub_self, List.eraseIdx_cons_zero]
    rw [findIdx?_point hw] at h
    dsimp only at h
    rw [hsize, herase] at h
    dsimp only at h
    rw [hpoint, Option.ite_none_left_eq_some] at h
    have hshort : f'.length ≤ 12 := Nat.not_lt.mp h.1
    obtain ⟨hne, hdigits, hval⟩ := parseDigits_sound hcast hshort h.2
    rw [IsDecimal, decimalValue, hwhole, hfraction, hval, digitsValue_append, digitsValue_append_zeros,
      List.length_append, List.length_replicate, ← List.append_assoc]
    refine ⟨⟨List.append_ne_nil_of_left_ne_nil hne _, fun c hc => ?_⟩, ?_⟩
    · rcases List.mem_append.mp hc with hc | hc
      · exact hdigits c hc
      · exact isDigit_of_mem_zeros hc
    · have hscale : (10 : ℚ) ^ CURRENCY_DISPLAY_DECIMAL_POINT = 10 ^ f'.length * 10 ^ (12 - f'.length) := by
        rw [← pow_add, Nat.add_sub_cancel' hshort]
        rfl
      have hfrac : (10 : ℚ) ^ f'.length ≠ 0 := by positivity
      have hzeros : (10 : ℚ) ^ k ≠ 0 := by positivity
      rw [hscale, pow_add]
      push_cast
      field_simp

theorem dropZeros_spec (k : ℕ) (amount z : UInt64) (hz : z.toNat + k ≤ 11) :
    z.toNat ≤ (dropZeros k amount z).2.toNat ∧ (dropZeros k amount z).2.toNat ≤ z.toNat + k ∧
      (dropZeros k amount z).1.toNat * 10 ^ ((dropZeros k amount z).2.toNat - z.toNat) = amount.toNat := by
  induction k generalizing amount z with
  | zero => simp [dropZeros]
  | succ k ih =>
    rw [dropZeros]
    split_ifs with hzero
    · have hnext : (z + 1).toNat = z.toNat + 1 := by
        rw [UInt64.toNat_add]
        exact Nat.mod_eq_of_lt (by change z.toNat + 1 < _; omega)
      have hdiv : (amount / 10).toNat * 10 = amount.toNat := by
        have hmod : amount.toNat % 10 = 0 := by
          rw [← UInt64.toNat_inj, UInt64.toNat_mod] at hzero
          exact hzero.2
        rw [UInt64.toNat_div]
        change amount.toNat / 10 * 10 = _
        omega
      obtain ⟨hlow, hhigh, hval⟩ := ih (amount / 10) (z + 1) (by omega)
      rw [hnext] at hlow hhigh hval
      refine ⟨by omega, by omega, ?_⟩
      rw [← hdiv, ← hval, mul_assoc, ← pow_succ]
      congr 2
      omega
    · simp

theorem padTo_spec {s : Blob} {size : UInt64} (hdigits : ∀ c ∈ s, isDigit c = true) (hlen : s.length ≤ 20)
    (hsize : size.toNat ≤ 13) :
    (∀ c ∈ padTo s size, isDigit c = true) ∧ digitsValue (padTo s size) = digitsValue s ∧
      size.toNat ≤ (padTo s size).length ∧ (padTo s size).length ≤ 20 := by
  have hback : (UInt64.ofNat s.length).toNat = s.length := Nat.mod_eq_of_lt (by omega)
  rw [padTo]
  split_ifs with hshort
  · rw [UInt64.lt_iff_toNat_lt, hback] at hshort
    have hsub : (size - UInt64.ofNat s.length).toNat = size.toNat - s.length := by
      rw [UInt64.toNat_sub_of_le _ _ (by rw [UInt64.le_iff_toNat_le, hback]; omega), hback]
    rw [digitsValue_zeros_append, hsub, List.length_append, List.length_replicate]
    refine ⟨fun c hc => ?_, rfl, by omega, by omega⟩
    rcases List.mem_append.mp hc with hc | hc
    · exact isDigit_of_mem_zeros hc
    · exact hdigits c hc
  · rw [UInt64.lt_iff_toNat_lt, hback] at hshort
    exact ⟨hdigits, rfl, by omega, hlen⟩

/-- A number printed with its last zeros left out is read with them. -/
theorem insertPoint_read (hcast : CastsDigits lexicalCast) {amount z : UInt64} (hz : z.toNat ≤ 11)
    (hlt : amount.toNat * 10 ^ z.toNat < 2 ^ 64) :
    ∃ text, insertPoint (padTo (toString amount) (UInt64.ofNat 12 + 1 - z))
        (UInt64.ofNat (padTo (toString amount) (UInt64.ofNat 12 + 1 - z)).length + z - UInt64.ofNat 12) = some text ∧
      parseAmount lexicalCast text = some (UInt64.ofNat (amount.toNat * 10 ^ z.toNat)) := by
  have hsize : (UInt64.ofNat 12 + 1 - z).toNat = 13 - z.toNat := by
    rw [UInt64.toNat_sub_of_le _ _ (by rw [UInt64.le_iff_toNat_le]; change z.toNat ≤ 13; omega)]
    rfl
  obtain ⟨hdigits, hval, hlong, hlen⟩ := @padTo_spec (toString amount) (UInt64.ofNat 12 + 1 - z)
    (fun c hc => isDigit_of_mem_toString hc) (length_toString amount).2 (by omega)
  rw [hsize] at hlong
  rw [digitsValue_toString] at hval
  generalize padTo (toString amount) (UInt64.ofNat 12 + 1 - z) = s at hdigits hval hlong hlen ⊢
  have hpos : (UInt64.ofNat s.length + z - UInt64.ofNat 12).toNat = s.length + z.toNat - 12 := by
    have hback : (UInt64.ofNat s.length).toNat = s.length := Nat.mod_eq_of_lt (by omega)
    have hadd : (UInt64.ofNat s.length + z).toNat = s.length + z.toNat := by
      rw [UInt64.toNat_add, hback]
      exact Nat.mod_eq_of_lt (by omega)
    rw [UInt64.toNat_sub_of_le _ _ (by rw [UInt64.le_iff_toNat_le, hadd]; change 12 ≤ _; omega), hadd]
    rfl
  rw [insertPoint, hpos, if_pos (by omega)]
  refine ⟨_, rfl, ?_⟩
  generalize hp : s.length + z.toNat - 12 = pos
  have hdrop : (s.drop pos).length = 12 - z.toNat := by
    rw [List.length_drop]
    omega
  have hne : s ≠ [] := List.ne_nil_of_length_pos (by omega)
  have hzeros : 12 - (12 - z.toNat) = z.toNat := by omega
  rw [parseAmount_pointed (by rwa [List.take_append_drop]) (by rwa [List.take_append_drop]) (by omega),
    List.take_append_drop, hdrop, hzeros]
  have hall : ∀ c ∈ s ++ List.replicate z.toNat 0x30, isDigit c = true := by
    intro c hc
    rcases List.mem_append.mp hc with hc | hc
    · exact hdigits c hc
    · exact isDigit_of_mem_zeros hc
  have hvalue : digitsValue (s ++ List.replicate z.toNat 0x30) = amount.toNat * 10 ^ z.toNat := by
    rw [digitsValue_append_zeros, hval]
  rw [getXtypeFromString_eq hcast (List.append_ne_nil_of_left_ne_nil hne _) hall (by rwa [hvalue]), hvalue]

theorem parseAmount_printMoney (hcast : CastsDigits lexicalCast) (amount : UInt64) (trimZeros : Bool) :
    ∃ text, printMoney amount trimZeros = some text ∧ parseAmount lexicalCast text = some amount := by
  have hlt := amount.toNat_lt
  cases trimZeros with
  | false =>
    obtain ⟨text, hprint, hread⟩ := @insertPoint_read lexicalCast hcast amount 0 (by decide) (by simpa using hlt)
    rw [UInt64.toNat_zero, pow_zero, Nat.mul_one, UInt64.ofNat_toNat] at hread
    rw [UInt64.sub_zero, UInt64.add_zero] at hprint
    exact ⟨text, hprint, hread⟩
  | true =>
    obtain ⟨r, hr, hz, hval⟩ : ∃ r : UInt64 × UInt64,
        (if amount ≠ 0 then dropZeros (CURRENCY_DISPLAY_DECIMAL_POINT - 1) amount 0
          else (amount, UInt64.ofNat CURRENCY_DISPLAY_DECIMAL_POINT - 1)) = r ∧ r.2.toNat ≤ 11 ∧
          r.1.toNat * 10 ^ r.2.toNat = amount.toNat := by
      refine ⟨_, rfl, ?_⟩
      split_ifs with hzero
      · obtain ⟨-, hhigh, hback⟩ := dropZeros_spec (CURRENCY_DISPLAY_DECIMAL_POINT - 1) amount 0 (by decide)
        exact ⟨hhigh, hback⟩
      · rw [not_not] at hzero
        subst hzero
        exact ⟨by decide, by simp⟩
    obtain ⟨text, hprint, hread⟩ := @insertPoint_read lexicalCast hcast r.1 r.2 hz (by omega)
    rw [hval, UInt64.ofNat_toNat] at hread
    refine ⟨text, ?_, hread⟩
    unfold printMoney
    dsimp only
    rw [if_pos rfl, hr]
    exact hprint

end

/-- Every amount that is printed is read back, and what is read is the value of the text. -/
theorem parse_amount_exact (hcast : CastsDigits lexicalCast) :
    (∀ (amount : UInt64) (trimZeros : Bool), ∃ text, printMoney amount trimZeros = some text ∧
      parseAmount lexicalCast text = some amount) ∧
    ∀ (text : Blob) (amount : UInt64), parseAmount lexicalCast text = some amount → IsDecimal (trim text) ∧
      (amount.toNat : ℚ) = decimalValue (trim text) * 10 ^ CURRENCY_DISPLAY_DECIMAL_POINT :=
  ⟨parseAmount_printMoney hcast, fun _ _ => parseAmount_sound hcast⟩

/-- A conversion of digits that fails past 64 bits. -/
def sampleCast (s : Blob) : Option UInt64 :=
  if s ≠ [] ∧ digitsValue s < 2 ^ 64 then some (UInt64.ofNat (digitsValue s)) else none

theorem parse_amount_exact_sample :
    CastsDigits sampleCast ∧ ∃ text, printMoney 1500000000000 true = some text ∧
      parseAmount sampleCast text = some 1500000000000 := by
  have hcast : CastsDigits sampleCast := by
    intro s hne _
    unfold sampleCast
    by_cases hlt : digitsValue s < 2 ^ 64
    · rw [if_pos hlt, if_pos ⟨hne, hlt⟩]
    · rw [if_neg hlt, if_neg fun h => hlt h.2]
  exact ⟨hcast, (parse_amount_exact sampleCast hcast).1 1500000000000 true⟩

end MoneyTexts
end Boolberry
