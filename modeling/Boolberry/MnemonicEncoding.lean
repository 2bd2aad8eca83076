import Mathlib.Data.List.GetD
import Boolberry.HexStrings
import Boolberry.Lib.Numerals

/-!
# Wallet seeds as words

`mnemonic-encoding.cpp` writes four bytes as three words. Its counters are 32-bit, so the round trip ends
with the first 2^32 bytes.
-/

namespace Boolberry
namespace MnemonicEncoding

def NUMWORDS : ℕ := 1626

/-- The words, their number, and the map from a word to its place; no word is empty or has a space in it. -/
structure WordTable where
  wordsArray : List Blob
  wordsMap : Blob → Option UInt32
  length_wordsArray : wordsArray.length = NUMWORDS
  wordsMap_eq : ∀ w i, wordsMap w = some i ↔ wordsArray[i.toNat]? = some w
  word_spec : ∀ w ∈ wordsArray, w ≠ [] ∧ ∀ c ∈ w, isSpaceChar c = false

/-- A call returns or throws. -/
abbrev Outcome (α : Type) := Except String α

variable (T : WordTable)

/-- `*reinterpret_cast<const uint32_t*>(&bytes[pos])`. -/
def getUint32 (bytes : Blob) (pos : UInt32) : UInt32 :=
  UInt32.ofNat (podValue ((bytes.drop pos.toNat).take 4))

def setUint32 (bytes : Blob) (pos val : UInt32) : Blob :=
  bytes.take pos.toNat ++ podBytes 4 val.toNat ++ bytes.drop (pos.toNat + 4)

def word (i : UInt32) : Blob := T.wordsArray.getD i.toNat []

/-- The words of a value. -/
def wordsOf (val : UInt32) : List Blob :=
  let n := UInt32.ofNat NUMWORDS
  let w1 := val % n
  let w2 := (val / n + w1) % n
  let w3 := (val / n / n + w2) % n
  [word T w1, word T w2, word T w3]

/-- The loop of `binary2text`, with a 32-bit counter; `none` while it still runs. -/
def binary2textLoop (binary : Blob) : ℕ → UInt32 → Blob → Option Blob
  | 0, i, res => if i.toNat < binary.length / 4 then none else some res
  | fuel + 1, i, res =>
      if i.toNat < binary.length / 4 then
        binary2textLoop binary fuel (i + 1) (res ++ (wordsOf T (getUint32 binary (i * 4))).flatMap (· ++ [0x20]))
      else some res

def binary2text (fuel : ℕ) (binary : Blob) : Option (Outcome Blob) :=
  if binary.length % 4 ≠ 0 then some (.error "Invalid binary data size for mnemonic encoding")
  else (binary2textLoop T binary fuel 0 []).map .ok

/-- The value of three places. -/
def valueOf (w1 w2 w3 : UInt32) : UInt32 :=
  let n := UInt32.ofNat NUMWORDS
  w1 + n * ((n - w1 + w2) % n) + n * n * ((n - w2 + w3) % n)

/-- The loop of `text2binary`, with a 32-bit counter. -/
def text2binaryLoop (tokens : List Blob) : ℕ → UInt32 → Blob → Option (Outcome Blob)
  | 0, i, res => if i.toNat < tokens.length / 3 then none else some (.ok res)
  | fuel + 1, i, res =>
      if i.toNat < tokens.length / 3 then
        match T.wordsMap (tokens.getD (i * 3).toNat []), T.wordsMap (tokens.getD (i * 3 + 1).toNat []),
            T.wordsMap (tokens.getD (i * 3 + 2).toNat []) with
        | some w1, some w2, some w3 =>
            text2binaryLoop tokens fuel (i + 1) (setUint32 res (i * 4) (valueOf w1 w2 w3))
        | _, _, _ => some (.error "Invalid word in mnemonic text")
      else some (.ok res)

def text2binary (fuel : ℕ) (text : Blob) : Option (Outcome Blob) :=
  let tokens := (trim text).splitOn 0x20
  if tokens.length % 3 ≠ 0 then some (.error "Invalid word count in mnemonic text")
  else text2binaryLoop T tokens fuel 0 (List.replicate (tokens.length / 3 * 4) 0)

/-- Both calls return, and the bytes come back. -/
def RoundTrips (v : Blob) : Prop :=
  ∃ fuel text, binary2text T fuel v = some (.ok text) ∧ ∃ fuel, text2binary T fuel text = some (.ok v)

section

variable {T}

theorem wordsMap_word {i : UInt32} (hi : i.toNat < 1626) : T.wordsMap (word T i) = some i := by
  have hlt : i.toNat < T.wordsArray.length := by
    rw [T.length_wordsArray]
    exact hi
  rw [T.wordsMap_eq, word, List.getD_eq_getElem _ _ hlt, List.getElem?_eq_getElem hlt]

theorem toNat_mod_numwords (v : UInt32) : (v % UInt32.ofNat NUMWORDS).toNat = v.toNat % 1626 :=
  UInt32.toNat_mod _ _

theorem toNat_div_numwords (v : UInt32) : (v / UInt32.ofNat NUMWORDS).toNat = v.toNat / 1626 :=
  UInt32.toNat_div _ _

/-- The difference of two places, modulo the number of words, is the digit between them. -/
theorem toNat_offset {w d : UInt32} (hw : w.toNat < 1626) (hd : d.toNat < 2 ^ 31) :
    ((UInt32.ofNat NUMWORDS - w + (d + w) % UInt32.ofNat NUMWORDS) % UInt32.ofNat NUMWORDS).toNat =
      d.toNat % 1626 := by
  have hsub : (UInt32.ofNat NUMWORDS - w).toNat = 1626 - w.toNat :=
    UInt32.toNat_sub_of_le _ _ (by rw [UInt32.le_iff_toNat_le]; change _ ≤ 1626; omega)
  rw [toNat_mod_numwords, UInt32.toNat_add, toNat_mod_numwords, UInt32.toNat_add, hsub]
  omega

/-- The three places give the value back: `2 ^ 32` is below `1626 ^ 3`. -/
theorem valueOf_places (val : UInt32) :
    let n := UInt32.ofNat NUMWORDS
    let w1 := val % n
    let w2 := (val / n + w1) % n
    valueOf w1 w2 ((val / n / n + w2) % n) = val := by
  dsimp only
  have hval := val.toNat_lt
  have hw1 := toNat_mod_numwords val
  have hq := toNat_div_numwords val
  have hr := toNat_div_numwords (val / UInt32.ofNat NUMWORDS)
  have hd2 := @toNat_offset (val % UInt32.ofNat NUMWORDS) (val / UInt32.ofNat NUMWORDS) (by omega) (by omega)
  have hw2 := toNat_mod_numwords (val / UInt32.ofNat NUMWORDS + val % UInt32.ofNat NUMWORDS)
  have hd3 := @toNat_offset ((val / UInt32.ofNat NUMWORDS + val % UInt32.ofNat NUMWORDS) % UInt32.ofNat NUMWORDS)
    (val / UInt32.ofNat NUMWORDS / UInt32.ofNat NUMWORDS) (by omega) (by omega)
  have hsquare : (UInt32.ofNat NUMWORDS * UInt32.ofNat NUMWORDS).toNat = 2643876 := rfl
  have hn : (UInt32.ofNat NUMWORDS).toNat = 1626 := rfl
  have hdigits : val.toNat % 1626 + 1626 * (val.toNat / 1626 % 1626) +
      2643876 * (val.toNat / 1626 / 1626 % 1626) = val.toNat := by omega
  rw [hq] at hd2
  rw [hr, hq] at hd3
  apply UInt32.toNat_inj.mp
  unfold valueOf
  dsimp only
  rw [UInt32.toNat_add, UInt32.toNat_add, UInt32.toNat_mul, UInt32.toNat_mul, hd2, hd3, hsquare, hn, hw1]
  generalize val.toNat / 1626 / 1626 % 1626 = d₃ at hdigits ⊢
  generalize val.toNat / 1626 % 1626 = d₂ at hdigits ⊢
  omega

/-- The words of the first `g` values. -/
def seedWords (T : WordTable) (v : Blob) (g : ℕ) : List Blob :=
  (List.range g).flatMap fun j => wordsOf T (getUint32 v (UInt32.ofNat j * 4))

theorem binary2textLoop_eq (v : Blob) {n fuel g : ℕ} {i : UInt32} (hg : v.length / 4 = g) (hi : i.toNat + n = g)
    (hlt : g ≤ 2 ^ 30) (hfuel : n ≤ fuel) (res : Blob) :
    binary2textLoop T v fuel i res = some (res ++ ((List.range' i.toNat n).flatMap fun j =>
      (wordsOf T (getUint32 v (UInt32.ofNat j * 4))).flatMap (· ++ [0x20]))) := by
  induction n generalizing fuel i res with
  | zero =>
    have hend : ¬i.toNat < v.length / 4 := by omega
    cases fuel <;> simp [binary2textLoop, hend]
  | succ n ih =>
    obtain ⟨fuel, rfl⟩ := Nat.exists_eq_add_one_of_ne_zero (show fuel ≠ 0 by omega)
    have hnext : (i + 1).toNat = i.toNat + 1 := by
      rw [UInt32.toNat_add]
      exact Nat.mod_eq_of_lt (by change i.toNat + 1 < _; omega)
    rw [binary2textLoop, if_pos (by omega), @ih fuel (i + 1) (by omega) (by omega), hnext, List.range'_succ,
      List.flatMap_cons, UInt32.ofNat_toNat, List.append_assoc]

theorem mem_of_wordsOf {val : UInt32} {w : Blob} (h : w ∈ wordsOf T val) : w ∈ T.wordsArray := by
  have hplace : ∀ v : UInt32, word T (v % UInt32.ofNat NUMWORDS) ∈ T.wordsArray := by
    intro v
    have hlt : (v % UInt32.ofNat NUMWORDS).toNat < T.wordsArray.length := by
      rw [T.length_wordsArray, toNat_mod_numwords]
      exact Nat.mod_lt _ (by decide)
    rw [word, List.getD_eq_getElem _ _ hlt]
    exact List.getElem_mem hlt
  unfold wordsOf at h
  simp only [List.mem_cons, List.not_mem_nil, or_false] at h
  rcases h with rfl | rfl | rfl
  · exact hplace _
  · exact hplace _
  · exact hplace _

theorem mem_of_seedWords {v w : Blob} {g : ℕ} (h : w ∈ seedWords T v g) : w ∈ T.wordsArray := by
  obtain ⟨j, -, hw⟩ := List.mem_flatMap.mp h
  exact mem_of_wordsOf hw

/-- Every word with a space behind it is all of them with spaces between, and one more space. -/
theorem intercalate_concat (ws : List Blob) (w : Blob) :
    [0x20].intercalate (ws ++ [w]) = ws.flatMap (· ++ [0x20]) ++ w := by
  induction ws with
  | nil => simp
  | cons x ws ih =>
    obtain ⟨y, l, hl⟩ : ∃ y l, ws ++ [w] = y :: l := by
      cases ws with
      | nil => exact ⟨_, _, rfl⟩
      | cons y ws => exact ⟨y, _, rfl⟩
    rw [List.cons_append, hl, List.intercalate_cons_cons, ← hl, ih, List.flatMap_cons]
    simp

theorem dropWhile_word {w : Blob} (h : w ≠ [] ∧ ∀ c ∈ w, isSpaceChar c = false) (rest : Blob) :
    (w ++ rest).dropWhile isSpaceChar = w ++ rest := by
  obtain ⟨c, w, rfl⟩ := List.exists_cons_of_ne_nil h.1
  rw [List.cons_append, List.dropWhile_cons_of_neg]
  rw [h.2 c List.mem_cons_self]
  exact Bool.false_ne_true

theorem trim_words {ws : List Blob} (hne : ws ≠ []) (h : ∀ w ∈ ws, w ≠ [] ∧ ∀ c ∈ w, isSpaceChar c = false) :
    trim (ws.flatMap (· ++ [0x20])) = [0x20].intercalate ws := by
  have hlast := List.dropLast_append_getLast hne
  generalize ws.getLast hne = w at hlast
  generalize ws.dropLast = init at hlast
  subst hlast
  rw [intercalate_concat, List.flatMap_append, List.flatMap_singleton, ← List.append_assoc]
  have hw := h w (List.mem_append_right _ (List.mem_singleton_self w))
  have hne' : init.flatMap (· ++ [0x20]) ++ w ≠ [] := List.append_ne_nil_of_right_ne_nil _ hw.1
  have hfirst : (init.flatMap (· ++ [0x20]) ++ w ++ [0x20]).dropWhile isSpaceChar =
      init.flatMap (· ++ [0x20]) ++ w ++ [0x20] := by
    cases init with
    | nil => exact dropWhile_word hw _
    | cons x init =>
      rw [List.flatMap_cons, List.append_assoc, List.append_assoc, List.append_assoc]
      exact dropWhile_word (h x List.mem_cons_self) _
  rw [trim, hfirst, List.rdropWhile_concat_pos isSpaceChar _ 0x20 (by decide), List.rdropWhile_eq_self_iff]
  intro _ hspace
  rw [List.getLast_append_of_ne_nil _ hw.1, hw.2 _ (List.getLast_mem hw.1)] at hspace
  exact Bool.false_ne_true hspace

theorem split_words {ws : List Blob} (hne : ws ≠ []) (h : ∀ w ∈ ws, w ≠ [] ∧ ∀ c ∈ w, isSpaceChar c = false) :
    (trim (ws.flatMap (· ++ [0x20]))).splitOn 0x20 = ws := by
  rw [trim_words hne h]
  refine List.splitOn_intercalate 0x20 (fun w hw hspace => ?_) hne
  have := (h w hw).2 _ hspace
  exact absurd this (by decide)

theorem length_seedWords (v : Blob) (g : ℕ) : (seedWords T v g).length = 3 * g := by
  induction g with
  | zero => rfl
  | succ g ih =>
    rw [seedWords, List.range_succ, List.flatMap_append, List.length_append, List.flatMap_singleton]
    change (seedWords T v g).length + 3 = _
    omega

/-- The words of one value stand between those before and those after it. -/
theorem seedWords_split {v : Blob} {g j : ℕ} (hj : j < g) : ∃ pre rest, pre.length = 3 * j ∧
    seedWords T v g = pre ++ (wordsOf T (getUint32 v (UInt32.ofNat j * 4)) ++ rest) := by
  obtain ⟨k, rfl⟩ : ∃ k, g = j + (k + 1) := ⟨g - j - 1, by omega⟩
  rw [seedWords, List.range_add, List.flatMap_append, List.range_succ_eq_map, List.map_cons, List.flatMap_cons]
  exact ⟨_, _, length_seedWords v j, rfl⟩

theorem setUint32_getUint32 {v : Blob} {g j : ℕ} {i : UInt32} (hv : v.length = 4 * g) (hi : i.toNat = j)
    (hj : j < g) (hlt : g ≤ 2 ^ 30) :
    setUint32 (v.take (4 * j) ++ List.replicate (4 * (g - j)) 0) (i * 4) (getUint32 v (i * 4)) =
      v.take (4 * (j + 1)) ++ List.replicate (4 * (g - (j + 1))) 0 := by
  have hpos : (i * 4).toNat = 4 * j := by
    rw [UInt32.toNat_mul, hi]
    change j * 4 % 2 ^ 32 = _
    omega
  have htake : (v.take (4 * j)).length = 4 * j := List.length_take_of_le (by omega)
  have hbytes : podBytes 4 (getUint32 v (i * 4)).toNat = (v.drop (4 * j)).take 4 := by
    have hlen : ((v.drop (4 * j)).take 4).length = 4 := by
      rw [List.length_take, List.length_drop]
      omega
    have hval : podValue ((v.drop (4 * j)).take 4) < 2 ^ 32 := by
      have := podValue_lt ((v.drop (4 * j)).take 4)
      rwa [hlen] at this
    have hback := podBytes_podValue ((v.drop (4 * j)).take 4)
    rw [hlen] at hback
    rw [getUint32, hpos, UInt32.toNat_ofNat', Nat.mod_eq_of_lt hval, hback]
  have hzeros : 4 * (g - j) - 4 = 4 * (g - (j + 1)) := by omega
  have hfour : 4 * j + 4 - 4 * j = 4 := Nat.add_sub_cancel_left _ _
  have hpast : (v.take (4 * j)).drop (4 * j + 4) = [] := List.drop_of_length_le (by rw [htake]; omega)
  rw [setUint32, hpos, hbytes, List.take_left' htake, List.drop_append, hpast, htake, hfour, List.drop_replicate,
    hzeros, List.nil_append, Nat.mul_succ, List.take_add]

theorem text2binaryLoop_eq {v : Blob} {n fuel g : ℕ} {i : UInt32} (hv : v.length = 4 * g) (hi : i.toNat + n = g)
    (hlt : g ≤ 2 ^ 30) (hfuel : n ≤ fuel) :
    text2binaryLoop T (seedWords T v g) fuel i
      (v.take (4 * i.toNat) ++ List.replicate (4 * (g - i.toNat)) 0) = some (.ok v) := by
  have hcount : (seedWords T v g).length / 3 = g := by
    rw [length_seedWords]
    omega
  induction n generalizing fuel i with
  | zero =>
    have hend : ¬i.toNat < (seedWords T v g).length / 3 := by omega
    have hfull : v.take (4 * i.toNat) ++ List.replicate (4 * (g - i.toNat)) 0 = v := by
      rw [List.take_of_length_le (by omega), show g - i.toNat = 0 by omega]
      simp
    cases fuel <;> rw [text2binaryLoop, if_neg hend, hfull]
  | succ n ih =>
    obtain ⟨fuel, rfl⟩ := Nat.exists_eq_add_one_of_ne_zero (show fuel ≠ 0 by omega)
    have hnext : (i + 1).toNat = i.toNat + 1 := by
      rw [UInt32.toNat_add]
      exact Nat.mod_eq_of_lt (by change i.toNat + 1 < _; omega)
    have hat : (i * 3).toNat = 3 * i.toNat ∧ (i * 3 + 1).toNat = 3 * i.toNat + 1 ∧
        (i * 3 + 2).toNat = 3 * i.toNat + 2 := by
      have h3 : (i * 3).toNat = 3 * i.toNat := by
        rw [UInt32.toNat_mul]
        change i.toNat * 3 % 2 ^ 32 = _
        omega
      refine ⟨h3, ?_, ?_⟩
      · rw [UInt32.toNat_add, h3]
        exact Nat.mod_eq_of_lt (by change 3 * i.toNat + 1 < _; omega)
      · rw [UInt32.toNat_add, h3]
        exact Nat.mod_eq_of_lt (by change 3 * i.toNat + 2 < _; omega)
    obtain ⟨pre, rest, hpre, hsplit⟩ := @seedWords_split T v g i.toNat (by omega)
    rw [UInt32.ofNat_toNat] at hsplit
    have hread : ∀ k < 3, (seedWords T v g).getD (3 * i.toNat + k) [] =
        (wordsOf T (getUint32 v (i * 4))).getD k [] := by
      intro k hk
      rw [hsplit, List.getD_append_right _ _ _ _ (by omega), hpre, Nat.add_sub_cancel_left]
      exact List.getD_append _ _ _ _ hk
    have hplace : ∀ w : UInt32, T.wordsMap (word T (w % UInt32.ofNat NUMWORDS)) =
        some (w % UInt32.ofNat NUMWORDS) := by
      intro w
      refine wordsMap_word ?_
      rw [toNat_mod_numwords]
      exact Nat.mod_lt _ (by decide)
    have h1 := hread 0 (by decide)
    have h2 := hread 1 (by decide)
    have h3 := hread 2 (by decide)
    rw [Nat.add_zero] at h1
    have hwritten := setUint32_getUint32 hv rfl (show i.toNat < g by omega) hlt
    have hrest := @ih fuel (i + 1) (by omega) (by omega)
    rw [hnext] at hrest
    rw [text2binaryLoop, if_pos (by omega), hat.1, hat.2.1, hat.2.2, h1, h2, h3]
    unfold wordsOf
    simp only [List.getD_cons_zero, List.getD_cons_succ, hplace]
    rw [valueOf_places, hwritten, hrest]

/-- Up to `2 ^ 32` bytes, the counters do not wrap and the bytes come back. -/
theorem roundTrips_of_le {v : Blob} (hne : v ≠ []) (hfour : v.length % 4 = 0) (hle : v.length ≤ 2 ^ 32) :
    RoundTrips T v := by
  obtain ⟨g, hg⟩ : ∃ g, v.length = 4 * g := ⟨v.length / 4, by omega⟩
  have hpos := List.length_pos_of_ne_nil hne
  have hcount : v.length / 4 = g := by omega
  have hclean : ∀ w ∈ seedWords T v g, w ≠ [] ∧ ∀ c ∈ w, isSpaceChar c = false :=
    fun w hw => T.word_spec w (mem_of_seedWords hw)
  have hwords : seedWords T v g ≠ [] := by
    apply List.ne_nil_of_length_pos
    rw [length_seedWords]
    omega
  have htext : (seedWords T v g).flatMap (· ++ [0x20]) = (List.range' 0 g).flatMap fun j =>
      (wordsOf T (getUint32 v (UInt32.ofNat j * 4))).flatMap (· ++ [0x20]) := by
    rw [seedWords, List.flatMap_assoc, List.range_eq_range']
  refine ⟨g, (seedWords T v g).flatMap (· ++ [0x20]), ?_, g, ?_⟩
  · have hloop := @binary2textLoop_eq T v g g g 0 hcount (Nat.zero_add g) (by omega) le_rfl []
    rw [UInt32.toNat_zero, ← htext, List.nil_append] at hloop
    rw [binary2text, if_neg (by omega), hloop, Option.map_some]
  · have hloop := @text2binaryLoop_eq T v g g g 0 hg (Nat.zero_add g) (by omega) le_rfl
    have hzeros : 3 * g / 3 * 4 = 4 * g := by omega
    rw [UInt32.toNat_zero, Nat.mul_zero, List.take_zero, Nat.sub_zero, List.nil_append] at hloop
    unfold text2binary
    dsimp only
    rw [split_words hwords hclean, length_seedWords, if_neg (by omega), hzeros, hloop]

/-- A value is written below `2 ^ 32`, since its place is a multiple of four. -/
theorem getD_setUint32 (bytes : Blob) (i val : UInt32) {p : ℕ} (hp : 2 ^ 32 ≤ p) :
    (setUint32 bytes (i * 4) val).getD p 0 = bytes.getD p 0 := by
  have hpos : (i * 4).toNat + 4 ≤ 2 ^ 32 := by
    rw [UInt32.toNat_mul]
    change i.toNat * 4 % 2 ^ 32 + 4 ≤ _
    omega
  rw [setUint32]
  by_cases hfits : (i * 4).toNat + 4 ≤ bytes.length
  · have hlen : (bytes.take (i * 4).toNat ++ podBytes 4 val.toNat).length = (i * 4).toNat + 4 := by
      rw [List.length_append, List.length_take_of_le (by omega), length_podBytes]
    rw [List.getD_append_right _ _ _ _ (by omega), hlen, List.getD_eq_getElem?_getD, List.getElem?_drop,
      show (i * 4).toNat + 4 + (p - ((i * 4).toNat + 4)) = p by omega, ← List.getD_eq_getElem?_getD]
  · rw [List.getD_eq_default, List.getD_eq_default _ _ (by omega)]
    rw [List.length_append, List.length_append, List.length_take, length_podBytes, List.length_drop]
    omega

theorem getD_text2binaryLoop {tokens : List Blob} {fuel : ℕ} {i : UInt32} {res v : Blob}
    (h : text2binaryLoop T tokens fuel i res = some (.ok v)) {p : ℕ} (hp : 2 ^ 32 ≤ p) :
    v.getD p 0 = res.getD p 0 := by
  induction fuel generalizing i res with
  | zero =>
    rw [text2binaryLoop] at h
    split_ifs at h
    cases h
    rfl
  | succ fuel ih =>
    rw [text2binaryLoop] at h
    split_ifs at h
    · split at h
      · rw [ih h, getD_setUint32 _ _ _ hp]
      · cases h
    · cases h
      rfl

theorem getD_text2binary {fuel : ℕ} {text v : Blob} (h : text2binary T fuel text = some (.ok v)) {p : ℕ}
    (hp : 2 ^ 32 ≤ p) : v.getD p 0 = 0 := by
  unfold text2binary at h
  dsimp only at h
  split_ifs at h
  · cases h
  · rw [getD_text2binaryLoop h hp]
    by_cases hlt : p < (((trim text).splitOn 0x20).length / 3 * 4)
    · exact List.getD_replicate _ hlt
    · exact List.getD_eq_default _ _ (by rw [List.length_replicate]; omega)

theorem not_roundTrips {n : ℕ} (h : 2 ^ 32 < n) : ¬RoundTrips T (List.replicate n 1) := by
  rintro ⟨-, text, -, fuel, hback⟩
  have hzero := getD_text2binary hback (le_refl (2 ^ 32))
  rw [List.getD_replicate _ h] at hzero
  exact absurd hzero (by decide)

end

/-- The seeds of a length all survive exactly if the length fits the counters. -/
theorem seeds_survive_iff (n : ℕ) (hpos : 0 < n) (hfour : n % 4 = 0) :
    (∀ v : Blob, v.length = n → RoundTrips T v) ↔ n ≤ 2 ^ 32 := by
  constructor
  · intro hall
    by_contra hlong
    exact not_roundTrips (Nat.lt_of_not_le hlong) (hall _ List.length_replicate)
  · intro hle v hv
    subst hv
    exact roundTrips_of_le (List.ne_nil_of_length_pos hpos) hfour hle

def letter (d : ℕ) : UInt8 := 97 + UInt8.ofNat (d % 26)

def sampleWord (i : ℕ) : Blob := [letter (i / 676), letter (i / 26), letter i]

def samplePlace : Blob → ℕ
  | [a, b, c] => (a.toNat - 97) * 676 + (b.toNat - 97) * 26 + (c.toNat - 97)
  | _ => NUMWORDS

theorem toNat_letter (d : ℕ) : (letter d).toNat = 97 + d % 26 := by
  rw [letter, UInt8.toNat_add, UInt8.toNat_ofNat']
  change (97 + d % 26 % 256) % 256 = _
  omega

theorem letter_not_space (d : ℕ) : isSpaceChar (letter d) = false := by
  have hall : ∀ r < 26, isSpaceChar (97 + UInt8.ofNat r) = false := by decide
  exact hall _ (Nat.mod_lt _ (by decide))

theorem samplePlace_sampleWord {k : ℕ} (hk : k < 1626) : samplePlace (sampleWord k) = k := by
  rw [sampleWord, samplePlace, toNat_letter, toNat_letter, toNat_letter]
  omega

def sampleTable : WordTable where
  wordsArray := (List.range NUMWORDS).map sampleWord
  wordsMap w :=
    if samplePlace w < NUMWORDS ∧ sampleWord (samplePlace w) = w then some (UInt32.ofNat (samplePlace w)) else none
  length_wordsArray := by simp
  wordsMap_eq w i := by
    have hn : NUMWORDS = 1626 := rfl
    rw [Option.ite_none_right_eq_some, Option.some_inj, List.getElem?_map]
    constructor
    · rintro ⟨⟨hlt, hw⟩, rfl⟩
      have hback : (UInt32.ofNat (samplePlace w)).toNat = samplePlace w :=
        Nat.mod_eq_of_lt (by omega)
      rw [hback, List.getElem?_range hlt, Option.map_some, hw]
    · intro h
      have hlt : i.toNat < NUMWORDS := by
        by_contra hout
        rw [List.getElem?_eq_none (by rw [List.length_range]; omega)] at h
        cases h
      rw [List.getElem?_range hlt, Option.map_some, Option.some_inj] at h
      rw [← h, samplePlace_sampleWord (by omega)]
      exact ⟨⟨hlt, rfl⟩, UInt32.ofNat_toNat⟩
  word_spec w hw := by
    obtain ⟨k, -, rfl⟩ := List.mem_map.mp hw
    refine ⟨List.cons_ne_nil _ _, fun c hc => ?_⟩
    simp only [sampleWord, List.mem_cons, List.not_mem_nil, or_false] at hc
    rcases hc with rfl | rfl | rfl
    · exact letter_not_space _
    · exact letter_not_space _
    · exact letter_not_space _

/-- Four bytes survive. -/
theorem seeds_survive_four : RoundTrips sampleTable [1, 2, 3, 4] :=
  (seeds_survive_iff sampleTable 4 (by decide) (by decide)).mpr (by decide) _ rfl

/-- Four bytes more than the counters take, all of them ones, do not. -/
theorem long_seed_lost :
    ¬∀ v : Blob, v ≠ [] → v.length % 4 = 0 → RoundTrips sampleTable v := by
  intro hall
  refine not_roundTrips (show 2 ^ 32 < 2 ^ 32 + 4 by decide) (hall (List.replicate (2 ^ 32 + 4) 1) ?_ ?_)
  · exact List.ne_nil_of_length_pos (by rw [List.length_replicate]; decide)
  · rw [List.length_replicate]
    decide

end MnemonicEncoding
end Boolberry
