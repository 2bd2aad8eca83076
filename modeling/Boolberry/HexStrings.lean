import Mathlib.Data.List.DropRight
import Boolberry.ArchiveRoundTrip

/-!
# Hex strings

The hex texts of `string_tools.h` in which hashes and scratchpad addenda travel
between the daemon, the miner and the wallet. The reader is `strtoul` on two
characters at a time, so it takes more than the writer makes.
-/

namespace Boolberry

def hexDigit (n : ℕ) : UInt8 := if n < 10 then UInt8.ofNat (48 + n) else UInt8.ofNat (87 + n)

def buffToHexNodelimer (l : Blob) : Blob :=
  l.flatMap fun c => [hexDigit (c.toNat / 16), hexDigit (c.toNat % 16)]

/-- `pod_to_hex` of a hash. -/
def podToHex (h : Hash) : Blob := buffToHexNodelimer (hashBytes h)

/-- `addendum_to_hexstr`, behind what the buffer holds. -/
def addendumToHexstr (add : List Hash) (hexBuff : Blob) : Blob := hexBuff ++ add.flatMap podToHex

/-- `isspace`. -/
def isSpaceChar (c : UInt8) : Bool := c == 0x20 || (9 ≤ c && c ≤ 13)

def trim (s : Blob) : Blob := (s.dropWhile isSpaceChar).rdropWhile isSpaceChar

def hexValue (c : UInt8) : Option ℕ :=
  if 48 ≤ c ∧ c ≤ 57 then some (c.toNat - 48)
  else if 97 ≤ c ∧ c ≤ 102 then some (c.toNat - 87)
  else if 65 ≤ c ∧ c ≤ 70 then some (c.toNat - 55)
  else none

/-- The digits behind the sign; `none` when there are none or something follows them. -/
def hexNumber : Blob → Option ℕ
  | [] => none
  | l => (l.mapM hexValue).map (List.foldl (fun v d => 16 * v + d) 0)

/-- `strtoul(byte_str, &endptr, 16)` as a `long`, when it takes all of at most two characters; a
prefix `0x` would leave no digit. -/
def strtoul16 (byteStr : Blob) : Option ℤ :=
  match byteStr.dropWhile isSpaceChar with
  | 0x2b :: l => (hexNumber l).map fun v => (v : ℤ)
  | 0x2d :: l => (hexNumber l).map fun v => -(v : ℤ)
  | l => (hexNumber l).map fun v => (v : ℤ)

/-- One step of `parse_hexstr_to_binbuff`. -/
def parseByteStr (byteStr : Blob) : Option UInt8 :=
  match strtoul16 byteStr with
  | none => none
  | some v => if v < 0 ∨ 0xFF < v then none else some (UInt8.ofNat v.toNat)

def parseHexstrToBinbuff : Blob → Option Blob
  | [] => some []
  | [a] => (parseByteStr [a]).map fun c => [c]
  | a :: b :: l =>
      match parseByteStr [a, b] with
      | none => none
      | some c => (parseHexstrToBinbuff l).map fun res => c :: res

/-- `hex_to_pod` for a hash: the size is that of the string before it is trimmed. -/
def hexToPod (hexStr : Blob) : Option Hash :=
  let hexStrTr := trim hexStr
  if 32 * 2 ≠ hexStr.length then none
  else
    match parseHexstrToBinbuff hexStrTr with
    | none => none
    | some binBuff => if binBuff.length ≠ 32 then none else some (BitVec.ofNat 256 (podValue binBuff))

/-- The loop of `hexstr_to_addendum` over `k` hashes. -/
def hexstrToAddendumGo : ℕ → Blob → List Hash → Option (List Hash)
  | 0, _, add => some add
  | k + 1, hexBuff, add =>
      match hexToPod (hexBuff.take 64) with
      | none => none
      | some h => hexstrToAddendumGo k (hexBuff.drop 64) (add ++ [h])

/-- `hexstr_to_addendum` into an empty vector. -/
def hexstrToAddendum (hexBuff : Blob) : Option (List Hash) :=
  if hexBuff.length % 64 ≠ 0 then none else hexstrToAddendumGo (hexBuff.length / 64) hexBuff []

theorem hexDigit_spec {n : ℕ} (hn : n < 16) :
    hexValue (hexDigit n) = some n ∧ isSpaceChar (hexDigit n) = false ∧
      hexDigit n ≠ 0x2b ∧ hexDigit n ≠ 0x2d := by
  have h : ∀ i : Fin 16, hexValue (hexDigit i) = some i.val ∧
      isSpaceChar (hexDigit i) = false ∧ hexDigit i ≠ 0x2b ∧ hexDigit i ≠ 0x2d := by
    decide +kernel
  exact h ⟨n, hn⟩

theorem parseByteStr_hexDigits (c : UInt8) :
    parseByteStr [hexDigit (c.toNat / 16), hexDigit (c.toNat % 16)] = some c := by
  have h : ∀ i : Fin 256, parseByteStr [hexDigit (i.val / 16), hexDigit (i.val % 16)] =
      some (UInt8.ofNat i.val) := by decide +kernel
  have hc := h ⟨c.toNat, c.toNat_lt⟩
  rwa [UInt8.ofNat_toNat] at hc

@[simp] theorem length_buffToHexNodelimer (l : Blob) :
    (buffToHexNodelimer l).length = 2 * l.length := by
  induction l with
  | nil => rfl
  | cons c l ih =>
    simp only [buffToHexNodelimer, List.flatMap_cons, List.length_append] at ih ⊢
    rw [ih]
    simp only [List.length_cons, List.length_nil]
    omega

theorem parseHexstrToBinbuff_buffToHexNodelimer (l : Blob) :
    parseHexstrToBinbuff (buffToHexNodelimer l) = some l := by
  induction l with
  | nil => rfl
  | cons c l ih =>
    change parseHexstrToBinbuff (hexDigit (c.toNat / 16) :: hexDigit (c.toNat % 16) ::
      buffToHexNodelimer l) = _
    rw [parseHexstrToBinbuff, parseByteStr_hexDigits, ih]
    rfl

theorem isSpaceChar_of_mem {l : Blob} {x : UInt8} (h : x ∈ buffToHexNodelimer l) :
    isSpaceChar x = false := by
  obtain ⟨c, -, hx⟩ := List.mem_flatMap.mp h
  have hc := c.toNat_lt
  rcases List.mem_pair.mp hx with rfl | rfl
  · exact (hexDigit_spec (by omega)).2.1
  · exact (hexDigit_spec (by omega)).2.1

theorem trim_of_no_space {s : Blob} (h : ∀ x ∈ s, isSpaceChar x = false) : trim s = s := by
  have hleft : s.dropWhile isSpaceChar = s := by
    cases s with
    | nil => rfl
    | cons c s => rw [List.dropWhile_cons_of_neg (by simp [h c (by simp)])]
  rw [trim, hleft, List.rdropWhile_eq_self_iff]
  intro hne hlast
  rw [h _ (List.getLast_mem hne)] at hlast
  exact Bool.false_ne_true hlast

@[simp] theorem length_podToHex (h : Hash) : (podToHex h).length = 64 := by
  simp [podToHex, hashBytes]

@[simp] theorem hexToPod_podToHex (h : Hash) : hexToPod (podToHex h) = some h := by
  have htrim : trim (podToHex h) = podToHex h := trim_of_no_space fun _ => isSpaceChar_of_mem
  have hlt : h.toNat < 256 ^ 32 := by
    rw [pow_bytes]
    exact h.isLt
  unfold hexToPod
  rw [htrim, if_neg (by simp)]
  simp only [podToHex, parseHexstrToBinbuff_buffToHexNodelimer]
  rw [if_neg (by simp [hashBytes]), hashBytes, podValue_podBytes hlt, BitVec.ofNat_toNat,
    BitVec.setWidth_eq]

theorem length_flatMap_podToHex (add : List Hash) :
    (add.flatMap podToHex).length = 64 * add.length := by
  induction add with
  | nil => rfl
  | cons h add ih =>
    rw [List.flatMap_cons, List.length_append, ih, length_podToHex, List.length_cons]
    omega

theorem hexstrToAddendumGo_flatMap (l add : List Hash) :
    hexstrToAddendumGo l.length (l.flatMap podToHex) add = some (add ++ l) := by
  induction l generalizing add with
  | nil => simp [hexstrToAddendumGo]
  | cons h l ih =>
    rw [List.length_cons, List.flatMap_cons, hexstrToAddendumGo,
      List.take_left' (length_podToHex h), List.drop_left' (length_podToHex h), hexToPod_podToHex]
    simp only
    rw [ih, List.append_assoc, List.singleton_append]

@[simp] theorem hexstrToAddendum_addendumToHexstr (add : List Hash) :
    hexstrToAddendum (addendumToHexstr add []) = some add := by
  have hlen := length_flatMap_podToHex add
  have hdiv : (add.flatMap podToHex).length / 64 = add.length := by omega
  rw [addendumToHexstr, List.nil_append, hexstrToAddendum, if_neg (by omega), hdiv,
    hexstrToAddendumGo_flatMap, List.nil_append]

end Boolberry
