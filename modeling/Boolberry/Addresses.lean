import Boolberry.Base58
import Boolberry.WalletSpend

/-!
# Address strings

An address is the base 58 form of a tag, a payload and four bytes of their hash. The tag is a varint, and the
reader of varints does not fail when its input ends too soon.
-/

namespace Boolberry
open Reading

namespace Base58

def addrChecksumSize : ℕ := 4

/-- The first bytes of the hash. -/
def addrChecksum (E : Env) (buf : Blob) : Blob := (hashBytes (E.cnFastHash buf)).take addrChecksumSize

def encodeAddr (E : Env) (tag : UInt64) (data : Blob) : Option Blob :=
  let buf := writeVarint tag.toNat ++ data
  encode (buf ++ addrChecksum E buf)

def decodeAddr (E : Env) (addr : Blob) : Option (UInt64 × Blob) :=
  match decode addr with
  | none => none
  | some addrData =>
      if addrData.length ≤ addrChecksumSize then none
      else
        let checksum := addrData.drop (addrData.length - addrChecksumSize)
        let addrData := addrData.take (addrData.length - addrChecksumSize)
        if addrChecksum E addrData ≠ checksum then none
        else
          let r := readVarint 64 addrData
          if r.1 ≤ 0 then none else some (UInt64.ofNat r.2.1, addrData.drop r.1.toNat)

end Base58

def CURRENCY_PUBLIC_ADDRESS_BASE58_PREFIX : UInt64 := 1
def CURRENCY_PUBLIC_INTEG_ADDRESS_BASE58_PREFIX : UInt64 := 0xE94E
def ADDRESS_KEYS_DATA_SIZE : ℕ := 64

def readAccountPublicAddress : Reader UInt8 AccountPublicAddress := do
  let spendPublicKey ← readHash
  let viewPublicKey ← readHash
  return { spendPublicKey, viewPublicKey }

def getAccountAddressAndPaymentIdFromStr (E : Env) (str : Blob) : Option (DestinationAddress × Blob) :=
  match Base58.decodeAddr E str with
  | none => none
  | some (tag, data) =>
      if CURRENCY_PUBLIC_ADDRESS_BASE58_PREFIX ≠ tag ∧ CURRENCY_PUBLIC_INTEG_ADDRESS_BASE58_PREFIX ≠ tag then none
      else if data.length < ADDRESS_KEYS_DATA_SIZE then none
      else
        match readAccountPublicAddress.all (data.take ADDRESS_KEYS_DATA_SIZE) with
        | none => none
        | some addr =>
            if E.checkKey addr.spendPublicKey = false ∨ E.checkKey addr.viewPublicKey = false then none
            else some ({ toAccountPublicAddress := addr, isSwapAddress := false },
              data.drop ADDRESS_KEYS_DATA_SIZE)

/-- What `read_varint` answers: a minimal varint and how long it was, an error, or the length of an input
whose bytes all ask for more. -/
theorem readVarintGo_cases (bits shift i read : ℕ) (l : Blob) :
    (∃ x rest, checkedVarintGo bits shift i l = some (x, rest) ∧ rest.length ≤ l.length ∧
      readVarintGo bits shift i read l = (((read + (l.length - rest.length) : ℕ) : ℤ), x, rest)) ∨
    (checkedVarintGo bits shift i l = none ∧ (readVarintGo bits shift i read l).1 < 0) ∨
    (checkedVarintGo bits shift i l = none ∧
      (readVarintGo bits shift i read l).1 = ((read + l.length : ℕ) : ℤ) ∧ (∀ c ∈ l, 0x80 ≤ c) ∧
      (l = [] ∨ shift + 7 * l.length < bits)) := by
  induction l generalizing shift i read with
  | nil => exact .inr (.inr ⟨rfl, rfl, List.forall_mem_nil _, .inl rfl⟩)
  | cons byte l ih =>
    unfold checkedVarintGo readVarintGo
    split_ifs with hover hzero hlast
    · exact .inr (.inl ⟨rfl, Int.negSucc_lt_zero 0⟩)
    · exact .inr (.inl ⟨rfl, Int.negSucc_lt_zero 1⟩)
    · refine .inl ⟨_, _, rfl, Nat.le_succ _, ?_⟩
      rw [List.length_cons, Nat.add_sub_cancel_left]
      rfl
    · rw [and_high_eq_zero] at hlast
      rcases ih (shift + 7) (i ||| ((byte &&& 0x7f).toNat <<< shift) % 2 ^ bits) (read + 1) with
        ⟨x, rest, hchecked, hle, hread⟩ | ⟨hchecked, hread⟩ | ⟨hchecked, hread, hhigh, hfits⟩
      · refine .inl ⟨x, rest, hchecked, Nat.le_succ_of_le hle, hread.trans ?_⟩
        rw [List.length_cons, Nat.succ_sub hle, Nat.add_assoc, Nat.add_comm 1]
      · exact .inr (.inl ⟨hchecked, hread⟩)
      · -- a byte that asks for more leaves room for it
        have hroom : shift + 7 < bits := by
          by_contra hbits
          refine hover ⟨by omega, ?_⟩
          calc 2 ^ (bits - shift) ≤ 2 ^ 7 := Nat.pow_le_pow_right (by decide) (by omega)
            _ ≤ byte.toNat := by omega
        refine .inr (.inr ⟨hchecked, ?_, List.forall_mem_cons.mpr ⟨?_, hhigh⟩, .inr ?_⟩)
        · rw [hread, List.length_cons, Nat.add_assoc, Nat.add_comm 1]
        · rw [UInt8.le_iff_toNat_le]
          exact Nat.le_of_not_lt hlast
        · rw [List.length_cons]
          rcases hfits with rfl | hfits
          · simpa using hroom
          · omega

/-- Bytes that all ask for more are read to their end when there are not too many. -/
theorem readVarintGo_high {bits shift i read : ℕ} {l : Blob} (hhigh : ∀ c ∈ l, 0x80 ≤ c)
    (hfits : shift + 7 * l.length < bits) :
    checkedVarintGo bits shift i l = none ∧
      (readVarintGo bits shift i read l).1 = ((read + l.length : ℕ) : ℤ) := by
  induction l generalizing shift i read with
  | nil => exact ⟨rfl, rfl⟩
  | cons byte l ih =>
    rw [List.forall_mem_cons, UInt8.le_iff_toNat_le] at hhigh
    rw [List.length_cons] at hfits
    have hbyte : 128 ≤ byte.toNat := hhigh.1
    have hover : ¬(bits ≤ shift + 7 ∧ 2 ^ (bits - shift) ≤ byte.toNat) := fun h => by omega
    have hzero : ¬(byte = 0 ∧ shift ≠ 0) := by
      rintro ⟨rfl, -⟩
      exact absurd hbyte (by decide)
    have hlast : ¬byte &&& 0x80 = 0 := by
      rw [and_high_eq_zero]
      omega
    obtain ⟨hchecked, hread⟩ := @ih (shift + 7) (i ||| ((byte &&& 0x7f).toNat <<< shift) % 2 ^ bits) (read + 1)
      hhigh.2 (by omega)
    unfold checkedVarintGo readVarintGo
    dsimp only
    rw [if_neg hover, if_neg hzero, if_neg hlast, if_neg hover, if_neg hzero, if_neg hlast, hread,
      List.length_cons, Nat.add_assoc, Nat.add_comm 1]
    exact ⟨hchecked, rfl⟩

namespace Base58

section

variable {E : Env} {s : Blob}

theorem length_addrChecksum (E : Env) (buf : Blob) : (addrChecksum E buf).length = 4 := by
  unfold addrChecksum hashBytes
  rw [List.length_take, length_podBytes]
  rfl

/-- The strings that are taken: they encode some bytes and their checksum, and a tag is read from the
bytes. -/
theorem decodeAddr_eq_some {tag : UInt64} {data : Blob} :
    decodeAddr E s = some (tag, data) ↔ ∃ p, p ≠ [] ∧ encode (p ++ addrChecksum E p) = some s ∧
      0 < (readVarint 64 p).1 ∧ UInt64.ofNat (readVarint 64 p).2.1 = tag ∧
      p.drop (readVarint 64 p).1.toNat = data := by
  have hfour : addrChecksumSize = 4 := rfl
  constructor
  · intro h
    unfold decodeAddr at h
    cases hdec : decode s with
    | none =>
      rw [hdec] at h
      cases h
    | some addrData =>
      rw [hdec] at h
      dsimp only at h
      split_ifs at h with hlen hsum hread
      obtain ⟨htag, hdata⟩ := Prod.mk.inj (Option.some.inj h)
      have hsplit := List.take_append_drop (addrData.length - addrChecksumSize) addrData
      have hp : addrData.take (addrData.length - addrChecksumSize) ≠ [] := by
        apply List.ne_nil_of_length_pos
        rw [List.length_take]
        omega
      refine ⟨_, hp, ?_, by omega, htag, hdata⟩
      rw [Decidable.not_not.mp hsum, hsplit]
      exact encode_decode hdec
  · rintro ⟨p, hp, henc, hread, rfl, rfl⟩
    have hdec : decode s = some (p ++ addrChecksum E p) := decode_iff.mpr henc
    have hlen := List.length_pos_of_ne_nil hp
    have hsub : (p ++ addrChecksum E p).length - addrChecksumSize = p.length := by
      rw [List.length_append, length_addrChecksum, hfour, Nat.add_sub_cancel]
    unfold decodeAddr
    rw [hdec]
    dsimp only
    rw [hsub, List.take_left, List.drop_left, if_neg (by omega), if_neg (fun h => h rfl), if_neg (by omega)]

/-- A tag that is read to its end was written so, and the payload is behind it. -/
theorem readVarint_write (tag : UInt64) (data : Blob) :
    readVarint 64 (writeVarint tag.toNat ++ data) =
      (((writeVarint tag.toNat).length : ℤ), tag.toNat, data) := by
  have hchecked : checkedVarintGo 64 0 0 (writeVarint tag.toNat ++ data) = some (tag.toNat, data) :=
    inverts_checkedVarint (le_refl 64) _ tag.toNat_lt data
  rcases readVarintGo_cases 64 0 0 0 (writeVarint tag.toNat ++ data) with
    ⟨x, rest, hsome, -, hread⟩ | ⟨hnone, -⟩ | ⟨hnone, -⟩
  · rw [hchecked] at hsome
    obtain ⟨rfl, rfl⟩ := Prod.mk.inj (Option.some.inj hsome)
    rw [readVarint, hread, List.length_append, Nat.add_sub_cancel, Nat.zero_add]
  · rw [hchecked] at hnone
    cases hnone
  · rw [hchecked] at hnone
    cases hnone

theorem decodeAddr_encodeAddr (E : Env) (tag : UInt64) (data : Blob) :
    ∃ s, encodeAddr E tag data = some s ∧ decodeAddr E s = some (tag, data) := by
  obtain ⟨s, henc, -⟩ := decode_encode
    (writeVarint tag.toNat ++ data ++ addrChecksum E (writeVarint tag.toNat ++ data))
  refine ⟨s, henc, decodeAddr_eq_some.mpr ⟨_, ?_, henc, ?_, ?_, ?_⟩⟩
  · exact List.append_ne_nil_of_left_ne_nil (writeVarint_ne_nil _) _
  all_goals rw [readVarint_write]
  · have := List.length_pos_of_ne_nil (writeVarint_ne_nil tag.toNat)
    dsimp only
    omega
  · exact UInt64.ofNat_toNat
  · rw [Int.toNat_natCast, List.drop_left]

/-- One to nine bytes that all ask for more, and their checksum. -/
def Unterminated (E : Env) (s : Blob) : Prop :=
  ∃ p : Blob, p ≠ [] ∧ p.length ≤ 9 ∧ (∀ c ∈ p, 0x80 ≤ c) ∧ encode (p ++ addrChecksum E p) = some s

theorem payload_unique {p q : Blob} (hp : encode (p ++ addrChecksum E p) = some s)
    (hq : encode (q ++ addrChecksum E q) = some s) : p = q := by
  have heq := (decode_iff.mpr hp).symm.trans (decode_iff.mpr hq)
  refine (List.append_inj' (Option.some.inj heq) ?_).1
  rw [length_addrChecksum, length_addrChecksum]

theorem decodeAddr_of_unterminated (h : Unterminated E s) : ∃ tag, decodeAddr E s = some (tag, []) := by
  obtain ⟨p, hp, hlen, hhigh, henc⟩ := h
  have hread := (@readVarintGo_high 64 0 0 0 p hhigh (by omega)).2
  rw [Nat.zero_add] at hread
  refine ⟨_, decodeAddr_eq_some.mpr ⟨p, hp, henc, ?_, rfl, ?_⟩⟩
  · have := List.length_pos_of_ne_nil hp
    rw [readVarint, hread]
    omega
  · rw [readVarint, hread, Int.toNat_natCast, List.drop_length]

/-- A string that is taken is what is written for its tag and payload, or its tag is cut off. -/
theorem encodeAddr_or_unterminated {tag : UInt64} {data : Blob} (h : decodeAddr E s = some (tag, data)) :
    encodeAddr E tag data = some s ∧ ¬Unterminated E s ∨
      encodeAddr E tag data ≠ some s ∧ Unterminated E s ∧ data = [] := by
  obtain ⟨p, hp, henc, hread, rfl, rfl⟩ := decodeAddr_eq_some.mp h
  rcases readVarintGo_cases 64 0 0 0 p with
    ⟨x, rest, hchecked, -, hcase⟩ | ⟨-, hneg⟩ | ⟨hnone, hcase, hhigh, hfits⟩
  · -- the tag ends
    have hx : x < 2 ^ 64 := yields_checkedVarint 64 _ _ _ hchecked
    obtain rfl : p = writeVarint x ++ rest := exact_checkedVarint (le_refl 64) _ _ _ hchecked
    have htag : (UInt64.ofNat x).toNat = x := by
      rw [UInt64.toNat_ofNat', Nat.mod_eq_of_lt hx]
    have hwritten := readVarint_write (UInt64.ofNat x) rest
    rw [htag] at hwritten
    rw [hwritten, Int.toNat_natCast, List.drop_left]
    refine .inl ⟨?_, ?_⟩
    · unfold encodeAddr
      rw [htag]
      exact henc
    · rintro ⟨q, -, hlen, hhigh, henc'⟩
      obtain rfl := payload_unique henc henc'
      have hnone := (@readVarintGo_high 64 0 0 0 _ hhigh (by omega)).1
      rw [hchecked] at hnone
      cases hnone
  · rw [readVarint] at hread
    omega
  · -- every byte asks for more
    rw [Nat.zero_add] at hcase
    have hlen : p.length ≤ 9 := by
      rcases hfits with rfl | hfits
      · exact absurd rfl hp
      · omega
    have hdata : p.drop (readVarint 64 p).1.toNat = [] := by
      rw [readVarint, hcase, Int.toNat_natCast, List.drop_length]
    rw [hdata]
    refine .inr ⟨fun h => ?_, ⟨p, hp, hlen, hhigh, henc⟩, rfl⟩
    have hwritten := payload_unique henc h
    generalize UInt64.ofNat (readVarint 64 p).2.1 = tag at hwritten
    have hchecked : checkedVarintGo 64 0 0 (writeVarint tag.toNat ++ []) = some (tag.toNat, []) :=
      inverts_checkedVarint (le_refl 64) _ tag.toNat_lt []
    rw [← hwritten, hnone] at hchecked
    cases hchecked

end

end Base58

section

variable {E : Env} {s : Blob}

theorem exact_readAccountPublicAddress : Reading.Exact readAccountPublicAddress fun a =>
    hashBytes a.spendPublicKey ++ hashBytes a.viewPublicKey := by
  intro l a rest h
  unfold readAccountPublicAddress at h
  obtain ⟨spend, l₁, hspend, h⟩ := Reader.bind_eq_some.mp h
  obtain ⟨view, l₂, hview, h⟩ := Reader.bind_eq_some.mp h
  obtain ⟨rfl, rfl⟩ := Reader.pure_eq_some.mp h
  rw [exact_readHash _ _ _ hspend, exact_readHash _ _ _ hview, List.append_assoc]

/-- An address that is taken has one spelling: its keys and its payment id make up the payload, which is
too long for a tag that is cut off. -/
theorem address_spelled {addr : DestinationAddress} {paymentId : Blob}
    (h : getAccountAddressAndPaymentIdFromStr E s = some (addr, paymentId)) :
    ∃ tag data, Base58.decodeAddr E s = some (tag, data) ∧ Base58.encodeAddr E tag data = some s ∧
      (tag = CURRENCY_PUBLIC_ADDRESS_BASE58_PREFIX ∨ tag = CURRENCY_PUBLIC_INTEG_ADDRESS_BASE58_PREFIX) ∧
      data = hashBytes addr.spendPublicKey ++ hashBytes addr.viewPublicKey ++ paymentId := by
  unfold getAccountAddressAndPaymentIdFromStr at h
  cases hdec : Base58.decodeAddr E s with
  | none =>
    rw [hdec] at h
    cases h
  | some r =>
    obtain ⟨tag, data⟩ := r
    rw [hdec] at h
    dsimp only at h
    split_ifs at h with htag hlen
    cases hkeys : readAccountPublicAddress.all (data.take ADDRESS_KEYS_DATA_SIZE) with
    | none =>
      rw [hkeys] at h
      cases h
    | some keys =>
      rw [hkeys] at h
      dsimp only at h
      split_ifs at h with hchecked
      obtain ⟨rfl, rfl⟩ := Prod.mk.inj (Option.some.inj h)
      refine ⟨tag, data, rfl, ?_, ?_, ?_⟩
      · rcases Base58.encodeAddr_or_unterminated hdec with hspelled | hcut
        · exact hspelled.1
        · rw [hcut.2.2] at hlen
          exact absurd (show ([] : Blob).length < ADDRESS_KEYS_DATA_SIZE by decide) hlen
      · by_contra hother
        rw [not_or] at hother
        exact htag ⟨Ne.symm hother.1, Ne.symm hother.2⟩
      · rw [← exact_readAccountPublicAddress.all hkeys, List.take_append_drop]

end

/-- `encode_addr` and `decode_addr` are exact: what is written is read back, the string is spelled as its tag
and payload are written, and so is the address that it denotes. -/
structure AddrExact (E : Env) (s : Blob) : Prop where
  returned : ∀ tag data, ∃ s, Base58.encodeAddr E tag data = some s ∧ Base58.decodeAddr E s = some (tag, data)
  spelled : ∀ tag data, Base58.decodeAddr E s = some (tag, data) → Base58.encodeAddr E tag data = some s
  address : ∀ addr paymentId, getAccountAddressAndPaymentIdFromStr E s = some (addr, paymentId) →
    ∃ tag data, Base58.decodeAddr E s = some (tag, data) ∧ Base58.encodeAddr E tag data = some s

/-- They are exact except on the strings of a tag that is cut off. -/
theorem addrExact_iff (E : Env) (s : Blob) : AddrExact E s ↔ ¬Base58.Unterminated E s := by
  constructor
  · intro h hcut
    obtain ⟨tag, hdec⟩ := Base58.decodeAddr_of_unterminated hcut
    rcases Base58.encodeAddr_or_unterminated hdec with hspelled | hother
    · exact hspelled.2 hcut
    · exact hother.1 (h.spelled tag [] hdec)
  · intro h
    refine ⟨Base58.decodeAddr_encodeAddr E, fun tag data hdec => ?_, fun addr paymentId hdec => ?_⟩
    · rcases Base58.encodeAddr_or_unterminated hdec with hspelled | hcut
      · exact hspelled.1
      · exact absurd hcut.2.1 h
    · obtain ⟨tag, data, hread, hspelled, -⟩ := address_spelled hdec
      exact ⟨tag, data, hread, hspelled⟩

/-- `FVtHeco` is a tag that is cut off after one byte, and is read as tag 0 without a payload, which is
written `112UzHM`. -/
theorem tag_cut_off_taken :
    Base58.decodeAddr sampleEnv [70, 86, 116, 72, 101, 99, 111] = some (0, []) ∧
      Base58.encodeAddr sampleEnv 0 [] = some [49, 49, 50, 85, 122, 72, 77] ∧
      ¬AddrExact sampleEnv [70, 86, 116, 72, 101, 99, 111] := by
  have hread : Base58.decodeAddr sampleEnv [70, 86, 116, 72, 101, 99, 111] = some (0, []) ∧
      Base58.encodeAddr sampleEnv 0 [] = some [49, 49, 50, 85, 122, 72, 77] := by decide +kernel
  refine ⟨hread.1, hread.2, fun h => ?_⟩
  have hspelled := h.spelled 0 [] hread.1
  rw [hread.2] at hspelled
  exact absurd hspelled (by decide)

end Boolberry
