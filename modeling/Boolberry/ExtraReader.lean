import Boolberry.ArchiveRoundTrip

/-!
# Reading the extra of a transaction

The reader of `parse_and_validate_tx_extra` once more, with every byte looked for in the
blob: it stops where a read leaves the blob. As long as none does, it is the parser of
the node.
-/

namespace Boolberry

/-- How reading an extra ends when it is not accepted: the call returns false, a read leaves the blob,
or the rounds run out. -/
inductive ExtraFault where
  | refused
  | pastEnd
  | running
deriving DecidableEq, Repr

namespace ExtraReader

section Reader

variable (extra : Blob)

def readByte (i : ℕ) : Except ExtraFault UInt8 :=
  match extra[i]? with
  | some b => .ok b
  | none => .error .pastEnd

/-- `n` bytes from `i` on. -/
def readBytes (i n : ℕ) : Except ExtraFault Blob :=
  if n = 0 ∨ i + n ≤ extra.length then .ok ((extra.drop i).take n) else .error .pastEnd

/-- `CHECK_AND_ASSERT_MES`. -/
def check (p : Prop) [Decidable p] : Except ExtraFault Unit :=
  if p then .ok () else .error .refused

def readTrackingKey (track : Bool) (i : ℕ) : Except ExtraFault (SecretKey × ℕ) :=
  if track then do
    check (32 ≤ extra.length - i)
    let key ← readBytes extra i 32
    return (BitVec.ofNat 256 (podOfBytes key), i + 32)
  else return (nullSkey, i)

/-- The comment. Its length byte is read unchecked, and an empty one is not stepped over. -/
def readComment (i : ℕ) : Except ExtraFault (Blob × ℕ) := do
  let commentLen ← readByte extra i
  if commentLen = 0 then return ([], i)
  else
    check (commentLen.toNat ≤ extra.length - i)
    let comment ← readBytes extra (i + 1) commentLen.toNat
    return (comment, i + commentLen.toNat + 1)

/-- The signature has 64 bytes and 32 are asked for. -/
def readSign (update : Bool) (i : ℕ) : Except ExtraFault (Signature × ℕ) :=
  if update then do
    check (32 ≤ extra.length - i)
    let sign ← readBytes extra i 64
    return (BitVec.ofNat 512 (podOfBytes sign), i + 64)
  else return (nullSig, i)

/-- `parse_tx_extra_alias_entry`. -/
def readAliasEntry (start : ℕ) : Except ExtraFault (AliasInfo × ℕ) := do
  check (32 * 2 + 1 ≤ extra.length - 1 - start)
  let aliasFlags ← readByte extra (start + 1)
  let nameLen ← readByte extra (start + 2)
  check (nameLen.toNat + 32 * 2 ≤ extra.length - 1 - (start + 2))
  let aliasName ← readBytes extra (start + 3) nameLen.toNat
  let spend ← readBytes extra (start + 3 + nameLen.toNat) 32
  let view ← readBytes extra (start + 3 + nameLen.toNat + 32) 32
  let (viewKey, i) ← readTrackingKey extra (aliasFlags &&& 0x02 != 0) (start + 3 + nameLen.toNat + 64)
  let (textComment, i) ← readComment extra i
  let (sign, i) ← readSign extra (aliasFlags &&& 0x01 != 0) i
  return ({ address := ⟨BitVec.ofNat 256 (podOfBytes spend), BitVec.ofNat 256 (podOfBytes view)⟩
            viewKey, sign, textComment, aliasName }, i - start)

variable (coinbase : Bool)

/-- One round of the loop of `parse_and_validate_tx_extra`. -/
def readRound (i : ℕ) (st : ExtraScan) : Except ExtraFault (ℕ × ExtraScan) := do
  let tag ← readByte extra i
  if st.paddingStarted then
    check (tag = 0)
    return (i + 1, st)
  else if tag = 0x01 then
    check (32 ≤ extra.length - 1 - i)
    check (st.pubkeyFound = false)
    let key ← readBytes extra (i + 1) 32
    return (i + 33, { st with
      info := { st.info with txPubKey := BitVec.ofNat 256 (podOfBytes key) }, pubkeyFound := true })
  else if tag = 0x02 then
    check (st.userDataFound = false)
    check (1 ≤ extra.length - 1 - i)
    let len ← readByte extra (i + 1)
    check (len.toNat ≤ extra.length - 1 - (i + 1))
    let data ← readBytes extra (i + 2) len.toNat
    return (i + 2 + len.toNat, { st with
      info := { st.info with userDataBlob := if len = 0 then st.info.userDataBlob else data }
      userDataFound := true })
  else if tag = 0x03 then
    check (coinbase = true)
    check (st.aliasFound = false)
    let (ai, len) ← readAliasEntry extra i
    return (i + len, { st with info := { st.info with aliasInfo := ai }, aliasFound := true })
  else if tag = 0 then return (i, { st with paddingStarted := true })
  else return (i + 1, st)

def readExtraGo : ℕ → ℕ → ExtraScan → Except ExtraFault TxExtraInfo
  | 0, _, _ => .error .running
  | n + 1, i, st =>
      if i = extra.length then .ok st.info
      else
        match readRound extra coinbase i st with
        | .ok (i, st) => readExtraGo n i st
        | .error e => .error e

def emptyInfo : TxExtraInfo := ⟨nullPkey, nullAliasInfo, []⟩

/-- `parse_and_validate_tx_extra`. -/
def readExtra : Except ExtraFault TxExtraInfo :=
  readExtraGo extra coinbase (extra.length + 2) 0 { info := emptyInfo }

end Reader

section Layout

variable (extra : Blob) (start : ℕ)

def aliasFlags : UInt8 := extra.getD (start + 1) 0

def isTracked : Bool := aliasFlags extra start &&& 0x02 != 0

def isUpdate : Bool := aliasFlags extra start &&& 0x01 != 0

def nameLen : ℕ := (extra.getD (start + 2) 0).toNat

/-- Where the comment's length byte is due: behind the name, the address and the tracking key. -/
def commentAt : ℕ := start + 67 + nameLen extra start + if isTracked extra start then 32 else 0

def commentLen : ℕ := (extra.getD (commentAt extra start) 0).toNat

/-- Where the signature is looked for. -/
def signAt : ℕ :=
  if commentLen extra start = 0 then commentAt extra start
  else commentAt extra start + commentLen extra start + 1

/-- The entry ends where its comment should begin, or one byte before its comment ends, or within its
signature and behind the half of it. -/
def AliasOverruns : Prop :=
  commentAt extra start = extra.length ∨
    (commentLen extra start ≠ 0 ∧ commentAt extra start + commentLen extra start = extra.length) ∨
    (isUpdate extra start = true ∧ signAt extra start + 32 ≤ extra.length ∧
      extra.length < signAt extra start + 64)

end Layout

section Reads

variable {extra : Blob} {i n start : ℕ}

theorem readByte_of_lt (h : i < extra.length) : readByte extra i = .ok (extra.getD i 0) := by
  unfold readByte
  rw [List.getD_eq_getElem?_getD, List.getElem?_eq_getElem h]
  rfl

theorem readByte_past (h : extra.length ≤ i) : readByte extra i = .error .pastEnd := by
  unfold readByte
  rw [List.getElem?_eq_none h]

theorem readBytes_of_le (h : i + n ≤ extra.length) :
    readBytes extra i n = .ok ((extra.drop i).take n) := if_pos (.inr h)

theorem readBytes_past (hn : n ≠ 0) (h : extra.length < i + n) :
    readBytes extra i n = .error .pastEnd := if_neg (by omega)

theorem check_pos {p : Prop} [Decidable p] (h : p) : check p = .ok () := if_pos h

theorem check_neg {p : Prop} [Decidable p] (h : ¬p) : check p = .error .refused := if_neg h

theorem toNat_ne_zero {b : UInt8} (h : b ≠ 0) : b.toNat ≠ 0 := fun h' =>
  h (UInt8.toNat_inj.mp h')

theorem readTrackingKey_eq (track : Bool) (hi : i ≤ extra.length) :
    readTrackingKey extra track i =
      if i + (if track then 32 else 0) ≤ extra.length then
        .ok (if track then BitVec.ofNat 256 (podOfBytes ((extra.drop i).take 32)) else nullSkey,
          i + if track then 32 else 0)
      else .error .refused := by
  unfold readTrackingKey
  cases track with
  | false => simp [hi, pure, Except.pure]
  | true =>
    by_cases h : i + 32 ≤ extra.length
    · rw [check_pos (by omega), readBytes_of_le h]
      simp [h, bind, Except.bind, pure, Except.pure]
    · rw [check_neg (by omega)]
      simp [h, bind, Except.bind]

/-- How the comment is read when its length byte is due within the blob or right behind it. -/
theorem readComment_eq (hi : i ≤ extra.length) :
    readComment extra i =
      let len := (extra.getD i 0).toNat
      if i = extra.length then .error .pastEnd
      else if len = 0 then .ok ([], i)
      else if extra.length < i + len then .error .refused
      else if extra.length = i + len then .error .pastEnd
      else .ok ((extra.drop (i + 1)).take len, i + len + 1) := by
  unfold readComment
  simp only
  by_cases hend : i = extra.length
  · rw [readByte_past hend.ge, if_pos hend]
    rfl
  · rw [readByte_of_lt (by omega), if_neg hend]
    simp only [bind, Except.bind, pure, Except.pure]
    by_cases hlen : extra.getD i 0 = 0
    · rw [if_pos hlen, if_pos (by rw [hlen]; rfl)]
    · have := toNat_ne_zero hlen
      rw [if_neg hlen, if_neg this]
      by_cases hshort : extra.length < i + (extra.getD i 0).toNat
      · rw [check_neg (by omega), if_pos hshort]
      · rw [check_pos (by omega), if_neg hshort]
        by_cases hlast : extra.length = i + (extra.getD i 0).toNat
        · rw [if_pos hlast, readBytes_past this (by omega)]
        · rw [if_neg hlast, readBytes_of_le (by omega)]

theorem readSign_eq (update : Bool) (hi : i ≤ extra.length) :
    readSign extra update i =
      if update = false then .ok (nullSig, i)
      else if extra.length < i + 32 then .error .refused
      else if extra.length < i + 64 then .error .pastEnd
      else .ok (BitVec.ofNat 512 (podOfBytes ((extra.drop i).take 64)), i + 64) := by
  unfold readSign
  cases update with
  | false => rfl
  | true =>
    simp only [if_true, Bool.true_eq_false, if_false, bind, Except.bind, pure, Except.pure]
    by_cases hhalf : extra.length < i + 32
    · rw [check_neg (by omega), if_pos hhalf]
    · rw [check_pos (by omega), if_neg hhalf]
      by_cases hwhole : extra.length < i + 64
      · rw [if_pos hwhole, readBytes_past (by omega) hwhole]
      · rw [if_neg hwhole, readBytes_of_le (by omega)]

/-- The part of an entry in front of its comment. -/
def aliasHead (extra : Blob) (start : ℕ) : AliasInfo :=
  let i := start + 3 + nameLen extra start
  { address := ⟨BitVec.ofNat 256 (podOfBytes ((extra.drop i).take 32)),
      BitVec.ofNat 256 (podOfBytes ((extra.drop (i + 32)).take 32))⟩
    viewKey := if isTracked extra start then
      BitVec.ofNat 256 (podOfBytes ((extra.drop (i + 64)).take 32)) else nullSkey
    sign := nullSig
    textComment := []
    aliasName := (extra.drop (start + 3)).take (nameLen extra start) }

theorem readAliasEntry_eq (hstart : start < extra.length) :
    readAliasEntry extra start =
      if commentAt extra start ≤ extra.length then do
        let (textComment, i) ← readComment extra (commentAt extra start)
        let (sign, i) ← readSign extra (isUpdate extra start) i
        return ({ aliasHead extra start with textComment, sign }, i - start)
      else .error .refused := by
  have hat : commentAt extra start =
      start + 3 + nameLen extra start + 64 + if isTracked extra start then 32 else 0 := by
    unfold commentAt
    omega
  unfold readAliasEntry
  by_cases hfix : start + 66 ≤ extra.length
  · rw [check_pos (by omega), readByte_of_lt (by omega), readByte_of_lt (by omega)]
    simp only [bind, Except.bind]
    rw [show (extra.getD (start + 2) 0).toNat = nameLen extra start from rfl,
      show (extra.getD (start + 1) 0 &&& 2 != 0) = isTracked extra start from rfl,
      show (extra.getD (start + 1) 0 &&& 1 != 0) = isUpdate extra start from rfl]
    by_cases hname : start + 67 + nameLen extra start ≤ extra.length
    · rw [check_pos (by omega)]
      simp only
      rw [readBytes_of_le (by omega), readBytes_of_le (by omega), readBytes_of_le (by omega)]
      simp only
      rw [readTrackingKey_eq _ (by omega), ← hat]
      by_cases hat' : commentAt extra start ≤ extra.length
      · rw [if_pos hat', if_pos hat']
        rfl
      · rw [if_neg hat', if_neg hat']
    · rw [check_neg (by omega), if_neg (by omega)]
  · rw [check_neg (by omega), if_neg (by unfold commentAt; omega)]
    rfl

/-- The whole entry: its parts are checked and read one after the other. -/
theorem readAliasEntry_outcome (hstart : start < extra.length) :
    readAliasEntry extra start =
      let c := commentAt extra start
      let len := commentLen extra start
      let e := signAt extra start
      let ai := { aliasHead extra start with textComment := (extra.drop (c + 1)).take len }
      if extra.length < c ∨ (len ≠ 0 ∧ c < extra.length ∧ extra.length < c + len) then .error .refused
      else if c = extra.length ∨ (len ≠ 0 ∧ extra.length = c + len) then .error .pastEnd
      else if isUpdate extra start = false then .ok (ai, e - start)
      else if extra.length < e + 32 then .error .refused
      else if extra.length < e + 64 then .error .pastEnd
      else .ok ({ ai with sign := BitVec.ofNat 512 (podOfBytes ((extra.drop e).take 64)) },
        e + 64 - start) := by
  rw [readAliasEntry_eq hstart]
  have hsign : signAt extra start = if commentLen extra start = 0 then commentAt extra start
    else commentAt extra start + commentLen extra start + 1 := rfl
  generalize hc : commentAt extra start = c at hsign
  rw [show commentLen extra start = (extra.getD c 0).toNat by rw [← hc]; rfl] at hsign ⊢
  simp only
  by_cases hcomment : c ≤ extra.length
  · rw [if_pos hcomment, readComment_eq hcomment]
    simp only
    by_cases hend : c = extra.length
    · rw [if_pos hend, if_neg (by omega), if_pos (.inl hend)]
      rfl
    · rw [if_neg hend]
      by_cases hlen : (extra.getD c 0).toNat = 0
      · rw [if_pos hlen] at hsign
        rw [if_pos hlen, if_neg (by omega), if_neg (by omega), hsign, hlen]
        simp only [bind, Except.bind]
        rw [readSign_eq _ hcomment]
        split_ifs
        · rfl
        · rfl
        · rfl
        · rfl
      · rw [if_neg hlen] at hsign
        rw [if_neg hlen, hsign]
        by_cases hshort : extra.length < c + (extra.getD c 0).toNat
        · rw [if_pos hshort, if_pos (.inr ⟨hlen, by omega, hshort⟩)]
          rfl
        · rw [if_neg hshort]
          by_cases hlast : extra.length = c + (extra.getD c 0).toNat
          · rw [if_pos hlast, if_neg (by omega), if_pos (.inr ⟨hlen, hlast⟩)]
            rfl
          · rw [if_neg hlast, if_neg (by omega), if_neg (by omega)]
            simp only [bind, Except.bind]
            rw [readSign_eq _ (by omega)]
            split_ifs
            · rfl
            · rfl
            · rfl
            · rfl
  · rw [if_neg hcomment, if_pos (by omega)]

theorem readAliasEntry_pastEnd (hstart : start < extra.length) :
    readAliasEntry extra start = .error .pastEnd ↔ AliasOverruns extra start := by
  rw [readAliasEntry_outcome hstart]
  have hsign : signAt extra start = if commentLen extra start = 0 then commentAt extra start
    else commentAt extra start + commentLen extra start + 1 := rfl
  unfold AliasOverruns
  simp only
  cases isUpdate extra start with
  | false =>
    simp only [if_true, Bool.false_eq_true, false_and, or_false]
    split_ifs at hsign ⊢
    all_goals simp only [reduceCtorEq, Except.error.injEq, false_iff, true_iff]
    all_goals omega
  | true =>
    simp only [Bool.true_eq_false, if_false, true_and]
    split_ifs at hsign ⊢
    all_goals simp only [reduceCtorEq, Except.error.injEq, false_iff, true_iff]
    all_goals omega

/-- An entry that is accepted lies within the blob. -/
theorem readAliasEntry_inside (hstart : start < extra.length) {ai : AliasInfo} {len : ℕ}
    (h : readAliasEntry extra start = .ok (ai, len)) : 67 ≤ len ∧ start + len ≤ extra.length := by
  rw [readAliasEntry_outcome hstart] at h
  have hsign : signAt extra start = if commentLen extra start = 0 then commentAt extra start
    else commentAt extra start + commentLen extra start + 1 := rfl
  have hat : start + 67 ≤ commentAt extra start := by
    unfold commentAt
    omega
  simp only at h
  split_ifs at h hsign
  all_goals
    obtain ⟨-, rfl⟩ := Prod.mk.inj (Except.ok.inj h)
    omega

theorem readAliasEntry_ends (hstart : start < extra.length) :
    readAliasEntry extra start ≠ .error .running := by
  rw [readAliasEntry_outcome hstart]
  simp only
  split_ifs <;> simp

end Reads

section Rounds

variable {extra : Blob} {coinbase : Bool} {i i' : ℕ} {st st' : ExtraScan}

def withPubkey (st : ExtraScan) (key : Blob) : ExtraScan :=
  { st with
    info := { st.info with txPubKey := BitVec.ofNat 256 (podOfBytes key) }, pubkeyFound := true }

def withUserData (st : ExtraScan) (data : Blob) : ExtraScan :=
  { st with
    info := { st.info with userDataBlob := if data = [] then st.info.userDataBlob else data }
    userDataFound := true }

def withAlias (st : ExtraScan) (ai : AliasInfo) : ExtraScan :=
  { st with info := { st.info with aliasInfo := ai }, aliasFound := true }

/-- A round without its reads: only an alias entry can leave the blob. -/
theorem readRound_eq (hi : i < extra.length) :
    readRound extra coinbase i st =
      let tag := extra.getD i 0
      let len := (extra.getD (i + 1) 0).toNat
      if st.paddingStarted then if tag = 0 then .ok (i + 1, st) else .error .refused
      else if tag = 0x01 then
        if extra.length < i + 33 ∨ st.pubkeyFound = true then .error .refused
        else .ok (i + 33, withPubkey st ((extra.drop (i + 1)).take 32))
      else if tag = 0x02 then
        if st.userDataFound = true ∨ extra.length < i + 2 + len then .error .refused
        else .ok (i + 2 + len, withUserData st ((extra.drop (i + 2)).take len))
      else if tag = 0x03 then
        if coinbase = false ∨ st.aliasFound = true then .error .refused
        else (readAliasEntry extra i).map fun r => (i + r.2, withAlias st r.1)
      else if tag = 0 then .ok (i, { st with paddingStarted := true })
      else .ok (i + 1, st) := by
  unfold readRound
  rw [readByte_of_lt hi]
  simp only [bind, Except.bind, pure, Except.pure]
  by_cases hpad : st.paddingStarted = true
  · rw [if_pos hpad, if_pos hpad]
    by_cases htag : extra.getD i 0 = 0
    · rw [check_pos htag, if_pos htag]
    · rw [check_neg htag, if_neg htag]
  rw [if_neg hpad, if_neg hpad]
  by_cases hkey : extra.getD i 0 = 0x01
  · rw [if_pos hkey, if_pos hkey]
    by_cases hshort : extra.length < i + 33
    · rw [check_neg (by omega), if_pos (.inl hshort)]
    · rw [check_pos (by omega)]
      by_cases hfound : st.pubkeyFound = true
      · rw [if_pos (.inr hfound)]
        simp only
        rw [check_neg (by simpa using hfound)]
      · rw [if_neg (by rintro (h | h) <;> contradiction)]
        simp only
        rw [check_pos (by simpa using hfound), readBytes_of_le (by omega)]
        rfl
  rw [if_neg hkey, if_neg hkey]
  by_cases hdata : extra.getD i 0 = 0x02
  · rw [if_pos hdata, if_pos hdata]
    -- the flag is checked before the length byte is read
    by_cases hfound : st.userDataFound = true
    · rw [check_neg (by simpa using hfound), if_pos (.inl hfound)]
    · rw [check_pos (by simpa using hfound)]
      simp only
      by_cases hone : i + 1 < extra.length
      · rw [check_pos (by omega), readByte_of_lt hone]
        simp only
        by_cases hlen : extra.length < i + 2 + (extra.getD (i + 1) 0).toNat
        · rw [check_neg (by omega), if_pos (.inr hlen)]
        · rw [check_pos (by omega), readBytes_of_le (by omega),
            if_neg (by rintro (h | h) <;> contradiction)]
          simp only [withUserData]
          -- an empty entry does not touch the stored blob
          by_cases hzero : extra.getD (i + 1) 0 = 0
          · rw [if_pos hzero, if_pos (by rw [hzero]; rfl)]
          · have := toNat_ne_zero hzero
            rw [if_neg hzero, if_neg]
            intro hnil
            have hlength := congrArg List.length hnil
            rw [List.length_take, List.length_drop, List.length_nil] at hlength
            omega
      · rw [check_neg (by omega), if_pos (.inr (by omega))]
  rw [if_neg hdata, if_neg hdata]
  by_cases halias : extra.getD i 0 = 0x03
  · rw [if_pos halias, if_pos halias]
    cases coinbase with
    | false =>
      rw [check_neg (by simp), if_pos (.inl rfl)]
    | true =>
      rw [check_pos rfl]
      by_cases hfound : st.aliasFound = true
      · rw [if_pos (.inr hfound)]
        simp only
        rw [check_neg (by simpa using hfound)]
      · rw [if_neg (by simpa using hfound)]
        simp only
        rw [check_pos (by simpa using hfound)]
        cases readAliasEntry extra i with
        | error e => rfl
        | ok r => rfl
  rw [if_neg halias, if_neg halias]

/-- What a round can do. -/
inductive Round (extra : Blob) (coinbase : Bool) (i : ℕ) (st : ExtraScan) : ℕ → ExtraScan → Prop
  | padding : st.paddingStarted = true → extra.getD i 0 = 0 → Round extra coinbase i st (i + 1) st
  | pubkey : st.paddingStarted = false → extra.getD i 0 = 0x01 → i + 33 ≤ extra.length →
      st.pubkeyFound = false →
      Round extra coinbase i st (i + 33) (withPubkey st ((extra.drop (i + 1)).take 32))
  | userData : st.paddingStarted = false → extra.getD i 0 = 0x02 → st.userDataFound = false →
      i + 2 + (extra.getD (i + 1) 0).toNat ≤ extra.length →
      Round extra coinbase i st (i + 2 + (extra.getD (i + 1) 0).toNat)
        (withUserData st ((extra.drop (i + 2)).take (extra.getD (i + 1) 0).toNat))
  | aliasEntry {ai : AliasInfo} {len : ℕ} : st.paddingStarted = false → extra.getD i 0 = 0x03 →
      coinbase = true → st.aliasFound = false → readAliasEntry extra i = .ok (ai, len) →
      Round extra coinbase i st (i + len) (withAlias st ai)
  | startPadding : st.paddingStarted = false → extra.getD i 0 = 0 →
      Round extra coinbase i st i { st with paddingStarted := true }
  | other : st.paddingStarted = false → 0x03 < extra.getD i 0 → Round extra coinbase i st (i + 1) st

theorem three_lt {b : UInt8} (h₁ : b ≠ 0x01) (h₂ : b ≠ 0x02) (h₃ : b ≠ 0x03) (h₀ : b ≠ 0) :
    0x03 < b := by
  rw [UInt8.lt_iff_toNat_lt]
  have hne : ∀ c : UInt8, b ≠ c → b.toNat ≠ c.toNat := fun c h h' => h (UInt8.toNat_inj.mp h')
  have := hne _ h₁
  have := hne _ h₂
  have := hne _ h₃
  have := hne _ h₀
  simp only [UInt8.toNat_ofNat] at *
  omega

theorem ne_of_three_lt {b c : UInt8} (h : 0x03 < b) (hc : c ≤ 0x03) : b ≠ c := by
  rintro rfl
  exact absurd h (UInt8.not_lt.mpr hc)

theorem readRound_ok_iff (hi : i < extra.length) :
    readRound extra coinbase i st = .ok (i', st') ↔ Round extra coinbase i st i' st' := by
  rw [readRound_eq hi]
  simp only
  constructor
  · intro h
    split_ifs at h with hpad htag hkey hbad hdata hbad halias hbad hzero
    · cases h
      exact .padding hpad htag
    · cases h
      simp only [not_or, not_lt, Bool.not_eq_true] at hbad hpad
      exact .pubkey hpad hkey hbad.1 hbad.2
    · cases h
      simp only [not_or, not_lt, Bool.not_eq_true] at hbad hpad
      exact .userData hpad hdata hbad.1 hbad.2
    · simp only [not_or, Bool.not_eq_true, Bool.not_eq_false] at hbad hpad
      cases hentry : readAliasEntry extra i with
      | error e =>
        rw [hentry] at h
        cases h
      | ok r =>
        rw [hentry] at h
        cases h
        exact .aliasEntry hpad halias hbad.1 hbad.2 hentry
    · cases h
      exact .startPadding (Bool.eq_false_iff.mpr hpad) hzero
    · cases h
      exact .other (Bool.eq_false_iff.mpr hpad) (three_lt hkey hdata halias hzero)
  · intro h
    cases h with
    | padding hpad htag => rw [if_pos hpad, if_pos htag]
    | pubkey hpad htag hle hfound =>
      rw [if_neg (Bool.eq_false_iff.mp hpad), if_pos htag, if_neg (by simp [hfound, hle])]
    | userData hpad htag hfound hle =>
      rw [if_neg (Bool.eq_false_iff.mp hpad), htag, if_neg (by decide), if_pos rfl,
        if_neg (not_or.mpr ⟨by simp [hfound], by omega⟩)]
    | aliasEntry hpad htag hcoinbase hfound hentry =>
      rw [if_neg (Bool.eq_false_iff.mp hpad), htag, if_neg (by decide), if_neg (by decide), if_pos rfl,
        if_neg (by simp [hcoinbase, hfound]), hentry]
      rfl
    | startPadding hpad htag =>
      rw [if_neg (Bool.eq_false_iff.mp hpad), htag, if_neg (by decide), if_neg (by decide),
        if_neg (by decide), if_pos rfl]
    | other hpad htag =>
      rw [if_neg (Bool.eq_false_iff.mp hpad), if_neg (ne_of_three_lt htag (by decide)),
        if_neg (ne_of_three_lt htag (by decide)), if_neg (ne_of_three_lt htag (by decide)),
        if_neg (ne_of_three_lt htag (by decide))]

theorem readRound_error {e : ExtraFault} (hi : i < extra.length) (he : e ≠ .refused)
    (h : readRound extra coinbase i st = .error e) :
    st.paddingStarted = false ∧ extra.getD i 0 = 0x03 ∧ coinbase = true ∧ st.aliasFound = false ∧
      readAliasEntry extra i = .error e := by
  rw [readRound_eq hi] at h
  simp only at h
  have hrefused : (.error .refused : Except ExtraFault (ℕ × ExtraScan)) ≠ .error e :=
    fun h => he (Except.error.inj h).symm
  split_ifs at h with hpad htag hkey hbad hdata hbad halias hbad hzero
  · exact absurd h hrefused
  · exact absurd h hrefused
  · exact absurd h hrefused
  · exact absurd h hrefused
  · simp only [not_or, Bool.not_eq_true, Bool.not_eq_false] at hbad hpad
    refine ⟨hpad, halias, hbad.1, hbad.2, ?_⟩
    cases hentry : readAliasEntry extra i with
    | error e' =>
      rw [hentry] at h
      cases h
      rfl
    | ok r =>
      rw [hentry] at h
      cases h

theorem readRound_pastEnd (hi : i < extra.length) :
    readRound extra coinbase i st = .error .pastEnd ↔
      st.paddingStarted = false ∧ extra.getD i 0 = 0x03 ∧ coinbase = true ∧ st.aliasFound = false ∧
        AliasOverruns extra i := by
  rw [← readAliasEntry_pastEnd hi]
  constructor
  · exact readRound_error hi (by decide)
  · rintro ⟨hpad, htag, hcoinbase, hfound, hentry⟩
    rw [readRound_eq hi]
    simp only
    rw [if_neg (Bool.eq_false_iff.mp hpad), htag, if_neg (by decide), if_neg (by decide), if_pos rfl,
      if_neg (by simp [hcoinbase, hfound]), hentry]
    rfl

theorem readRound_ends (hi : i < extra.length) :
    readRound extra coinbase i st ≠ .error .running := fun h =>
  readAliasEntry_ends hi (readRound_error hi (by decide) h).2.2.2.2

theorem Round.moves (h : Round extra coinbase i st i' st') (hi : i < extra.length) :
    i' ≤ extra.length ∧ (i < i' ∨ i' = i ∧ st.paddingStarted = false ∧ st'.paddingStarted = true) := by
  cases h with
  | padding => omega
  | pubkey => omega
  | userData => omega
  | aliasEntry _ _ _ _ hentry =>
    have := readAliasEntry_inside hi hentry
    omega
  | startPadding hpad => exact ⟨hi.le, .inr ⟨rfl, hpad, rfl⟩⟩
  | other => omega

/-- The rounds that the rest of the blob can take. -/
def roundsLeft (extra : Blob) (i : ℕ) (st : ExtraScan) : ℕ :=
  extra.length - i + if st.paddingStarted then 0 else 1

theorem Round.roundsLeft (h : Round extra coinbase i st i' st') (hi : i < extra.length) :
    ExtraReader.roundsLeft extra i' st' < ExtraReader.roundsLeft extra i st := by
  have hkeeps : st.paddingStarted = true → st'.paddingStarted = true := by
    intro hpad
    cases h with
    | padding => exact hpad
    | pubkey hpad' => simp [hpad] at hpad'
    | userData hpad' => simp [hpad] at hpad'
    | aliasEntry hpad' => simp [hpad] at hpad'
    | startPadding hpad' => simp [hpad] at hpad'
    | other hpad' => simp [hpad] at hpad'
  obtain ⟨hle, hlt | ⟨rfl, hpad, hpad'⟩⟩ := h.moves hi
  · unfold ExtraReader.roundsLeft
    cases hpad : st.paddingStarted with
    | true =>
      rw [hkeeps hpad]
      simp only [if_true]
      omega
    | false =>
      simp only [Bool.false_eq_true, if_false]
      split_ifs
      · omega
      · omega
  · unfold ExtraReader.roundsLeft
    rw [if_pos hpad', if_neg (by simp [hpad])]
    omega

end Rounds

section Agreement

variable {E : Env} {extra : Blob} {i n start : ℕ}

/-- An accepted or refused read is what the parser answers. -/
def Agrees {α : Type} (r : Except ExtraFault α) (o : Option α) : Prop :=
  match r with
  | .ok a => o = some a
  | .error .refused => o = none
  | .error _ => True

theorem byteAt_eq (h : i < extra.length) : byteAt E extra i = extra.getD i 0 := by
  unfold byteAt
  rw [List.getD_eq_getElem?_getD, List.getD_eq_getElem?_getD, List.getElem?_eq_getElem h]
  rfl

theorem bytesAt_eq (h : i + n ≤ extra.length) : bytesAt E extra i n = (extra.drop i).take n := by
  unfold bytesAt
  refine List.ext_getElem (by simp; omega) fun j hj _ => ?_
  rw [List.length_map, List.length_range] at hj
  have hlt : i + j < extra.length := by omega
  rw [List.getElem_map, List.getElem_range, byteAt_eq hlt, List.getElem_take, List.getElem_drop,
    List.getD_eq_getElem?_getD, List.getElem?_eq_getElem hlt]
  rfl

theorem podAt_eq (h : i + n ≤ extra.length) :
    podAt E extra i n = podOfBytes ((extra.drop i).take n) := by
  unfold podAt
  rw [bytesAt_eq h]

theorem parseTxExtraAliasEntry_agrees (hstart : start < extra.length) :
    Agrees (readAliasEntry extra start) (parseTxExtraAliasEntry E extra start) := by
  have hat : commentAt extra start =
      start + 67 + nameLen extra start + if isTracked extra start then 32 else 0 := rfl
  rw [readAliasEntry_outcome hstart]
  unfold parseTxExtraAliasEntry
  simp only
  by_cases hfix : extra.length - 1 - start < 32 * 2 + 1
  · rw [if_pos (.inl (by omega)), if_pos hfix]
    rfl
  rw [if_neg hfix, byteAt_eq (by omega), byteAt_eq (by omega)]
  rw [show (extra.getD (start + 2) 0).toNat = nameLen extra start from rfl,
    show (extra.getD (start + 1) 0 &&& 2 != 0) = isTracked extra start from rfl,
    show (extra.getD (start + 1) 0 &&& 1 != 0) = isUpdate extra start from rfl]
  by_cases hname : extra.length - 1 - (start + 2) < nameLen extra start + 32 * 2
  · rw [if_pos (.inl (by omega)), if_pos hname]
    rfl
  rw [if_neg hname]
  have hc : (if isTracked extra start = true then start + 3 + nameLen extra start + 64 + 32
      else start + 3 + nameLen extra start + 64) = commentAt extra start := by
    split_ifs at hat ⊢
    · omega
    · omega
  rw [hc]
  have htrack : (isTracked extra start &&
      decide (extra.length - (start + 3 + nameLen extra start + 64) < 32)) = true ↔
        extra.length < commentAt extra start := by
    rw [Bool.and_eq_true, decide_eq_true_eq]
    split_ifs at hat with h
    · rw [and_iff_right h]
      omega
    · exact iff_of_false (fun h' => h h'.1) (by omega)
  by_cases hshort : extra.length < commentAt extra start
  · rw [if_pos (.inl hshort), if_pos (htrack.mpr hshort)]
    rfl
  rw [if_neg fun h => hshort (htrack.mp h)]
  by_cases hend : commentAt extra start = extra.length
  · rw [if_neg (by omega), if_pos (.inl hend)]
    trivial
  -- from here on the comment's length byte is read
  rw [byteAt_eq (by omega), show (extra.getD (commentAt extra start) 0).toNat = commentLen extra start
    from rfl, show (if commentLen extra start = 0 then commentAt extra start
      else commentAt extra start + commentLen extra start + 1) = signAt extra start from rfl]
  have hsign : signAt extra start = if commentLen extra start = 0 then commentAt extra start
    else commentAt extra start + commentLen extra start + 1 := rfl
  by_cases hlong : commentLen extra start ≠ 0 ∧
      extra.length < commentAt extra start + commentLen extra start
  · rw [if_pos (.inr ⟨hlong.1, by omega, hlong.2⟩), if_pos ⟨hlong.1, by omega⟩]
    rfl
  rw [if_neg (show ¬(commentLen extra start ≠ 0 ∧
    extra.length - commentAt extra start < commentLen extra start) by omega)]
  by_cases hlast : commentLen extra start ≠ 0 ∧
      extra.length = commentAt extra start + commentLen extra start
  · rw [if_neg (by omega), if_pos (.inr hlast)]
    trivial
  rw [if_neg (by omega), if_neg (by omega), bytesAt_eq (by omega), bytesAt_eq (by split_ifs at hsign <;> omega),
    podAt_eq (by omega), podAt_eq (by omega)]
  have hinside : signAt extra start ≤ extra.length := by split_ifs at hsign <;> omega
  have hhead : (if isTracked extra start = true then
      BitVec.ofNat 256 (podAt E extra (start + 3 + nameLen extra start + 64) 32) else nullSkey) =
        (aliasHead extra start).viewKey := by
    unfold aliasHead
    split_ifs at hat ⊢
    · rw [podAt_eq (by omega)]
    · rfl
  rw [hhead]
  cases hupdate : isUpdate extra start with
  | false => rfl
  | true =>
    simp only [Bool.true_eq_false, if_false, Bool.true_and, decide_eq_true_eq, if_true]
    by_cases hhalf : extra.length < signAt extra start + 32
    · rw [if_pos hhalf, if_pos ⟨hinside, by omega⟩]
      rfl
    · rw [if_neg hhalf, if_neg (show ¬(signAt extra start ≤ extra.length ∧
        extra.length - signAt extra start < 32) by omega)]
      by_cases hwhole : extra.length < signAt extra start + 64
      · rw [if_pos hwhole]
        trivial
      · rw [if_neg hwhole, podAt_eq (by omega)]
        rfl

theorem parseTxExtraGo_agrees {coinbase : Bool} {st : ExtraScan} (hi : i ≤ extra.length) :
    Agrees (readExtraGo extra coinbase n i st) (parseTxExtraGo E coinbase extra n i st) := by
  induction n generalizing i st with
  | zero => trivial
  | succ n ih =>
    unfold readExtraGo parseTxExtraGo
    by_cases hend : i = extra.length
    · rw [if_pos hend, if_pos hend]
      rfl
    have hlt : i < extra.length := by omega
    rw [if_neg hend, if_neg hend, if_neg (by omega)]
    -- every read of a round that ends well lies inside the blob, so both parsers read the same bytes
    cases hround : readRound extra coinbase i st with
    | ok r =>
      obtain ⟨i', st'⟩ := r
      have hnext := (readRound_ok_iff hlt).mp hround
      have hle := (hnext.moves hlt).1
      have hgo := @ih _ st' hle
      simp only
      rw [byteAt_eq hlt]
      cases hnext with
      | padding hpad htag => rwa [if_pos hpad, if_pos htag]
      | pubkey hpad htag _ hfound =>
        rw [if_neg (Bool.eq_false_iff.mp hpad), if_pos htag,
          if_neg (by rw [hfound]; simp; omega), podAt_eq (by omega)]
        exact hgo
      | userData hpad htag hfound =>
        rw [if_neg (Bool.eq_false_iff.mp hpad), htag, if_neg (by decide), if_pos rfl,
          if_neg (by rw [hfound]; simp; omega), byteAt_eq (by omega), if_neg (by omega),
          bytesAt_eq (by omega)]
        have hdata : (if (extra.getD (i + 1) 0).toNat = 0 then st.info.userDataBlob
            else (extra.drop (i + 2)).take (extra.getD (i + 1) 0).toNat) =
              (withUserData st ((extra.drop (i + 2)).take (extra.getD (i + 1) 0).toNat)).info.userDataBlob := by
          simp only [withUserData, List.take_eq_nil_iff, List.drop_eq_nil_iff]
          split_ifs
          · rfl
          · omega
          · omega
          · rfl
        rw [hdata]
        exact hgo
      | aliasEntry hpad htag hcoinbase hfound hentry =>
        have hagrees := parseTxExtraAliasEntry_agrees (E := E) hlt
        rw [hentry] at hagrees
        rw [if_neg (Bool.eq_false_iff.mp hpad), htag, if_neg (by decide), if_neg (by decide),
          if_pos rfl, if_neg (by simp [hcoinbase, hfound]), show parseTxExtraAliasEntry E extra i = _
          from hagrees]
        exact hgo
      | startPadding hpad htag =>
        rw [if_neg (Bool.eq_false_iff.mp hpad), htag, if_neg (by decide), if_neg (by decide),
          if_neg (by decide), if_pos rfl]
        exact hgo
      | other hpad htag =>
        rw [if_neg (Bool.eq_false_iff.mp hpad), if_neg (ne_of_three_lt htag (by decide)),
          if_neg (ne_of_three_lt htag (by decide)), if_neg (ne_of_three_lt htag (by decide)),
          if_neg (ne_of_three_lt htag (by decide))]
        exact hgo
    | error e =>
      cases e with
      -- nothing is said where a read leaves the blob
      | pastEnd => trivial
      | running => trivial
      | refused =>
        rw [readRound_eq hlt] at hround
        simp only at hround
        simp only
        rw [byteAt_eq hlt]
        split_ifs at hround with hpad htag hkey hbad hdata hbad halias hbad hzero
        · rw [if_pos hpad, if_neg htag]
          rfl
        · rw [if_neg hpad, if_pos hkey, if_pos (hbad.imp_left (by omega))]
          rfl
        · rw [if_neg hpad, if_neg hkey, if_pos hdata]
          by_cases hone : st.userDataFound = true ∨ extra.length - 1 - i < 1
          · rw [if_pos hone]
            rfl
          · have hshort := hbad.resolve_left fun h => hone (.inl h)
            rw [if_neg hone, byteAt_eq (by omega), if_pos (by omega)]
            rfl
        · rw [if_neg hpad, if_neg hkey, if_neg hdata, if_pos halias,
            if_pos (hbad.imp_left fun h => by rw [h]; rfl)]
          rfl
        · have hagrees := parseTxExtraAliasEntry_agrees (E := E) hlt
          cases hentry : readAliasEntry extra i with
          | ok r =>
            rw [hentry] at hround
            cases hround
          | error e =>
            rw [hentry] at hround hagrees
            cases hround
            rw [if_neg hpad, if_neg hkey, if_neg hdata, if_pos halias,
              if_neg fun h => hbad (h.imp_left fun h => by simpa using h),
              show parseTxExtraAliasEntry E extra i = none from hagrees]
            rfl

/-- As long as no read leaves the blob, the parser of the node says the same. -/
theorem parseAndValidateTxExtra_agrees (E : Env) (tx : Transaction) :
    Agrees (readExtra tx.extra (isCoinbase tx)) (parseAndValidateTxExtra E tx) :=
  parseTxExtraGo_agrees (Nat.zero_le _)

end Agreement

end ExtraReader

end Boolberry
