import Mathlib.Data.List.GetD
import Boolberry.ExtraEntries
import Boolberry.WalletSpend

/-!
# Walking user data

The entries of a transaction's user data, and the two loops that look for a swap entry
among them: one takes the length bytes as `char`, the other as `uint8_t`.
-/

namespace Boolberry

open ExtraReader

def TX_USER_DATA_TAG_SWAP_ADDRESS : UInt8 := 1

/-- `sizeof(swap_address_extra_entry)`: two keys and a checksum. -/
def SWAP_ADDRESS_EXTRA_ENTRY_SIZE : ℕ := 68

/-- Where a loop over user data ends: at the bytes of a swap entry, with the data, at a failed check, at
a read behind the data, or not within its rounds. -/
inductive WalkEnd where
  | found (pos : ℕ)
  | noEntry
  | refused
  | pastEnd
  | running
deriving DecidableEq, Repr

/-- The loop over user data whose length bytes count as `size`, at most `n` rounds from `i` on. -/
def walkUserData (size : UInt8 → ℕ) (userData : Blob) : ℕ → ℕ → WalkEnd
  | 0, _ => .running
  | n + 1, i =>
      if userData.length ≤ i then .noEntry
      else
        match userData[i]? with
        | none => .pastEnd
        | some tag =>
            if userData.length - 1 - i < 1 then .refused
            else
              match userData[i + 1]? with
              | none => .pastEnd
              | some len =>
                  if tag ≠ TX_USER_DATA_TAG_SWAP_ADDRESS then
                    walkUserData size userData n ((i + (size len + 2)) % 2 ^ 64)
                  else if size len ≠ SWAP_ADDRESS_EXTRA_ENTRY_SIZE then .refused
                  else if userData.length - 1 - (i + 1) < size len then .refused
                  else .found (i + 2)

/-- A signed `char` as `size_t`. -/
def sizeOfChar (len : UInt8) : ℕ :=
  if len < 128 then len.toNat else 2 ^ 64 - 256 + len.toNat

/-- `get_swapinfo_encrypted_buff_from_user_data`, at most `n` rounds. -/
def getSwapinfoEncryptedBuffFromUserData (n : ℕ) (userData : Blob) : WalkEnd :=
  if userData = [] then .noEntry else walkUserData sizeOfChar userData n 0

/-- The loop over the user data in `encrypt_user_data_with_tx_secret_key`, at most `n` rounds. -/
def encryptUserDataWalk (n : ℕ) (userData : Blob) : WalkEnd :=
  walkUserData UInt8.toNat userData n 0

/-- The buffer that is filled at the end of the loop. -/
def WalkEnd.encryptedBuff (userData : Blob) : WalkEnd → Option Blob
  | .found pos => some ((userData.drop pos).take SWAP_ADDRESS_EXTRA_ENTRY_SIZE)
  | _ => none

section Rounds

variable {size : UInt8 → ℕ} {s : Blob} {i n : ℕ}

/-- A well-formed swap entry. -/
def SwapEntryAt (s : Blob) (i : ℕ) : Prop :=
  s.getD i 0 = TX_USER_DATA_TAG_SWAP_ADDRESS ∧ s.getD (i + 1) 0 = 68 ∧ i + 70 ≤ s.length

instance : Decidable (SwapEntryAt s i) := inferInstanceAs (Decidable (_ ∧ _ ∧ _))

/-- The cursor behind an entry. -/
def nextEntry (size : UInt8 → ℕ) (s : Blob) (i : ℕ) : ℕ :=
  (i + (size (s.getD (i + 1) 0) + 2)) % 2 ^ 64

/-- A length byte below 128 counts as itself, another one as no less. -/
structure SizeOfByte (size : UInt8 → ℕ) : Prop where
  small : ∀ len : UInt8, len < 128 → size len = len.toNat
  large : ∀ len : UInt8, 128 ≤ len → 128 ≤ size len

theorem sizeOfByte_char : SizeOfByte sizeOfChar where
  small len h := if_pos h
  large len h := by
    unfold sizeOfChar
    rw [if_neg (UInt8.not_lt.mpr h)]
    omega

theorem sizeOfByte_toNat : SizeOfByte UInt8.toNat where
  small _ _ := rfl
  large _ h := UInt8.le_iff_toNat_le.mp h

theorem SizeOfByte.eq_iff (h : SizeOfByte size) (len : UInt8) : size len = 68 ↔ len = 68 := by
  by_cases hlen : len < 128
  · rw [h.small len hlen, ← UInt8.toNat_inj]
    rfl
  · have hlarge := h.large len (UInt8.not_lt.mp hlen)
    constructor
    · omega
    · rintro rfl
      exact absurd (by decide) hlen

theorem walk_past (h : s.length ≤ i) : walkUserData size s (n + 1) i = .noEntry := if_pos h

theorem walk_cut (h : i + 1 = s.length) : walkUserData size s (n + 1) i = .refused := by
  have hi : i < s.length := by omega
  unfold walkUserData
  rw [if_neg (by omega), List.getElem?_eq_getElem hi]
  exact if_pos (by omega)

theorem walk_round (hsize : SizeOfByte size) (h : i + 1 < s.length) :
    walkUserData size s (n + 1) i =
      if s.getD i 0 ≠ TX_USER_DATA_TAG_SWAP_ADDRESS then walkUserData size s n (nextEntry size s i)
      else if SwapEntryAt s i then .found (i + 2) else .refused := by
  have hi : i < s.length := by omega
  have hentry : SwapEntryAt s i ↔ s.getD i 0 = TX_USER_DATA_TAG_SWAP_ADDRESS ∧
      size (s.getD (i + 1) 0) = 68 ∧ i + 70 ≤ s.length := by
    rw [hsize.eq_iff]
    exact Iff.rfl
  simp only [hentry]
  have htag : s[i]? = some (s.getD i 0) := by
    rw [List.getElem?_eq_getElem hi, List.getD_eq_getElem _ _ hi]
  have hlen : s[i + 1]? = some (s.getD (i + 1) 0) := by
    rw [List.getElem?_eq_getElem h, List.getD_eq_getElem _ _ h]
  conv_lhs => unfold walkUserData
  rw [if_neg (by omega), htag, hlen]
  simp only
  rw [if_neg (show ¬s.length - 1 - i < 1 by omega)]
  by_cases hswap : s.getD i 0 = TX_USER_DATA_TAG_SWAP_ADDRESS
  · rw [if_neg (not_not.mpr hswap), if_neg (not_not.mpr hswap)]
    unfold SWAP_ADDRESS_EXTRA_ENTRY_SIZE
    by_cases hbytes : size (s.getD (i + 1) 0) = 68
    · rw [if_neg (not_not.mpr hbytes), hbytes]
      by_cases hroom : i + 70 ≤ s.length
      · rw [if_neg (by omega), if_pos ⟨hswap, rfl, hroom⟩]
      · rw [if_pos (by omega), if_neg fun h => hroom h.2.2]
    · rw [if_pos hbytes, if_neg fun h => hbytes h.2.1]
  · rw [if_pos hswap, if_pos hswap]
    rfl

theorem walk_cases (hsize : SizeOfByte size) (s : Blob) (i : ℕ) :
    (s.length ≤ i ∧ ∀ n, walkUserData size s (n + 1) i = .noEntry) ∨
    (i + 1 = s.length ∧ ∀ n, walkUserData size s (n + 1) i = .refused) ∨
    (i + 1 < s.length ∧ s.getD i 0 ≠ TX_USER_DATA_TAG_SWAP_ADDRESS ∧
      ∀ n, walkUserData size s (n + 1) i = walkUserData size s n (nextEntry size s i)) ∨
    (SwapEntryAt s i ∧ ∀ n, walkUserData size s (n + 1) i = .found (i + 2)) ∨
    (i + 1 < s.length ∧ s.getD i 0 = TX_USER_DATA_TAG_SWAP_ADDRESS ∧ ¬SwapEntryAt s i ∧
      ∀ n, walkUserData size s (n + 1) i = .refused) := by
  rcases Nat.lt_trichotomy (i + 1) s.length with h | h | h
  · right; right
    by_cases htag : s.getD i 0 = TX_USER_DATA_TAG_SWAP_ADDRESS
    · right
      by_cases hentry : SwapEntryAt s i
      · left
        refine ⟨hentry, fun n => ?_⟩
        rw [walk_round hsize h, if_neg (not_not.mpr htag), if_pos hentry]
      · right
        refine ⟨h, htag, hentry, fun n => ?_⟩
        rw [walk_round hsize h, if_neg (not_not.mpr htag), if_neg hentry]
    · left
      refine ⟨h, htag, fun n => ?_⟩
      rw [walk_round hsize h, if_pos htag]
  · exact .inr (.inl ⟨h, fun _ => walk_cut h⟩)
  · have h : s.length ≤ i := by omega
    exact .inl ⟨h, fun _ => walk_past h⟩

theorem walk_inside (hsize : SizeOfByte size) :
    walkUserData size s n i ≠ .pastEnd ∧
      ∀ pos, walkUserData size s n i = .found pos → pos + 68 ≤ s.length := by
  induction n generalizing i with
  | zero => exact ⟨by simp [walkUserData], by simp [walkUserData]⟩
  | succ n ih =>
    rcases walk_cases hsize s i with ⟨-, h⟩ | ⟨-, h⟩ | ⟨-, -, h⟩ | ⟨hentry, h⟩ | ⟨-, -, -, h⟩ <;> rw [h]
    · simp
    · simp
    · exact ih
    · refine ⟨by simp, ?_⟩
      rintro _ ⟨⟩
      have := hentry.2.2
      omega
    · simp

theorem walk_fuel (hsize : SizeOfByte size) (h : walkUserData size s n i ≠ .running) (k : ℕ) :
    walkUserData size s (n + k) i = walkUserData size s n i := by
  induction n generalizing i with
  | zero => exact absurd rfl h
  | succ n ih =>
    rw [Nat.add_right_comm]
    rcases walk_cases hsize s i with ⟨-, hw⟩ | ⟨-, hw⟩ | ⟨-, -, hw⟩ | ⟨-, hw⟩ | ⟨-, -, -, hw⟩ <;>
      rw [hw, hw]
    rw [hw] at h
    exact ih h

/-- The entries from `i` on, by the cursor of the loop, come to an end without a swap entry. -/
inductive Bare (size : UInt8 → ℕ) (s : Blob) : ℕ → Prop
  | short {i : ℕ} : s.length ≤ i + 1 → Bare size s i
  | malformed {i : ℕ} : i + 1 < s.length → s.getD i 0 = TX_USER_DATA_TAG_SWAP_ADDRESS →
      ¬SwapEntryAt s i → Bare size s i
  | entry {i : ℕ} : i + 1 < s.length → s.getD i 0 ≠ TX_USER_DATA_TAG_SWAP_ADDRESS →
      Bare size s (nextEntry size s i) → Bare size s i

/-- The loop has come to an end and found nothing. -/
def WalkEnd.IsNone : WalkEnd → Prop
  | .noEntry | .refused => True
  | _ => False

theorem bare_iff (hsize : SizeOfByte size) :
    Bare size s i ↔ ∃ n, (walkUserData size s n i).IsNone := by
  constructor
  · intro h
    induction h with
    | @short i h =>
      rcases Nat.lt_or_ge i s.length with hi | hi
      · exact ⟨1, by rw [walk_cut (by omega)]; trivial⟩
      · exact ⟨1, by rw [walk_past hi]; trivial⟩
    | malformed h htag hentry =>
      exact ⟨1, by rw [walk_round hsize h, if_neg (not_not.mpr htag), if_neg hentry]; trivial⟩
    | entry h htag _ ih =>
      obtain ⟨n, hn⟩ := ih
      exact ⟨n + 1, by rwa [walk_round hsize h, if_pos htag]⟩
  · rintro ⟨n, hn⟩
    induction n generalizing i with
    | zero => cases hn
    | succ n ih =>
      rcases walk_cases hsize s i with ⟨h, -⟩ | ⟨h, -⟩ | ⟨h, htag, hw⟩ | ⟨-, hw⟩ | ⟨h, htag, hentry, -⟩
      · exact .short (by omega)
      · exact .short (by omega)
      · rw [hw] at hn
        exact .entry h htag (ih hn)
      · rw [hw] at hn
        cases hn
      · exact .malformed h htag hentry

end Rounds

section BothLoops

variable {size : UInt8 → ℕ} {s : Blob} {i n : ℕ}

/-- The places that the loops come to over entries of less than 128 bytes. -/
inductive ShortlyReached (s : Blob) : ℕ → Prop
  | start : ShortlyReached s 0
  | entry {i : ℕ} : ShortlyReached s i → i + 1 < s.length →
      s.getD i 0 ≠ TX_USER_DATA_TAG_SWAP_ADDRESS → s.getD (i + 1) 0 < 128 →
      ShortlyReached s (i + (s.getD (i + 1) 0).toNat + 2)

/-- The first entry of 128 bytes or more begins at `i`. -/
def LongEntryAt (s : Blob) (i : ℕ) : Prop :=
  ShortlyReached s i ∧ i + 1 < s.length ∧ s.getD i 0 ≠ TX_USER_DATA_TAG_SWAP_ADDRESS ∧
    128 ≤ s.getD (i + 1) 0

/-- The first loop ends inside the data, and at a swap entry just where the second one does. -/
def SameWalk (s : Blob) : Prop :=
  ∃ n, let found := getSwapinfoEncryptedBuffFromUserData n s
    found ≠ .running ∧ found ≠ .pastEnd ∧
      (∀ pos, found = .found pos → pos + SWAP_ADDRESS_EXTRA_ENTRY_SIZE ≤ s.length) ∧
      ∀ pos, found = .found pos ↔ encryptUserDataWalk (s.length + 1) s = .found pos

theorem nextEntry_short (hsize : SizeOfByte size) (hs : s.length ≤ 255) (h : i + 1 < s.length)
    (hlen : s.getD (i + 1) 0 < 128) : nextEntry size s i = i + (s.getD (i + 1) 0).toNat + 2 := by
  have := (s.getD (i + 1) 0).toNat_lt
  unfold nextEntry
  rw [hsize.small _ hlen, Nat.mod_eq_of_lt (by omega), Nat.add_assoc]

theorem nextEntry_toNat (hs : s.length ≤ 255) (h : i + 1 < s.length) :
    nextEntry UInt8.toNat s i = i + (s.getD (i + 1) 0).toNat + 2 := by
  have := (s.getD (i + 1) 0).toNat_lt
  unfold nextEntry
  rw [Nat.mod_eq_of_lt (by omega), Nat.add_assoc]

/-- A signed length of 128 or more moves the cursor back, or behind all data. -/
theorem nextEntry_char (hs : s.length ≤ 255) (h : i + 1 < s.length) (hlen : 128 ≤ s.getD (i + 1) 0) :
    nextEntry sizeOfChar s i =
      if i + (s.getD (i + 1) 0).toNat < 254 then 2 ^ 64 + (i + (s.getD (i + 1) 0).toNat) - 254
      else i + (s.getD (i + 1) 0).toNat - 254 := by
  have := (s.getD (i + 1) 0).toNat_lt
  unfold nextEntry sizeOfChar
  rw [if_neg (UInt8.not_lt.mpr hlen)]
  split_ifs with hback
  · rw [Nat.mod_eq_of_lt (by omega)]
    omega
  · rw [Nat.mod_eq_sub_mod (by omega), Nat.mod_eq_of_lt (by omega)]
    omega

theorem ShortlyReached.run (h : ShortlyReached s i) (hs : s.length ≤ 255) :
    ∃ k, ∀ size, SizeOfByte size → ∀ n, walkUserData size s (n + k) 0 = walkUserData size s n i := by
  induction h with
  | start => exact ⟨0, fun _ _ _ => rfl⟩
  | entry _ h htag hlen ih =>
    obtain ⟨k, hk⟩ := ih
    refine ⟨k + 1, fun size hsize n => ?_⟩
    rw [← Nat.add_assoc, Nat.add_right_comm, hk size hsize, walk_round hsize h, if_pos htag,
      nextEntry_short hsize hs h hlen]

/-- Without an entry of 128 bytes or more the loops are the same. -/
theorem ShortlyReached.walk_eq (h : ShortlyReached s i) (hs : s.length ≤ 255)
    (hlong : ∀ i, ¬LongEntryAt s i) :
    walkUserData sizeOfChar s n i = walkUserData UInt8.toNat s n i := by
  induction n generalizing i with
  | zero => rfl
  | succ n ih =>
    rcases Nat.lt_trichotomy (i + 1) s.length with hi | hi | hi
    · rw [walk_round sizeOfByte_char hi, walk_round sizeOfByte_toNat hi]
      by_cases htag : s.getD i 0 = TX_USER_DATA_TAG_SWAP_ADDRESS
      · rw [if_neg (not_not.mpr htag), if_neg (not_not.mpr htag)]
      · have hlen : s.getD (i + 1) 0 < 128 := UInt8.not_le.mp fun hlen => hlong i ⟨h, hi, htag, hlen⟩
        rw [if_pos htag, if_pos htag, nextEntry_short sizeOfByte_char hs hi hlen,
          nextEntry_short sizeOfByte_toNat hs hi hlen]
        exact ih (h.entry hi htag hlen)
    · rw [walk_cut hi, walk_cut hi]
    · rw [walk_past (by omega), walk_past (by omega)]

theorem walk_toNat_ends (hs : s.length ≤ 255) (hn : s.length < i + n) (hpos : 0 < n) :
    walkUserData UInt8.toNat s n i ≠ .running := by
  induction n generalizing i with
  | zero => omega
  | succ n ih =>
    rcases walk_cases sizeOfByte_toNat s i with ⟨-, h⟩ | ⟨-, h⟩ | ⟨hi, -, h⟩ | ⟨-, h⟩ | ⟨-, -, -, h⟩ <;>
      rw [h]
    · simp
    · simp
    · rw [nextEntry_toNat hs hi]
      exact ih (by omega) (by omega)
    · simp
    · simp

theorem encryptUserDataWalk_ends (hs : s.length ≤ 255) :
    encryptUserDataWalk (s.length + 1) s ≠ .running := walk_toNat_ends hs (by omega) (by omega)

theorem getSwapinfo_eq : getSwapinfoEncryptedBuffFromUserData (n + 1) s =
    walkUserData sizeOfChar s (n + 1) 0 := by
  unfold getSwapinfoEncryptedBuffFromUserData
  split_ifs with h
  · rw [h, walk_past (by simp)]
  · rfl

theorem sameWalk_iff :
    SameWalk s ↔ ∃ n, walkUserData sizeOfChar s n 0 ≠ .running ∧
      ∀ pos, walkUserData sizeOfChar s n 0 = .found pos ↔
        encryptUserDataWalk (s.length + 1) s = .found pos := by
  constructor
  · rintro ⟨n, hrun, -, -, hfound⟩
    unfold getSwapinfoEncryptedBuffFromUserData at hrun hfound
    by_cases hs : s = []
    · subst hs
      exact ⟨1, by decide, fun pos => by rw [walk_past (by simp)]; exact hfound pos⟩
    · simp only [if_neg hs] at hrun hfound
      exact ⟨n, hrun, hfound⟩
  · rintro ⟨n, hrun, hfound⟩
    obtain ⟨n, rfl⟩ : ∃ m, n = m + 1 := by
      cases n with
      | zero => exact absurd rfl hrun
      | succ m => exact ⟨m, rfl⟩
    have hinside := @walk_inside _ s 0 (n + 1) sizeOfByte_char
    refine ⟨n + 1, ?_⟩
    rw [getSwapinfo_eq]
    exact ⟨hrun, hinside.1, hinside.2, hfound⟩

theorem isNone_iff (hsize : SizeOfByte size) (h : walkUserData size s n i ≠ .running) :
    (walkUserData size s n i).IsNone ↔ ∀ pos, walkUserData size s n i ≠ .found pos := by
  have hinside := (@walk_inside _ s i n hsize).1
  cases hw : walkUserData size s n i with
  | found pos => simp [WalkEnd.IsNone]
  | pastEnd => exact absurd hw hinside
  | running => exact absurd hw h
  | noEntry => simp [WalkEnd.IsNone]
  | refused => simp [WalkEnd.IsNone]

theorem WalkEnd.IsNone.ne_running {w : WalkEnd} (h : w.IsNone) : w ≠ .running := by
  rintro rfl
  exact h

theorem walk_unique (hsize : SizeOfByte size) {m : ℕ} (hn : walkUserData size s n i ≠ .running)
    (hm : walkUserData size s m i ≠ .running) : walkUserData size s n i = walkUserData size s m i := by
  rw [← walk_fuel hsize hn m, ← walk_fuel hsize hm n, Nat.add_comm]

theorem bare_of_run (hsize : SizeOfByte size) {k j : ℕ}
    (h : ∀ n, walkUserData size s (n + k) i = walkUserData size s n j) :
    Bare size s i ↔ Bare size s j := by
  rw [bare_iff hsize, bare_iff hsize]
  constructor
  · rintro ⟨n, hn⟩
    refine ⟨n, ?_⟩
    rw [← h, walk_fuel hsize hn.ne_running]
    exact hn
  · rintro ⟨n, hn⟩
    exact ⟨n + k, by rwa [h]⟩

theorem encrypt_isNone_iff (hs : s.length ≤ 255) :
    (encryptUserDataWalk (s.length + 1) s).IsNone ↔ Bare UInt8.toNat s 0 := by
  rw [bare_iff sizeOfByte_toNat]
  constructor
  · exact fun h => ⟨_, h⟩
  · rintro ⟨n, hn⟩
    unfold encryptUserDataWalk
    rwa [walk_unique sizeOfByte_toNat (encryptUserDataWalk_ends hs) hn.ne_running]

/-- Where the first loop finds nothing, the second one must find nothing. -/
theorem sameWalk_of_bare_char (hs : s.length ≤ 255) (h : Bare sizeOfChar s 0) :
    SameWalk s ↔ Bare UInt8.toNat s 0 := by
  have hends := encryptUserDataWalk_ends hs
  obtain ⟨n, hn⟩ := (bare_iff sizeOfByte_char).mp h
  have hnone := (isNone_iff sizeOfByte_char hn.ne_running).mp hn
  rw [sameWalk_iff, ← encrypt_isNone_iff hs]
  constructor
  · rintro ⟨m, hm, hfound⟩
    refine (isNone_iff sizeOfByte_toNat hends).mpr fun pos hpos => hnone pos ?_
    rw [walk_unique sizeOfByte_char hn.ne_running hm]
    exact (hfound pos).mpr hpos
  · intro henc
    have := (isNone_iff sizeOfByte_toNat hends).mp henc
    exact ⟨n, hn.ne_running, fun pos => iff_of_false (hnone pos) (this pos)⟩

/-- Where the second loop finds nothing, the first one must end and find nothing. -/
theorem sameWalk_of_bare_toNat (hs : s.length ≤ 255) (h : Bare UInt8.toNat s 0) :
    SameWalk s ↔ Bare sizeOfChar s 0 := by
  have hnone := (isNone_iff sizeOfByte_toNat (encryptUserDataWalk_ends hs)).mp
    ((encrypt_isNone_iff hs).mpr h)
  rw [sameWalk_iff, bare_iff sizeOfByte_char]
  constructor
  · rintro ⟨n, hn, hfound⟩
    exact ⟨n, (isNone_iff sizeOfByte_char hn).mpr fun pos hpos => hnone pos ((hfound pos).mp hpos)⟩
  · rintro ⟨n, hn⟩
    have := (isNone_iff sizeOfByte_char hn.ne_running).mp hn
    exact ⟨n, hn.ne_running, fun pos => iff_of_false (this pos) (hnone pos)⟩

theorem LongEntryAt.bare_iff (h : LongEntryAt s i) (hs : s.length ≤ 255) (hsize : SizeOfByte size) :
    Bare size s 0 ↔ Bare size s (nextEntry size s i) := by
  obtain ⟨hreached, hi, htag, -⟩ := h
  obtain ⟨k, hk⟩ := hreached.run hs
  refine @bare_of_run size s 0 hsize (k + 1) _ fun n => ?_
  rw [← Nat.add_assoc, Nat.add_right_comm, hk size hsize, walk_round hsize hi, if_pos htag]

theorem LongEntryAt.sameWalk_iff (h : LongEntryAt s i) (hs : s.length ≤ 255) :
    SameWalk s ↔
      if i + (s.getD (i + 1) 0).toNat < 254 then
        Bare UInt8.toNat s (i + (s.getD (i + 1) 0).toNat + 2)
      else Bare sizeOfChar s (i + (s.getD (i + 1) 0).toNat - 254) := by
  have hchar := h.bare_iff hs sizeOfByte_char
  have htoNat := h.bare_iff hs sizeOfByte_toNat
  rw [nextEntry_char hs h.2.1 h.2.2.2] at hchar
  rw [nextEntry_toNat hs h.2.1] at htoNat
  split_ifs at hchar ⊢ with hback
  · rw [sameWalk_of_bare_char hs (hchar.mpr (.short (by omega))), htoNat]
  · rw [sameWalk_of_bare_toNat hs (htoNat.mpr (.short (by omega))), hchar]

/-- Of two places reached the lower one's entry ends at or before the other. -/
theorem ShortlyReached.next_le {j : ℕ} (hi : ShortlyReached s i) (hj : ShortlyReached s j) (hlt : i < j) :
    i + (s.getD (i + 1) 0).toNat + 2 ≤ j := by
  induction j using Nat.strong_induction_on generalizing i with
  | _ j ih =>
    cases hj with
    | start => omega
    | @entry j₀ hj₀ =>
      rcases Nat.lt_trichotomy i j₀ with h | rfl | h
      · have := ih j₀ (by omega) hi hj₀ h
        omega
      · exact le_rfl
      · have := ih i hlt hj₀ hi h
        omega

theorem ShortlyReached.run_from {j : ℕ} (hj : ShortlyReached s j) (hi : ShortlyReached s i) (hle : j ≤ i)
    (hs : s.length ≤ 255) :
    ∃ k, ∀ n, walkUserData sizeOfChar s (n + k) j = walkUserData sizeOfChar s n i := by
  induction hi with
  | start => exact ⟨0, fun n => by rw [Nat.le_zero.mp hle, Nat.add_zero]⟩
  | @entry i hi h htag hlen ih =>
    rcases Nat.eq_or_lt_of_le hle with rfl | hlt
    · exact ⟨0, fun n => rfl⟩
    · have hji : j ≤ i := by
        by_contra hnot
        have := hi.next_le hj (not_le.mp hnot)
        omega
      obtain ⟨k, hk⟩ := ih hji
      refine ⟨k + 1, fun n => ?_⟩
      rw [← Nat.add_assoc, Nat.add_right_comm, hk, walk_round sizeOfByte_char h, if_pos htag,
        nextEntry_short sizeOfByte_char hs h hlen]

/-- A loop that comes back to where it was does not end. -/
theorem walk_running (hsize : SizeOfByte size) {k : ℕ}
    (h : ∀ n, walkUserData size s (n + (k + 1)) i = walkUserData size s n i) (n : ℕ) :
    walkUserData size s n i = .running := by
  induction n using Nat.strong_induction_on with
  | _ n ih =>
    rcases Nat.lt_or_ge n (k + 1) with hlt | hge
    · by_contra hne
      have hrun : walkUserData size s (0 + (k + 1)) i = .running := h 0
      have hfuel := walk_fuel hsize hne (k + 1 - n)
      rw [show n + (k + 1 - n) = 0 + (k + 1) by omega, hrun] at hfuel
      exact hne hfuel.symm
    · have hback := h (n - (k + 1))
      rw [Nat.sub_add_cancel hge] at hback
      rw [hback]
      exact ih _ (by omega)

/-- A length byte that leads from the first long entry back to the beginning of an entry before it, or to
its own, keeps the loop among these for ever. -/
theorem LongEntryAt.not_sameWalk {j : ℕ} (h : LongEntryAt s i) (hs : s.length ≤ 255)
    (hj : ShortlyReached s j) (hle : j ≤ i) (hback : i + (s.getD (i + 1) 0).toNat = j + 254) :
    ¬SameWalk s := by
  obtain ⟨k, hk⟩ := hj.run_from h.1 hle hs
  have hj' : i + (s.getD (i + 1) 0).toNat - 254 = j := by omega
  have hloop (n : ℕ) : walkUserData sizeOfChar s (n + (k + 1)) j = walkUserData sizeOfChar s n j := by
    rw [← Nat.add_assoc, Nat.add_right_comm, hk, walk_round sizeOfByte_char h.2.1, if_pos h.2.2.1,
      nextEntry_char hs h.2.1 h.2.2.2, if_neg (by omega), hj']
  intro hsame
  have hbare := (h.sameWalk_iff hs).mp hsame
  rw [if_neg (by omega), hj', Boolberry.bare_iff sizeOfByte_char] at hbare
  obtain ⟨n, hn⟩ := hbare
  exact hn.ne_running (walk_running sizeOfByte_char hloop n)

theorem swapWalks_same_iff (hs : s.length ≤ 255) :
    SameWalk s ↔ ∀ i, LongEntryAt s i →
      if i + (s.getD (i + 1) 0).toNat < 254 then
        Bare UInt8.toNat s (i + (s.getD (i + 1) 0).toNat + 2)
      else Bare sizeOfChar s (i + (s.getD (i + 1) 0).toNat - 254) := by
  constructor
  · exact fun h i hi => (hi.sameWalk_iff hs).mp h
  · intro h
    by_cases hlong : ∃ i, LongEntryAt s i
    · obtain ⟨i, hi⟩ := hlong
      exact (hi.sameWalk_iff hs).mpr (h i hi)
    · have heq := fun n => @ShortlyReached.walk_eq s 0 n .start hs (not_exists.mp hlong)
      refine sameWalk_iff.mpr ⟨s.length + 1, ?_, fun pos => ?_⟩
      · rw [heq]
        exact encryptUserDataWalk_ends hs
      · rw [heq]
        rfl

/-- An entry of seven bytes and a swap entry. -/
def sampleUserData : Blob := [0, 7, 1, 2, 3, 4, 5, 6, 7, 1, 68] ++ List.replicate 68 9

theorem swapWalks_same_sample : SameWalk sampleUserData ∧
    getSwapinfoEncryptedBuffFromUserData 2 sampleUserData = .found 11 := by
  refine ⟨(swapWalks_same_iff (by decide)).mpr fun i h => ?_, by decide⟩
  have hreached : ∀ i, ShortlyReached sampleUserData i → i = 0 ∨ i = 9 := by
    intro i h
    induction h with
    | start => exact .inl rfl
    | entry _ _ htag _ ih =>
      rcases ih with rfl | rfl
      · exact .inr rfl
      · exact absurd rfl htag
  rcases hreached i h.1 with rfl | rfl
  · exact absurd h.2.2.2 (by decide)
  · exact absurd rfl h.2.2.1

/-- An entry of 254 bytes leaves the cursor where it is, and one of 251 bytes behind an entry of one byte
leads it back to that. -/
theorem swapinfo_walk_never_ends : ¬SameWalk [0, 254] ∧ ¬SameWalk [0, 1, 7, 0, 251] := by
  have hsecond : ShortlyReached [0, 1, 7, 0, 251] 3 :=
    .entry .start (by decide) (by decide) (by decide)
  constructor
  · exact LongEntryAt.not_sameWalk (i := 0) (j := 0)
      ⟨.start, by decide, by decide, by decide⟩ (by decide) .start le_rfl rfl
  · exact LongEntryAt.not_sameWalk (i := 3) (j := 0)
      ⟨hsecond, by decide, by decide, by decide⟩ (by decide) .start (by decide) rfl

end BothLoops

def cnFastHash64 (E : Env) (data : Blob) : UInt64 :=
  if data = [] then 0
  else
    let h := hashBytes (E.cnFastHash data)
    UInt64.ofNat (podOfBytes ((h.drop (8 * ((h.getD 5 0).toNat % 4))).take 8))

/-- The bytes of a `swap_address_extra_entry` with its checksum. -/
def swapAddressExtraEntry (E : Env) (addrBase : AccountPublicAddress) : Blob :=
  let base := hashBytes addrBase.spendPublicKey ++ hashBytes addrBase.viewPublicKey
  base ++ podBytes 4 (cnFastHash64 E base).toUInt32.toNat

def getPaymentIdUserdataEntry (paymentId : Blob) : Option Blob :=
  if paymentId.length = 0 then some []
  else if TX_MAX_PAYMENT_ID_SIZE ≤ paymentId.length then none
  else some (TX_USER_DATA_TAG_PAYMENT_ID :: UInt8.ofNat paymentId.length :: paymentId)

def getSwapinfoUserdataEntry (E : Env) (swapAddr : DestinationAddress) : Blob :=
  if swapAddr.isSwapAddress then
    TX_USER_DATA_TAG_SWAP_ADDRESS :: UInt8.ofNat SWAP_ADDRESS_EXTRA_ENTRY_SIZE ::
      swapAddressExtraEntry E swapAddr.toAccountPublicAddress
  else []

def setPaymentIdAndSwapAddrToTxExtra (E : Env) (extra paymentId : Blob) (acc : DestinationAddress) :
    Option Blob :=
  match getPaymentIdUserdataEntry paymentId with
  | none => none
  | some paymentIdEntry =>
      let swapEntry := getSwapinfoUserdataEntry E acc
      if paymentIdEntry = [] ∧ swapEntry = [] then some extra
      else if TX_EXTRA_MAX_USER_DATA_SIZE ≤ paymentIdEntry.length + swapEntry.length then none
      else
        some (extra ++ TX_EXTRA_TAG_USER_DATA :: UInt8.ofNat (paymentIdEntry.length + swapEntry.length) ::
          (paymentIdEntry ++ swapEntry))

/-- The payment id and the swap entry of a transaction are these, or there is none. -/
def ReadsBack (E : Env) (tx : Transaction) (paymentId : Blob) (acc : DestinationAddress) : Prop :=
  (getPaymentIdFromTxExtra E tx).getD [] = paymentId ∧
    ∃ tei n, parseAndValidateTxExtra E tx = some tei ∧
      let found := getSwapinfoEncryptedBuffFromUserData n tei.userDataBlob
      found ≠ .running ∧ found ≠ .pastEnd ∧ found.encryptedBuff tei.userDataBlob =
        if acc.isSwapAddress then some (swapAddressExtraEntry E acc.toAccountPublicAddress) else none

section ReadingBack

variable {E : Env} {extra paymentId : Blob} {acc : DestinationAddress}

/-- The user data of a payment id and an address. -/
def userDataOf (E : Env) (paymentId : Blob) (acc : DestinationAddress) : Blob :=
  (getPaymentIdUserdataEntry paymentId).getD [] ++ getSwapinfoUserdataEntry E acc

theorem swapAddressExtraEntry_length (addrBase : AccountPublicAddress) :
    (swapAddressExtraEntry E addrBase).length = 68 := by
  unfold swapAddressExtraEntry hashBytes
  simp only [List.length_append, length_podBytes]

theorem getPaymentIdUserdataEntry_eq_none_iff :
    getPaymentIdUserdataEntry paymentId = none ↔ TX_MAX_PAYMENT_ID_SIZE ≤ paymentId.length := by
  unfold getPaymentIdUserdataEntry
  split_ifs with hempty hlong
  · rw [hempty]
    exact iff_of_false (by simp) (by decide)
  · exact iff_of_true rfl hlong
  · exact iff_of_false (by simp) hlong

/-- The call refuses what is too long, and else appends one entry or nothing. -/
theorem set_eq (E : Env) (extra paymentId : Blob) (acc : DestinationAddress) :
    setPaymentIdAndSwapAddrToTxExtra E extra paymentId acc =
      if TX_MAX_PAYMENT_ID_SIZE ≤ paymentId.length ∨
          TX_EXTRA_MAX_USER_DATA_SIZE ≤ (userDataOf E paymentId acc).length then none
      else
        some (extra ++ if userDataOf E paymentId acc = [] then []
          else (ExtraEntry.userData (userDataOf E paymentId acc)).bytes) := by
  by_cases hlong : TX_MAX_PAYMENT_ID_SIZE ≤ paymentId.length
  · unfold setPaymentIdAndSwapAddrToTxExtra
    rw [getPaymentIdUserdataEntry_eq_none_iff.mpr hlong, if_pos (.inl hlong)]
  · obtain ⟨entry, hentry⟩ := Option.ne_none_iff_exists'.mp
      (mt getPaymentIdUserdataEntry_eq_none_iff.mp hlong)
    have hdata : userDataOf E paymentId acc = entry ++ getSwapinfoUserdataEntry E acc := by
      unfold userDataOf
      rw [hentry, Option.getD_some]
    rw [hdata]
    unfold setPaymentIdAndSwapAddrToTxExtra
    rw [hentry]
    simp only [List.append_eq_nil_iff, List.length_append, or_iff_right hlong, ExtraEntry.bytes]
    split_ifs with hnone hsize hsize
    · rw [hnone.1, hnone.2] at hsize
      exact absurd hsize (by decide)
    · rw [List.append_nil]
    · rfl
    · rfl

/-- Without an address this is what a sweep puts into its transactions. -/
theorem paymentIdExtra_eq (E : Env) (paymentId : Blob) (hacc : acc.isSwapAddress = false) :
    paymentIdExtra paymentId = (setPaymentIdAndSwapAddrToTxExtra E [] paymentId acc).getD [] := by
  have hdata : userDataOf E paymentId acc = (getPaymentIdUserdataEntry paymentId).getD [] := by
    unfold userDataOf getSwapinfoUserdataEntry
    rw [hacc]
    exact List.append_nil _
  rw [set_eq, hdata]
  unfold paymentIdExtra getPaymentIdUserdataEntry
  simp only
  by_cases hempty : paymentId = []
  · rw [hempty]
    rfl
  simp only [hempty, false_or, List.length_eq_zero_iff, if_false]
  by_cases hlong : TX_MAX_PAYMENT_ID_SIZE ≤ paymentId.length
  · rw [if_pos (.inl hlong), if_pos (.inl hlong)]
    rfl
  · rw [if_neg hlong, Option.getD_some, if_neg (List.cons_ne_nil _ _)]
    split_ifs <;> rfl

/-- The parser gives the user data back, with entries of other kinds before and behind them. -/
theorem parse_set {tx : Transaction} {before after : List ExtraEntry}
    (hkeys : ((before ++ after).filterMap ExtraEntry.key?).length ≤ 1)
    (hdatas : (before ++ after).filterMap ExtraEntry.data? = [])
    (hset : setPaymentIdAndSwapAddrToTxExtra E (before.flatMap ExtraEntry.bytes) paymentId acc = some extra)
    (htx : tx.extra = extra ++ after.flatMap ExtraEntry.bytes) :
    paymentId.length < 250 ∧ (userDataOf E paymentId acc).length < 250 ∧
      ∃ tei, parseAndValidateTxExtra E tx = some tei ∧ tei.userDataBlob = userDataOf E paymentId acc := by
  rw [set_eq] at hset
  have hlong : ¬(TX_MAX_PAYMENT_ID_SIZE ≤ paymentId.length ∨
      TX_EXTRA_MAX_USER_DATA_SIZE ≤ (userDataOf E paymentId acc).length) := by
    intro hlong
    rw [if_pos hlong] at hset
    cases hset
  rw [if_neg hlong] at hset
  obtain ⟨hid, hdata⟩ := not_or.mp hlong
  refine ⟨Nat.not_le.mp hid, Nat.not_le.mp hdata, ?_⟩
  generalize hl : before ++ (if userDataOf E paymentId acc = [] then []
    else [ExtraEntry.userData (userDataOf E paymentId acc)]) ++ after = l
  have hextra : tx.extra = l.flatMap ExtraEntry.bytes := by
    rw [htx, ← Option.some.inj hset, ← hl, List.flatMap_append, List.flatMap_append]
    split_ifs
    · rfl
    · rw [List.flatMap_singleton]
  have hkeys' : l.filterMap ExtraEntry.key? = (before ++ after).filterMap ExtraEntry.key? := by
    have hnone : (if userDataOf E paymentId acc = [] then []
        else [ExtraEntry.userData (userDataOf E paymentId acc)]).filterMap ExtraEntry.key? = [] := by
      split_ifs <;> rfl
    rw [← hl, List.filterMap_append, List.filterMap_append, hnone, List.append_nil, List.filterMap_append]
  have hdatas' : l.filterMap ExtraEntry.data? =
      if userDataOf E paymentId acc = [] then [] else [userDataOf E paymentId acc] := by
    rw [List.filterMap_append, List.append_eq_nil_iff] at hdatas
    rw [← hl, List.filterMap_append, List.filterMap_append, hdatas.1, hdatas.2]
    split_ifs <;> rfl
  have hwell : ExtraEntry.WellFormed l := by
    refine ⟨by rwa [hkeys'], ?_, ?_⟩
    · rw [hdatas']
      split_ifs <;> simp
    · rw [hdatas']
      intro data hmem
      unfold TX_EXTRA_MAX_USER_DATA_SIZE at hdata
      split_ifs at hmem
      · cases hmem
      · rw [List.mem_singleton.mp hmem]
        omega
  have hagrees := parseAndValidateTxExtra_agrees E tx
  rw [hextra, readExtra_entries hwell] at hagrees
  refine ⟨_, hagrees, ?_⟩
  simp only [ExtraEntry.record, hdatas']
  split_ifs with hnil
  · exact hnil.symm
  · rfl

theorem userDataOf_nil (E : Env) (acc : DestinationAddress) :
    userDataOf E [] acc = getSwapinfoUserdataEntry E acc := rfl

theorem userDataOf_eq (hnil : paymentId ≠ []) (hid : paymentId.length < 250) :
    userDataOf E paymentId acc = TX_USER_DATA_TAG_PAYMENT_ID :: UInt8.ofNat paymentId.length ::
      (paymentId ++ getSwapinfoUserdataEntry E acc) := by
  unfold userDataOf getPaymentIdUserdataEntry
  rw [if_neg (by simpa using hnil), if_neg (show ¬TX_MAX_PAYMENT_ID_SIZE ≤ _ from Nat.not_le.mpr hid)]
  rfl

/-- A signed length of 128 bytes or more takes all the rest for the payment id. -/
theorem getPaymentId_userDataOf_iff (hid : paymentId.length < 250) :
    (getPaymentIdFromUserData (userDataOf E paymentId acc)).getD [] = paymentId ↔
      acc.isSwapAddress = false ∨ paymentId.length < 128 := by
  by_cases hnil : paymentId = []
  · subst hnil
    refine iff_of_true ?_ (.inr (by decide))
    rw [userDataOf_nil]
    unfold getSwapinfoUserdataEntry
    split_ifs <;> rfl
  rw [userDataOf_eq hnil hid]
  unfold getPaymentIdFromUserData
  simp only
  rw [if_pos trivial, Option.getD_some]
  have hnat := @toNat_length paymentId.length (by omega)
  by_cases hshort : paymentId.length < 128
  · rw [if_pos (UInt8.lt_iff_toNat_lt.mpr (by rw [hnat]; exact hshort)), hnat,
      List.take_left]
    exact iff_of_true rfl (.inr hshort)
  · rw [if_neg (fun h => hshort (by rw [UInt8.lt_iff_toNat_lt, hnat] at h; exact h)), or_iff_left hshort,
      List.append_right_eq_self]
    unfold getSwapinfoUserdataEntry
    split_ifs with hswap
    · simp [hswap]
    · simp [hswap]

theorem swapEntryAt_of_eq {data front entry : Blob}
    (h : data = front ++ TX_USER_DATA_TAG_SWAP_ADDRESS :: UInt8.ofNat SWAP_ADDRESS_EXTRA_ENTRY_SIZE :: entry)
    (hentry : entry.length = 68) :
    SwapEntryAt data front.length ∧
      (data.drop (front.length + 2)).take SWAP_ADDRESS_EXTRA_ENTRY_SIZE = entry := by
  have hcut : data = (front ++ [TX_USER_DATA_TAG_SWAP_ADDRESS]) ++
      UInt8.ofNat SWAP_ADDRESS_EXTRA_ENTRY_SIZE :: entry := by
    rw [h, List.append_assoc]
    rfl
  have hfield : data = (front ++ [TX_USER_DATA_TAG_SWAP_ADDRESS,
      UInt8.ofNat SWAP_ADDRESS_EXTRA_ENTRY_SIZE]) ++ (entry ++ []) := by
    rw [h, List.append_assoc, List.append_nil]
    rfl
  refine ⟨⟨getD_at h rfl, getD_at hcut (by simp), ?_⟩, slice_at hfield (by simp) hentry⟩
  rw [h, List.length_append, List.length_cons, List.length_cons, hentry]

theorem walk_paymentId (hnil : paymentId ≠ []) (hid : paymentId.length < 250)
    (hdata : (userDataOf E paymentId acc).length < 250) (n : ℕ) :
    walkUserData sizeOfChar (userDataOf E paymentId acc) (n + 1) 0 =
      walkUserData sizeOfChar (userDataOf E paymentId acc) n
        (if paymentId.length < 128 then paymentId.length + 2 else 2 ^ 64 + paymentId.length - 254) := by
  have hnat := @toNat_length paymentId.length (by omega)
  have heq := @userDataOf_eq E paymentId acc hnil hid
  have hlen : 0 + 1 < (userDataOf E paymentId acc).length := by
    rw [heq]
    simp
  have htag : (userDataOf E paymentId acc).getD 0 0 = TX_USER_DATA_TAG_PAYMENT_ID := by
    rw [heq]
    rfl
  have hbyte : (userDataOf E paymentId acc).getD (0 + 1) 0 = UInt8.ofNat paymentId.length := by
    rw [heq]
    rfl
  rw [walk_round sizeOfByte_char hlen, if_pos (by rw [htag]; decide)]
  by_cases hshort : paymentId.length < 128
  · rw [nextEntry_short sizeOfByte_char (by omega) hlen
      (by rw [hbyte, UInt8.lt_iff_toNat_lt, hnat]; exact hshort), hbyte, hnat, Nat.zero_add, if_pos hshort]
  · rw [nextEntry_char (by omega) hlen
      (by rw [hbyte, UInt8.le_iff_toNat_le, hnat]; exact Nat.not_lt.mp hshort), hbyte, hnat,
      Nat.zero_add, if_pos (by omega), if_neg hshort]

/-- Without a swap entry nothing is found, nor behind a payment id of 128 bytes or more. -/
theorem walk_noEntry (h : acc.isSwapAddress = false ∨ 128 ≤ paymentId.length)
    (hid : paymentId.length < 250) (hdata : (userDataOf E paymentId acc).length < 250) :
    walkUserData sizeOfChar (userDataOf E paymentId acc) 2 0 = .noEntry := by
  by_cases hlong : 128 ≤ paymentId.length
  · have hnil : paymentId ≠ [] := List.length_pos_iff.mp (by omega)
    rw [walk_paymentId hnil hid hdata, if_neg (Nat.not_lt.mpr hlong)]
    exact walk_past (by omega)
  · have hswap := h.resolve_right hlong
    have hnone : getSwapinfoUserdataEntry E acc = [] := if_neg (by simp [hswap])
    by_cases hnil : paymentId = []
    · rw [hnil, userDataOf_nil, hnone]
      rfl
    · have hlen : (userDataOf E paymentId acc).length = paymentId.length + 2 := by
        rw [userDataOf_eq hnil hid, hnone, List.append_nil]
        rfl
      rw [walk_paymentId hnil hid hdata, if_pos (Nat.not_le.mp hlong)]
      exact walk_past hlen.le

theorem walk_withSwap (hswap : acc.isSwapAddress = true) (hshort : paymentId.length < 128)
    (hdata : (userDataOf E paymentId acc).length < 250) :
    ∃ pos, walkUserData sizeOfChar (userDataOf E paymentId acc) 2 0 = .found pos ∧
      ((userDataOf E paymentId acc).drop pos).take SWAP_ADDRESS_EXTRA_ENTRY_SIZE =
        swapAddressExtraEntry E acc.toAccountPublicAddress := by
  have hsome : getSwapinfoUserdataEntry E acc = TX_USER_DATA_TAG_SWAP_ADDRESS ::
    UInt8.ofNat SWAP_ADDRESS_EXTRA_ENTRY_SIZE :: swapAddressExtraEntry E acc.toAccountPublicAddress :=
    if_pos hswap
  have hlength := @swapAddressExtraEntry_length E acc.toAccountPublicAddress
  -- the entry lies behind that of the payment id
  obtain ⟨front, hfront, k, hreach⟩ : ∃ front : Blob, userDataOf E paymentId acc = front ++
      getSwapinfoUserdataEntry E acc ∧ ∃ k, walkUserData sizeOfChar (userDataOf E paymentId acc) 2 0 =
        walkUserData sizeOfChar (userDataOf E paymentId acc) (k + 1) front.length := by
    by_cases hnil : paymentId = []
    · exact ⟨[], by rw [hnil]; rfl, 1, rfl⟩
    · refine ⟨TX_USER_DATA_TAG_PAYMENT_ID :: UInt8.ofNat paymentId.length :: paymentId,
        userDataOf_eq hnil (by omega), 0, ?_⟩
      rw [walk_paymentId hnil (by omega) hdata, if_pos hshort]
      rfl
  rw [hsome] at hfront
  obtain ⟨hentry, hslice⟩ := swapEntryAt_of_eq hfront hlength
  have := hentry.2.2
  refine ⟨front.length + 2, ?_, hslice⟩
  rw [hreach, walk_round sizeOfByte_char (by omega), if_neg (not_not.mpr hentry.1), if_pos hentry]

theorem getSwapinfo_userDataOf (hid : paymentId.length < 250)
    (hdata : (userDataOf E paymentId acc).length < 250)
    (h : acc.isSwapAddress = false ∨ paymentId.length < 128) :
    let found := getSwapinfoEncryptedBuffFromUserData 2 (userDataOf E paymentId acc)
    found ≠ .running ∧ found.encryptedBuff (userDataOf E paymentId acc) =
      if acc.isSwapAddress then some (swapAddressExtraEntry E acc.toAccountPublicAddress) else none := by
  rw [getSwapinfo_eq]
  cases hswap : acc.isSwapAddress with
  | false =>
    rw [walk_noEntry (.inl hswap) hid hdata]
    simp [WalkEnd.encryptedBuff]
  | true =>
    have hshort : paymentId.length < 128 := by simpa [hswap] using h
    obtain ⟨pos, hfound, hslice⟩ := walk_withSwap hswap hshort hdata
    rw [hfound]
    exact ⟨by simp, congrArg some hslice⟩

theorem userData_readsBack_iff {tx : Transaction} {before after : List ExtraEntry}
    (hkeys : ((before ++ after).filterMap ExtraEntry.key?).length ≤ 1)
    (hdatas : (before ++ after).filterMap ExtraEntry.data? = [])
    (hset : setPaymentIdAndSwapAddrToTxExtra E (before.flatMap ExtraEntry.bytes) paymentId acc = some extra)
    (htx : tx.extra = extra ++ after.flatMap ExtraEntry.bytes) :
    ReadsBack E tx paymentId acc ↔ acc.isSwapAddress = false ∨ paymentId.length < 128 := by
  obtain ⟨hid, hdata, tei, htei, hblob⟩ := parse_set hkeys hdatas hset htx
  have hpayment : getPaymentIdFromTxExtra E tx = getPaymentIdFromUserData (userDataOf E paymentId acc) := by
    unfold getPaymentIdFromTxExtra
    rw [htei, Option.bind_some, hblob]
  constructor
  · rintro ⟨h, -⟩
    rw [hpayment] at h
    exact (getPaymentId_userDataOf_iff hid).mp h
  · intro h
    obtain ⟨hends, hbuff⟩ := getSwapinfo_userDataOf hid hdata h
    refine ⟨by rw [hpayment]; exact (getPaymentId_userDataOf_iff hid).mpr h, tei, 2, htei, ?_⟩
    rw [hblob]
    refine ⟨hends, ?_, hbuff⟩
    rw [getSwapinfo_eq]
    exact (walk_inside sizeOfByte_char).1

/-- A swap address with its flag. -/
def sampleSwapAddress : DestinationAddress :=
  { spendPublicKey := 1, viewPublicKey := 2, isSwapAddress := true }

/-- A transaction with a payment id of `n` bytes and a swap address, and its public key behind them. -/
def sampleUserDataTx (n : ℕ) : Transaction :=
  sampleAliasTx ((setPaymentIdAndSwapAddrToTxExtra sampleEnv [] (List.replicate n 7)
    sampleSwapAddress).getD [] ++ [ExtraEntry.pubkey 5].flatMap ExtraEntry.bytes)

/-- An address without a swap flag. -/
def samplePlainAddress : DestinationAddress := { spendPublicKey := 1, viewPublicKey := 2 }

/-- With a swap address, and as a sweep puts it into its transactions. -/
theorem userData_readsBack_sample :
    ReadsBack sampleEnv (sampleUserDataTx 100) (List.replicate 100 7) sampleSwapAddress ∧
    ReadsBack sampleEnv (sampleAliasTx (paymentIdExtra (List.replicate 200 7))) (List.replicate 200 7)
      samplePlainAddress := by
  constructor
  · exact (@userData_readsBack_iff sampleEnv ((setPaymentIdAndSwapAddrToTxExtra sampleEnv []
      (List.replicate 100 7) sampleSwapAddress).getD []) _ _ _ [] [.pubkey 5] (by decide) rfl rfl rfl).mpr
      (.inr (by decide))
  · rw [paymentIdExtra_eq sampleEnv _ (show samplePlainAddress.isSwapAddress = false from rfl)]
    exact (@userData_readsBack_iff sampleEnv ((setPaymentIdAndSwapAddrToTxExtra sampleEnv []
      (List.replicate 200 7) samplePlainAddress).getD []) _ _ _ [] [] (by decide) rfl rfl
      (List.append_nil _).symm).mpr (.inl rfl)

/-- With 128 bytes the payment id comes back with the swap entry behind it. -/
theorem userData_swallows_swap :
    (setPaymentIdAndSwapAddrToTxExtra sampleEnv [] (List.replicate 128 7) sampleSwapAddress).isSome ∧
      ¬ReadsBack sampleEnv (sampleUserDataTx 128) (List.replicate 128 7) sampleSwapAddress := by
  have hsome : (setPaymentIdAndSwapAddrToTxExtra sampleEnv [] (List.replicate 128 7)
      sampleSwapAddress).isSome := by decide +kernel
  refine ⟨hsome, ?_⟩
  rintro ⟨h, -⟩
  obtain ⟨extra, hextra⟩ := Option.isSome_iff_exists.mp hsome
  obtain ⟨hid, -, tei, htei, hblob⟩ := @parse_set sampleEnv extra (List.replicate 128 7)
    sampleSwapAddress (sampleUserDataTx 128) [] [.pubkey 5] (by decide) rfl hextra
    (by unfold sampleUserDataTx; rw [hextra]; rfl)
  unfold getPaymentIdFromTxExtra at h
  rw [htei, Option.bind_some, hblob] at h
  have hshort := (getPaymentId_userDataOf_iff hid).mp h
  rw [List.length_replicate] at hshort
  exact absurd hshort (by decide)

end ReadingBack

end Boolberry
