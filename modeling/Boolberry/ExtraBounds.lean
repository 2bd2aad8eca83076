import Boolberry.ExtraReader

/-!
# Reads beyond an extra

Only the optional parts of an alias entry can lead the parser of the extra out of the
blob: the byte in front of the comment, the comment's last byte, and the second half of
the signature.
-/

namespace Boolberry.ExtraReader

variable {extra : Blob} {coinbase : Bool} {i : ℕ} {st : ExtraScan}

theorem readExtraGo_ends {n : ℕ} (hi : i ≤ extra.length) (hn : roundsLeft extra i st < n) :
    readExtraGo extra coinbase n i st ≠ .error .running := by
  induction n generalizing i st with
  | zero => omega
  | succ n ih =>
    unfold readExtraGo
    by_cases hend : i = extra.length
    · rw [if_pos hend]
      exact fun h => by cases h
    have hlt : i < extra.length := by omega
    rw [if_neg hend]
    cases hround : readRound extra coinbase i st with
    | ok r =>
      have hnext := (readRound_ok_iff hlt).mp hround
      have := hnext.roundsLeft hlt
      exact ih (hnext.moves hlt).1 (by omega)
    | error e =>
      intro h
      cases h
      exact readRound_ends hlt hround

theorem readExtra_ends (extra : Blob) (coinbase : Bool) :
    readExtra extra coinbase ≠ .error .running := by
  refine readExtraGo_ends (Nat.zero_le _) ?_
  unfold roundsLeft
  simp

theorem readExtraGo_fuel {n m : ℕ} (hi : i ≤ extra.length) (hn : roundsLeft extra i st < n)
    (hm : roundsLeft extra i st < m) :
    readExtraGo extra coinbase n i st = readExtraGo extra coinbase m i st := by
  induction n generalizing m i st with
  | zero => omega
  | succ n ih =>
    obtain ⟨m, rfl⟩ : ∃ k, m = k + 1 := ⟨m - 1, by omega⟩
    unfold readExtraGo
    by_cases hend : i = extra.length
    · rw [if_pos hend, if_pos hend]
    have hlt : i < extra.length := by omega
    rw [if_neg hend, if_neg hend]
    cases hround : readRound extra coinbase i st with
    | ok r =>
      have hnext := (readRound_ok_iff hlt).mp hround
      have := hnext.roundsLeft hlt
      exact ih (hnext.moves hlt).1 (by omega) (by omega)
    | error e => rfl

/-- Rounds that lead from one place to another, whatever the loop does then. -/
def Runs (extra : Blob) (coinbase : Bool) (k i : ℕ) (st : ExtraScan) (i' : ℕ) (st' : ExtraScan) : Prop :=
  ∀ n, readExtraGo extra coinbase (n + k) i st = readExtraGo extra coinbase n i' st'

theorem Runs.trans {k k' i' i'' : ℕ} {st' st'' : ExtraScan} (h : Runs extra coinbase k i st i' st')
    (h' : Runs extra coinbase k' i' st' i'' st'') : Runs extra coinbase (k + k') i st i'' st'' := by
  intro n
  rw [Nat.add_comm k, ← Nat.add_assoc, h, h']

/-- The rest of the call from a place it comes to. -/
theorem Runs.readExtra {k : ℕ} (h : Runs extra coinbase k 0 { info := emptyInfo } i st)
    (hi : i ≤ extra.length) :
    readExtra extra coinbase = readExtraGo extra coinbase (roundsLeft extra i st + 1) i st := by
  have hstart : ExtraReader.roundsLeft extra 0 { info := emptyInfo } < extra.length + 2 := by
    unfold roundsLeft
    simp
  calc ExtraReader.readExtra extra coinbase
      = readExtraGo extra coinbase (extra.length + 2 + roundsLeft extra i st + k) 0
          { info := emptyInfo } := readExtraGo_fuel (Nat.zero_le _) hstart (by omega)
    _ = readExtraGo extra coinbase (extra.length + 2 + roundsLeft extra i st) i st := h _
    _ = readExtraGo extra coinbase (roundsLeft extra i st + 1) i st :=
        readExtraGo_fuel hi (by omega) (by omega)

theorem Round.runs {i' : ℕ} {st' : ExtraScan} (h : Round extra coinbase i st i' st')
    (hi : i < extra.length) : Runs extra coinbase 1 i st i' st' := by
  intro n
  conv_lhs => unfold readExtraGo
  rw [if_neg hi.ne, (readRound_ok_iff hi).mpr h]

/-- The positions that the scan of `extra` comes to before the padding and an alias, and whether a
public key and user data have been found. -/
inductive Reaches (extra : Blob) : ℕ → Bool → Bool → Prop
  | start : Reaches extra 0 false false
  | pubkey {i : ℕ} {data : Bool} : Reaches extra i false data → i + 33 ≤ extra.length →
      extra.getD i 0 = 0x01 → Reaches extra (i + 33) true data
  | userData {i : ℕ} {key : Bool} : Reaches extra i key false →
      i + 2 + (extra.getD (i + 1) 0).toNat ≤ extra.length → extra.getD i 0 = 0x02 →
      Reaches extra (i + 2 + (extra.getD (i + 1) 0).toNat) key true
  | other {i : ℕ} {key data : Bool} : Reaches extra i key data → i < extra.length →
      0x03 < extra.getD i 0 → Reaches extra (i + 1) key data

/-- The first alias entry of the blob begins at `start`. -/
def AliasAt (extra : Blob) (start : ℕ) : Prop :=
  start < extra.length ∧ extra.getD start 0 = 0x03 ∧ ∃ key data, Reaches extra start key data

theorem Reaches.run {key data : Bool} (h : Reaches extra i key data) :
    ∃ st : ExtraScan, st.paddingStarted = false ∧ st.aliasFound = false ∧ st.pubkeyFound = key ∧
      st.userDataFound = data ∧ ∃ k, Runs extra coinbase k 0 { info := emptyInfo } i st := by
  induction h with
  | start => exact ⟨{ info := emptyInfo }, rfl, rfl, rfl, rfl, 0, fun _ => rfl⟩
  | pubkey _ hle htag ih =>
    obtain ⟨st, hpad, halias, hkey, hdata, k, hrun⟩ := ih
    have hround : Round extra coinbase _ st _ _ := .pubkey hpad htag hle hkey
    exact ⟨withPubkey st _, hpad, halias, rfl, hdata, k + 1, hrun.trans (hround.runs (by omega))⟩
  | userData _ hle htag ih =>
    obtain ⟨st, hpad, halias, hkey, hdata, k, hrun⟩ := ih
    have hround : Round extra coinbase _ st _ _ := .userData hpad htag hdata hle
    exact ⟨withUserData st _, hpad, halias, hkey, rfl, k + 1, hrun.trans (hround.runs (by omega))⟩
  | other _ hlt htag ih =>
    obtain ⟨st, hpad, halias, hkey, hdata, k, hrun⟩ := ih
    have hround : Round extra coinbase _ st _ _ := .other hpad htag
    exact ⟨_, hpad, halias, hkey, hdata, k + 1, hrun.trans (hround.runs hlt)⟩

/-- What holds of the scan from round to round. -/
def Scanning (extra : Blob) (i : ℕ) (st : ExtraScan) : Prop :=
  st.paddingStarted = true ∨ st.aliasFound = true ∨ Reaches extra i st.pubkeyFound st.userDataFound

theorem Round.scanning {i' : ℕ} {st' : ExtraScan} (h : Round extra coinbase i st i' st')
    (hi : i < extra.length) (hscan : Scanning extra i st) : Scanning extra i' st' := by
  cases h with
  | padding hpad => exact .inl hpad
  | pubkey hpad htag hle hfound =>
    refine hscan.imp id (Or.imp id fun hreach => ?_)
    rw [hfound] at hreach
    exact hreach.pubkey hle htag
  | userData hpad htag hfound hle =>
    refine hscan.imp id (Or.imp id fun hreach => ?_)
    rw [hfound] at hreach
    exact hreach.userData hle htag
  | aliasEntry => exact .inr (.inl rfl)
  | startPadding => exact .inl rfl
  | other hpad htag => exact hscan.imp id (Or.imp id fun hreach => hreach.other hi htag)

/-- A loop that leaves the blob leaves it in the first alias entry. -/
theorem readExtraGo_pastEnd {n : ℕ} (hi : i ≤ extra.length) (hscan : Scanning extra i st)
    (h : readExtraGo extra coinbase n i st = .error .pastEnd) :
    coinbase = true ∧ ∃ start, AliasAt extra start ∧ AliasOverruns extra start := by
  induction n generalizing i st with
  | zero => cases h
  | succ n ih =>
    unfold readExtraGo at h
    split_ifs at h with hend
    have hlt : i < extra.length := by omega
    cases hround : readRound extra coinbase i st with
    | ok r =>
      rw [hround] at h
      have hnext := (readRound_ok_iff hlt).mp hround
      exact ih (hnext.moves hlt).1 (hnext.scanning hlt hscan) h
    | error e =>
      rw [hround] at h
      cases h
      obtain ⟨hpad, htag, hcoinbase, hfound, hover⟩ := (readRound_pastEnd hlt).mp hround
      rcases hscan with hscan | hscan | hreach
      · rw [hpad] at hscan
        cases hscan
      · rw [hfound] at hscan
        cases hscan
      · exact ⟨hcoinbase, i, ⟨hlt, htag, _, _, hreach⟩, hover⟩

/-- The call returns, and all it has read is in the blob. -/
def StaysInside (extra : Blob) (coinbase : Bool) : Prop :=
  (∃ info, readExtra extra coinbase = .ok info) ∨ readExtra extra coinbase = .error .refused

theorem staysInside_iff_not_pastEnd :
    StaysInside extra coinbase ↔ readExtra extra coinbase ≠ .error .pastEnd := by
  unfold StaysInside
  have := readExtra_ends extra coinbase
  cases hread : readExtra extra coinbase with
  | ok info => simp
  | error e =>
    rw [hread] at this
    cases e with
    | refused => simp
    | pastEnd => simp
    | running => exact absurd rfl this

theorem readExtra_staysInside_iff (tx : Transaction) :
    StaysInside tx.extra (isCoinbase tx) ↔
      ¬(isCoinbase tx = true ∧ ∃ start, AliasAt tx.extra start ∧ AliasOverruns tx.extra start) := by
  rw [staysInside_iff_not_pastEnd, not_iff_not]
  constructor
  · exact readExtraGo_pastEnd (Nat.zero_le _) (.inr (.inr .start))
  · rintro ⟨hcoinbase, start, ⟨hlt, htag, key, data, hreach⟩, hover⟩
    obtain ⟨st, hpad, halias, -, -, k, hrun⟩ := @Reaches.run _ (isCoinbase tx) _ _ _ hreach
    rw [hrun.readExtra hlt.le]
    unfold readExtraGo
    rw [if_neg hlt.ne, (readRound_pastEnd hlt).mpr ⟨hpad, htag, hcoinbase, halias, hover⟩]

/-- A coinbase transaction with an alias in its extra. -/
def sampleAliasTx (extra : Blob) : Transaction :=
  { version := 1, unlockTime := 0, vin := [.gen 1], vout := [], extra, signatures := [] }

/-- An entry that ends with its address, one that lacks the last byte of its comment and one that lacks
half of its signature. -/
theorem readExtra_leaves_blob :
    ¬StaysInside (sampleAliasTx ([3, 0, 1, 97] ++ List.replicate 64 0)).extra true ∧
    ¬StaysInside (sampleAliasTx ([3, 0, 1, 97] ++ List.replicate 64 0 ++ [2, 7])).extra true ∧
    ¬StaysInside (sampleAliasTx
      ([3, 1, 1, 97] ++ List.replicate 64 0 ++ [1, 7] ++ List.replicate 32 0)).extra true ∧
    ∀ extra, isCoinbase (sampleAliasTx extra) = true := by
  refine ⟨fun h => staysInside_iff_not_pastEnd.mp h rfl, fun h => staysInside_iff_not_pastEnd.mp h rfl,
    fun h => staysInside_iff_not_pastEnd.mp h rfl, fun _ => rfl⟩

end Boolberry.ExtraReader
