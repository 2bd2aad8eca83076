import Boolberry.ExtraBounds

/-!
# Writing the extra of a transaction

The entries of an extra as their writers make them, and what the parser makes of an
alias entry between others: an empty comment in front of anything but the padding is
misread.
-/

namespace Boolberry

open ExtraReader

/-- An entry of an extra besides the alias. -/
inductive ExtraEntry where
  | pubkey (key : PublicKey)
  | userData (data : Blob)
deriving DecidableEq, Repr

namespace ExtraEntry

def bytes : ExtraEntry → Blob
  | .pubkey key => 0x01 :: hashBytes key
  | .userData data => 0x02 :: UInt8.ofNat data.length :: data

def key? : ExtraEntry → Option PublicKey
  | .pubkey key => some key
  | .userData _ => none

def data? : ExtraEntry → Option Blob
  | .pubkey _ => none
  | .userData data => some data

/-- At most one entry of a kind, and a length that fits its byte. -/
structure WellFormed (l : List ExtraEntry) : Prop where
  keys : (l.filterMap key?).length ≤ 1
  datas : (l.filterMap data?).length ≤ 1
  sizes : ∀ data ∈ l.filterMap data?, data.length ≤ 255

/-- What the entries say, in place of what was known before. -/
def record (info : TxExtraInfo) (l : List ExtraEntry) : TxExtraInfo :=
  { info with
    txPubKey := (l.filterMap key?).getLastD info.txPubKey
    userDataBlob := (l.filterMap data?).getLastD info.userDataBlob }

end ExtraEntry

def makeTxExtraAliasEntry (alinfo : AliasInfo) (makeBuffToSign : Bool) : Option Blob :=
  if alinfo.aliasName.length = 0 ∨ 255 < alinfo.aliasName.length ∨ 255 < alinfo.textComment.length then none
  else
    let track := decide (alinfo.viewKey ≠ nullSkey)
    let update := !makeBuffToSign && decide (alinfo.sign ≠ nullSig)
    let flags : UInt8 := (if track then 0x02 else 0) ||| (if update then 0x01 else 0)
    some ([0x03, flags, UInt8.ofNat alinfo.aliasName.length] ++ alinfo.aliasName ++
      hashBytes alinfo.address.spendPublicKey ++ hashBytes alinfo.address.viewPublicKey ++
      (if track then hashBytes alinfo.viewKey else []) ++
      [UInt8.ofNat alinfo.textComment.length] ++ alinfo.textComment ++
      (if update then podBytes 64 alinfo.sign.toNat else []))

def addTxExtraAlias (extra : Blob) (alinfo : AliasInfo) : Option Blob :=
  (makeTxExtraAliasEntry alinfo false).map (extra ++ ·)

theorem makeTxExtraAliasEntry_sign {alinfo : AliasInfo} {buff : Blob}
    (h : makeTxExtraAliasEntry alinfo true = some buff) : buff = aliasBuffToSign alinfo := by
  unfold makeTxExtraAliasEntry at h
  split_ifs at h
  rw [← Option.some.inj h]
  unfold aliasBuffToSign
  by_cases hview : alinfo.viewKey = nullSkey
  · simp [hview]
  · simp [hview]

namespace ExtraReader

section Fields

variable {extra before field rest : Blob} {i n : ℕ}

theorem podOfBytes_eq (l : Blob) : podOfBytes l = podValue l := by
  induction l with
  | nil => rfl
  | cons c l ih => rw [podValue, ← ih]; rfl

theorem podOfBytes_podBytes (n : ℕ) (x : BitVec (8 * n)) :
    BitVec.ofNat (8 * n) (podOfBytes (podBytes n x.toNat)) = x := by
  have hlt : x.toNat < 256 ^ n := by
    rw [pow_bytes]
    exact x.isLt
  rw [podOfBytes_eq, podValue_podBytes hlt, BitVec.ofNat_toNat, BitVec.setWidth_eq]

theorem podOfBytes_zeros (n : ℕ) : podOfBytes (List.replicate n 0) = 0 := by
  induction n with
  | zero => rfl
  | succ n ih =>
    rw [podOfBytes_eq] at ih ⊢
    rw [List.replicate_succ, podValue, ih]
    rfl

theorem podBytes_podOfBytes {l : Blob} {x : BitVec (8 * n)} (hl : l.length = n)
    (h : BitVec.ofNat (8 * n) (podOfBytes l) = x) : podBytes n x.toNat = l := by
  have hlt := podValue_lt l
  rw [hl, pow_bytes] at hlt
  rw [← h, podOfBytes_eq, BitVec.toNat_ofNat, Nat.mod_eq_of_lt hlt]
  conv_lhs => rw [← hl]
  exact podBytes_podValue l

theorem podOfBytes_hashBytes (h : Hash) : BitVec.ofNat 256 (podOfBytes (hashBytes h)) = h :=
  podOfBytes_podBytes 32 h

theorem podOfBytes_signature (s : Signature) :
    BitVec.ofNat 512 (podOfBytes (podBytes 64 s.toNat)) = s := podOfBytes_podBytes 64 s

theorem podBytes_signature {l : Blob} {s : Signature} (hl : l.length = 64)
    (h : BitVec.ofNat 512 (podOfBytes l) = s) : podBytes 64 s.toNat = l := podBytes_podOfBytes hl h

theorem toNat_length (h : n ≤ 255) : (UInt8.ofNat n).toNat = n := by
  rw [UInt8.toNat_ofNat']
  omega

theorem getD_at {b : UInt8} (h : extra = before ++ b :: rest) (hi : before.length = i) :
    extra.getD i 0 = b := by
  rw [h, List.getD_eq_getElem?_getD, ← hi]
  simp

theorem drop_at (h : extra = before ++ rest) (hi : before.length = i) : extra.drop i = rest := by
  rw [h, List.drop_left' hi]

theorem slice_at (h : extra = before ++ (field ++ rest)) (hi : before.length = i)
    (hn : field.length = n) : (extra.drop i).take n = field := by
  rw [drop_at h hi, List.take_left' hn]

end Fields

section Entries

variable {extra before rest : Blob} {coinbase : Bool} {st : ExtraScan}

/-- The scan after an entry. -/
def afterEntry (st : ExtraScan) : ExtraEntry → ExtraScan
  | .pubkey key => { st with info := { st.info with txPubKey := key }, pubkeyFound := true }
  | .userData data => withUserData st data

/-- The entries can be read: none repeats one that was found before. -/
def Readable (st : ExtraScan) (l : List ExtraEntry) : Prop :=
  ExtraEntry.WellFormed l ∧ (st.pubkeyFound = true → l.filterMap ExtraEntry.key? = []) ∧
    (st.userDataFound = true → l.filterMap ExtraEntry.data? = [])

theorem Readable.tail {e : ExtraEntry} {l : List ExtraEntry} (h : Readable st (e :: l)) :
    Readable (afterEntry st e) l := by
  obtain ⟨⟨hkeys, hdatas, hsizes⟩, hkey, hdata⟩ := h
  cases e with
  | pubkey key =>
    simp only [ExtraEntry.key?, ExtraEntry.data?, List.filterMap_cons, List.length_cons] at *
    exact ⟨⟨by omega, hdatas, hsizes⟩, fun _ => List.eq_nil_of_length_eq_zero (by omega), hdata⟩
  | userData data =>
    simp only [ExtraEntry.key?, ExtraEntry.data?, List.filterMap_cons, List.length_cons] at *
    exact ⟨⟨hkeys, by omega, fun d hd => hsizes d (by simp [hd])⟩, hkey,
      fun _ => List.eq_nil_of_length_eq_zero (by omega)⟩

theorem Readable.left {l l' : List ExtraEntry} (h : Readable st (l ++ l')) : Readable st l := by
  obtain ⟨⟨hkeys, hdatas, hsizes⟩, hkey, hdata⟩ := h
  rw [List.filterMap_append, List.length_append] at hkeys hdatas
  rw [List.filterMap_append] at hsizes hkey hdata
  exact ⟨⟨by omega, by omega, fun d hd => hsizes d (List.mem_append_left _ hd)⟩,
    fun h => (List.append_eq_nil_iff.mp (hkey h)).1, fun h => (List.append_eq_nil_iff.mp (hdata h)).1⟩

theorem Readable.right {l l' : List ExtraEntry} (h : Readable st (l ++ l')) :
    Readable (l.foldl afterEntry st) l' := by
  induction l generalizing st with
  | nil => exact h
  | cons e l ih => exact ih h.tail

theorem entry_round {e : ExtraEntry} {l : List ExtraEntry} (h : Readable st (e :: l))
    (hpad : st.paddingStarted = false) (hextra : extra = before ++ (e.bytes ++ rest)) :
    Round extra coinbase before.length st (before.length + e.bytes.length) (afterEntry st e) := by
  cases e with
  | pubkey key =>
    have hfound : st.pubkeyFound = false := by
      by_contra hne
      have := h.2.1 (by simpa using hne)
      cases this
    have hround : Round extra coinbase before.length st _ _ := .pubkey hpad (getD_at hextra rfl)
      (by rw [hextra]; simp [ExtraEntry.bytes, hashBytes]) hfound
    have hcut : extra = (before ++ [0x01]) ++ (hashBytes key ++ rest) := by
      rw [hextra]
      simp [ExtraEntry.bytes]
    rw [slice_at hcut (by simp) (by simp [hashBytes])] at hround
    unfold withPubkey at hround
    rw [podOfBytes_hashBytes] at hround
    simpa [ExtraEntry.bytes, hashBytes, afterEntry] using hround
  | userData data =>
    have hfound : st.userDataFound = false := by
      by_contra hne
      have := h.2.2 (by simpa using hne)
      cases this
    have hsize : data.length ≤ 255 := h.1.sizes data (by simp [ExtraEntry.data?])
    have hcut₁ : extra = (before ++ [0x02]) ++ UInt8.ofNat data.length :: (data ++ rest) := by
      rw [hextra]
      simp [ExtraEntry.bytes]
    have hcut₂ : extra = (before ++ [0x02, UInt8.ofNat data.length]) ++ (data ++ rest) := by
      rw [hextra]
      simp [ExtraEntry.bytes]
    have hlen : extra.getD (before.length + 1) 0 = UInt8.ofNat data.length :=
      getD_at hcut₁ (by simp)
    have hnat := toNat_length hsize
    have hround : Round extra coinbase before.length st _ _ := .userData hpad (getD_at hextra rfl) hfound
      (by rw [hlen, hnat, hextra]; simp [ExtraEntry.bytes]; omega)
    rw [hlen, hnat, slice_at hcut₂ (by simp) rfl] at hround
    have hplace : before.length + (ExtraEntry.userData data).bytes.length =
        before.length + 2 + data.length := by
      simp only [ExtraEntry.bytes, List.length_cons]
      omega
    rw [hplace]
    exact hround

theorem afterEntry_padding {e : ExtraEntry} :
    (afterEntry st e).paddingStarted = st.paddingStarted := by cases e <;> rfl

theorem entry_length_pos (e : ExtraEntry) : 0 < e.bytes.length := by cases e <;> simp [ExtraEntry.bytes]

theorem entries_run {l : List ExtraEntry} (h : Readable st l) (hpad : st.paddingStarted = false)
    (hextra : extra = before ++ (l.flatMap ExtraEntry.bytes ++ rest)) :
    Runs extra coinbase l.length before.length st
      (before.length + (l.flatMap ExtraEntry.bytes).length) (l.foldl afterEntry st) := by
  induction l generalizing before st with
  | nil => exact fun _ => rfl
  | cons e l ih =>
    rw [List.flatMap_cons, List.append_assoc] at hextra
    have hlt : before.length < extra.length := by
      have := entry_length_pos e
      rw [hextra]
      simp only [List.length_append]
      omega
    have hrun := @ih (before ++ e.bytes) _ h.tail (by rw [afterEntry_padding, hpad])
      (by rw [hextra, List.append_assoc])
    rw [List.length_append] at hrun
    rw [List.flatMap_cons, List.length_append, ← Nat.add_assoc, List.length_cons, Nat.add_comm l.length]
    exact ((entry_round h hpad hextra).runs hlt).trans hrun

/-- The scan behind entries: the last of a kind counts, and an empty one is not kept. -/
theorem foldl_afterEntry (l : List ExtraEntry) (st : ExtraScan) :
    let st' := l.foldl afterEntry st
    st'.info = { st.info with
      txPubKey := (l.filterMap ExtraEntry.key?).getLastD st.info.txPubKey
      userDataBlob := ((l.filterMap ExtraEntry.data?).filter (· ≠ [])).getLastD st.info.userDataBlob } ∧
    st'.paddingStarted = st.paddingStarted ∧ st'.aliasFound = st.aliasFound := by
  induction l generalizing st with
  | nil => exact ⟨rfl, rfl, rfl⟩
  | cons e l ih =>
    obtain ⟨hinfo, hpad, halias⟩ := ih (afterEntry st e)
    simp only [List.foldl_cons]
    refine ⟨hinfo.trans ?_, hpad.trans afterEntry_padding, halias.trans (by cases e <;> rfl)⟩
    cases e with
    | pubkey key =>
      rw [List.filterMap_cons_some (f := ExtraEntry.key?) rfl,
        List.filterMap_cons_none (f := ExtraEntry.data?) rfl, List.getLastD_cons]
      rfl
    | userData data =>
      rw [List.filterMap_cons_some (f := ExtraEntry.data?) rfl,
        List.filterMap_cons_none (f := ExtraEntry.key?) rfl]
      by_cases hdata : data = []
      · rw [List.filter_cons_of_neg (by simpa using hdata)]
        simp only [afterEntry, withUserData, if_pos hdata]
      · rw [List.filter_cons_of_pos (by simpa using hdata), List.getLastD_cons]
        simp only [afterEntry, withUserData, if_neg hdata]

end Entries

/-- Where the parts of an alias entry lie in the extra it was written to. -/
structure AliasLayout (extra : Blob) (start : ℕ) (alinfo : AliasInfo) (rest : Blob) : Prop where
  start_lt : start < extra.length
  tag : extra.getD start 0 = 0x03
  track : isTracked extra start = decide (alinfo.viewKey ≠ nullSkey)
  update : isUpdate extra start = decide (alinfo.sign ≠ nullSig)
  comment : commentLen extra start = alinfo.textComment.length
  head : aliasHead extra start = { alinfo with sign := nullSig, textComment := [] }
  text : (extra.drop (commentAt extra start + 1)).take alinfo.textComment.length = alinfo.textComment
  tail : extra.drop (commentAt extra start + 1 + alinfo.textComment.length) =
    (if alinfo.sign ≠ nullSig then podBytes 64 alinfo.sign.toNat else []) ++ rest
  length : extra.length = commentAt extra start + 1 + alinfo.textComment.length +
    (if alinfo.sign ≠ nullSig then 64 else 0) + rest.length

/-- The parts that an alias entry is written from. -/
structure AliasParts (alinfo : AliasInfo) (entry : Blob) (flags : UInt8) (key sign : Blob) : Prop where
  name_le : alinfo.aliasName.length ≤ 255
  comment_le : alinfo.textComment.length ≤ 255
  entry_eq : entry = [3, flags, UInt8.ofNat alinfo.aliasName.length] ++ (alinfo.aliasName ++
    (hashBytes alinfo.address.spendPublicKey ++ (hashBytes alinfo.address.viewPublicKey ++ (key ++
      (UInt8.ofNat alinfo.textComment.length :: (alinfo.textComment ++ sign))))))
  track : (flags &&& 0x02 != 0) = decide (alinfo.viewKey ≠ nullSkey)
  update : (flags &&& 0x01 != 0) = decide (alinfo.sign ≠ nullSig)
  key_eq : key = if alinfo.viewKey ≠ nullSkey then hashBytes alinfo.viewKey else []
  sign_eq : sign = if alinfo.sign ≠ nullSig then podBytes 64 alinfo.sign.toNat else []

theorem flag_bits (track update : Bool) :
    let flags : UInt8 := (if track then 0x02 else 0) ||| (if update then 0x01 else 0)
    (flags &&& 0x02 != 0) = track ∧ (flags &&& 0x01 != 0) = update := by
  cases track <;> cases update <;> decide

theorem aliasParts {alinfo : AliasInfo} {entry : Blob}
    (h : makeTxExtraAliasEntry alinfo false = some entry) :
    ∃ flags key sign, AliasParts alinfo entry flags key sign := by
  unfold makeTxExtraAliasEntry at h
  split_ifs at h with hsizes
  obtain ⟨-, hname, hcomment⟩ : _ ∧ alinfo.aliasName.length ≤ 255 ∧ alinfo.textComment.length ≤ 255 := by
    simpa only [not_or, not_lt] using hsizes
  obtain ⟨htrack, hupdate⟩ :=
    flag_bits (decide (alinfo.viewKey ≠ nullSkey)) (!false && decide (alinfo.sign ≠ nullSig))
  refine ⟨_, _, _, hname, hcomment, ?_, htrack, hupdate, rfl, rfl⟩
  rw [← Option.some.inj h]
  simp only [Bool.not_false, Bool.true_and, decide_eq_true_eq, List.append_assoc, List.cons_append,
    List.nil_append]

theorem AliasParts.key_length {alinfo : AliasInfo} {entry key sign : Blob} {flags : UInt8}
    (h : AliasParts alinfo entry flags key sign) :
    key.length = if alinfo.viewKey ≠ nullSkey then 32 else 0 := by
  rw [h.key_eq]
  split_ifs
  · exact length_podBytes 32 _
  · rfl

theorem AliasParts.sign_length {alinfo : AliasInfo} {entry key sign : Blob} {flags : UInt8}
    (h : AliasParts alinfo entry flags key sign) :
    sign.length = if alinfo.sign ≠ nullSig then 64 else 0 := by
  rw [h.sign_eq]
  split_ifs
  · exact length_podBytes 64 _
  · rfl

theorem aliasLayout {alinfo : AliasInfo} {extra before entry rest : Blob}
    (h : makeTxExtraAliasEntry alinfo false = some entry) (hextra : extra = before ++ (entry ++ rest)) :
    AliasLayout extra before.length alinfo rest := by
  obtain ⟨flags, key, sign, hparts⟩ := aliasParts h
  have h₁ : extra = (before ++ [3, flags, UInt8.ofNat alinfo.aliasName.length]) ++ (alinfo.aliasName ++
      (hashBytes alinfo.address.spendPublicKey ++ (hashBytes alinfo.address.viewPublicKey ++ (key ++
        (UInt8.ofNat alinfo.textComment.length :: (alinfo.textComment ++ (sign ++ rest))))))) := by
    rw [hextra, hparts.entry_eq]
    simp only [List.append_assoc, List.cons_append, List.nil_append]
  have hflagsAt : aliasFlags extra before.length = flags := by
    unfold aliasFlags
    rw [h₁]
    simp
  have hnameLen : nameLen extra before.length = alinfo.aliasName.length := by
    unfold nameLen
    rw [← toNat_length hparts.name_le, h₁]
    simp
  have htrack : isTracked extra before.length = decide (alinfo.viewKey ≠ nullSkey) := by
    unfold isTracked
    rw [hflagsAt, hparts.track]
  have hat : commentAt extra before.length =
      before.length + 67 + alinfo.aliasName.length + key.length := by
    unfold commentAt
    rw [hnameLen, htrack, hparts.key_length]
    simp only [decide_eq_true_eq]
  have hhash : ∀ h : Hash, (hashBytes h).length = 32 := fun h => length_podBytes 32 _
  generalize hhead : before ++ [3, flags, UInt8.ofNat alinfo.aliasName.length] = head at h₁
  have hheadLength : head.length = before.length + 3 := by
    rw [← hhead]
    simp
  -- cut in front of the address, the tracking key, the comment's length and the comment
  have h₂ : extra = (head ++ alinfo.aliasName) ++ (hashBytes alinfo.address.spendPublicKey ++
      (hashBytes alinfo.address.viewPublicKey ++ (key ++ (UInt8.ofNat alinfo.textComment.length ::
        (alinfo.textComment ++ (sign ++ rest)))))) := by
    rw [h₁, List.append_assoc]
  have h₃ : extra = (head ++ alinfo.aliasName ++ hashBytes alinfo.address.spendPublicKey) ++
      (hashBytes alinfo.address.viewPublicKey ++ (key ++ (UInt8.ofNat alinfo.textComment.length ::
        (alinfo.textComment ++ (sign ++ rest))))) := by
    rw [h₂, List.append_assoc _ (hashBytes alinfo.address.spendPublicKey)]
  have h₄ : extra = (head ++ alinfo.aliasName ++ hashBytes alinfo.address.spendPublicKey ++
      hashBytes alinfo.address.viewPublicKey) ++ (key ++ (UInt8.ofNat alinfo.textComment.length ::
        (alinfo.textComment ++ (sign ++ rest)))) := by
    rw [h₃, List.append_assoc _ (hashBytes alinfo.address.viewPublicKey)]
  generalize haddr : head ++ alinfo.aliasName ++ hashBytes alinfo.address.spendPublicKey ++
    hashBytes alinfo.address.viewPublicKey = addr at h₄
  have haddrLength : addr.length = before.length + 3 + alinfo.aliasName.length + 64 := by
    rw [← haddr]
    simp only [List.length_append, hhash, hheadLength]
  have h₅ : extra = (addr ++ key) ++ UInt8.ofNat alinfo.textComment.length ::
      (alinfo.textComment ++ (sign ++ rest)) := by
    rw [h₄, List.append_assoc]
  have hcut : (addr ++ key).length = commentAt extra before.length := by
    rw [hat, List.length_append, haddrLength]
    omega
  have h₆ : extra = (addr ++ key ++ [UInt8.ofNat alinfo.textComment.length]) ++
      (alinfo.textComment ++ (sign ++ rest)) := by
    rw [h₅, List.append_assoc _ [_]]
    rfl
  have h₇ : extra = (addr ++ key ++ [UInt8.ofNat alinfo.textComment.length] ++ alinfo.textComment) ++
      (sign ++ rest) := by
    rw [h₆, List.append_assoc _ alinfo.textComment]
  have hlength : extra.length = commentAt extra before.length + 1 + alinfo.textComment.length +
      sign.length + rest.length := by
    have := congrArg List.length h₇
    rw [List.length_append, List.length_append, List.length_append, hcut, List.length_append,
      List.length_singleton] at this
    omega
  refine
    { start_lt := ?_
      tag := ?_
      track := htrack
      update := by unfold isUpdate; rw [hflagsAt, hparts.update]
      comment := ?_
      head := ?_
      text := slice_at h₆ (by rw [List.length_append, hcut]; rfl) rfl
      tail := ?_
      length := by rw [hlength, hparts.sign_length] }
  · rw [hlength, hat]
    omega
  · have htag : extra = before ++ 0x03 :: (flags :: UInt8.ofNat alinfo.aliasName.length ::
        (alinfo.aliasName ++ (hashBytes alinfo.address.spendPublicKey ++
          (hashBytes alinfo.address.viewPublicKey ++ (key ++ (UInt8.ofNat alinfo.textComment.length ::
            (alinfo.textComment ++ (sign ++ rest)))))))) := by
      rw [h₁, ← hhead, List.append_assoc]
      rfl
    exact getD_at htag rfl
  · unfold commentLen
    rw [getD_at h₅ hcut, toNat_length hparts.comment_le]
  · unfold aliasHead
    dsimp only
    rw [hnameLen, slice_at h₁ hheadLength rfl,
      slice_at h₂ (by rw [List.length_append, hheadLength]) (hhash _),
      slice_at h₃ (by rw [List.length_append, List.length_append, hheadLength, hhash]) (hhash _),
      podOfBytes_hashBytes, podOfBytes_hashBytes, htrack]
    have hview : (if decide (alinfo.viewKey ≠ nullSkey) = true then BitVec.ofNat 256 (podOfBytes
        ((extra.drop (before.length + 3 + alinfo.aliasName.length + 64)).take 32)) else nullSkey) =
          alinfo.viewKey := by
      by_cases hnull : alinfo.viewKey = nullSkey
      · rw [hnull]
        rfl
      · rw [if_pos (by simpa using hnull),
          slice_at h₄ haddrLength (by rw [hparts.key_length, if_pos hnull]), hparts.key_eq, if_pos hnull,
          podOfBytes_hashBytes]
    rw [hview]
  · rw [← hparts.sign_eq]
    refine drop_at h₇ ?_
    rw [List.length_append, List.length_append, hcut]
    rfl

section AliasRead

variable {extra rest : Blob} {alinfo : AliasInfo} {start : ℕ}

theorem AliasLayout.read (h : AliasLayout extra start alinfo rest) (hcomment : alinfo.textComment ≠ []) :
    readAliasEntry extra start = .ok (alinfo, extra.length - rest.length - start) := by
  have hpos := List.length_pos_iff.mpr hcomment
  have hlength := h.length
  have hsign : signAt extra start = commentAt extra start + 1 + alinfo.textComment.length := by
    unfold signAt
    rw [h.comment, if_neg (by omega)]
    omega
  rw [readAliasEntry_outcome h.start_lt]
  dsimp only
  rw [h.head, h.comment, h.text, h.update, hsign, if_neg (by omega), if_neg (by omega)]
  by_cases hnull : alinfo.sign = nullSig
  · rw [if_neg (not_not.mpr hnull)] at hlength
    rw [if_pos (by simpa using hnull), hlength, ← hnull]
    congr 2
    omega
  · rw [if_pos hnull] at hlength
    have htail := h.tail
    rw [if_pos hnull] at htail
    rw [if_neg (by simpa using hnull), if_neg (by omega), if_neg (by omega), htail,
      List.take_left' (length_podBytes 64 _), podOfBytes_signature, hlength]
    congr 2
    omega

/-- An entry without comment and signature is read up to the length byte of its comment. -/
theorem AliasLayout.read_bare (h : AliasLayout extra start alinfo rest)
    (hcomment : alinfo.textComment = []) (hsign : alinfo.sign = nullSig) :
    readAliasEntry extra start = .ok (alinfo, commentAt extra start - start) := by
  have hlength := h.length
  rw [hcomment, hsign] at hlength
  have hat : signAt extra start = commentAt extra start := by
    unfold signAt
    rw [h.comment, hcomment]
    rfl
  rw [readAliasEntry_outcome h.start_lt]
  dsimp only
  rw [h.head, h.comment, hcomment, h.update, hat, List.length_nil, List.take_zero]
  rw [if_neg (by simp at hlength; omega), if_neg (by simp at hlength; omega), if_pos (by simpa using hsign),
    ← hsign, ← hcomment]

theorem eq_replicate_of_shift {l : Blob} (h : l = 0 :: l.take (l.length - 1)) :
    l = List.replicate l.length 0 := by
  have hzero : ∀ i, l.getD i 0 = 0 := by
    intro i
    induction i with
    | zero =>
      rw [h]
      rfl
    | succ i ih =>
      rw [h, List.getD_cons_succ]
      simp only [List.getD_eq_getElem?_getD, List.getElem?_take] at ih ⊢
      split_ifs
      · exact ih
      · rfl
  refine List.ext_getElem (by simp) fun i hi _ => ?_
  have := hzero i
  rw [List.getD_eq_getElem?_getD, List.getElem?_eq_getElem hi] at this
  rw [List.getElem_replicate]
  exact this

theorem AliasLayout.read_shifted (h : AliasLayout extra start alinfo rest)
    (hcomment : alinfo.textComment = []) (hsign : alinfo.sign ≠ nullSig) :
    ∃ ai len, readAliasEntry extra start = .ok (ai, len) ∧ ai.sign ≠ alinfo.sign := by
  have hlength := h.length
  have htail := h.tail
  rw [hcomment, if_pos hsign, List.length_nil] at hlength
  rw [hcomment, if_pos hsign, List.length_nil, Nat.add_zero] at htail
  have hat : signAt extra start = commentAt extra start := by
    unfold signAt
    rw [h.comment, hcomment]
    rfl
  have hzero : extra.getD (commentAt extra start) 0 = 0 := by
    refine UInt8.toNat_inj.mp (h.comment.trans ?_)
    rw [hcomment]
    rfl
  have hbytes : (extra.drop (commentAt extra start)).take 64 =
      0 :: (podBytes 64 alinfo.sign.toNat).take 63 := by
    have hlt : commentAt extra start < extra.length := by omega
    rw [List.getD_eq_getElem?_getD, List.getElem?_eq_getElem hlt] at hzero
    rw [List.drop_eq_getElem_cons hlt, htail, show extra[commentAt extra start] = 0 from hzero,
      List.take_succ_cons, List.take_append_of_le_length (by simp)]
  rw [readAliasEntry_outcome h.start_lt]
  dsimp only
  rw [h.comment, h.update, hat, hcomment, List.length_nil, if_neg (by omega), if_neg (by omega),
    if_neg (by simpa using hsign), if_neg (by omega), if_neg (by omega), hbytes]
  refine ⟨_, _, rfl, fun heq => hsign ?_⟩
  -- the bytes would all be zero
  have hshift := podBytes_signature (by simp) heq
  have hnull := eq_replicate_of_shift (l := podBytes 64 alinfo.sign.toNat)
    (by rw [length_podBytes]; exact hshift)
  rw [length_podBytes] at hnull
  rw [← podOfBytes_signature alinfo.sign, hnull, podOfBytes_zeros]
  rfl

/-- Behind the part in front of the comment of an entry without one: the length byte, and what follows. -/
theorem AliasLayout.bare_rest (h : AliasLayout extra start alinfo rest)
    (hcomment : alinfo.textComment = []) (hsign : alinfo.sign = nullSig) :
    extra.drop (commentAt extra start) = 0 :: rest := by
  have hlength := h.length
  have htail := h.tail
  rw [hcomment, if_neg (not_not.mpr hsign), List.length_nil] at hlength
  rw [hcomment, if_neg (not_not.mpr hsign), List.length_nil, Nat.add_zero, List.nil_append] at htail
  have hlt : commentAt extra start < extra.length := by omega
  have hzero : extra.getD (commentAt extra start) 0 = 0 := by
    refine UInt8.toNat_inj.mp (h.comment.trans ?_)
    rw [hcomment]
    rfl
  rw [List.getD_eq_getElem?_getD, List.getElem?_eq_getElem hlt] at hzero
  rw [List.drop_eq_getElem_cons hlt, htail, show extra[commentAt extra start] = 0 from hzero]

end AliasRead

section Ending

variable {extra : Blob} {coinbase : Bool} {i n : ℕ} {st : ExtraScan} {info : TxExtraInfo}

theorem readExtraGo_zeros (hi : i ≤ extra.length)
    (hzeros : extra.drop i = List.replicate (extra.length - i) 0) (hn : roundsLeft extra i st < n) :
    readExtraGo extra coinbase n i st = .ok st.info := by
  have hbyte : ∀ j, i ≤ j → j < extra.length → extra.getD j 0 = 0 := by
    intro j hij hj
    have := congrArg (fun l : Blob => l.getD (j - i) 0) hzeros
    simp only [List.getD_eq_getElem?_getD, List.getElem?_drop, Nat.add_sub_cancel' hij,
      List.getElem?_replicate, if_pos (show j - i < extra.length - i by omega)] at this
    rw [List.getD_eq_getElem?_getD]
    exact this
  clear hzeros
  induction n generalizing i st with
  | zero => omega
  | succ n ih =>
    by_cases hend : i = extra.length
    · unfold readExtraGo
      rw [if_pos hend]
    have hlt : i < extra.length := by omega
    by_cases hpad : st.paddingStarted = true
    · have hround : Round extra coinbase i st _ _ := .padding hpad (hbyte i le_rfl hlt)
      have hleft := hround.roundsLeft hlt
      rw [hround.runs hlt]
      exact ih (by omega) (by omega) fun j hj => hbyte j (by omega)
    · have hround : Round extra coinbase i st _ _ :=
        .startPadding (Bool.eq_false_iff.mpr hpad) (hbyte i le_rfl hlt)
      have hleft := hround.roundsLeft hlt
      rw [hround.runs hlt]
      exact @ih _ { st with paddingStarted := true } hi (by omega) hbyte

theorem readExtraGo_after_zero (hpad : st.paddingStarted = false) {b : UInt8} {rest : Blob}
    (hrest : extra.drop i = 0 :: b :: rest) (hb : b ≠ 0) :
    readExtraGo extra coinbase (n + 3) i st = .error .refused := by
  have hlength := congrArg List.length hrest
  rw [List.length_drop, List.length_cons, List.length_cons] at hlength
  have hbyte : ∀ k, extra.getD (i + k) 0 = (0 :: b :: rest).getD k 0 := by
    intro k
    rw [← hrest, List.getD_eq_getElem?_getD, List.getD_eq_getElem?_getD, List.getElem?_drop]
  have hstart : Round extra coinbase i st _ _ := .startPadding hpad (hbyte 0)
  have hzero : Round extra coinbase i { st with paddingStarted := true } _ _ := .padding rfl (hbyte 0)
  rw [(hstart.runs (by omega)) (n + 2), (hzero.runs (by omega)) (n + 1)]
  unfold readExtraGo
  rw [if_neg (by omega), readRound_eq (by omega)]
  simp only [if_true]
  rw [if_neg (by rw [hbyte 1]; exact hb)]

theorem readExtraGo_alias (hi : i ≤ extra.length) (halias : st.aliasFound = true) :
    readExtraGo extra coinbase n i st ≠ .error .pastEnd ∧
      (readExtraGo extra coinbase n i st = .ok info → info.aliasInfo = st.info.aliasInfo) := by
  induction n generalizing i st with
  | zero =>
    constructor
    · intro h
      cases h
    · intro h
      cases h
  | succ n ih =>
    unfold readExtraGo
    by_cases hend : i = extra.length
    · rw [if_pos hend]
      constructor
      · intro h
        cases h
      · intro h
        cases h
        rfl
    have hlt : i < extra.length := by omega
    rw [if_neg hend]
    cases hround : readRound extra coinbase i st with
    | ok r =>
      have hnext := (readRound_ok_iff hlt).mp hround
      have hkept : r.2.aliasFound = true ∧ r.2.info.aliasInfo = st.info.aliasInfo := by
        obtain ⟨i', st'⟩ := r
        cases hnext with
        | padding => exact ⟨halias, rfl⟩
        | pubkey => exact ⟨halias, rfl⟩
        | userData => exact ⟨halias, rfl⟩
        | aliasEntry _ _ _ hfound => rw [halias] at hfound; cases hfound
        | startPadding => exact ⟨halias, rfl⟩
        | other => exact ⟨halias, rfl⟩
      rw [← hkept.2]
      exact ih (hnext.moves hlt).1 hkept.1
    | error e =>
      constructor
      · intro h
        cases h
        have := ((readRound_pastEnd hlt).mp hround).2.2.2.1
        rw [halias] at this
        cases this
      · intro h
        cases h

end Ending

section RoundTrip

variable {before after : List ExtraEntry}

theorem getLastD_append {α : Type} (l l' : List α) (d : α) :
    (l ++ l').getLastD d = l'.getLastD (l.getLastD d) := by
  induction l generalizing d with
  | nil => rfl
  | cons a l ih => rw [List.cons_append, List.getLastD_cons, List.getLastD_cons, ih]

/-- Empty user data, which the scan does not keep, are the same as none. -/
theorem last_data {l : List ExtraEntry} (h : ExtraEntry.WellFormed l) :
    ((l.filterMap ExtraEntry.data?).filter (· ≠ [])).getLastD [] =
      (l.filterMap ExtraEntry.data?).getLastD [] := by
  have hone := h.datas
  generalize l.filterMap ExtraEntry.data? = datas at hone
  match datas, hone with
  | [], _ => rfl
  | [data], _ =>
    by_cases hdata : data = []
    · rw [hdata]
      rfl
    · rw [List.filter_cons_of_pos (by simpa using hdata)]
      rfl

theorem readExtra_entries {l : List ExtraEntry} (h : ExtraEntry.WellFormed l) (coinbase : Bool) :
    readExtra (l.flatMap ExtraEntry.bytes) coinbase = .ok (ExtraEntry.record emptyInfo l) := by
  have hreadable : Readable { info := emptyInfo } l := ⟨h, by simp, by simp⟩
  obtain ⟨hinfo, -, -⟩ := foldl_afterEntry l { info := emptyInfo }
  have hrun := @entries_run (l.flatMap ExtraEntry.bytes) [] [] coinbase _ _ hreadable rfl
    (List.append_nil _).symm
  rw [List.length_nil, Nat.zero_add] at hrun
  rw [hrun.readExtra le_rfl]
  unfold readExtraGo
  rw [if_pos rfl, hinfo]
  simp only [emptyInfo, ExtraEntry.record, last_data h]

theorem record_around (h : ExtraEntry.WellFormed (before ++ after)) (alinfo : AliasInfo) :
    (after.foldl afterEntry (withAlias (before.foldl afterEntry { info := emptyInfo }) alinfo)).info =
      { ExtraEntry.record emptyInfo (before ++ after) with aliasInfo := alinfo } := by
  obtain ⟨hbefore, -, -⟩ := foldl_afterEntry before { info := emptyInfo }
  obtain ⟨hafter, -, -⟩ := foldl_afterEntry after
    (withAlias (before.foldl afterEntry { info := emptyInfo }) alinfo)
  rw [hafter]
  simp only [withAlias, ExtraEntry.record]
  rw [hbefore]
  simp only [emptyInfo]
  rw [← getLastD_append, ← getLastD_append, ← List.filter_append, ← List.filterMap_append,
    ← List.filterMap_append, last_data h]

variable {extra entry : Blob} {alinfo : AliasInfo} {zeros : ℕ}

theorem readExtra_behind_alias (hentries : ExtraEntry.WellFormed (before ++ after))
    (hentry : makeTxExtraAliasEntry alinfo false = some entry) {rest : Blob}
    (hextra : extra = before.flatMap ExtraEntry.bytes ++ (entry ++ rest)) {ai : AliasInfo} {len : ℕ}
    (hread : readAliasEntry extra (before.flatMap ExtraEntry.bytes).length = .ok (ai, len)) :
    let i := (before.flatMap ExtraEntry.bytes).length + len
    let st := withAlias (before.foldl afterEntry { info := emptyInfo }) ai
    i ≤ extra.length ∧ st.paddingStarted = false ∧
      ∃ k, Runs extra true k 0 { info := emptyInfo } i st := by
  have hlayout := aliasLayout hentry hextra
  have hreadable : Readable { info := emptyInfo } (before ++ after) := ⟨hentries, by simp, by simp⟩
  obtain ⟨-, hpad, halias⟩ := foldl_afterEntry before { info := emptyInfo }
  have hbefore := @entries_run _ [] _ true _ _ hreadable.left rfl
    (hextra.trans (List.nil_append _).symm)
  rw [List.length_nil, Nat.zero_add] at hbefore
  have hround : Round extra true _ (before.foldl afterEntry { info := emptyInfo }) _ _ :=
    .aliasEntry hpad hlayout.tag rfl halias hread
  exact ⟨(hround.moves hlayout.start_lt).1, hpad, _, hbefore.trans (hround.runs hlayout.start_lt)⟩

theorem readExtra_commented (hentries : ExtraEntry.WellFormed (before ++ after))
    (hentry : makeTxExtraAliasEntry alinfo false = some entry)
    (hextra : extra = before.flatMap ExtraEntry.bytes ++ (entry ++
      (after.flatMap ExtraEntry.bytes ++ List.replicate zeros 0)))
    (hcomment : alinfo.textComment ≠ []) :
    readExtra extra true =
      .ok { ExtraEntry.record emptyInfo (before ++ after) with aliasInfo := alinfo } := by
  have hread := (aliasLayout hentry hextra).read hcomment
  obtain ⟨hi, hpad, k, hrun⟩ := readExtra_behind_alias hentries hentry hextra hread
  have hreadable : Readable { info := emptyInfo } (before ++ after) := ⟨hentries, by simp, by simp⟩
  have hcut : extra = (before.flatMap ExtraEntry.bytes ++ entry) ++ (after.flatMap ExtraEntry.bytes ++
      List.replicate zeros 0) := by
    rw [List.append_assoc, hextra]
  have hplace : (before.flatMap ExtraEntry.bytes).length + (extra.length -
      (after.flatMap ExtraEntry.bytes ++ List.replicate zeros 0).length -
        (before.flatMap ExtraEntry.bytes).length) = (before.flatMap ExtraEntry.bytes ++ entry).length := by
    have := congrArg List.length hcut
    simp only [List.length_append] at this ⊢
    omega
  rw [hplace] at hrun
  have hafter : Readable (withAlias (before.foldl afterEntry { info := emptyInfo }) alinfo) after :=
    hreadable.right
  have hend := hrun.trans (entries_run hafter hpad hcut)
  have hdrop : extra.drop ((before.flatMap ExtraEntry.bytes ++ entry).length +
      (after.flatMap ExtraEntry.bytes).length) = List.replicate zeros 0 :=
    @drop_at _ (before.flatMap ExtraEntry.bytes ++ entry ++ after.flatMap ExtraEntry.bytes) _ _
      (by rw [hcut, List.append_assoc _ _ (List.replicate zeros 0)]) List.length_append
  have hle : (before.flatMap ExtraEntry.bytes ++ entry).length +
      (after.flatMap ExtraEntry.bytes).length ≤ extra.length := by
    rw [hcut, ← List.append_assoc, ← List.length_append, @List.length_append _ _ (List.replicate zeros 0)]
    exact Nat.le_add_right _ _
  have hzeros : extra.length - ((before.flatMap ExtraEntry.bytes ++ entry).length +
      (after.flatMap ExtraEntry.bytes).length) = zeros := by
    rw [← List.length_drop, hdrop, List.length_replicate]
  rw [hend.readExtra hle, readExtraGo_zeros hle (by rw [hdrop, hzeros]) (Nat.lt_succ_self _),
    record_around hentries]

/-- Where an entry without comment and signature leaves the scan: in front of a zero. -/
theorem readExtra_bare (hentries : ExtraEntry.WellFormed (before ++ after))
    (hentry : makeTxExtraAliasEntry alinfo false = some entry) {rest : Blob}
    (hextra : extra = before.flatMap ExtraEntry.bytes ++ (entry ++ rest))
    (hcomment : alinfo.textComment = []) (hsign : alinfo.sign = nullSig) :
    ∃ i k, let st := withAlias (before.foldl afterEntry { info := emptyInfo }) alinfo
      i ≤ extra.length ∧ st.paddingStarted = false ∧ extra.drop i = 0 :: rest ∧
        Runs extra true k 0 { info := emptyInfo } i st := by
  have hlayout := aliasLayout hentry hextra
  have hread := hlayout.read_bare hcomment hsign
  obtain ⟨hi, hpad, k, hrun⟩ := readExtra_behind_alias hentries hentry hextra hread
  have hplace : (before.flatMap ExtraEntry.bytes).length +
      (commentAt extra (before.flatMap ExtraEntry.bytes).length -
        (before.flatMap ExtraEntry.bytes).length) =
      commentAt extra (before.flatMap ExtraEntry.bytes).length := by
    unfold commentAt
    omega
  rw [hplace] at hi hrun
  exact ⟨_, k, hi, hpad, hlayout.bare_rest hcomment hsign, hrun⟩

/-- It is taken for the beginning of the padding. -/
theorem readExtra_bare_iff (hentries : ExtraEntry.WellFormed (before ++ after))
    (hentry : makeTxExtraAliasEntry alinfo false = some entry)
    (hextra : extra = before.flatMap ExtraEntry.bytes ++ (entry ++
      (after.flatMap ExtraEntry.bytes ++ List.replicate zeros 0)))
    (hcomment : alinfo.textComment = []) (hsign : alinfo.sign = nullSig) :
    readExtra extra true =
      if after = [] then .ok { ExtraEntry.record emptyInfo (before ++ after) with aliasInfo := alinfo }
      else .error .refused := by
  obtain ⟨i, k, hi, hpad, hrest, hrun⟩ := readExtra_bare hentries hentry hextra hcomment hsign
  cases after with
  | nil =>
    have hlength := congrArg List.length hrest
    rw [List.length_drop, List.flatMap_nil, List.nil_append, List.length_cons, List.length_replicate]
      at hlength
    rw [if_pos rfl, hrun.readExtra hi, readExtraGo_zeros hi _ (Nat.lt_succ_self _)]
    · exact congrArg _ (@record_around _ [] hentries alinfo)
    · rw [hrest, hlength]
      rfl
  | cons e after =>
    obtain ⟨b, l, hbytes, hb⟩ : ∃ b l, e.bytes = b :: l ∧ b ≠ 0 := by
      cases e with
      | pubkey key => exact ⟨_, _, rfl, by decide⟩
      | userData data => exact ⟨_, _, rfl, by decide⟩
    rw [List.flatMap_cons, hbytes] at hrest
    have hlength := congrArg List.length hrest
    rw [List.length_drop, List.length_cons, List.cons_append, List.cons_append, List.length_cons]
      at hlength
    rw [if_neg (by simp), hrun.readExtra hi,
      readExtraGo_fuel hi (Nat.lt_succ_self _) (Nat.lt_add_of_pos_right (Nat.succ_pos 2))]
    exact readExtraGo_after_zero hpad hrest hb

/-- A signature that is read one byte too early is not the one that was written. -/
theorem readExtra_shifted (hentries : ExtraEntry.WellFormed (before ++ after))
    (hentry : makeTxExtraAliasEntry alinfo false = some entry) {rest : Blob}
    (hextra : extra = before.flatMap ExtraEntry.bytes ++ (entry ++ rest))
    (hcomment : alinfo.textComment = []) (hsign : alinfo.sign ≠ nullSig) :
    readExtra extra true ≠ .error .pastEnd ∧
      ∀ info, readExtra extra true = .ok info → info.aliasInfo ≠ alinfo := by
  obtain ⟨ai, len, hread, hne⟩ := (aliasLayout hentry hextra).read_shifted hcomment hsign
  obtain ⟨hi, -, k, hrun⟩ := readExtra_behind_alias hentries hentry hextra hread
  rw [hrun.readExtra hi]
  refine ⟨(@readExtraGo_alias _ _ _ _ _ emptyInfo hi rfl).1, fun info hinfo heq => hne ?_⟩
  have := (readExtraGo_alias hi rfl).2 hinfo
  rw [← heq, this]
  rfl

theorem alias_roundTrip_iff (E : Env) {tx : Transaction}
    (hcoinbase : isCoinbase tx = true) (hentries : ExtraEntry.WellFormed (before ++ after))
    (hadd : addTxExtraAlias (before.flatMap ExtraEntry.bytes) alinfo = some extra)
    (htx : tx.extra = extra ++ after.flatMap ExtraEntry.bytes ++ List.replicate zeros 0) :
    parseAndValidateTxExtra E tx =
        some { ExtraEntry.record emptyInfo (before ++ after) with aliasInfo := alinfo } ↔
      alinfo.textComment ≠ [] ∨ (alinfo.sign = nullSig ∧ after = []) := by
  obtain ⟨entry, hentry, rfl⟩ := Option.map_eq_some_iff.mp hadd
  have hextra : tx.extra = before.flatMap ExtraEntry.bytes ++ (entry ++
      (after.flatMap ExtraEntry.bytes ++ List.replicate zeros 0)) := by
    rw [htx, List.append_assoc, List.append_assoc]
  have hagrees := parseAndValidateTxExtra_agrees E tx
  rw [hcoinbase] at hagrees
  by_cases hcomment : alinfo.textComment = []
  · rw [or_iff_right (not_not.mpr hcomment)]
    by_cases hsign : alinfo.sign = nullSig
    · rw [readExtra_bare_iff hentries hentry hextra hcomment hsign] at hagrees
      rw [and_iff_right hsign]
      by_cases hafter : after = []
      · rw [if_pos hafter] at hagrees
        exact iff_of_true hagrees hafter
      · rw [if_neg hafter] at hagrees
        exact iff_of_false (by rw [show parseAndValidateTxExtra E tx = none from hagrees]; simp) hafter
    · refine iff_of_false (fun h => ?_) fun h => hsign h.1
      obtain ⟨hinside, hne⟩ := readExtra_shifted hentries hentry hextra hcomment hsign
      cases hread : readExtra tx.extra true with
      | ok info =>
        rw [hread] at hagrees
        rw [show parseAndValidateTxExtra E tx = some info from hagrees] at h
        exact hne info hread (by rw [Option.some.inj h])
      | error e =>
        rw [hread] at hagrees hinside
        cases e with
        | refused =>
          rw [show parseAndValidateTxExtra E tx = none from hagrees] at h
          cases h
        | pastEnd => exact hinside rfl
        | running => exact readExtra_ends _ _ hread
  · rw [readExtra_commented hentries hentry hextra hcomment] at hagrees
    exact iff_of_true hagrees (.inl hcomment)

/-- An alias with the given comment and signature. -/
def sampleAliasInfo (textComment : Blob) (sign : Signature) : AliasInfo :=
  { address := ⟨1, 2⟩, viewKey := 3, sign, textComment, aliasName := [97, 98] }

/-- A coinbase transaction with an alias between other entries. -/
def sampleEntriesTx (alinfo : AliasInfo) (before after : List ExtraEntry) (zeros : ℕ) : Transaction :=
  sampleAliasTx ((addTxExtraAlias (before.flatMap ExtraEntry.bytes) alinfo).getD [] ++
    after.flatMap ExtraEntry.bytes ++ List.replicate zeros 0)

/-- The signature, made for the entry without it, comes back too. -/
theorem alias_roundTrip_sample :
    (∃ buff, makeTxExtraAliasEntry (sampleAliasInfo [7] 4) true = some buff ∧
      buff = aliasBuffToSign (sampleAliasInfo [7] 4)) ∧
    parseAndValidateTxExtra sampleEnv
        (sampleEntriesTx (sampleAliasInfo [7] 4) [.pubkey 5] [.userData [1, 2]] 3) =
      some ⟨5, sampleAliasInfo [7] 4, [1, 2]⟩ := by
  refine ⟨⟨_, rfl, makeTxExtraAliasEntry_sign rfl⟩, ?_⟩
  exact (@alias_roundTrip_iff [.pubkey 5] [.userData [1, 2]] _ _ 3 sampleEnv _ rfl
    ⟨by decide, by decide, by decide⟩
    (show addTxExtraAlias _ (sampleAliasInfo [7] 4) = some ((addTxExtraAlias
      (List.flatMap ExtraEntry.bytes [.pubkey 5]) (sampleAliasInfo [7] 4)).getD []) from rfl) rfl).mpr
    (.inl (by decide))

/-- Without a comment, an entry that follows is refused, and a signature comes out shifted by a byte. -/
theorem alias_without_comment :
    parseAndValidateTxExtra sampleEnv
        (sampleEntriesTx (sampleAliasInfo [] nullSig) [] [.pubkey 5] 0) = none ∧
      parseAndValidateTxExtra sampleEnv (sampleEntriesTx (sampleAliasInfo [] 4) [] [] 0) =
        some ⟨nullPkey, sampleAliasInfo [] 1024, []⟩ := by
  decide +kernel

end RoundTrip

end ExtraReader

end Boolberry
