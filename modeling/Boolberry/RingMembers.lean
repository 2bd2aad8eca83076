import Boolberry.OutputIndex
import Mathlib.Data.Finset.Card

/-!
# The members of a ring

An output may ask for rings of at least so many outputs, or for a ring of its
own. `scan_outputkeys_for_indexes` compares the first number with that of the
offsets. The offsets may lead to one output more than once, by a relative offset
of zero or by a sum that wraps around, and then the ring is smaller.
-/

namespace Boolberry
open KeyValue

theorem mapM_mem {α β : Type} {f : α → Option β} {l : List α} {r : List β} (h : l.mapM f = some r)
    {a : α} (ha : a ∈ l) : ∃ b, f a = some b := by
  induction l generalizing r with
  | nil => simp at ha
  | cons x l ih =>
    simp only [List.mapM_cons, Option.bind_eq_bind, Option.pure_def, Option.bind_eq_some_iff] at h
    obtain ⟨b, hb, r', hr', -⟩ := h
    rcases List.mem_cons.mp ha with rfl | ha
    · exact ⟨b, hb⟩
    · exact ih hr' ha

theorem filterMap_length {α β : Type} {f : α → Option β} {l : List α}
    (h : ∀ a ∈ l, ∃ b, f a = some b) : (l.filterMap f).length = l.length := by
  induction l with
  | nil => rfl
  | cons a l ih =>
    obtain ⟨b, hb⟩ := h a List.mem_cons_self
    rw [List.filterMap_cons_some hb, List.length_cons, List.length_cons,
      ih fun a ha => h a (List.mem_cons_of_mem _ ha)]

theorem filterMap_card {α β : Type} [DecidableEq α] [DecidableEq β] {f : α → Option β} {l : List α}
    (h : ∀ a ∈ l, ∃ b, f a = some b) (hinj : ∀ a ∈ l, ∀ a', f a = f a' → a = a') :
    (l.filterMap f).toFinset.card = l.toFinset.card := by
  induction l with
  | nil => rfl
  | cons a l ih =>
    obtain ⟨b, hb⟩ := h a List.mem_cons_self
    have ih := ih (fun a ha => h a (List.mem_cons_of_mem _ ha))
      (fun a ha => hinj a (List.mem_cons_of_mem _ ha))
    have hmem : b ∈ (l.filterMap f).toFinset ↔ a ∈ l.toFinset := by
      rw [List.mem_toFinset, List.mem_toFinset, List.mem_filterMap]
      constructor
      · rintro ⟨a', ha', hb'⟩
        rwa [hinj a List.mem_cons_self a' (hb.trans hb'.symm)]
      · exact fun ha => ⟨a, ha, hb⟩
    rw [List.filterMap_cons_some hb, List.toFinset_cons, List.toFinset_cons]
    by_cases ha : a ∈ l.toFinset
    · rw [Finset.insert_eq_of_mem (hmem.mpr ha), Finset.insert_eq_of_mem ha, ih]
    · rw [Finset.card_insert_of_notMem (mt hmem.mp ha), Finset.card_insert_of_notMem ha, ih]

/-- The offsets that lead to an output to which a later one leads again: the relative offsets behind
such a one have a partial sum of zero. -/
def repeatedOffsets : List UInt64 → ℕ
  | [] => 0
  | _ :: l => (if 0 ∈ relativeOutputOffsetsToAbsolute l then 1 else 0) + repeatedOffsets l

theorem relativeOutputOffsetsToAbsolute_go (acc : UInt64) (l : List UInt64) :
    relativeOutputOffsetsToAbsolute.go acc l =
      acc :: (relativeOutputOffsetsToAbsolute l).map (acc + ·) := by
  induction l generalizing acc with
  | nil => rfl
  | cons o l ih =>
    have hadd : ∀ x, o + acc + x = acc + (o + x) := fun x => by
      rw [UInt64.add_comm o acc, UInt64.add_assoc]
    rw [relativeOutputOffsetsToAbsolute.go, relativeOutputOffsetsToAbsolute, ih, ih, List.map_cons,
      List.map_map, UInt64.add_comm o acc]
    simp [Function.comp_def, UInt64.add_assoc]

theorem relativeOutputOffsetsToAbsolute_cons (o : UInt64) (l : List UInt64) :
    relativeOutputOffsetsToAbsolute (o :: l) =
      o :: (relativeOutputOffsetsToAbsolute l).map (o + ·) :=
  relativeOutputOffsetsToAbsolute_go o l

theorem relativeOutputOffsetsToAbsolute_length (l : List UInt64) :
    (relativeOutputOffsetsToAbsolute l).length = l.length := by
  induction l with
  | nil => rfl
  | cons o l ih => simp [relativeOutputOffsetsToAbsolute_cons, ih]

/-- The different absolute offsets, together with the repeated ones, are as many as the offsets. -/
theorem card_absolute_add_repeated (l : List UInt64) :
    (relativeOutputOffsetsToAbsolute l).toFinset.card + repeatedOffsets l = l.length := by
  induction l with
  | nil => rfl
  | cons o l ih =>
    have hinj : Function.Injective (o + ·) := fun a b h => (UInt64.add_right_inj o).mp h
    have hcard : ((relativeOutputOffsetsToAbsolute l).map (o + ·)).toFinset.card =
        (relativeOutputOffsetsToAbsolute l).toFinset.card := by
      rw [← List.filterMap_eq_map]
      exact filterMap_card (fun x _ => ⟨o + x, rfl⟩) fun x _ y h => hinj (Option.some.inj h)
    have hmem : o ∈ ((relativeOutputOffsetsToAbsolute l).map (o + ·)).toFinset ↔
        0 ∈ relativeOutputOffsetsToAbsolute l := by
      rw [List.mem_toFinset]
      constructor
      · intro h
        obtain ⟨x, hx, hox⟩ := List.mem_map.mp h
        rwa [← hinj (hox.trans (UInt64.add_zero o).symm)]
      · intro h
        exact List.mem_map.mpr ⟨0, h, UInt64.add_zero o⟩
    rw [relativeOutputOffsetsToAbsolute_cons, List.toFinset_cons, repeatedOffsets, List.length_cons]
    by_cases h0 : 0 ∈ relativeOutputOffsetsToAbsolute l
    · rw [Finset.insert_eq_of_mem (hmem.mpr h0), if_pos h0, hcard]
      omega
    · rw [Finset.card_insert_of_notMem (mt hmem.mp h0), if_neg h0, hcard]
      omega

/-- The outputs the offsets of an input lead to. -/
def ringMembers (s : TxIndex) (txin : TxinToKey) : List (Hash × ℕ) :=
  (relativeOutputOffsetsToAbsolute txin.keyOffsets).filterMap fun i =>
    (s.outputs txin.amount)[i.toNat]?

/-- The mix attribute of an output. -/
def mixAttrOf (s : TxIndex) (out : Hash × ℕ) : Option UInt8 :=
  match s.transactions.get out.1 with
  | none => none
  | some tce =>
      match tce.tx.vout[out.2]? with
      | none => none
      | some ot =>
          match ot.target with
          | .toKey outtk => some outtk.mixAttr
          | _ => none

/-- The ring has as many different members as each of them asks for. -/
def MixRespected (s : TxIndex) (txin : TxinToKey) : Prop :=
  ∀ out ∈ ringMembers s txin, ∀ m, mixAttrOf s out = some m →
    (1 < m → m.toNat ≤ (ringMembers s txin).toFinset.card) ∧
    (m = CURRENCY_TO_KEY_OUT_FORCED_NO_MIX → (ringMembers s txin).length = 1)

theorem scanOutputkey_mix {s : TxIndex} {now height : ℕ} {txin : TxinToKey} {i : UInt64}
    {r : PublicKey × ℕ} (h : s.scanOutputkey now height txin i = some r) :
    ∃ out, (s.outputs txin.amount)[i.toNat]? = some out ∧ ∀ m, mixAttrOf s out = some m →
      (1 < m → m.toNat ≤ txin.keyOffsets.length) ∧
      (m = CURRENCY_TO_KEY_OUT_FORCED_NO_MIX → txin.keyOffsets.length = 1) := by
  unfold TxIndex.scanOutputkey at h
  split at h
  · cases h
  rename_i out hout
  refine ⟨out, hout, fun m hm => ?_⟩
  unfold mixAttrOf at hm
  split at h
  · cases h
  rename_i tce htce
  rw [htce] at hm
  simp only at hm
  split at h
  · cases h
  rename_i ot hot
  rw [hot] at hm
  simp only at hm
  split at h
  · rename_i outtk hk
    rw [hk] at hm
    simp only [Option.some.injEq] at hm
    subst hm
    split_ifs at h with hlow hno
    refine ⟨fun hm => ?_, fun hm => ?_⟩
    · by_contra hlt
      exact hlow ⟨hm, by omega⟩
    · by_contra hne
      exact hno ⟨hm, hne⟩
  · cases h

/-- Every offset of an accepted input leads to an output, which the number of offsets suits. -/
theorem checkTxInput_mix {E : Env} {s : TxIndex} {now height : ℕ} {zone : Bool} {ph : Hash}
    {txin : TxinToKey} {sig : List Signature} {r : ℕ}
    (h : TxIndex.checkTxInput E s now height zone ph txin sig = some r) :
    ∀ i ∈ relativeOutputOffsetsToAbsolute txin.keyOffsets,
      ∃ out, (s.outputs txin.amount)[i.toNat]? = some out ∧ ∀ m, mixAttrOf s out = some m →
        (1 < m → m.toNat ≤ txin.keyOffsets.length) ∧
        (m = CURRENCY_TO_KEY_OUT_FORCED_NO_MIX → txin.keyOffsets.length = 1) := by
  intro i hi
  unfold TxIndex.checkTxInput at h
  split at h
  · cases h
  rename_i hscan
  unfold TxIndex.scanOutputkeysForIndexes at hscan
  split_ifs at hscan
  obtain ⟨l, hl, -⟩ := Option.map_eq_some_iff.mp hscan
  obtain ⟨b, hb⟩ := mapM_mem hl hi
  exact scanOutputkey_mix hb

theorem outsOfAmount_nodup (a : UInt64) (id : Hash) (i : ℕ) (vout : List TxOut) :
    (outsOfAmount a id i vout).Nodup := by
  induction vout generalizing i with
  | nil => exact List.nodup_nil
  | cons ot l ih =>
    have hnot : (id, i) ∉ outsOfAmount a id (i + 1) l := fun h => by
      exact absurd (mem_outsOfAmount h).2.1 (Nat.not_succ_le_self i)
    unfold outsOfAmount
    split
    · split_ifs
      · exact List.nodup_cons.mpr ⟨hnot, ih (i + 1)⟩
      · exact ih (i + 1)
    · exact ih (i + 1)

theorem outputsOf_nodup {l : List TxEntry} (hnd : (l.map TxEntry.id).Nodup) (a : UInt64) :
    (outputsOf l a).Nodup := by
  rw [outputsOf, List.nodup_flatMap]
  refine ⟨fun te _ => outsOfAmount_nodup a te.id 0 te.tx.vout, ?_⟩
  refine (List.pairwise_map.mp hnd).imp fun hne => ?_
  intro x hx hx'
  exact hne ((mem_outsOfAmount hx).1.symm.trans (mem_outsOfAmount hx').1)

theorem outputs_nodup_of_reachable {E : Env} {cps : Checkpoints} {n : Node} (h : Reachable E cps n)
    (a : UInt64) : (n.txs.index.outputs a).Nodup := by
  obtain ⟨F, chain, -, -, hrep⟩ := chainInv_of_reachable h
  rw [hrep.txs.index, outputs_indexOf]
  exact outputsOf_nodup hrep.txs.linked.nodup_ids a

/-- A block whose coinbase pays twice the same amount to keys that ask for rings of two. -/
def mixBlock (blocks : List BlockExtendedInfo) : Block :=
  let b := sampleBlock sampleEnv blocks 0 [] 0 sampleKey
  { b with minerTx := { b.minerTx with vout :=
      [⟨1000000, .toKey ⟨1, 2⟩⟩, ⟨1000000, .toKey ⟨2, 2⟩⟩,
        ⟨getBaseBlockReward (generatedCoins blocks) - 2000000, sampleKey⟩] } }

/-- A node with such a block and ten empty ones on it. -/
def mixedNode : Option Node :=
  (sampleNode ∅ 0).bind fun n =>
    (run sampleEnv n [.block 0 1 (mixBlock n.blocks)]).bind (grow sampleEnv 10)

theorem reachable_mixedNode {n : Node} (h : mixedNode = some n) : Reachable sampleEnv ∅ n := by
  obtain ⟨n₀, hn₀, h⟩ := Option.bind_eq_some_iff.mp h
  obtain ⟨n₁, hrun, hgrow⟩ := Option.bind_eq_some_iff.mp h
  obtain ⟨events, hrun', -⟩ := growBy_run hgrow
  exact ((reachable_sampleNode hn₀).run hrun).run hrun'

/-- An input of that amount with a ring of two offsets. -/
def mixInput (o₁ o₂ : UInt64) : TxinToKey := ⟨1000000, [o₁, o₂], 1⟩

/-- An accepted input respects the mix attributes of its outputs exactly if, without the repeated
offsets, there are still as many as each of them asks for. -/
theorem mixRespected_iff (E : Env) (cps : Checkpoints) (n : Node) (h : Reachable E cps n) (now : ℕ)
    (zone : Bool) (txPrefixHash : Hash) (txin : TxinToKey) (sig : List Signature) (r : ℕ)
    (hc : TxIndex.checkTxInput E n.txs.index now n.blocks.length zone txPrefixHash txin sig =
      some r) :
    MixRespected n.txs.index txin ↔
      ∀ out ∈ ringMembers n.txs.index txin, ∀ m, mixAttrOf n.txs.index out = some m → 1 < m →
        m.toNat + repeatedOffsets txin.keyOffsets ≤ txin.keyOffsets.length := by
  have hmix := checkTxInput_mix hc
  have hget : ∀ i ∈ relativeOutputOffsetsToAbsolute txin.keyOffsets,
      ∃ out, (n.txs.index.outputs txin.amount)[i.toNat]? = some out := fun i hi => by
    obtain ⟨out, hout, -⟩ := hmix i hi
    exact ⟨out, hout⟩
  have hlength : (ringMembers n.txs.index txin).length = txin.keyOffsets.length :=
    (filterMap_length hget).trans (relativeOutputOffsetsToAbsolute_length _)
  have hcard : (ringMembers n.txs.index txin).toFinset.card =
      (relativeOutputOffsetsToAbsolute txin.keyOffsets).toFinset.card := by
    refine filterMap_card hget fun i hi i' heq => ?_
    obtain ⟨out, hout⟩ := hget i hi
    have hlt := (List.getElem?_eq_some_iff.mp hout).1
    exact UInt64.toNat_inj.mp ((List.getElem?_inj hlt (outputs_nodup_of_reachable h _)).mp heq)
  have hsum := card_absolute_add_repeated txin.keyOffsets
  constructor
  · intro hr out hout m hm hlt
    have := (hr out hout m hm).1 hlt
    omega
  · intro hr out hout m hm
    obtain ⟨i, hi, hout'⟩ := List.mem_filterMap.mp hout
    obtain ⟨out', hget', hoffsets⟩ := hmix i hi
    obtain rfl : out = out' := Option.some.inj (hout'.symm.trans hget')
    refine ⟨fun hlt => ?_, fun hno => hlength.trans ((hoffsets m hm).2 hno)⟩
    have := hr out hout m hm hlt
    omega

/-- A ring of both outputs. -/
theorem mixRespected_iff_both : ∃ n r, Reachable sampleEnv ∅ n ∧
    TxIndex.checkTxInput sampleEnv n.txs.index 0 n.blocks.length false 0 (mixInput 0 1) [0, 0] =
      some r ∧
    (MixRespected n.txs.index (mixInput 0 1) ↔
      ∀ out ∈ ringMembers n.txs.index (mixInput 0 1), ∀ m, mixAttrOf n.txs.index out = some m →
        1 < m → m.toNat + repeatedOffsets (mixInput 0 1).keyOffsets ≤
          (mixInput 0 1).keyOffsets.length) := by
  have hdec : (mixedNode.bind fun n => TxIndex.checkTxInput sampleEnv n.txs.index 0 n.blocks.length
      false 0 (mixInput 0 1) [0, 0]) = some 1 := by decide +kernel
  obtain ⟨n, hn, hc⟩ := Option.bind_eq_some_iff.mp hdec
  exact ⟨n, 1, reachable_mixedNode hn, hc, mixRespected_iff sampleEnv ∅ n (reachable_mixedNode hn)
    0 false 0 (mixInput 0 1) [0, 0] 1 hc⟩

/-- A ring that names the first output twice. -/
theorem mix_attr_evaded : ¬∀ (E : Env) (cps : Checkpoints) (n : Node), Reachable E cps n →
    ∀ (now : ℕ) (txPrefixHash : Hash) (txin : TxinToKey) (sig : List Signature) (r : ℕ),
      TxIndex.checkTxInput E n.txs.index now n.blocks.length n.isInCheckpointZone txPrefixHash txin
        sig = some r → MixRespected n.txs.index txin := by
  intro h
  have hdec : (mixedNode.bind fun n => (TxIndex.checkTxInput sampleEnv n.txs.index 0
      n.blocks.length n.isInCheckpointZone 0 (mixInput 0 0) [0, 0]).map fun r =>
        (r, ringMembers n.txs.index (mixInput 0 0) |>.map (mixAttrOf n.txs.index),
          (ringMembers n.txs.index (mixInput 0 0)).toFinset.card)) =
      some (1, [some 2, some 2], 1) := by decide +kernel
  obtain ⟨n, hn, hview⟩ := Option.bind_eq_some_iff.mp hdec
  obtain ⟨r, hc, hview⟩ := Option.map_eq_some_iff.mp hview
  obtain ⟨-, hview⟩ := Prod.mk.inj hview
  obtain ⟨hattrs, hcard⟩ := Prod.mk.inj hview
  have hrespected := h sampleEnv ∅ n (reachable_mixedNode hn) 0 0 (mixInput 0 0) [0, 0] r hc
  obtain ⟨out, hout, hmix⟩ := List.mem_map.mp (hattrs ▸ List.mem_cons_self :
    some 2 ∈ (ringMembers n.txs.index (mixInput 0 0)).map (mixAttrOf n.txs.index))
  have hle := (hrespected out hout 2 hmix).1 (by decide)
  rw [hcard] at hle
  exact absurd hle (by decide)

end Boolberry
